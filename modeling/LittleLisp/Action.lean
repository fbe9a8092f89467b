/-
# Actions on a store

An evaluation either ends with a result, is interrupted by an alarm, or runs out of
fuel. In each case it leaves a store behind, which holds what was done so far. Actions
are chained so that an alarm or the end of fuel stops everything after it.

Key definitions: `Outcome`, `Action`, `Action.raise`, `Action.legend`.
Key theorems: `Action.bind_eq_done`.
-/
import LittleLisp.Store

namespace LittleLisp

/-- How an evaluation ends. -/
inductive Outcome (σ α : Type) where
  | done (a : α) (s : Store σ)
  | raised (alarm : Alarm) (s : Store σ)
  | exhausted (s : Store σ)

namespace Outcome

/-- The store that is left behind. -/
def store {σ α : Type} : Outcome σ α → Store σ
  | .done _ s => s
  | .raised _ s => s
  | .exhausted s => s

end Outcome

/-- An evaluation that gives an `α`. -/
def Action (σ α : Type) : Type := Store σ → Outcome σ α

namespace Action

variable {σ α β : Type}

/-- Ends at once. -/
protected def pure (a : α) : Action σ α := fun s => .done a s

/-- Goes on with the result. -/
protected def bind (x : Action σ α) (f : α → Action σ β) : Action σ β := fun s =>
  match x s with
  | .done a s => f a s
  | .raised alarm s => .raised alarm s
  | .exhausted s => .exhausted s

instance : Monad (Action σ) where
  pure := Action.pure
  bind := Action.bind

/-- A chain ends with a result if both of its links do. -/
theorem bind_eq_done {x : Action σ α} {f : α → Action σ β} {s u : Store σ} {b : β} :
    (x >>= f) s = .done b u ↔ ∃ a t, x s = .done a t ∧ f a t = .done b u := by
  change Action.bind x f s = .done b u ↔ _
  unfold Action.bind
  cases x s <;> simp [and_assoc]

/-- Stops with an alarm. -/
def raise (alarm : Alarm) : Action σ α := fun s => .raised alarm s

/-- Runs out of fuel. -/
def exhausted : Action σ α := fun s => .exhausted s

/-- The store as it is. -/
def store : Action σ (Store σ) := fun s => .done s s

/-- Changes the store. -/
def modify (f : Store σ → Store σ) : Action σ Unit := fun s => .done () (f s)

/-- Computes with the store and changes it. -/
def update (f : Store σ → α × Store σ) : Action σ α := fun s =>
  let (a, s) := f s
  .done a s

/-- How values are printed at this moment. -/
def legend (H : Host σ) : Action σ Legend := fun s => .done (s.legend H) s

/-- A result that may be a failure outside the language: a value that cannot be printed, or a
position that does not exist. -/
def ofExcept (x : Except Text α) : Action σ α :=
  match x with
  | .ok a => pure a
  | .error message => raise (.native message)

/-- A list or map that was just made. -/
def stamped (v : Value) : Action σ Value :=
  update fun s =>
    let (v, n) := v.stamped s.stamps
    (v, { s with stamps := n })

/-- A value that was just made, with everything in it. -/
def settled (v : Value) : Action σ Value :=
  update fun s =>
    let (v, n) := v.settled s.stamps
    (v, { s with stamps := n })

end Action

end LittleLisp
