/-
# Sessions

A session reads sources and evaluates their trees one after the other in one module.
Each top-level tree has its own local scope, and all share the module, so what one
tree defines the next one sees.

Around each top-level tree there is a boundary: whatever interrupts an evaluation is
caught there and becomes a fault, at the best known position. So an evaluation that
ends has a value, and the next tree starts from the store it left behind. `none` in
place of a result means that evaluation nested deeper than the session allows.

Key definitions: `Machine.run`, `Machine.runAll`, `Machine.load`, `Session`,
`Session.eval`, `Session.load`.
Key theorems: `Machine.runAll_append`.
-/
import LittleLisp.Config
import LittleLisp.Machine
import LittleLisp.Prelude
import LittleLisp.Token.Reader
import LittleLisp.Tree.Builder

namespace LittleLisp

namespace Machine

variable {σ : Type} (M : Machine σ) (depth : Nat)

/-- Evaluates a top-level tree. -/
def run (tree : Node) (s : Store σ) : Option (Value × Store σ) :=
  let home := Position.start s.module
  match (M.recur depth).eval [] tree s with
  | .done v s => some ((v.located tree.position).located home, s)
  | .raised alarm s => some (.error (alarm.toFault .native [tree.position, home]), s)
  | .exhausted _ => none

/-- Evaluates the trees of a forest in order. -/
def runAll : Forest → Store σ → Option (List Value × Store σ)
  | [], s => some ([], s)
  | tree :: trees, s => do
    let (v, s) ← M.run depth tree s
    let (vs, s) ← runAll trees s
    return (v :: vs, s)

/-- Evaluates the trees of a forest in order, up to the first one whose value is a fault. -/
def load : Forest → Store σ → Option (Option Fault × Store σ)
  | [], s => some (none, s)
  | tree :: trees, s => do
    let (v, s) ← M.run depth tree s
    match v with
    | .error f => return (some f, s)
    | _ => load trees s

/-- Evaluating one forest after the other is evaluating their concatenation. -/
theorem runAll_append (f g : Forest) (s : Store σ) :
    M.runAll depth (f ++ g) s =
      (do
        let (vs, s) ← M.runAll depth f s
        let (ws, s) ← M.runAll depth g s
        return (vs ++ ws, s)) := by
  induction f generalizing s with
  | nil =>
    cases h : M.runAll depth g s <;> simp [runAll, h]
  | cons tree trees ih =>
    simp only [List.cons_append, runAll, ih]
    cases M.run depth tree s with
    | none => rfl
    | some r =>
      cases h : M.runAll depth trees r.2 with
      | none => simp [h]
      | some q =>
        cases h' : M.runAll depth g q.2 <;> simp [h, h']

/-- The evaluation that a transformer outside of any evaluation is given: each tree is evaluated as
a top-level tree. -/
def topLevel : Recur σ where
  eval _ tree s :=
    match M.run depth tree s with
    | some (v, s) => .done v s
    | none => .exhausted s
  call ref args s := (M.recur depth).call ref args s

end Machine

/-- A reader, a machine and the store of one module. -/
structure Session (σ : Type) where
  reader : Reader
  machine : Machine σ
  store : Store σ
  /-- How deep evaluation may nest. -/
  depth : Nat

namespace Session

variable {σ : Type}

/-- Deeper than any memory allows. -/
def unlimited : Nat := 1000000000000

/-- A session in a fresh module that binds what every module starts with. -/
def start (c : Config) (host : Host σ) (state : σ) : Session σ where
  reader := ⟨c.module, c.marker⟩
  machine := ⟨c.sigil, Store.getRef, some .rules, host⟩
  store := .withGlobals c.module state
  depth := unlimited

/-- How values are printed in a session. -/
def legend (s : Session σ) : Legend := s.store.legend s.machine.host

/-- Binds a name of the module. -/
def bind (s : Session σ) (name : Text) (v : Value) : Session σ :=
  { s with store := s.store.bind name v }

/-- Binds a name of the module to a new function of the embedding program. -/
def bindNative (s : Session σ) (name : Text) : Session σ :=
  let (ref, store) := s.store.addFunction ⟨name, .native name⟩
  { s with store := store.bind name (.function ref) }

/-- Binds a name of the module to a new transformer. -/
def bindTransformer (s : Session σ) (name : Text) (x : Expander) : Session σ :=
  let (ref, store) := s.store.addTransformer ⟨name, x⟩
  { s with store := store.bind name (.transformer ref) }

/-- The trees of a source. -/
def parse (s : Session σ) (source : Text) : Forest :=
  Forest.build s.store.module (s.reader.tokens source)

/-- Evaluates the trees of a forest. -/
def evalForest (s : Session σ) (forest : Forest) : Option (List Value × Session σ) := do
  let (vs, store) ← s.machine.runAll s.depth forest s.store
  return (vs, { s with store })

/-- Evaluates the trees of a source, one value each. -/
def eval (s : Session σ) (source : Text) : Option (List Value × Session σ) :=
  s.evalForest (s.parse source)

/-- Evaluates the trees of a source up to the first fault. -/
def load (s : Session σ) (source : Text) : Option (Option Fault × Session σ) := do
  let (f, store) ← s.machine.load s.depth (s.parse source) s.store
  return (f, { s with store })

/-- Loads the prelude. -/
def loadPrelude (s : Session σ) : Option (Option Fault × Session σ) := s.load preludeSource

/-! ### One step at a time -/

/-- How a step outside of any top-level tree ends: with a result, or with the message of what
interrupted it. -/
inductive Step (σ α : Type) where
  | done (a : α) (s : Session σ)
  | raised (message : Text) (s : Session σ)
  | exhausted

/-- Runs an action in the session's store. -/
def perform {α : Type} (s : Session σ) (x : Action σ α) : Step σ α :=
  match x s.store with
  | .done a store => .done a { s with store }
  | .raised (.fault f) store => .raised f.text { s with store }
  | .raised (.native message) store => .raised message { s with store }
  | .exhausted _ => .exhausted

/-- Calls a function, without the boundary of a top-level tree. -/
def call (s : Session σ) (ref : Nat) (args : List Value) : Step σ Value :=
  s.perform ((s.machine.recur s.depth).call ref args)

/-- Calls the binder of a name. -/
def callBinder (s : Session σ) (name : Text) (args : List Value) : Step σ Value :=
  s.perform do
    let ref ← Action.update fun s => s.addFunction ⟨"def", .binder name⟩
    (s.machine.recur s.depth).call ref args

/-- Calls a method of an object, if it has an exported one of that name. -/
def callMethod (s : Session σ) (o : Object) (name : Text) (args : List Value) :
    Step σ (Option Value) :=
  s.perform (s.machine.method (s.machine.recur s.depth) name o args)

/-- Applies a transformer once to some operands. -/
def expand (s : Session σ) (x : Transformer) (operands : List Node) : Step σ Node :=
  s.perform (s.machine.expand (s.machine.topLevel s.depth) x operands [])

end Session

end LittleLisp
