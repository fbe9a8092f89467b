/-
# Programs on their own

A session to which the embedding program adds nothing runs programs that can only use
what the language itself gives them. In such a session nothing ever interrupts an
evaluation, so no fault is ever of the kind that reports an interruption, and every
value that is returned or bound is sound: it has no missing value anywhere inside, and
its functions and transformers exist. That the keys of maps are atoms is part of their
type, and so is that a function of the store has a body.

What could interrupt an evaluation is more than what an embedding program does. Forms,
built-in functions, special forms and calls read operands and arguments by index, a pattern
takes trees by number, a template cuts its path, and a map is read and written with any
value as the key; out of range, or with a key that is no atom, each of these is an alarm.
That none of them sounds is what the checks before them are for, and it is shown with the
other alarms: what a built-in function answers, a call binds and a transformer expands to
follows the policy only because the checks have been passed.

The invariant is a policy that holds atoms and existing functions and transformers only.
It holds no faults: a fault stops whatever it would be stored by. It allows no alarm at all.

Key definitions: `Session.Reached`, `Store.Sound`, `Policy.isolated`.
Key theorems: `Session.isolated_run_is_sound`.
-/
import LittleLisp.Proofs.Policy.Session

namespace LittleLisp

variable {σ : Type}

/-! ### Sessions without an embedding program -/

/-- The sessions that a start with some configuration leads to, when nothing is done but to evaluate
sources, with `Session.eval` or with `Session.load`. Loading the prelude is one of these steps. -/
inductive Session.Reached (c : Config) (H : Host σ) (state : σ) : Session σ → Prop where
  | start (depth : Nat) : Reached c H state { Session.start c H state with depth }
  | eval {s s' : Session σ} {source : Text} {vs : List Value} (h : Reached c H state s)
      (hs : s.eval source = some (vs, s')) : Reached c H state s'
  | load {s s' : Session σ} {source : Text} {r : Option Fault} (h : Reached c H state s)
      (hs : s.load source = some (r, s')) : Reached c H state s'

/-- A part of a value that is as it should be: not missing, nothing of the embedding program, no
interruption, and only functions and transformers that exist. -/
def Store.Sound (s : Store σ) : Value → Prop
  | .absent => False
  | .undefined _ => False
  | .object _ => False
  | .function ref => ref < s.functions.size
  | .transformer ref => ref < s.transformers.size
  | .error f => f.kind ≠ .native
  | _ => True

/-! ### The policy -/

namespace Policy

/-- Atoms and existing functions and transformers may be held, and nothing may be interrupted. -/
def isolated (σ : Type) : Policy σ where
  holds e
    | .atom _ => True
    | .function ref => ref < e.functions
    | .transformer ref => ref < e.transformers
    | _ => False
  reports f := f.kind ≠ .native
  raises _ := False
  foreign := False
  states _ := True

variable {e : Extent} {L : Legend}

theorem itemTexts_ok : ∀ {items : List Value}, (∀ v ∈ items, ∃ t, v.text L = .ok t) →
    ∃ ts, Value.itemTexts L items = .ok ts
  | [], _ => ⟨[], rfl⟩
  | v :: vs, h => by
    rw [List.forall_mem_cons] at h
    obtain ⟨t, ht⟩ := h.1
    obtain ⟨ts, hts⟩ := itemTexts_ok h.2
    exact ⟨t :: ts, by simp [Value.itemTexts, ht, hts, bind, Except.bind, pure, Except.pure]⟩

theorem entryTexts_ok : ∀ {entries : Entries}, (∀ x ∈ entries, ∃ t, x.2.text L = .ok t) →
    ∃ ts, Value.entryTexts L entries = .ok ts
  | [], _ => ⟨[], rfl⟩
  | (k, v) :: es, h => by
    rw [List.forall_mem_cons] at h
    obtain ⟨t, ht⟩ := h.1
    obtain ⟨ts, hts⟩ := entryTexts_ok h.2
    exact ⟨_, by simp [Value.entryTexts, ht, hts, bind, Except.bind, pure, Except.pure]; rfl⟩

/-- Values that may be held can be printed. -/
theorem text_ok {v : Value} (h : (isolated σ).Held e v) : ∃ t, v.text L = .ok t := by
  induction h with
  | @part v hv h =>
    cases v with
    | atom a => exact ⟨_, by rw [Value.text]⟩
    | function ref => exact ⟨_, by rw [Value.text]⟩
    | transformer ref => exact ⟨_, by rw [Value.text]⟩
    | _ => exact absurd h id
  | list _ ih =>
    obtain ⟨ts, hts⟩ := itemTexts_ok ih
    exact ⟨_, by rw [Value.text, hts]; rfl⟩
  | map _ ih =>
    obtain ⟨ts, hts⟩ := entryTexts_ok ih
    exact ⟨_, by rw [Value.text, hts]; rfl⟩

/-- Every machine keeps the policy: there is nothing of the embedding program to be met. -/
theorem isolated_admits (M : Machine σ) : (isolated σ).Admits M where
  mono {d e v} hde h := by
    cases v with
    | function ref => exact Nat.lt_of_lt_of_le h hde.1
    | transformer ref => exact Nat.lt_of_lt_of_le h hde.2
    | _ => exact h
  atom := trivial
  function h := h
  transformer h := h
  held h := absurd h id
  located _ h := h
  internal h := h
  eager h := absurd h id
  printing {e v L message} h hm := by
    obtain ⟨t, ht⟩ := text_ok h (L := L)
    simp [ht] at hm
  missing {e ref} h h' := absurd h (Nat.not_lt.mpr h')
  missingForm {e ref} h h' := absurd h (Nat.not_lt.mpr h')
  native h := absurd h id
  refusal h := absurd h id
  failure h := absurd h id
  method h := absurd h id

/-- What may be held is sound. -/
theorem sound_of_held {s : Store σ} {v : Value} (h : (isolated σ).Held s.extent v) :
    v.Every s.Sound := by
  refine Value.Every.imp (fun w hw => ?_) h
  cases w with
  | atom a => trivial
  | function ref => exact hw
  | transformer ref => exact hw
  | _ => exact absurd hw id

theorem sound_of_result {s : Store σ} {v : Value} (h : (isolated σ).Result s.extent v) :
    v.Every s.Sound := by
  rcases h with h | ⟨f, rfl, h⟩
  · exact sound_of_held h
  · exact .part rfl h

end Policy

/-! ### Runs -/

namespace Session

open Policy

variable {c : Config} {H : Host σ} {state : σ} {s s' : Session σ}

theorem eval_held (hs : (isolated σ).StoreHeld s.machine s.store) {source : Text}
    {vs : List Value} (h : s.eval source = some (vs, s')) :
    (isolated σ).StoreHeld s'.machine s'.store ∧ ∀ v ∈ vs, v.Every s'.store.Sound := by
  have hP := isolated_admits s.machine
  simp only [eval, evalForest, Option.bind_eq_bind, Option.bind_eq_some_iff] at h
  obtain ⟨⟨ws, store⟩, hrun, h⟩ := h
  cases h
  obtain ⟨-, hstore, hvs⟩ := runAll_held hP (fun _ _ h => absurd h id) _ hs
    (nodeResult_parse hP s source) hrun
  exact ⟨hstore, fun v hv => sound_of_result (hvs v hv)⟩

theorem load_held (hs : (isolated σ).StoreHeld s.machine s.store) {source : Text}
    {r : Option Fault} (h : s.load source = some (r, s')) :
    (isolated σ).StoreHeld s'.machine s'.store ∧ ∀ f, r = some f → f.kind ≠ .native := by
  have hP := isolated_admits s.machine
  simp only [load, Option.bind_eq_bind, Option.bind_eq_some_iff] at h
  obtain ⟨⟨q, store⟩, hrun, h⟩ := h
  cases h
  obtain ⟨-, hstore, hr⟩ := Policy.load_held hP (fun _ _ h => absurd h id) _ hs
    (nodeResult_parse hP s source) hrun
  exact ⟨hstore, hr⟩

/-- Every step of an isolated session leaves a store that follows the policy. -/
theorem Reached.storeHeld (h : s.Reached c H state) :
    (isolated σ).StoreHeld s.machine s.store := by
  induction h with
  | start depth => exact storeHeld_withGlobals (isolated_admits _) rfl _ trivial
  | eval _ hs ih => exact (eval_held ih hs).1
  | load _ hs ih => exact (load_held ih hs).1

/-- In a session that only ever evaluated sources, everything bound in the module or captured by a
function is sound, and whatever source comes next: nothing interrupts the evaluation of its trees,
neither an argument that is read and not there nor a value that cannot be a key, their values are
sound, and so is the fault that loading it may end with. -/
theorem isolated_run_is_sound (h : s.Reached c H state) :
    (∀ name v, s.store.find? name = some v → v.Every s.store.Sound) ∧
    (∀ f ∈ s.store.functions, ∀ k, f.body = .closure k → ∀ b ∈ k.scope, b.2.Every s.store.Sound) ∧
    ∀ source : Text,
      s.machine.Undisturbed s.depth (s.parse source) s.store ∧
      (∀ vs s', s.eval source = some (vs, s') → ∀ v ∈ vs, v.Every s'.store.Sound) ∧
      ∀ f s', s.load source = some (some f, s') → f.kind ≠ .native := by
  have hs := h.storeHeld
  have hP := isolated_admits s.machine
  refine ⟨fun name v hv => ?_, fun f hf k hk b hb => ?_, fun source => ⟨?_, ?_, ?_⟩⟩
  · exact sound_of_held (hs.bindings.find? hv)
  · have hbody := hs.functions f hf
    rw [hk] at hbody
    exact sound_of_held (hbody.2 b hb)
  · exact undisturbed hP (fun _ => id) _ _ hs (nodeResult_parse hP s source)
  · exact fun vs s' hv => (eval_held hs hv).2
  · exact fun f s' hf => (load_held hs hf).2 f rfl

/-- A session that binds a list, asks for an index beyond it, uses it as a key, calls a function
without its argument and leaves out the operands of a form. The last two come to faults, but nothing
is interrupted, and all values are sound. -/
theorem isolated_mistakes_are_sound :
    ∃ vs s', ({ Session.start .default .none () with depth := 6 } : Session Unit).eval
        "(def x (list :a nil)) (get x 9) (get (hash-map :a x) x) ((fn (a) a)) (if)" =
          some (vs, s') ∧
      vs.map Value.isError = [false, false, false, true, true] ∧
      (∀ v ∈ vs, v.Every s'.store.Sound) ∧
      ∀ name v, s'.store.find? name = some v → v.Every s'.store.Sound := by
  have hstart : Reached .default .none () { Session.start .default .none () with depth := 6 } :=
    .start 6
  have herrors : (({ Session.start .default .none () with depth := 6 } : Session Unit).eval
      "(def x (list :a nil)) (get x 9) (get (hash-map :a x) x) ((fn (a) a)) (if)").map
        (fun r => r.1.map Value.isError) = some [false, false, false, true, true] := by
    decide +kernel
  obtain ⟨⟨vs, s'⟩, hs, hvs⟩ := Option.map_eq_some_iff.mp herrors
  refine ⟨vs, s', hs, hvs, ((isolated_run_is_sound hstart).2.2 _).2.1 vs s' hs, ?_⟩
  exact (isolated_run_is_sound (hstart.eval hs)).1

end Session

end LittleLisp
