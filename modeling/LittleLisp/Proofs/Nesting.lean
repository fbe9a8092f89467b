/-
# Evaluation without a bound on nesting

How deep evaluation may nest bounds what is found out, not what is true: an evaluation that
ends with a result or an alarm does so at every greater depth. So there is an evaluation that
nests as deep as it has to, and it comes to an end exactly if some depth is enough. It is its
own next step: one more level around it changes nothing, which is how its values are found.

Whatever is evaluated, functions and transformers keep doing what they do, and there is always
a value in the end, never a missing one.

Key definitions: `Outcome.result`, `Outcome.Same`, `Action.limit`, `Machine.unbounded`.
Key theorems: `Machine.recur_deeper`, `Machine.unbounded_eval_iff`, `Machine.unbounded_eval`,
`Machine.grows_eval`, `Machine.unbounded_ne_absent`.
-/
import LittleLisp.Proofs.Nesting.Families

namespace LittleLisp

variable {σ α β : Type}

/-! ### What an evaluation comes to -/

namespace Outcome

/-- The result or the alarm that an evaluation ends with and the store it leaves; nothing if it ran
out of fuel. -/
def result : Outcome σ α → Option (Except Alarm α × Store σ)
  | .done a s => some (.ok a, s)
  | .raised alarm s => some (.error alarm, s)
  | .exhausted _ => none

/-- Two evaluations end alike, or neither of them ends. -/
def Same (o o' : Outcome σ α) : Prop := o.result = o'.result

variable {o o' o'' : Outcome σ α}

theorem Same.refl (o : Outcome σ α) : Same o o := rfl

theorem Same.of_eq (h : o = o') : Same o o' := congrArg result h

theorem Same.symm (h : Same o o') : Same o' o := Eq.symm h

theorem Same.trans (h : Same o o') (h' : Same o' o'') : Same o o'' := Eq.trans h h'

instance : Trans (Same (σ := σ) (α := α)) Same Same := ⟨Same.trans⟩

theorem same_done_iff {a : α} {s : Store σ} : Same o (.done a s) ↔ o = .done a s := by
  cases o <;> simp [Same, result]

theorem same_raised_iff {alarm : Alarm} {s : Store σ} :
    Same o (.raised alarm s) ↔ o = .raised alarm s := by
  cases o <;> simp [Same, result]

/-- What ended is determined by how it ended. -/
theorem Same.eq_of_ends (h : Same o o') (ho : o.result ≠ none) : o = o' := by
  cases o <;> cases o' <;> simp_all [Same, result]

end Outcome

namespace Action

open Outcome (Same)

variable {x y : Action σ α} {f g : α → Action σ β} {s t : Store σ}

/-- Chains of actions that end alike end alike. -/
theorem same_bind (h : Same (x s) (y t)) (hf : ∀ a u, x s = .done a u → Same (f a u) (g a u)) :
    Same ((x >>= f) s) ((y >>= g) t) := by
  change Same (Action.bind x f s) (Action.bind y g t)
  unfold Action.bind
  cases hx : x s with
  | done a u =>
    rw [hx] at h
    rw [Outcome.same_done_iff.mp h.symm]
    exact hf a u hx
  | raised alarm u =>
    rw [hx] at h
    rw [← h.eq_of_ends (by simp [Outcome.result])]
    exact .refl _
  | exhausted u =>
    rw [hx] at h
    cases hy : y t with
    | exhausted v => rfl
    | done b v => simp [Same, Outcome.result, hy] at h
    | raised alarm v => simp [Same, Outcome.result, hy] at h

theorem bind_assoc {γ : Type} (x : Action σ α) (f : α → Action σ β) (g : β → Action σ γ) :
    (x >>= f) >>= g = x >>= fun a => f a >>= g := by
  funext s
  change Action.bind (Action.bind x f) g s = Action.bind x (fun a => Action.bind (f a) g) s
  unfold Action.bind
  cases x s <;> rfl

theorem bind_done {a : α} (h : x s = .done a t) : (x >>= f) s = f a t := by
  change Action.bind x f s = _
  simp [Action.bind, h]

theorem bind_raised {alarm : Alarm} (h : x s = .raised alarm t) :
    (x >>= f) s = .raised alarm t := by
  change Action.bind x f s = _
  simp [Action.bind, h]

theorem bind_exhausted (h : x s = .exhausted t) : (x >>= f) s = .exhausted t := by
  change Action.bind x f s = _
  simp [Action.bind, h]

end Action

/-! ### Growth -/

namespace Action

/-- The action leaves a store in which all functions and transformers do what they did. -/
def Growing (α : Type) (x : Unit → Action σ α) : Prop :=
  ∀ s : Store σ, s.Grows (x () s).store

theorem growing_compositional : Compositional (Growing (σ := σ)) where
  pure _ s := .refl s
  raise _ s := .refl s
  bind {_ _ x f} hx hf s := by
    change s.Grows (Action.bind (x ()) (f ()) s).store
    have hgrows := hx s
    unfold Action.bind
    cases hxs : x () s with
    | done a t =>
      rw [hxs] at hgrows
      exact hgrows.trans (hf a t)
    | raised alarm t =>
      rw [hxs] at hgrows
      exact hgrows
    | exhausted t =>
      rw [hxs] at hgrows
      exact hgrows
  look hf s := hf s s
  update hf s := hf s

end Action

/-! ### Deeper nesting -/

namespace Action

open Outcome (Same)

/-- Where the first action ends, the second one ends in the same way. -/
def Deepening (α : Type) (x : Bool → Action σ α) : Prop :=
  ∀ s : Store σ, (x false s).result = none ∨ x false s = x true s

theorem deepening_compositional : Compositional (Deepening (σ := σ)) where
  pure _ _ := Or.inr rfl
  raise _ _ := Or.inr rfl
  bind {_ _ x f} hx hf s := by
    change (Action.bind (x false) (f false) s).result = none ∨
      Action.bind (x false) (f false) s = Action.bind (x true) (f true) s
    unfold Action.bind
    rcases hx s with hnone | heq
    · cases hxs : x false s with
      | done a t => simp [hxs, Outcome.result] at hnone
      | raised alarm t => simp [hxs, Outcome.result] at hnone
      | exhausted t => exact Or.inl rfl
    · rw [← heq]
      cases x false s with
      | done a t => exact hf a t
      | raised alarm t => exact Or.inr rfl
      | exhausted t => exact Or.inr rfl
  look hf s := hf s s
  update _ _ := Or.inr rfl

/-- From some depth on, all actions end like the one without a depth. -/
def Settling (α : Type) (x : Option Nat → Action σ α) : Prop :=
  ∀ s : Store σ, ∃ d, ∀ e ≥ d, Same (x (some e) s) (x none s)

theorem settling_compositional : Compositional (Settling (σ := σ)) where
  pure _ _ := ⟨0, fun _ _ => rfl⟩
  raise _ _ := ⟨0, fun _ _ => rfl⟩
  bind {_ _ x f} hx hf s := by
    obtain ⟨d, hd⟩ := hx s
    by_cases hdone : ∃ a t, x none s = .done a t
    · obtain ⟨a, t, ha⟩ := hdone
      obtain ⟨d', hd'⟩ := hf a t
      refine ⟨max d d', fun e he => same_bind (hd e (by omega)) fun b u hb => ?_⟩
      obtain ⟨rfl, rfl⟩ : b = a ∧ u = t := by
        have h := hd e (by omega)
        rw [hb, ha] at h
        simpa [Same, Outcome.result] using h
      exact hd' e (by omega)
    · refine ⟨d, fun e he => same_bind (hd e he) fun a u hau => ?_⟩
      have h := hd e he
      rw [hau] at h
      exact absurd ⟨a, u, Outcome.same_done_iff.mp h.symm⟩ hdone
  look hf s := hf s s
  update _ _ := ⟨0, fun _ _ => rfl⟩

open Classical in
/-- The outcome of the actions that end, if they all end alike. -/
noncomputable def limit (x : Nat → Action σ α) : Action σ α := fun s =>
  if h : ∃ d, (x d s).result ≠ none then x h.choose s else .exhausted s

variable {x : Nat → Action σ α}

theorem limit_eq_or (x : Nat → Action σ α) (s : Store σ) :
    (∃ d, limit x s = x d s ∧ (x d s).result ≠ none) ∨
      limit x s = .exhausted s ∧ ∀ d, (x d s).result = none := by
  by_cases h : ∃ d, (x d s).result ≠ none
  · exact Or.inl ⟨h.choose, dif_pos h, h.choose_spec⟩
  · exact Or.inr ⟨dif_neg h, by simpa using h⟩

/-- If actions that end keep ending in the same way, they end like the limit from some point on. -/
theorem limit_settles (h : ∀ d e s, d ≤ e → (x d s).result = none ∨ x d s = x e s) (s : Store σ) :
    ∃ d, ∀ e ≥ d, Same (x e s) (limit x s) := by
  rcases limit_eq_or x s with ⟨d, hlimit, hends⟩ | ⟨hlimit, hnone⟩
  · refine ⟨d, fun e he => .of_eq ?_⟩
    rw [hlimit, (h d e s he).resolve_left hends]
  · refine ⟨0, fun e _ => ?_⟩
    rw [hlimit]
    exact hnone e

end Action

namespace Machine

open LittleLisp.Action
open Outcome (Same)

variable (M : Machine σ)

/-- An evaluation that ends, ends in the same way one level deeper. -/
theorem recur_step : ∀ depth,
    Recur.Family Deepening fun b : Bool => M.recur (if b then depth + 1 else depth)
  | 0 => ⟨fun _ _ _ => Or.inl rfl, fun _ _ _ => Or.inl rfl⟩
  | depth + 1 => by
    have ih := recur_step depth
    have heval := family_eval (M := M) deepening_compositional ih
    have hcall := family_call (M := M) deepening_compositional ih
    exact ⟨fun scope n s => heval scope n s, fun ref args s => hcall ref args s⟩

/-- And so it does at every greater depth. -/
theorem recur_deeper {depth depth' : Nat} (h : depth ≤ depth') :
    Recur.Family Deepening fun b : Bool => M.recur (if b then depth' else depth) := by
  induction h with
  | refl => exact ⟨fun _ _ _ => Or.inr (by simp), fun _ _ _ => Or.inr (by simp)⟩
  | step _ ih =>
    refine ⟨fun scope n s => ?_, fun ref args s => ?_⟩
    · rcases ih.eval scope n s with hnone | heq
      · exact Or.inl hnone
      · rcases (M.recur_step _).eval scope n s with hnone | heq'
        · exact Or.inl ((congrArg Outcome.result heq).trans hnone)
        · exact Or.inr (heq.trans heq')
    · rcases ih.call ref args s with hnone | heq
      · exact Or.inl hnone
      · rcases (M.recur_step _).call ref args s with hnone | heq'
        · exact Or.inl ((congrArg Outcome.result heq).trans hnone)
        · exact Or.inr (heq.trans heq')

/-- Evaluation that may nest as deep as it has to. -/
noncomputable def unbounded : Recur σ where
  eval scope n := limit fun depth => (M.recur depth).eval scope n
  call ref args := limit fun depth => (M.recur depth).call ref args

theorem unbounded_settles :
    Recur.Family Settling fun depth : Option Nat => depth.elim M.unbounded M.recur :=
  ⟨fun scope n => limit_settles fun _ _ s h => (M.recur_deeper h).eval scope n s,
    fun ref args => limit_settles fun _ _ s h => (M.recur_deeper h).call ref args s⟩

/-- **Unbounded evaluation ends if some depth is enough**, and then it ends as it does there. -/
theorem unbounded_eval_iff {scope : Scope} {n : Node} {s : Store σ} {o : Outcome σ Value}
    (ho : o.result ≠ none) :
    M.unbounded.eval scope n s = o ↔ ∃ depth, (M.recur depth).eval scope n s = o := by
  constructor
  · rintro rfl
    rcases limit_eq_or (fun depth => (M.recur depth).eval scope n) s with ⟨d, hd, -⟩ | ⟨hd, -⟩
    · exact ⟨d, hd.symm⟩
    · exact absurd (congrArg Outcome.result hd) ho
  · rintro ⟨depth, rfl⟩
    obtain ⟨d, hd⟩ := M.unbounded_settles.eval scope n s
    have hdeeper := (M.recur_deeper (Nat.le_max_left depth d)).eval scope n s
    have hsame := hd _ (Nat.le_max_right depth d)
    have heq : (M.recur depth).eval scope n s = (M.recur (max depth d)).eval scope n s :=
      hdeeper.resolve_left ho
    exact ((Same.of_eq heq).trans hsame).eq_of_ends ho |>.symm

/-- **Unbounded evaluation is its own next step.** -/
theorem unbounded_eval (scope : Scope) (n : Node) (s : Store σ) :
    Same (M.unbounded.eval scope n s) (M.eval M.unbounded scope n s) := by
  obtain ⟨d, hd⟩ := M.unbounded_settles.eval scope n s
  obtain ⟨d', hd'⟩ := family_eval (M := M) settling_compositional M.unbounded_settles scope n s
  have hnext := hd (max d d' + 1) (by omega)
  exact hnext.symm.trans (hd' (max d d') (by omega))

theorem unbounded_call (ref : Nat) (args : List Value) (s : Store σ) :
    Same (M.unbounded.call ref args s) (M.call M.unbounded ref args s) := by
  obtain ⟨d, hd⟩ := M.unbounded_settles.call ref args s
  obtain ⟨d', hd'⟩ := family_call (M := M) settling_compositional M.unbounded_settles ref args s
  have hnext := hd (max d d' + 1) (by omega)
  exact hnext.symm.trans (hd' (max d d') (by omega))

/-! ### What evaluation keeps -/

theorem recur_grows : ∀ depth, Recur.Family Growing fun _ : Unit => M.recur depth
  | 0 => ⟨fun _ _ s => .refl s, fun _ _ s => .refl s⟩
  | depth + 1 => by
    have ih := recur_grows depth
    have heval := family_eval (M := M) growing_compositional ih
    have hcall := family_call (M := M) growing_compositional ih
    exact ⟨fun scope n s => heval scope n s, fun ref args s => hcall ref args s⟩

theorem unbounded_grows : Recur.Family Growing fun _ : Unit => M.unbounded := by
  have hlimit {x : Nat → Action σ Value} (hx : ∀ d, Growing Value fun _ => x d) :
      Growing Value fun _ => limit x := by
    intro s
    change s.Grows (limit x s).store
    rcases limit_eq_or x s with ⟨d, hd, -⟩ | ⟨hd, -⟩
    · rw [hd]
      exact hx d s
    · rw [hd]
      exact .refl s
  exact ⟨fun scope n => hlimit fun d => (M.recur_grows d).eval scope n,
    fun ref args => hlimit fun d => (M.recur_grows d).call ref args⟩

variable {M}

theorem grows_eval {scope : Scope} {n : Node} {s t : Store σ} {v : Value}
    (h : M.unbounded.eval scope n s = .done v t) : s.Grows t := by
  have hgrows : s.Grows (M.unbounded.eval scope n s).store := M.unbounded_grows.eval scope n s
  rwa [h] at hgrows

theorem grows_call {ref : Nat} {args : List Value} {s t : Store σ} {v : Value}
    (h : M.unbounded.call ref args s = .done v t) : s.Grows t := by
  have hgrows : s.Grows (M.unbounded.call ref args s).store := M.unbounded_grows.call ref args s
  rwa [h] at hgrows

theorem grows_arguments {scope : Scope} {ns : List Node} {s t : Store σ}
    {x : Checked (List Value)} (h : arguments M.unbounded scope ns s = .done x t) : s.Grows t := by
  have hgrows : s.Grows (arguments M.unbounded scope ns s).store :=
    family_arguments growing_compositional M.unbounded_grows ns s
  rwa [h] at hgrows

end Machine

/-! ### There is always a value -/

namespace Action

/-- The result, if there is one, satisfies `Q`. -/
def Ensures (Q : α → Prop) (x : Action σ α) : Prop := ∀ s a t, x s = .done a t → Q a

variable {Q : α → Prop}

theorem ensures_pure {a : α} (ha : Q a) : Ensures Q (pure a : Action σ α) := by
  intro s b t h
  obtain ⟨rfl, -⟩ := Outcome.done.inj h
  exact ha

theorem ensures_raise (alarm : Alarm) : Ensures Q (raise alarm : Action σ α) := nofun

theorem ensures_bind_of {R : β → Prop} {x : Action σ β} {f : β → Action σ α} (hx : Ensures R x)
    (hf : ∀ b, R b → Ensures Q (f b)) : Ensures Q (x >>= f) := by
  intro s a t h
  obtain ⟨b, u, hb, h⟩ := bind_eq_done.mp h
  exact hf b (hx s b u hb) u a t h

/-- The last link of a chain decides. -/
theorem ensures_bind {x : Action σ β} {f : β → Action σ α} (hf : ∀ b, Ensures Q (f b)) :
    Ensures Q (x >>= f) :=
  ensures_bind_of (R := fun _ => True) (fun _ _ _ _ => trivial) fun b _ => hf b

end Action

namespace Value

theorem orNil_ne_absent (v : Value) : v.orNil ≠ .absent := by
  cases v <;> simp [orNil]

theorem located_ne_absent {v : Value} (h : v ≠ .absent) (p : Position) : v.located p ≠ .absent := by
  cases v <;> simp_all [located]

theorem stamped_ne_absent {v : Value} (h : v ≠ .absent) (n : Nat) : (v.stamped n).1 ≠ .absent := by
  unfold stamped
  split_ifs
  · cases v <;> simp_all
  · exact h

end Value

namespace Builtin

/-- A call does not give a missing value. -/
def Present (r : Result) : Prop := r ≠ .ok .absent

theorem present_bind {α : Type} (x : Except Text α) {k : α → Result} (hk : ∀ a, Present (k a)) :
    Present (x >>= k) := by
  cases x with
  | ok a => exact hk a
  | error message => exact nofun

theorem present_fault (x : Except Text Text) (kind : FaultKind) (message : Text → List Text) :
    Present (do
      let t ← x
      return .fail kind (message t)) :=
  present_bind x fun _ => nofun

theorem present_withArity {k : Result} (name : Text) (args : List Value) (least : Nat)
    (most : Option Nat) (hk : Present k) : Present (withArity name args least most k) := by
  rcases withArity_cases name args least most k with ⟨h, -⟩ | ⟨message, h⟩
  · rwa [h]
  · rw [h]
    exact nofun

theorem present_withList (L : Legend) (name : Text) (v : Value) {k : List Value → Result}
    (hk : ∀ items, Present (k items)) : Present (withList L name v k) := by
  unfold withList
  split
  · exact hk []
  · exact hk _
  · exact present_fault _ _ _

theorem present_withPairs (L : Legend) (name : Text) (i : Nat) (es : Entries)
    (pairs : List Value) : Present (withPairs L name i es pairs) := by
  refine present_bind _ fun r => ?_
  cases r with
  | ok es => exact nofun
  | error k => exact present_fault _ _ _

/-- A list or map that is built is there. -/
theorem present_apply (L : Legend) {b : Builtin} (hb : b.builds = true) (args : List Value) :
    Present (b.apply L args) := by
  cases b with
  | list => exact nofun
  | cons =>
    refine present_withArity _ _ _ _ (present_bind _ fun l => ?_)
    exact present_withList _ _ _ fun items => present_bind _ fun v => nofun
  | rest =>
    refine present_withArity _ _ _ _ (present_bind _ fun l => present_withList _ _ _ fun items => ?_)
    split_ifs
    · exact nofun
    · exact present_bind _ fun others => nofun
  | hashMap =>
    unfold apply
    dsimp only
    split_ifs
    · exact nofun
    · exact present_withPairs _ _ _ _ _
  | assoc =>
    unfold apply
    dsimp only
    split_ifs
    · exact nofun
    · refine present_bind _ fun v => ?_
      split
      · exact present_withPairs _ _ _ _ _
      · exact present_withPairs _ _ _ _ _
      · exact present_fault _ _ _
  | _ => simp [builds] at hb

end Builtin

namespace Machine

open LittleLisp.Action

variable {M : Machine σ} {self : Recur σ}

theorem ensures_call (ref : Nat) (args : List Value) :
    Ensures (· ≠ .absent) (M.call self ref args) := by
  refine ensures_bind fun s => ?_
  split
  · exact ensures_raise _
  · split
    · rename_i b _
      have hbuilt : Ensures (fun v => b.builds = true → v ≠ .absent)
          (ofExcept (b.apply (s.legend M.host) args) : Action σ Value) := by
        cases hx : b.apply (s.legend M.host) args with
        | error message => exact ensures_raise _
        | ok v =>
          refine ensures_pure fun hb => ?_
          rintro rfl
          exact Builtin.present_apply _ hb _ hx
      refine ensures_bind_of hbuilt fun v hv => ?_
      split_ifs with hb
      · intro t w u h
        obtain ⟨rfl, -⟩ := Outcome.done.inj h
        exact Value.stamped_ne_absent (hv hb) _
      · exact ensures_pure v.orNil_ne_absent
    · exact ensures_bind fun v => ensures_pure v.orNil_ne_absent
    · rw [callBinder_eq]
      split
      · exact ensures_bind fun _ => ensures_pure (Value.orNil_ne_absent _)
      · exact ensures_pure (by simp [Value.fail])
    · exact ensures_bind fun v => ensures_pure v.orNil_ne_absent

theorem ensures_located_call (ref : Nat) (args : List Value) (p : Position) :
    Ensures (· ≠ .absent) (do
      let v ← call M self ref args
      return v.located p) :=
  ensures_bind_of (ensures_call ref args) fun _ hv => ensures_pure (Value.located_ne_absent hv p)

theorem ensures_getKeyword (keyword : Value) (args : List Value) (p : Position) :
    Ensures (· ≠ .absent) (getKeyword M self keyword args p) := by
  rw [getKeyword_eq]
  split
  · exact ensures_located_call _ _ p
  · exact ensures_located_call _ _ p
  · exact ensures_bind fun _ => ensures_pure (by simp)

theorem ensures_apply (f : Value) (args : List Value) (p : Position) :
    Ensures (· ≠ .absent) (apply M self f args p) := by
  unfold apply
  split
  · exact ensures_pure (by simp)
  · exact ensures_getKeyword _ args p
  · exact ensures_located_call _ args p
  · exact ensures_bind fun _ => ensures_bind fun _ => ensures_pure (by simp)

theorem ensures_method (name : Text) (o : Object) (args : List Value) :
    Ensures (· ≠ some .absent) (method M self name o args) := by
  by_cases havail : ∃ found run, M.host.Offers o name found run
  · obtain ⟨found, run, hfound⟩ := havail
    intro s r t h
    rw [method_available M self hfound] at h
    split at h
    · simp at h
    · obtain ⟨rfl, -⟩ := Outcome.done.inj h
      simp
    · refine ensures_bind (Q := (· ≠ some Value.absent)) (fun v => ensures_pure ?_) s r t h
      simpa using v.orNil_ne_absent
  · rw [method_unavailable M self fun found run hfound => havail ⟨found, run, hfound⟩]
    exact ensures_pure (by simp)

theorem ensures_methodCall (t : Token) (args : List Value) (p : Position) :
    Ensures (· ≠ .absent) (methodCall M self t args p) := by
  rw [methodCall_eq]
  dsimp only
  split
  · exact ensures_pure (by simp)
  · refine ensures_bind_of (ensures_method _ _ _) fun r hr => ?_
    split
    · exact ensures_pure (Value.located_ne_absent (by simpa using hr) p)
    · exact ensures_bind fun _ => ensures_pure (by simp)
  · exact ensures_bind fun _ => ensures_bind fun _ => ensures_pure (by simp)

theorem ensures_form (hself : ∀ scope n, Ensures (· ≠ .absent) (self.eval scope n)) (scope : Scope)
    (head : Node) (operands : List Node) :
    Ensures (· ≠ .absent) (form M self scope head operands) := by
  unfold form
  dsimp only
  split
  · refine ensures_bind fun s => ?_
    split
    · exact ensures_pure (by simp)
    · split
      · exact ensures_raise _
      · exact ensures_bind fun n => hself scope n
    · refine ensures_bind fun x => ?_
      split
      · exact ensures_pure (by simp)
      · unfold applyLeaf
        split_ifs
        · exact ensures_getKeyword _ _ _
        · exact ensures_methodCall _ _ _
        · exact ensures_apply _ _ _
  · refine ensures_bind fun x => ?_
    split
    · exact ensures_pure (by simp)
    · refine ensures_bind fun f => ?_
      split
      · exact ensures_pure (by simp)
      · exact ensures_apply _ _ _

theorem ensures_eval (hself : ∀ scope n, Ensures (· ≠ .absent) (self.eval scope n)) (scope : Scope)
    (n : Node) : Ensures (· ≠ .absent) (M.eval self scope n) := by
  cases n with
  | absent => exact ensures_pure (by simp)
  | leaf t => exact ensures_form (M := M) hself scope (.ofValue (.function _) t.pos) [.leaf t]
  | form ns =>
    cases ns with
    | nil => exact ensures_pure (by simp)
    | cons head operands => exact ensures_form hself scope head operands

theorem ensures_recur : ∀ (depth : Nat) (scope : Scope) (n : Node),
    Ensures (· ≠ .absent) ((M.recur depth).eval scope n)
  | 0, _, _ => nofun
  | depth + 1, scope, n => ensures_eval (ensures_recur depth) scope n

/-- What a tree evaluates to is never a missing value. -/
theorem unbounded_ne_absent {scope : Scope} {n : Node} {s t : Store σ} {v : Value}
    (h : M.unbounded.eval scope n s = .done v t) : v ≠ .absent := by
  obtain ⟨depth, hd⟩ := (M.unbounded_eval_iff (by simp [Outcome.result])).mp h
  exact ensures_recur depth scope n s v t hd

end Machine

end LittleLisp
