/-
# Families of actions

Everything a machine does is put together from a few kinds of action: ending with a result,
raising an alarm, looking at the store, changing it, and going on with a result. What is
changed only grows: functions and transformers are added, and those that are there keep
doing what they do.

So a property of actions that is kept by putting them together holds of whatever the
machine does, if it holds of the ways in which evaluation comes back to itself. It is
shown here once, of families of actions, since what is wanted later is about one
evaluation, about two that nest to different depths, and about all depths at a time.

Key definitions: `Action.Compositional`, `Recur.Family`.
Key theorems: `Machine.family_call`, `Machine.family_expand`, `Machine.family_eval`.
-/
import LittleLisp.Proofs.Definitions

namespace LittleLisp

variable {ι σ α β : Type}

/-! ### Putting actions together -/

namespace Action

/-- A property of families of actions that is kept by how a machine puts actions together. -/
structure Compositional (K : (α : Type) → (ι → Action σ α) → Prop) : Prop where
  pure : ∀ {α : Type} (a : α), K α fun _ => Pure.pure a
  raise : ∀ {α : Type} (alarm : Alarm), K α fun _ => Action.raise alarm
  bind : ∀ {α β : Type} {x : ι → Action σ α} {f : ι → α → Action σ β},
    K α x → (∀ a, K β fun i => f i a) → K β fun i => x i >>= f i
  /-- Looking at the store. -/
  look : ∀ {β : Type} {f : ι → Store σ → Action σ β},
    (∀ s, K β fun i => f i s) → K β fun i => Action.store >>= f i
  update : ∀ {α : Type} {f : Store σ → α × Store σ},
    (∀ s : Store σ, s.Grows (f s).2) → K α fun _ => Action.update f

namespace Compositional

variable {K : (α : Type) → (ι → Action σ α) → Prop} (hK : Compositional K)

include hK

theorem modify {f : Store σ → Store σ} (hf : ∀ s : Store σ, s.Grows (f s)) :
    K Unit fun _ => Action.modify f :=
  hK.update (f := fun s => ((), f s)) hf

theorem legend (H : Host σ) {f : ι → Legend → Action σ β} (hf : ∀ L, K β fun i => f i L) :
    K β fun i => Action.legend H >>= f i :=
  hK.look (f := fun i s => f i (s.legend H)) fun s => hf (s.legend H)

theorem ofExcept (x : Except Text α) : K α fun _ => Action.ofExcept x := by
  cases x with
  | ok a => exact hK.pure a
  | error message => exact hK.raise _

theorem stamped (v : Value) : K Value fun _ => Action.stamped v :=
  hK.update fun _ => ⟨fun _ f hf => ⟨f, hf, rfl⟩, fun _ _ hx => hx⟩

theorem settled (v : Value) : K Value fun _ => Action.settled v :=
  hK.update fun _ => ⟨fun _ f hf => ⟨f, hf, rfl⟩, fun _ _ hx => hx⟩

theorem host (state : σ) : K Unit fun _ => Action.modify fun s => { s with host := state } :=
  hK.modify fun _ => ⟨fun _ f hf => ⟨f, hf, rfl⟩, fun _ _ hx => hx⟩

end Compositional

end Action

/-- The property holds of each way in which evaluation comes back to itself. -/
structure Recur.Family (K : (α : Type) → (ι → Action σ α) → Prop) (r : ι → Recur σ) : Prop where
  eval : ∀ scope n, K Value fun i => (r i).eval scope n
  call : ∀ ref args, K Value fun i => (r i).call ref args

namespace Machine

open LittleLisp.Action

variable {M : Machine σ} {K : (α : Type) → (ι → Action σ α) → Prop} (hK : Compositional K)
  {self : ι → Recur σ} (h : Recur.Family K self) {scope : Scope}

include hK

/-! ### Arguments and calls -/

section Calls

include h

theorem family_argument (n : Node) : K (Checked Value) fun i => argument (self i) scope n := by
  have htree (hleaf : ∀ t, n ≠ .leaf t) :
      K (Checked Value) fun i => argument (self i) scope n := by
    simp only [argument_tree _ scope hleaf]
    refine hK.bind (h.eval scope n) fun v => ?_
    cases v with
    | error f => exact hK.pure _
    | _ => exact hK.pure _
  cases n with
  | absent => exact htree (by simp)
  | form ns => exact htree (by simp)
  | leaf t =>
    by_cases hid : t.type = .identifier
    · simp only [argument_identifier _ scope hid]
      exact hK.look (f := fun _ s => Pure.pure (resolve scope t s)) fun s => hK.pure _
    · by_cases herr : t.type = .error
      · by_cases hf : ∃ f, t.value = .error f
        · obtain ⟨f, hf⟩ := hf
          simp only [argument_error _ scope herr hf]
          exact hK.pure _
        · simp only [argument_invalid _ scope herr fun f hv => hf ⟨f, hv⟩]
          exact hK.pure _
      · simp only [argument_literal _ scope hid herr]
        exact hK.pure _

theorem family_arguments : ∀ ns : List Node,
    K (Checked (List Value)) fun i => arguments (self i) scope ns
  | [] => hK.pure _
  | n :: ns => by
    refine hK.bind (family_argument hK h n) fun x => ?_
    cases x with
    | error f => exact hK.pure _
    | ok v =>
      refine hK.bind (family_arguments ns) fun y => ?_
      cases y with
      | error f => exact hK.pure _
      | ok vs => exact hK.pure _

theorem family_body : ∀ (ns : List Node) (last : Value),
    K Value fun i => body (self i) scope last ns
  | [], _ => hK.pure _
  | n :: ns, _ => by
    refine hK.bind (h.eval scope n) fun v => ?_
    cases v with
    | error f => exact hK.pure _
    | _ => exact family_body ns _

theorem family_callClosure (ref : Nat) (c : Closure) (args : List Value) :
    K Value fun i => callClosure M (self i) ref c args := by
  unfold callClosure
  split_ifs
  · exact hK.legend _ fun L => hK.pure _
  · refine hK.bind (hK.ofExcept _) fun scope => ?_
    cases c.rest with
    | none => exact family_body hK h c.body _
    | some name =>
      exact hK.bind (hK.ofExcept _) fun items =>
        hK.bind (hK.stamped _) fun more => family_body hK h c.body _

theorem family_script : ∀ s : Script σ Value, K Value fun i => script M (self i) s
  | .done state v => hK.bind (hK.host state) fun _ => hK.settled v
  | .raise state alarm => hK.bind (hK.host state) fun _ => hK.raise alarm
  | .call state f args next =>
    hK.bind (hK.host state) fun _ => hK.bind (h.call f args) fun v =>
      hK.look (f := fun i s => script M (self i) (next s.host v)) fun s =>
        family_script (next s.host v)
  | .print state v next => by
    unfold script
    refine hK.bind (hK.host state) fun _ => hK.legend M.host fun L => ?_
    cases v.text L with
    | ok t => exact family_script (next t)
    | error message => exact hK.raise _
  | .nameOf state f next =>
    hK.bind (hK.host state) fun _ => hK.legend M.host fun L => family_script _

theorem family_call (ref : Nat) (args : List Value) :
    K Value fun i => call M (self i) ref args := by
  refine hK.look fun s => ?_
  cases s.functions[ref]? with
  | none => exact hK.raise _
  | some f =>
    cases hb : f.body with
    | builtin b =>
      simp only [hb]
      refine hK.bind (hK.ofExcept _) fun v => ?_
      split_ifs
      · exact hK.stamped v
      · exact hK.pure _
    | closure c =>
      simp only [hb]
      exact hK.bind (family_callClosure hK h ref c args) fun v => hK.pure _
    | binder name =>
      simp only [hb, callBinder_eq]
      split
      · exact hK.bind (hK.modify fun s => (s.extends_define name _).grows) fun _ => hK.pure _
      · exact hK.pure _
    | native name =>
      simp only [hb]
      exact hK.bind (family_script hK h _) fun v => hK.pure _

theorem family_getKeyword (keyword : Value) (args : List Value) (p : Position) :
    K Value fun i => getKeyword M (self i) keyword args p := by
  simp only [getKeyword_eq]
  split
  · exact hK.bind (family_call hK h _ _) fun v => hK.pure _
  · exact hK.bind (family_call hK h _ _) fun v => hK.pure _
  · exact hK.legend _ fun L => hK.pure _

theorem family_apply (f : Value) (args : List Value) (p : Position) :
    K Value fun i => apply M (self i) f args p := by
  unfold apply
  split
  · exact hK.pure _
  · exact family_getKeyword hK h _ args p
  · exact hK.bind (family_call hK h _ args) fun v => hK.pure _
  · exact hK.legend _ fun L => hK.bind (hK.ofExcept _) fun t => hK.pure _

omit h in
/-- A call that may be refused. -/
theorem family_unlessRefused (refusal : Option Fault) {x : ι → Action σ (Option Value)}
    (hx : K (Option Value) x) :
    K (Option Value) fun i =>
      match refusal with
      | some f => pure (some (Value.error f))
      | none => x i := by
  cases refusal with
  | some f => exact hK.pure _
  | none => exact hx

theorem family_method (name : Text) (o : Object) (args : List Value) :
    K (Option Value) fun i => method M (self i) name o args := by
  unfold method
  split
  · exact hK.pure _
  · split
    · rename_i run _ _
      refine hK.legend _ fun L => ?_
      have hrun : K (Option Value) fun i => (do
          let s ← Action.store
          let v ← script M (self i) (run L args s.host)
          return some v.orNil) :=
        hK.look fun s => hK.bind (family_script hK h _) fun v => hK.pure _
      have hrest (refusal : Option Fault) := family_unlessRefused hK refusal hrun
      cases M.validator with
      | none => exact hK.bind (hK.pure _) hrest
      | some v => exact hK.bind (hK.ofExcept _) hrest
    · exact hK.pure _

theorem family_methodCall (t : Token) (args : List Value) (p : Position) :
    K Value fun i => methodCall M (self i) t args p := by
  simp only [methodCall_eq]
  split
  · exact hK.pure _
  · refine hK.bind (family_method hK h _ _ _) fun r => ?_
    cases r with
    | some v => exact hK.pure _
    | none => exact hK.legend _ fun L => hK.pure _
  · exact hK.legend _ fun L => hK.bind (hK.ofExcept _) fun t => hK.pure _

theorem family_applyLeaf (t : Token) (f : Value) (args : List Value) (p : Position) :
    K Value fun i => applyLeaf M (self i) t f args p := by
  unfold applyLeaf
  split_ifs
  · exact family_getKeyword hK h _ args p
  · exact family_methodCall hK h t args p
  · exact family_apply hK h f args p

end Calls

/-! ### Special forms -/

section Forms

theorem family_compiled {γ : Type} (x : Compiled γ) {k : γ → Action σ Node}
    (hk : ∀ a, K Node fun _ => k a) : K Node fun _ => compiled x k := by
  unfold compiled
  split
  · exact hk _
  · exact hK.pure _
  · exact hK.raise _

theorem family_mention (n : Node) {k : Text → Action σ Node} (hk : ∀ t, K Node fun _ => k t) :
    K Node fun _ => mention M n >>= k :=
  hK.bind (hK.legend _ fun _ => hK.ofExcept _) hk

theorem family_binding (name : Token) (value : Node) :
    K Node fun _ => (binding name value : Action σ Node) :=
  hK.bind (hK.update fun s => (s.extends_addFunction _).grows) fun _ => hK.pure _

theorem family_expandDefine (operands : List Node) : K Node fun _ => expandDefine M operands := by
  rw [expandDefine_eq]
  split
  · split
    · exact family_binding hK _ _
    · exact family_mention hK _ fun t => hK.pure _
  · exact hK.pure _

theorem family_expandLambda (operands : List Node) :
    K Node fun _ => expandLambda M scope operands := by
  rw [expandLambda_eq]
  split
  · exact hK.pure _
  · refine hK.legend _ fun L => family_compiled hK _ fun r => ?_
    exact hK.bind (hK.update fun s => (s.extends_addFunction _).grows) fun _ => hK.pure _
  · exact family_mention hK _ fun t => hK.pure _

theorem family_expandQuote (operands : List Node) :
    K Node fun _ => (expandQuote operands : Action σ Node) := by
  rw [expandQuote_eq]
  split
  · exact hK.bind (hK.settled _) fun v => hK.pure _
  · exact hK.pure _

theorem family_expandDefineForm (operands : List Node) :
    K Node fun _ => expandDefineForm M operands := by
  rw [expandDefineForm_eq]
  split
  · split
    · refine hK.legend _ fun L => family_compiled hK _ fun x => ?_
      exact hK.bind (hK.update fun s => (s.extends_addTransformer _).grows)
        fun ref => family_binding hK _ _
    · exact family_mention hK _ fun t => hK.pure _
  · exact hK.pure _

include h

theorem family_expandConditional (operands : List Node) :
    K Node fun i => expandConditional (self i) scope operands := by
  simp only [expandConditional_eq]
  split
  · refine hK.bind (h.eval scope _) fun v => ?_
    cases v with
    | error f => exact hK.pure _
    | _ => exact hK.pure _
  · refine hK.bind (h.eval scope _) fun v => ?_
    cases v with
    | error f => exact hK.pure _
    | _ => exact hK.pure _
  · exact hK.pure _

theorem family_eagerly : ∀ (ns : List Node) (last : Value),
    K Value fun i => eagerly (self i) scope last ns
  | [], _ => hK.pure _
  | n :: ns, _ => hK.bind (h.eval scope n) fun v => family_eagerly ns v

theorem family_expand (x : Transformer) (operands : List Node) :
    K Node fun i => expand M (self i) x operands scope := by
  unfold expand
  split
  · exact family_expandConditional hK h operands
  · exact family_expandDefine hK operands
  · exact family_expandLambda hK operands
  · rw [expandCond_eq]
    exact hK.pure _
  · exact family_expandQuote hK operands
  · exact family_expandDefineForm hK operands
  · exact hK.legend _ fun L => hK.ofExcept _
  · exact hK.pure _
  · exact hK.bind (family_eagerly hK h operands _) fun v => hK.pure _

/-! ### Trees -/

/-- What is done with the values of operands. -/
theorem family_applied (operands : List Node) {k : ι → List Value → Action σ Value}
    (hk : ∀ args, K Value fun i => k i args) :
    K Value fun i => (do
      match ← arguments (self i) scope operands with
      | .error f => return Value.error f
      | .ok args => k i args) := by
  refine hK.bind (family_arguments hK h operands) fun x => ?_
  cases x with
  | error f => exact hK.pure _
  | ok args => exact hk args

theorem family_form (head : Node) (operands : List Node) :
    K Value fun i => form M (self i) scope head operands := by
  have hcompound (hleaf : ∀ t, head ≠ .leaf t) :
      K Value fun i => form M (self i) scope head operands := by
    simp only [form_compound M _ hleaf]
    refine family_applied hK h operands fun args => hK.bind (h.eval scope head) fun f => ?_
    cases f with
    | error f => exact hK.pure _
    | _ => exact family_apply hK h _ args _
  cases head with
  | absent => exact hcompound (by simp)
  | form ns => exact hcompound (by simp)
  | leaf t =>
    refine hK.look fun s => ?_
    cases M.headValue scope t s with
    | error f => exact hK.pure _
    | ok f =>
      cases f with
      | transformer ref =>
        dsimp only
        cases s.transformers[ref]? with
        | none => exact hK.raise _
        | some x => exact hK.bind (family_expand hK h x operands) fun n => h.eval scope n
      | _ => exact family_applied hK h operands fun args => family_applyLeaf hK h t _ args _

/-- Whatever holds of coming back to evaluation holds of evaluation. -/
theorem family_eval (scope : Scope) (n : Node) : K Value fun i => M.eval (self i) scope n := by
  cases n with
  | absent => exact hK.pure _
  | leaf t => exact family_form hK h (.ofValue (.function Store.identityRef) t.pos) [.leaf t]
  | form ns =>
    cases ns with
    | nil => exact hK.pure _
    | cons head operands => exact family_form hK h head operands

end Forms

end Machine

end LittleLisp
