/-
# Where tokens come from

A run makes no new words. The leaves of the trees that are evaluated, of the bodies of functions
and of the templates of user-defined forms are tokens of a source, or leaves that evaluation puts
in their place: computed values and reports of faults. So a property that all tokens of all sources
have, and such leaves have too, is a property of every leaf of every tree at every moment of a run.

That evaluation comes to no other tree cannot be read off what it leaves behind. It is shown by
comparing two evaluations: one that is interrupted at a moment which is made of other tokens does
the same as one that is not.

Key definitions: `Token.Enduring`, `Store.MadeOf`, `Action.Alike`, `Moment.MadeOf`.
Key theorems: `Machine.alike_expand`, `Machine.alike_eval`, `Machine.madeOf_of_passes`.
-/
import LittleLisp.Proofs.Expansion.Tokens
import LittleLisp.Proofs.Faults
import LittleLisp.Proofs.ShortCircuit

namespace LittleLisp

variable {σ α β : Type} {T : Token → Prop}

/-- A property of tokens that the leaves have which evaluation itself makes. -/
structure Token.Enduring (T : Token → Prop) : Prop where
  computed : ∀ p v, T ⟨.literal, p, [], v⟩
  report : ∀ f : Fault, T ⟨.error, f.pos, f.message, .error f⟩

/-! ### Trees and stores -/

namespace Node

variable (hT : Token.Enduring T)

include hT

theorem madeOf_ofFault (f : Fault) : (ofFault f).MadeOf T := .leaf (hT.report f)

theorem madeOf_ofValue (v : Value) (p : Position) : (ofValue v p).MadeOf T := by
  cases v with
  | error f => exact madeOf_ofFault hT f
  | _ => exact .leaf (hT.computed p _)

theorem madeOf_malformed (p : Position) (message : List Text) : (malformed p message).MadeOf T :=
  madeOf_ofFault hT _

end Node

/-- All trees of a body have tokens with the property `T` only. -/
def Body.MadeOf (T : Token → Prop) : Body → Prop
  | .closure c => ∀ n ∈ c.body, n.MadeOf T
  | _ => True

/-- All templates of a form have tokens with the property `T` only. -/
def Expander.MadeOf (T : Token → Prop) : Expander → Prop
  | .userDefined x => ∀ c ∈ x.clauses, c.template.MadeOf T
  | _ => True

namespace Store

/-- The trees that a store keeps, in functions and in templates, have tokens with the property `T`
only. -/
structure MadeOf (T : Token → Prop) (s : Store σ) : Prop where
  functions : ∀ f ∈ s.functions, f.body.MadeOf T
  transformers : ∀ x ∈ s.transformers, x.expander.MadeOf T

variable {s : Store σ}

theorem MadeOf.bind (h : s.MadeOf T) (name : Text) (v : Value) : (s.bind name v).MadeOf T :=
  ⟨h.functions, h.transformers⟩

theorem MadeOf.nameFunction (h : s.MadeOf T) (ref : Nat) (name : Text) :
    (s.nameFunction ref name).MadeOf T := by
  refine ⟨fun f hf => ?_, h.transformers⟩
  obtain ⟨i, hi, rfl⟩ := Array.mem_iff_getElem.mp hf
  simp only [Store.nameFunction, Array.getElem_modify]
  have hbody := h.functions _ (Array.getElem_mem (by simpa [Store.nameFunction] using hi))
  split_ifs
  · exact hbody
  · exact hbody
  · exact hbody

theorem MadeOf.define (h : s.MadeOf T) (name : Text) (v : Value) : (s.define name v).MadeOf T := by
  cases v with
  | function ref => exact (h.nameFunction ref name).bind name _
  | _ => exact h.bind name _

theorem MadeOf.addFunction (h : s.MadeOf T) {f : Function} (hf : f.body.MadeOf T) :
    (s.addFunction f).2.MadeOf T := by
  refine ⟨fun g hg => ?_, h.transformers⟩
  rcases Array.mem_push.mp hg with hg | rfl
  · exact h.functions g hg
  · exact hf

theorem MadeOf.addTransformer (h : s.MadeOf T) {x : Transformer} (hx : x.expander.MadeOf T) :
    (s.addTransformer x).2.MadeOf T := by
  refine ⟨h.functions, fun y hy => ?_⟩
  rcases Array.mem_push.mp hy with hy | rfl
  · exact h.transformers y hy
  · exact hx

end Store

/-! ### Actions -/

namespace Action

/-- Two actions do the same in all stores that are made of `T`, and they leave such a store; if they
end with a result, it satisfies `Q`. -/
def Alike (T : Token → Prop) (Q : α → Prop) (x y : Action σ α) : Prop :=
  ∀ s, s.MadeOf T → x s = y s ∧ (x s).store.MadeOf T ∧ ∀ a t, x s = .done a t → Q a

variable {Q : α → Prop} {R : β → Prop} {x y : Action σ α}

theorem alike_done {s : Store σ} {a : α} (hs : s.MadeOf T) (ha : Q a) :
    (Outcome.done a s).store.MadeOf T ∧ ∀ b t, Outcome.done a s = .done b t → Q b :=
  ⟨hs, fun _ _ h => (Outcome.done.inj h).1 ▸ ha⟩

theorem alike_pure {a : α} (ha : Q a) : Alike T Q (pure a : Action σ α) (pure a) :=
  fun _ hs => ⟨rfl, alike_done hs ha⟩

theorem alike_raise (alarm : Alarm) : Alike T Q (raise alarm : Action σ α) (raise alarm) :=
  fun _ hs => ⟨rfl, hs, nofun⟩

theorem alike_exhausted : Alike T Q (exhausted : Action σ α) exhausted :=
  fun _ hs => ⟨rfl, hs, nofun⟩

/-- Actions that are chained stay alike. -/
theorem Alike.bind (h : Alike T Q x y) {f g : α → Action σ β}
    (hf : ∀ a, Q a → Alike T R (f a) (g a)) : Alike T R (x >>= f) (y >>= g) := by
  intro s hs
  obtain ⟨heq, hstore, hdone⟩ := h s hs
  change Action.bind x f s = Action.bind y g s ∧ _
  have hx : (x >>= f) s = Action.bind x f s := rfl
  rw [hx]
  unfold Action.bind
  rw [← heq]
  cases hxs : x s with
  | done a t =>
    rw [hxs] at hstore
    exact hf a (hdone a t hxs) t hstore
  | raised alarm t =>
    rw [hxs] at hstore
    exact ⟨rfl, hstore, nofun⟩
  | exhausted t =>
    rw [hxs] at hstore
    exact ⟨rfl, hstore, nofun⟩

theorem alike_bind_store {f g : Store σ → Action σ β}
    (h : ∀ s, s.MadeOf T → Alike T R (f s) (g s)) : Alike T R (store >>= f) (store >>= g) :=
  fun s hs => h s hs s hs

theorem alike_bind_legend (H : Host σ) {f g : Legend → Action σ β}
    (h : ∀ L, Alike T R (f L) (g L)) : Alike T R (legend H >>= f) (legend H >>= g) :=
  fun s hs => h _ s hs

theorem alike_update {f : Store σ → α × Store σ} (hf : ∀ s, s.MadeOf T → (f s).2.MadeOf T) :
    Alike T (fun _ => True) (update f) (update f) :=
  fun s hs => ⟨rfl, alike_done (hf s hs) trivial⟩

theorem alike_modify {f : Store σ → Store σ} (hf : ∀ s, s.MadeOf T → (f s).MadeOf T) :
    Alike T (fun _ => True) (modify f) (modify f) :=
  fun s hs => ⟨rfl, alike_done (hf s hs) trivial⟩

theorem alike_ofExcept {Q : α → Prop} {x : Except Text α} (h : ∀ a, x = .ok a → Q a) :
    Alike T Q (ofExcept x : Action σ α) (ofExcept x) := by
  cases x with
  | ok a => exact alike_pure (h a rfl)
  | error message => exact alike_raise _

theorem alike_stamped (v : Value) :
    Alike T (fun _ => True) (stamped v : Action σ Value) (stamped v) :=
  alike_update fun _ hs => ⟨hs.functions, hs.transformers⟩

theorem alike_settled (v : Value) :
    Alike T (fun _ => True) (settled v : Action σ Value) (settled v) :=
  alike_update fun _ hs => ⟨hs.functions, hs.transformers⟩

theorem alike_host (state : σ) :
    Alike T (fun _ => True) (modify fun s => { s with host := state })
      (modify fun s => { s with host := state }) :=
  alike_modify fun _ hs => ⟨hs.functions, hs.transformers⟩

end Action

/-! ### Evaluation -/

/-- Two ways to come back to evaluation do the same on trees and stores that are made of `T`. -/
structure Recur.Alike (T : Token → Prop) (r r' : Recur σ) : Prop where
  eval : ∀ scope n, n.MadeOf T → Action.Alike T (fun _ => True) (r.eval scope n) (r'.eval scope n)
  call : ∀ ref args, Action.Alike T (fun _ => True) (r.call ref args) (r'.call ref args)

namespace Machine

open LittleLisp.Action

variable {M : Machine σ} {self self' : Recur σ} (h : self.Alike T self') {scope : Scope}

section Arguments

include h

theorem alike_argument {n : Node} (hn : n.MadeOf T) :
    Alike T (fun _ => True) (argument self scope n) (argument self' scope n) := by
  have htree (hleaf : ∀ t, n ≠ .leaf t) :
      Alike T (fun _ => True) (argument self scope n) (argument self' scope n) := by
    rw [argument_tree self scope hleaf, argument_tree self' scope hleaf]
    refine (h.eval scope n hn).bind fun v _ => ?_
    split
    · exact alike_pure trivial
    · exact alike_pure trivial
  cases n with
  | absent => exact htree (by simp)
  | form ns => exact htree (by simp)
  | leaf t =>
    intro s hs
    refine ⟨rfl, ?_⟩
    rcases gives_or_fails_leaf self scope t s with ⟨v, hv⟩ | ⟨f, hf⟩
    · rw [argument_of_gives hv]
      exact alike_done hs trivial
    · rw [argument_of_fails hf]
      exact alike_done hs trivial

theorem alike_arguments : ∀ ns : List Node, (∀ n ∈ ns, n.MadeOf T) →
    Alike T (fun _ => True) (arguments self scope ns) (arguments self' scope ns)
  | [], _ => alike_pure trivial
  | n :: ns, hns => by
    rw [List.forall_mem_cons] at hns
    refine (alike_argument h hns.1).bind fun x _ => ?_
    split
    · exact alike_pure trivial
    · refine (alike_arguments ns hns.2).bind fun y _ => ?_
      split
      · exact alike_pure trivial
      · exact alike_pure trivial

theorem alike_body : ∀ (ns : List Node) (last : Value), (∀ n ∈ ns, n.MadeOf T) →
    Alike T (fun _ => True) (body self scope last ns) (body self' scope last ns)
  | [], _, _ => alike_pure trivial
  | n :: ns, _, hns => by
    rw [List.forall_mem_cons] at hns
    refine (h.eval scope n hns.1).bind fun v _ => ?_
    split
    · exact alike_pure trivial
    · exact alike_body ns v hns.2

end Arguments

section Calls

include h

theorem alike_callClosure (ref : Nat) {c : Closure} (hc : ∀ n ∈ c.body, n.MadeOf T)
    (args : List Value) :
    Alike T (fun _ => True) (callClosure M self ref c args) (callClosure M self' ref c args) := by
  unfold callClosure
  split_ifs
  · exact alike_bind_legend _ fun L => alike_pure trivial
  · refine (alike_ofExcept fun _ _ => trivial).bind fun scope _ => ?_
    cases c.rest with
    | none => exact alike_body h c.body _ hc
    | some name =>
      refine (alike_ofExcept fun _ _ => trivial).bind fun items _ => ?_
      exact (alike_stamped _).bind fun more _ => alike_body h c.body _ hc

theorem alike_script : ∀ s : Script σ Value,
    Alike T (fun _ => True) (script M self s) (script M self' s)
  | .done state v => (alike_host state).bind fun _ _ => alike_settled v
  | .raise state alarm => (alike_host state).bind fun _ _ => alike_raise alarm
  | .call state f args next =>
    (alike_host state).bind fun _ _ => (h.call f args).bind fun v _ =>
      fun s hs => alike_script (next s.host v) s hs
  | .print state v next => by
    unfold script
    refine (alike_host state).bind fun _ _ => alike_bind_legend M.host fun L => ?_
    cases v.text L with
    | ok t => exact alike_script (next t)
    | error message => exact alike_raise _
  | .nameOf state f next =>
    (alike_host state).bind fun _ _ => alike_bind_legend _ fun L => alike_script _

theorem alike_call (ref : Nat) (args : List Value) :
    Alike T (fun _ => True) (call M self ref args) (call M self' ref args) := by
  refine alike_bind_store fun s hs => ?_
  cases hf : s.functions[ref]? with
  | none => exact alike_raise _
  | some f =>
    have hbody := hs.functions f (Array.mem_of_getElem? hf)
    cases hb : f.body with
    | builtin b =>
      simp only [hb]
      refine (alike_ofExcept fun _ _ => trivial).bind fun v _ => ?_
      split_ifs
      · exact alike_stamped v
      · exact alike_pure trivial
    | closure c =>
      simp only [hb]
      rw [hb] at hbody
      exact (alike_callClosure h ref hbody args).bind fun v _ => alike_pure trivial
    | binder name =>
      simp only [hb, callBinder_eq]
      split
      · exact (alike_modify fun s hs => hs.define name _).bind fun _ _ => alike_pure trivial
      · exact alike_pure trivial
    | native name =>
      simp only [hb]
      exact (alike_script h _).bind fun v _ => alike_pure trivial

theorem alike_getKeyword (keyword : Value) (args : List Value) (p : Position) :
    Alike T (fun _ => True) (getKeyword M self keyword args p)
      (getKeyword M self' keyword args p) := by
  rw [getKeyword_eq, getKeyword_eq]
  split
  · exact (alike_call h _ _).bind fun v _ => alike_pure trivial
  · exact (alike_call h _ _).bind fun v _ => alike_pure trivial
  · exact alike_bind_legend _ fun L => alike_pure trivial

theorem alike_apply (f : Value) (args : List Value) (p : Position) :
    Alike T (fun _ => True) (apply M self f args p) (apply M self' f args p) := by
  unfold apply
  split
  · exact alike_pure trivial
  · exact alike_getKeyword h _ args p
  · exact (alike_call h _ args).bind fun v _ => alike_pure trivial
  · exact alike_bind_legend _ fun L => (alike_ofExcept fun _ _ => trivial).bind
      fun t _ => alike_pure trivial

theorem alike_method (name : Text) (o : Object) (args : List Value) :
    Alike T (fun _ => True) (method M self name o args) (method M self' name o args) := by
  by_cases havail : ∃ found run, M.host.Offers o name found run
  · obtain ⟨found, run, hfound⟩ := havail
    intro s hs
    rw [method_available M self hfound, method_available M self' hfound]
    cases M.refusal (s.legend M.host) found.rules args with
    | error message => exact ⟨rfl, hs, nofun⟩
    | ok refusal =>
      cases refusal with
      | some f => exact ⟨rfl, alike_done hs trivial⟩
      | none => exact (alike_script h _).bind (fun v _ => alike_pure trivial) s hs
  · have hnone : ∀ found run, ¬ M.host.Offers o name found run :=
      fun found run hfound => havail ⟨found, run, hfound⟩
    rw [method_unavailable M self hnone, method_unavailable M self' hnone]
    exact alike_pure trivial

theorem alike_methodCall (t : Token) (args : List Value) (p : Position) :
    Alike T (fun _ => True) (methodCall M self t args p) (methodCall M self' t args p) := by
  rw [methodCall_eq, methodCall_eq]
  dsimp only
  split
  · exact alike_pure trivial
  · refine (alike_method h _ _ _).bind fun r _ => ?_
    split
    · exact alike_pure trivial
    · exact alike_bind_legend _ fun L => alike_pure trivial
  · exact alike_bind_legend _ fun L => (alike_ofExcept fun _ _ => trivial).bind
      fun t _ => alike_pure trivial

theorem alike_applyLeaf (t : Token) (f : Value) (args : List Value) (p : Position) :
    Alike T (fun _ => True) (applyLeaf M self t f args p) (applyLeaf M self' t f args p) := by
  unfold applyLeaf
  split_ifs
  · exact alike_getKeyword h _ args p
  · exact alike_methodCall h t args p
  · exact alike_apply h f args p

end Calls

/-! ### Special forms -/

section Forms

variable (hT : Token.Enduring T) {operands : List Node} (hops : ∀ n ∈ operands, n.MadeOf T)

include hT

/-- What follows a compilation is alike, and what a compilation ends with is reported. -/
theorem alike_compiled {γ : Type} {x : Compiled γ} {k : γ → Action σ Node}
    (hk : ∀ a, x = .ok a → Alike T (Node.MadeOf T) (k a) (k a)) :
    Alike T (Node.MadeOf T) (compiled x k) (compiled x k) := by
  unfold compiled
  split
  · exact hk _ rfl
  · exact alike_pure (Node.madeOf_ofFault hT _)
  · exact alike_raise _

theorem alike_malformed_mention (n : Node) (p : Position) (message : Text → List Text) :
    Alike T (Node.MadeOf T)
      (do
        let t ← mention M n
        return Node.malformed p (message t))
      (do
        let t ← mention M n
        return Node.malformed p (message t)) :=
  Alike.bind (Q := fun _ => True) (alike_bind_legend _ fun _ => alike_ofExcept fun _ _ => trivial)
    fun _ _ => alike_pure (Node.madeOf_malformed hT p _)

theorem alike_binding (name : Token) {value : Node} (hvalue : value.MadeOf T) :
    Alike T (Node.MadeOf T) (binding name value : Action σ Node) (binding name value) := by
  have hnew : ∀ s : Store σ, s.MadeOf T → (s.addFunction ⟨"def", .binder name.text⟩).2.MadeOf T :=
    fun s hs => hs.addFunction trivial
  refine (alike_update hnew).bind fun ref _ => alike_pure (.form ?_)
  simpa using ⟨Node.madeOf_ofValue hT _ _, hvalue⟩

include hops

theorem alike_expandDefine :
    Alike T (Node.MadeOf T) (expandDefine M operands) (expandDefine M operands) := by
  rw [expandDefine_eq]
  split
  · split
    · exact alike_binding hT _ (hops _ (by simp))
    · exact alike_malformed_mention hT _ _ _
  · exact alike_pure (Node.madeOf_malformed hT _ _)

theorem alike_expandLambda :
    Alike T (Node.MadeOf T) (expandLambda M scope operands) (expandLambda M scope operands) := by
  rw [expandLambda_eq]
  split
  · exact alike_pure (Node.madeOf_malformed hT _ _)
  · rename_i params trees
    have htrees : ∀ n ∈ trees, n.MadeOf T := fun n hn => hops n (List.mem_cons_of_mem _ hn)
    refine alike_bind_legend _ fun L => alike_compiled hT fun r _ => ?_
    have hnew : ∀ s : Store σ, s.MadeOf T →
        (s.addFunction ⟨[], .closure ⟨r.1, r.2, trees, scope⟩⟩).2.MadeOf T :=
      fun s hs => hs.addFunction htrees
    exact (alike_update hnew).bind fun ref _ => alike_pure (Node.madeOf_ofValue hT _ _)
  · exact alike_malformed_mention hT _ _ _

omit hT in
/-- The clauses of a `cond` become a tree of what they are made of, a few computed values, and the
report of a fault. -/
theorem madeOf_nested (hfault : ∀ f, (Node.ofFault f).MadeOf T)
    (hvalue : ∀ v ∈ [Value.nil, .function Store.doRef, .transformer Store.conditionalRef],
      ∀ p, (Node.ofValue v p).MadeOf T) {otherwise : Node} (ho : otherwise.MadeOf T) :
    (∀ n, nested otherwise operands = .ok n → n.MadeOf T) ∧
      ∀ n, nested otherwise operands = .error n → n.MadeOf T := by
  induction operands with
  | nil => simpa [nested] using ho
  | cons c cs ih =>
    rw [List.forall_mem_cons] at hops
    obtain ⟨hok, herr⟩ := ih hops.2
    unfold nested
    cases hrest : nested otherwise cs with
    | error n =>
      refine ⟨by simp, fun m hm => ?_⟩
      rw [← Except.error.inj hm]
      exact herr n hrest
    | ok others =>
      dsimp only
      split
      · rename_i test trees
        have hparts := List.forall_mem_cons.mp (Node.madeOf_form.mp hops.1)
        have hchosen : (Node.form (.ofValue (.function Store.doRef)
            (Node.form (test :: trees)).position :: trees)).MadeOf T :=
          .form (List.forall_mem_cons.mpr ⟨hvalue _ (by simp) _, hparts.2⟩)
        split_ifs
        · refine ⟨fun n hn => ?_, by simp⟩
          rw [← Except.ok.inj hn]
          exact hchosen
        · refine ⟨by simp, fun n hn => ?_⟩
          rw [← Except.error.inj hn]
          exact hfault _
        · refine ⟨fun n hn => ?_, by simp⟩
          rw [← Except.ok.inj hn]
          refine .form ?_
          simp only [List.forall_mem_cons]
          exact ⟨hvalue _ (by simp) _, hparts.1, hchosen, hok others hrest, by simp⟩
      · refine ⟨by simp, fun n hn => ?_⟩
        rw [← Except.error.inj hn]
        exact hfault _

omit hT in
theorem madeOf_conditionals (hfault : ∀ f, (Node.ofFault f).MadeOf T)
    (hvalue : ∀ v ∈ [Value.nil, .function Store.doRef, .transformer Store.conditionalRef],
      ∀ p, (Node.ofValue v p).MadeOf T) : (conditionals operands).MadeOf T := by
  obtain ⟨hok, herr⟩ := madeOf_nested hops hfault hvalue
    (hvalue .nil (by simp) (Node.positionOfAll operands))
  unfold conditionals
  split
  · exact hok _ ‹_›
  · exact herr _ ‹_›

omit hops in
theorem alike_expandQuote :
    Alike T (Node.MadeOf T) (expandQuote operands : Action σ Node) (expandQuote operands) := by
  rw [expandQuote_eq]
  split
  · exact (alike_settled _).bind fun v _ => alike_pure (Node.madeOf_ofValue hT v _)
  · exact alike_pure (Node.madeOf_malformed hT _ _)

theorem alike_expandDefineForm :
    Alike T (Node.MadeOf T) (expandDefineForm M operands) (expandDefineForm M operands) := by
  rw [expandDefineForm_eq]
  split
  · rename_i target spec
    split
    · rename_i name _
      refine alike_bind_legend _ fun L => alike_compiled hT fun x hx => ?_
      have hclauses := Transformation.madeOf_compile (hops spec (by simp)) hx
      have hnew : ∀ s : Store σ, s.MadeOf T →
          (s.addTransformer ⟨name.text, .userDefined x⟩).2.MadeOf T :=
        fun s hs => hs.addTransformer hclauses
      exact (alike_update hnew).bind fun ref _ =>
        alike_binding hT _ (Node.madeOf_ofValue hT _ _)
    · exact alike_malformed_mention hT _ _ _
  · exact alike_pure (Node.madeOf_malformed hT _ _)

include h

theorem alike_expandConditional :
    Alike T (Node.MadeOf T) (expandConditional self scope operands)
      (expandConditional self' scope operands) := by
  rw [expandConditional_eq, expandConditional_eq]
  split
  · rename_i test yes
    refine (h.eval scope test (hops test (by simp))).bind fun v _ => ?_
    split
    · exact alike_pure (Node.madeOf_ofFault hT _)
    · refine alike_pure ?_
      split_ifs
      · exact hops yes (by simp)
      · exact Node.madeOf_ofValue hT _ _
  · rename_i test yes no
    refine (h.eval scope test (hops test (by simp))).bind fun v _ => ?_
    split
    · exact alike_pure (Node.madeOf_ofFault hT _)
    · refine alike_pure ?_
      split_ifs
      · exact hops yes (by simp)
      · exact hops no (by simp)
  · exact alike_pure (Node.madeOf_malformed hT _ _)

omit hT hops in
theorem alike_eagerly : ∀ (ns : List Node) (last : Value), (∀ n ∈ ns, n.MadeOf T) →
    Alike T (fun _ => True) (eagerly self scope last ns) (eagerly self' scope last ns)
  | [], _, _ => alike_pure trivial
  | n :: ns, _, hns => by
    rw [List.forall_mem_cons] at hns
    exact (h.eval scope n hns.1).bind fun v _ => alike_eagerly ns v hns.2

theorem alike_expand {x : Transformer} (hx : x.expander.MadeOf T) :
    Alike T (Node.MadeOf T) (expand M self x operands scope) (expand M self' x operands scope) := by
  unfold expand
  split
  · exact alike_expandConditional h hT hops
  · exact alike_expandDefine hT hops
  · exact alike_expandLambda hT hops
  · rw [expandCond_eq]
    exact alike_pure (madeOf_conditionals hops (Node.madeOf_ofFault hT)
      fun v _ => Node.madeOf_ofValue hT v)
  · exact alike_expandQuote hT
  · exact alike_expandDefineForm hT hops
  · rename_i t ht
    rw [ht] at hx
    refine alike_bind_legend _ fun L => alike_ofExcept fun n hn => ?_
    rw [Transformation.rewrite_eq_ok hn]
    rcases Transformation.madeOf_written hx hops L with hmade | ⟨message, hmessage⟩
    · exact hmade
    · exact hmessage ▸ Node.madeOf_malformed hT _ _
  · refine alike_pure ?_
    cases hlast : operands.getLast? with
    | none => exact .absent
    | some n => exact hops n (List.mem_of_getLast? hlast)
  · exact (alike_eagerly h operands .nil hops).bind fun v _ => alike_pure (.leaf (hT.computed _ _))

/-! ### Forms and trees -/

omit hT in
/-- What follows the evaluation of the arguments is alike. -/
theorem alike_bind_arguments {k k' : List Value → Action σ Value}
    (hk : ∀ args, Alike T (fun _ => True) (k args) (k' args)) :
    Alike T (fun _ => True)
      (do
        match ← arguments self scope operands with
        | .error f => return Value.error f
        | .ok args => k args)
      (do
        match ← arguments self' scope operands with
        | .error f => return Value.error f
        | .ok args => k' args) := by
  refine (alike_arguments h operands hops).bind fun x _ => ?_
  split
  · exact alike_pure trivial
  · exact hk _

theorem alike_form {head : Node} (hhead : head.MadeOf T) :
    Alike T (fun _ => True) (form M self scope head operands)
      (form M self' scope head operands) := by
  by_cases hleaf : ∃ t, head = .leaf t
  · obtain ⟨t, rfl⟩ := hleaf
    refine alike_bind_store fun s hs => ?_
    split
    · exact alike_pure trivial
    · split
      · exact alike_raise _
      · rename_i x hx
        have hmade := hs.transformers x (Array.mem_of_getElem? hx)
        exact (alike_expand h hT hops hmade).bind fun n hn => h.eval scope n hn
    · exact alike_bind_arguments h hops fun args => alike_applyLeaf h t _ args _
  · have hleaf : ∀ t, head ≠ .leaf t := fun t ht => hleaf ⟨t, ht⟩
    rw [form_compound M self hleaf, form_compound M self' hleaf]
    refine alike_bind_arguments h hops fun args => (h.eval scope head hhead).bind fun f _ => ?_
    split
    · exact alike_pure trivial
    · exact alike_apply h _ args _

omit hops in
theorem alike_eval {n : Node} (hn : n.MadeOf T) :
    Alike T (fun _ => True) (eval M self scope n) (eval M self' scope n) := by
  cases hn with
  | absent => exact alike_pure trivial
  | @leaf t ht =>
    have hops : ∀ n ∈ [Node.leaf t], n.MadeOf T := by simpa using Node.MadeOf.leaf ht
    have hform : Alike T (fun _ => True)
        (form M self scope (.ofValue (.function Store.identityRef) t.pos) [.leaf t])
        (form M self' scope (.ofValue (.function Store.identityRef) t.pos) [.leaf t]) :=
      alike_form h hT hops (Node.madeOf_ofValue hT _ _)
    exact hform
  | @form ns hns =>
    cases ns with
    | nil => exact alike_pure trivial
    | cons head operands =>
      rw [List.forall_mem_cons] at hns
      exact alike_form h hT hns.2 hns.1

end Forms

end Machine

/-! ### Moments -/

/-- A moment whose tree and store are made of tokens with the property `T`. -/
structure Moment.MadeOf (T : Token → Prop) (m : Moment σ) : Prop where
  store : m.store.MadeOf T
  tree : m.tree.MadeOf T

namespace Machine

open LittleLisp.Action

variable {M : Machine σ} {m m' : Moment σ} {depth : Nat} (hT : Token.Enduring T)

include hT

theorem alike_recur : ∀ depth, (M.recur depth).Alike T (M.recur depth)
  | 0 => ⟨fun _ _ _ => alike_exhausted, fun _ _ => alike_exhausted⟩
  | depth + 1 =>
    have ih := alike_recur depth
    ⟨fun _ _ hn => alike_eval ih hT hn, fun ref args => alike_call ih ref args⟩

/-- To be interrupted at a moment that is made of other tokens makes no difference. -/
theorem alike_breakAt (hm : ¬ m.MadeOf T) (alarm : Alarm) :
    ∀ depth, (M.recur depth).Alike T (M.breakAt m alarm depth)
  | 0 => ⟨fun _ _ _ => alike_exhausted, fun _ _ => alike_exhausted⟩
  | depth + 1 => by
    have ih := alike_breakAt hm alarm depth
    refine ⟨fun scope n hn s hs => ?_, fun ref args => alike_call ih ref args⟩
    have hother : Moment.mk scope n s ≠ m := by
      rintro rfl
      exact hm ⟨hs, hn⟩
    have hstep : (M.breakAt m alarm (depth + 1)).eval scope n s =
        M.eval (M.breakAt m alarm depth) scope n s := if_neg hother
    rw [hstep]
    exact alike_eval ih hT hn s hs

/-- Evaluation that starts at a moment made of `T` passes only such moments. -/
theorem madeOf_of_passes (hm : m.MadeOf T) (h : M.Passes depth m m') : m'.MadeOf T := by
  by_contra hm'
  -- an evaluation that never comes to the moment would have to end with every alarm at once
  have hall (alarm : Alarm) :
      (M.recur depth).eval m.scope m.tree m.store = .raised alarm m'.store := by
    rw [← h alarm]
    exact ((alike_breakAt hT hm' alarm depth).eval m.scope m.tree hm.tree m.store hm.store).1
  have htwo := (hall (.native [])).symm.trans (hall (.fault (.unplaced .native [])))
  simp at htwo

end Machine

end LittleLisp
