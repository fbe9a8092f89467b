/-
# The course of an evaluation

Special forms are replaced by trees that refer to no binder, but for definitions, which become the
call of one. The value of the tree in it is the first and only thing that this binder is ever called
with. So every evaluation, however deep it nests, has a course, and the moments in it are those that
it passes.

Key theorems: `Machine.follows_expand`, `Machine.follows_binding`, `Machine.follows_eval`,
`Machine.follows_recur`, `Machine.course_of_eval`.
-/
import LittleLisp.Proofs.Course.Calls

namespace LittleLisp

open LittleLisp.Action

namespace Machine

variable {σ : Type} {M : Machine σ} {I : (Nat → Prop) → σ → Prop} {P : Moment σ → Prop}
  {self : Option (Moment σ × Alarm) → Recur σ} {s : Store σ} {scope : Scope}

/-! ### Special forms -/

section Forms

/-- A tree that refers to no binder. -/
def Stands (s : Store σ) (n : Node) : Prop := n.Among s.Plain

theorem follows_malformed (hs : s.Sealed M I) (p : Position) (message : List Text) :
    Follows M I P Stands s fun _ => (pure (.malformed p message) : Action σ Node) :=
  follows_pure hs (Node.among_malformed p message)

/-- The report of a malformed form that mentions a tree. -/
theorem follows_mention (hs : s.Sealed M I) (n : Node) (p : Position) (message : Text → List Text) :
    Follows M I P Stands s fun _ => (do
      let t ← mention M n
      return Node.malformed p (message t)) :=
  Follows.bind (Q := fun _ _ => True)
    (Follows.legend (follows_ofExcept hs fun _ _ => trivial))
    fun _ _ _ _ ht _ => follows_malformed ht p _

theorem follows_compiled {γ : Type} {Q : Store σ → Node → Prop} (hs : s.Sealed M I)
    {x : Compiled γ} {k : γ → Action σ Node} (hfault : ∀ f, Q s (.ofFault f))
    (hk : ∀ a, x = .ok a → Follows M I P Q s fun _ => k a) :
    Follows M I P Q s fun _ => compiled x k := by
  unfold compiled
  split
  · exact hk _ rfl
  · exact follows_pure hs (hfault _)
  · exact follows_raise hs _

variable {operands : List Node}

theorem stands_conditionals (hs : s.Sealed M I) (hops : ∀ n ∈ operands, n.Among s.Plain) :
    Stands s (conditionals operands) := by
  refine madeOf_conditionals hops Node.among_ofFault fun v hv => Node.among_ofValue ?_
  simp only [List.mem_cons, List.not_mem_nil, or_false] at hv
  rcases hv with rfl | rfl | rfl
  · exact Value.among_atom _
  · exact Value.among_function.mpr hs.sequence
  · exact Value.among_transformer _

theorem follows_expandQuote (hs : s.Sealed M I) (hops : ∀ n ∈ operands, n.Among s.Plain) :
    Follows M I P Stands s fun _ => (expandQuote operands : Action σ Node) := by
  simp only [expandQuote_eq]
  split
  · rename_i n
    refine (follows_settled hs (Node.among_datum (hops n (by simp)))).bind fun v t _ _ ht hv => ?_
    exact follows_pure ht (Node.among_ofValue hv _)
  · exact follows_malformed hs _ _

variable (hH : M.host.Discreet I)

include hH

theorem follows_expandLambda (hs : s.Sealed M I) (hscope : Bindings.Among s.Plain scope)
    (hops : ∀ n ∈ operands, n.Among s.Plain) :
    Follows M I P Stands s fun _ => expandLambda M scope operands := by
  simp only [expandLambda_eq]
  split
  · exact follows_malformed hs _ _
  · rename_i params trees
    rw [List.forall_mem_cons] at hops
    refine Follows.legend (follows_compiled hs Node.among_ofFault fun r _ => ?_)
    let f : Function := ⟨[], .closure ⟨r.1, r.2, trees, scope⟩⟩
    have hf : f.body.Among s.Plain := ⟨hops.2, hscope⟩
    have hsealed : (s.addFunction f).2.Sealed M I := hs.addFunction hH.lasting hf
    have hnew : Follows M I P (fun t ref => t.Plain ref) s
        fun _ => Action.update fun s => s.addFunction f :=
      follows_aside (Store.aside_addFunction (Or.inl ⟨_, rfl⟩)) hsealed fun ref t ht => by
        obtain ⟨rfl, rfl⟩ := Outcome.done.inj ht
        exact s.plain_addFunction nofun
    exact hnew.bind fun ref t _ _ ht href =>
      follows_pure ht (Node.among_ofValue (Value.among_function.mpr href) _)
  · exact follows_mention hs _ _ _

omit hH

variable (h : Recur.Follows M I P self)

include h

theorem follows_expandConditional (hs : s.Sealed M I) (hscope : Bindings.Among s.Plain scope)
    (hops : ∀ n ∈ operands, n.Among s.Plain) :
    Follows M I P Stands s fun stop => expandConditional (self stop) scope operands := by
  simp only [expandConditional_eq]
  split
  · rename_i test yes
    refine (h.eval hs hscope (hops test (by simp))).bind fun v t _ hst ht _ => ?_
    have hyes : Stands t yes := Node.among_mono hst.plain (hops yes (by simp))
    split
    · exact follows_pure ht (Node.among_ofFault _)
    · refine follows_pure ht ?_
      split_ifs
      · exact hyes
      · exact Node.among_ofValue (Value.among_atom _) _
  · rename_i test yes no
    refine (h.eval hs hscope (hops test (by simp))).bind fun v t _ hst ht _ => ?_
    have hyes : Stands t yes := Node.among_mono hst.plain (hops yes (by simp))
    have hno : Stands t no := Node.among_mono hst.plain (hops no (by simp))
    split
    · exact follows_pure ht (Node.among_ofFault _)
    · refine follows_pure ht ?_
      split_ifs
      · exact hyes
      · exact hno
  · exact follows_malformed hs _ _

theorem follows_eagerly : ∀ (ns : List Node) (last : Value) {s : Store σ}, s.Sealed M I →
    Bindings.Among s.Plain scope → (∀ n ∈ ns, n.Among s.Plain) → s.Knows last →
    Follows M I P Store.Knows s fun stop => eagerly (self stop) scope last ns
  | [], _, s, hs, _, _, hlast => follows_pure hs hlast
  | n :: ns, _, s, hs, hscope, hns, _ => by
    rw [List.forall_mem_cons] at hns
    refine (h.eval hs hscope hns.1).bind fun v t _ hst ht hv => ?_
    exact follows_eagerly ns v ht (hscope.mono hst.plain)
      (fun n hn => Node.among_mono hst.plain (hns.2 n hn)) hv

include hH

/-- What a form is replaced by refers to no binder, if it is no definition. -/
theorem follows_expand {x : Transformer} (hx : x.expander.Among s.Plain)
    (hplain : x.expander ≠ .special .define ∧ x.expander ≠ .special .defineForm)
    (hs : s.Sealed M I) (hscope : Bindings.Among s.Plain scope)
    (hops : ∀ n ∈ operands, n.Among s.Plain) :
    Follows M I P Stands s fun stop => expand M (self stop) x operands scope := by
  unfold expand
  cases hexp : x.expander with
  | special f =>
    cases f with
    | conditional => exact follows_expandConditional h hs hscope hops
    | define => exact absurd hexp hplain.1
    | lambda => exact follows_expandLambda hH hs hscope hops
    | cond =>
      dsimp only
      rw [expandCond_eq]
      exact follows_pure hs (stands_conditionals hs hops)
    | quote => exact follows_expandQuote hs hops
    | defineForm => exact absurd hexp hplain.2
  | userDefined y =>
    rw [hexp] at hx
    refine Follows.legend (follows_ofExcept hs fun n hn => ?_)
    rw [Transformation.rewrite_eq_ok hn]
    rcases Transformation.madeOf_written hx hops (s.legend M.host) with hmade | ⟨message, hmessage⟩
    · exact hmade
    · exact hmessage ▸ Node.among_malformed _ _
  | lastOperand =>
    refine follows_pure hs ?_
    cases hlast : operands.getLast? with
    | none => exact .absent
    | some n => exact hops n (List.mem_of_getLast? hlast)
  | eager =>
    refine (follows_eagerly h operands .nil hs hscope hops (Value.among_atom _)).bind
      fun v t _ _ ht hv => follows_pure ht (.leaf ⟨hv, nofun⟩)

omit hH

/-- Whatever refers to no binder is evaluated in place of a form. -/
theorem follows_replaced {x : Option (Moment σ × Alarm) → Action σ Node}
    (hscope : Bindings.Among s.Plain scope) (hx : Follows M I P Stands s x) :
    Follows M I P Store.Knows s fun stop => x stop >>= (self stop).eval scope :=
  hx.bind fun _ _ _ hst ht hn => h.eval ht (hscope.mono hst.plain) hn

end Forms

/-! ### Definitions -/

section Definitions

variable (h : Recur.Follows M I P self) {head : Token} {ref : Nat} {x : Transformer}
  (hhead : M.headValue scope head s = .ok (.transformer ref)) (hx : s.transformers[ref]? = some x)

include h hhead hx

/-- A definition is evaluated in place of its form, as the call of a new binder with a tree. -/
theorem follows_binding {name : Token} {operand tree : Node} {t : Store σ}
    (hdef : x.expander = .special .define ∨ x.expander = .special .defineForm)
    (hid : name.type = .identifier) (hname : name.text ≠ [])
    (hexpand : ∀ self : Recur σ, M.expand self x [.leaf name, operand] scope s =
      binding name tree t)
    (hP : P ⟨scope, .form [.leaf head, .leaf name, operand], s⟩)
    (hscope : Bindings.Among s.Plain scope) (haside : s.Aside t) (ht : t.Sealed M I)
    (hI : Host.Lasting I)
    (htree : tree.Among t.Plain) :
    Follows M I P Store.Knows s fun stop =>
      M.expand (self stop) x [.leaf name, operand] scope >>= (self stop).eval scope := by
  let binder : Function := ⟨"def", .binder name.text⟩
  let u := (t.addFunction binder).2
  let call : Node := .form [.ofValue (.function t.functions.size) name.pos, tree]
  have hgrows : t.Grows u := (t.extends_addFunction binder).grows
  have hu : u.Sealed M I := ht.addFunction hI trivial
  have hbound : s.Aside u := haside.trans (Store.aside_addFunction (Or.inr ⟨_, rfl⟩))
  have hintroduces : M.Introduces ⟨scope, .form [.leaf head, .leaf name, operand], s⟩ name.text
      t.functions.size name.pos tree u := by
    refine ⟨⟨head, name, operand, ref, x, rfl, hid, rfl, hhead, hx, hdef, hexpand⟩, ?_, ?_⟩
    · cases hold : s.functions[t.functions.size]? with
      | none => rfl
      | some f => simpa using haside.functions _ f hold
    · simp [u, Store.addFunction, binder]
  have hdone : Follows M I P (fun w n => w = u ∧ n = call) s fun stop =>
      M.expand (self stop) x [.leaf name, operand] scope := by
    refine Follows.congr (follows_aside (x := fun _ => .done call u) hbound hu ?_)
      fun stop => hexpand (self stop)
    intro n w hw
    obtain ⟨rfl, rfl⟩ := Outcome.done.inj hw
    exact ⟨rfl, rfl⟩
  refine hdone.bind fun n w _ hsw _ hresult => ?_
  obtain ⟨rfl, rfl⟩ := hresult
  exact h.define hP hintroduces hname hu (hscope.mono hsw.plain)
    (Node.among_mono hgrows.plain htree)

variable {operands : List Node} (hP : P ⟨scope, .form (.leaf head :: operands), s⟩)
  (hs : s.Sealed M I) (hscope : Bindings.Among s.Plain scope)
  (hops : ∀ n ∈ operands, n.Among s.Plain) (hH : M.host.Discreet I)

include hP hs hscope hops hH

/-- A `def` form is a definition, or it is refused. -/
theorem follows_defined (hdef : x.expander = .special .define) :
    Follows M I P Store.Knows s fun stop =>
      M.expand (self stop) x operands scope >>= (self stop).eval scope := by
  have hexpand (self : Recur σ) : M.expand self x operands scope = expandDefine M operands := by
    rw [expand, hdef]
  rw [expandDefine_eq] at hexpand
  split at hexpand
  · rename_i target value
    cases hsome : target.identifier? with
    | some name =>
      obtain ⟨rfl, hid⟩ := Node.identifier_eq_some hsome
      have hname : name.Among s.Plain := Node.madeOf_leaf.mp (hops _ (by simp))
      simp only [Node.identifier?_leaf hid] at hexpand
      exact follows_binding h hhead hx (Or.inl hdef) hid (hname.name hid)
        (fun self => congrFun (hexpand self) s) hP hscope (.refl s) hs hH.lasting
        (hops value (by simp))
    | none =>
      simp only [hsome] at hexpand
      simp only [hexpand]
      exact follows_replaced h hscope (follows_mention hs _ _ _)
  · simp only [hexpand]
    exact follows_replaced h hscope (follows_malformed hs _ _)

/-- A `defsyntax` form is a definition of a new transformer, or it is refused. -/
theorem follows_definedForm (hdef : x.expander = .special .defineForm) :
    Follows M I P Store.Knows s fun stop =>
      M.expand (self stop) x operands scope >>= (self stop).eval scope := by
  have hexpand (self : Recur σ) : M.expand self x operands scope = expandDefineForm M operands := by
    rw [expand, hdef]
  rw [expandDefineForm_eq] at hexpand
  split at hexpand
  · rename_i target spec
    cases hsome : target.identifier? with
    | some name =>
      obtain ⟨rfl, hid⟩ := Node.identifier_eq_some hsome
      have hname : name.Among s.Plain := Node.madeOf_leaf.mp (hops _ (by simp))
      simp only [Node.identifier?_leaf hid] at hexpand
      cases hcompile : Transformation.compile (s.legend M.host) name.text spec with
      | ok y =>
        let t := (s.addTransformer ⟨name.text, .userDefined y⟩).2
        have hy : Expander.Among s.Plain (.userDefined y) :=
          Transformation.madeOf_compile (hops spec (by simp)) hcompile
        have ht : t.Sealed M I := hs.addTransformer hH.lasting hy
        let tree : Node := .ofValue (.transformer s.transformers.size) name.pos
        have htree : tree.Among t.Plain := Node.among_ofValue (Value.among_transformer _) _
        have hbinding (self : Recur σ) :
            M.expand self x [.leaf name, spec] scope s = binding name tree t := by
          rw [hexpand]
          simp only [bind, Action.bind, Action.legend, compiled, hcompile]
          rfl
        exact follows_binding h hhead hx (Or.inr hdef) hid (hname.name hid) hbinding hP hscope
          (Store.aside_addTransformer _) ht hH.lasting htree
      | error alarm =>
        simp only [hexpand]
        refine follows_replaced h hscope (Follows.legend ?_)
        simp only [hcompile]
        exact follows_compiled hs Node.among_ofFault (by simp)
    | none =>
      simp only [hsome] at hexpand
      simp only [hexpand]
      exact follows_replaced h hscope (follows_mention hs _ _ _)
  · simp only [hexpand]
    exact follows_replaced h hscope (follows_malformed hs _ _)

end Definitions

/-! ### Forms and trees -/

section Trees

variable (h : Recur.Follows M I P self) (hH : M.host.Discreet I) (hs : s.Sealed M I)
  (hscope : Bindings.Among s.Plain scope) {operands : List Node}
  (hops : ∀ n ∈ operands, n.Among s.Plain)

include hs hscope in
theorem knows_headValue {t : Token} (ht : t.Among s.Plain) :
    IfOk Store.Knows s (M.headValue scope t s) := by
  unfold headValue
  split_ifs
  · exact ifOk_ok.mpr Value.among_absent
  · exact knows_resolve hs hscope ht
  · exact ifOk_ok.mpr ht.value

include h hH hs hscope hops

/-- A form that a transformer replaces. -/
theorem follows_transformed {head : Token} {ref : Nat} {x : Transformer}
    (hhead : M.headValue scope head s = .ok (.transformer ref))
    (hx : s.transformers[ref]? = some x) (hP : P ⟨scope, .form (.leaf head :: operands), s⟩) :
    Follows M I P Store.Knows s fun stop =>
      M.expand (self stop) x operands scope >>= (self stop).eval scope := by
  by_cases hdefine : x.expander = .special .define
  · exact follows_defined h hhead hx hP hs hscope hops hH hdefine
  · by_cases hform : x.expander = .special .defineForm
    · exact follows_definedForm h hhead hx hP hs hscope hops hH hform
    · exact follows_replaced h hscope
        (follows_expand hH h (hs.transformers ref x hx) ⟨hdefine, hform⟩ hs hscope hops)

theorem follows_form {head : Node} (hhead : head.Among s.Plain)
    (hP : P ⟨scope, .form (head :: operands), s⟩) :
    Follows M I P Store.Knows s fun stop => M.form (self stop) scope head operands := by
  by_cases hleaf : ∃ t, head = .leaf t
  · obtain ⟨t, rfl⟩ := hleaf
    have ht : t.Among s.Plain := Node.madeOf_leaf.mp hhead
    cases hvalue : M.headValue scope t s with
    | error f =>
      exact Follows.congr (follows_pure hs (Value.among_error f))
        fun stop => M.form_unresolved (self stop) hvalue operands
    | ok f =>
      by_cases htransformer : ∃ ref, f = .transformer ref
      · obtain ⟨ref, rfl⟩ := htransformer
        cases hx : s.transformers[ref]? with
        | none =>
          refine Follows.congr (follows_raise hs (.native missingValue)) fun stop => ?_
          rw [M.form_transformer (self stop) hvalue, hx]
          rfl
        | some x =>
          refine Follows.congr (follows_transformed h hH hs hscope hops hvalue hx hP)
            fun stop => ?_
          rw [M.form_transformer (self stop) hvalue, hx]
      · have hplain : ∀ ref, f ≠ .transformer ref := fun ref hf => htransformer ⟨ref, hf⟩
        refine Follows.congr ?_ fun stop => M.form_plain (self stop) hvalue hplain operands
        refine (follows_arguments h operands hs hscope hops).bind fun r u _ hsu hu hr => ?_
        cases r with
        | error f => exact follows_pure hu (Value.among_error f)
        | ok args =>
          have hf : u.Knows f := (knows_headValue hs hscope ht f hvalue).mono hsu.plain
          exact follows_applyLeaf h hH hu (ht.mono hsu.plain) hf (ifOk_ok.mp hr) _
  · have hcompound : ∀ t, head ≠ .leaf t := fun t ht => hleaf ⟨t, ht⟩
    simp only [M.form_compound _ hcompound]
    refine (follows_arguments h operands hs hscope hops).bind fun r u _ hsu hu hr => ?_
    cases r with
    | error f => exact follows_pure hu (Value.among_error f)
    | ok args =>
      have hhead' : head.Among u.Plain := Node.among_mono hsu.plain hhead
      refine (h.eval hu (hscope.mono hsu.plain) hhead').bind fun f w _ huw hw hf => ?_
      have hargs : ∀ v ∈ args, w.Knows v := fun v hv => (ifOk_ok.mp hr v hv).mono huw.plain
      split
      · exact follows_pure hw (Value.among_error _)
      · exact follows_apply h hH hw hf hargs _

omit hops

/-- The evaluation of a tree follows a course, if its moment is one at which something has
begun. -/
theorem follows_eval : ∀ {n : Node}, n.Among s.Plain → P ⟨scope, n, s⟩ →
    Follows M I P Store.Knows s fun stop => M.eval (self stop) scope n
  | .absent, _, _ => follows_pure hs (Value.among_atom _)
  | .form [], _, _ => follows_pure hs (Value.among_atom _)
  | .form (head :: operands), hn, hP => by
    have hitems := Node.madeOf_form.mp hn
    rw [List.forall_mem_cons] at hitems
    exact follows_form h hH hs hscope hitems.2 hitems.1 hP
  | .leaf t, hn, _ => by
    refine Follows.congr ?_ fun stop => form_ofFunction (self stop) scope _ t.pos (.leaf t) s
    refine (follows_argument h hs hscope hn).bind fun r u _ _ hu hr => ?_
    cases r with
    | error f => exact follows_pure hu (Value.among_error f)
    | ok v =>
      have hargs : ∀ w ∈ [v], u.Knows w := by simpa using ifOk_ok.mp hr
      exact (follows_call h hH hu hu.identity hargs).bind
        fun w _ _ _ ht hw => follows_pure ht (hw.located _)

end Trees

/-! ### All of evaluation -/

variable {depth : Nat}

theorem breakIf_call (M : Machine σ) (depth : Nat) (stop : Option (Moment σ × Alarm)) :
    (M.breakIf (depth + 1) stop).call = M.call (M.breakIf depth stop) := by
  cases stop <;> rfl

theorem breakIf_zero (M : Machine σ) (stop : Option (Moment σ × Alarm)) :
    M.breakIf 0 stop = ⟨fun _ _ => exhausted, fun _ _ => exhausted⟩ := by
  cases stop <;> rfl

/-- An evaluation comes to the moment at which it starts, and goes on from there. -/
theorem follows_moment {n : Node}
    (h : Follows M I (fun m => P m ∨ m = ⟨scope, n, s⟩) Store.Knows s
      fun stop => M.eval (M.breakIf depth stop) scope n) :
    Follows M I P Store.Knows s fun stop => (M.breakIf (depth + 1) stop).eval scope n := by
  obtain ⟨es, hcourse, hpassed, hother⟩ := h.course
  let now : Moment σ := ⟨scope, n, s⟩
  have hthere (alarm : Alarm) :
      (M.breakIf (depth + 1) (some (now, alarm))).eval scope n s = .raised alarm s := if_pos rfl
  have helse {m : Moment σ} (hm : now ≠ m) (alarm : Alarm) :
      (M.breakIf (depth + 1) (some (m, alarm))).eval scope n s =
        M.eval (M.breakIf depth (some (m, alarm))) scope n s := if_neg hm
  refine ⟨⟨.moment now :: es, ?_, fun m hm alarm => ?_, fun m hm alarm => ?_⟩, h.sealed, h.result⟩
  · have hnow : M.Course P s [.moment now] s := .moment (m := now) .start
    refine hnow.trans (hcourse.mono fun m hm => ?_)
    exact hm.imp id fun hm => by simpa [now] using hm
  · by_cases hnow : now = m
    · rw [← hnow]
      exact hthere alarm
    · have hmes : .moment m ∈ es := (List.mem_cons.mp hm).resolve_left fun he =>
        hnow (Event.moment.inj he).symm
      exact (helse hnow alarm).trans (hpassed m hmes alarm)
  · rw [List.mem_cons, not_or] at hm
    have hnow : now ≠ m := fun hnow => hm.1 (hnow ▸ rfl)
    exact (helse hnow alarm).trans (hother m hm.2 alarm)

/-- The call of a binder with the value of a tree is a definition. -/
theorem follows_made {m : Moment σ} {name : Text} {binder : Nat} {p : Position} {tree : Node}
    {t : Store σ} {v : Value} (hP : P m) (hm : M.Introduces m name binder p tree s)
    (hname : name ≠ []) (hargument : argument (M.recur depth) m.scope tree s = .done (.ok v) t)
    (hgrows : s.Grows t) (ht : t.Sealed M I) (hv : t.Knows v)
    (hI : Host.Lasting I) :
    Follows M I P Store.Knows t fun stop => M.call (M.breakIf depth stop) binder [v] := by
  obtain ⟨f, hf, hbody⟩ := hgrows.bodies binder _ hm.binder
  have hcall (self : Recur σ) : M.call self binder [v] t = .done v.orNil (t.define name v) :=
    call_binder hf hbody v
  have hmade : Binding.Made M ⟨m, name, v⟩ t (t.define name v) := by
    refine ⟨⟨binder, p, tree, s, depth, hm, hargument, hcall _⟩, hname, fun ref href => ?_⟩
    obtain rfl : v = .function ref := href
    obtain ⟨b, hb, -⟩ := Value.among_function.mp hv
    obtain ⟨g, hg, -⟩ := Option.map_eq_some_iff.mp hb
    exact (Array.getElem?_eq_some_iff.mp hg).1
  have hdefines : t.Grows (t.define name v) := (t.extends_define name v).grows
  have hfollows : Follows M I P Store.Knows t
      fun _ => fun _ => .done v.orNil (t.define name v) := by
    refine ⟨⟨[.define ⟨m, name, v⟩], .define .start hmade (Or.inl hP), ?_, fun _ _ _ => rfl⟩,
      ht.define hI name hv, fun w u hw => ?_⟩
    · exact fun m' hm' => absurd hm' (by simp)
    · obtain ⟨rfl, rfl⟩ := Outcome.done.inj hw
      exact (hv.mono hdefines.plain).orNil
  exact hfollows.congr fun stop => hcall _

/-- **Evaluation follows a course**, however deep it may nest. -/
theorem follows_recur (hH : M.host.Discreet I) :
    ∀ (depth : Nat) (P : Moment σ → Prop), Recur.Follows M I P (M.breakIf depth)
  | 0, P => by
    simp only [funext (breakIf_zero M)]
    exact ⟨fun hs _ _ => follows_exhausted hs, fun _ _ _ hs _ _ => follows_exhausted hs,
      fun hs _ _ => follows_exhausted hs⟩
  | depth + 1, P => by
    refine ⟨fun {s scope n} hs hscope hn => ?_, fun {s m name binder p tree} hP hm hname hs hscope
      htree => ?_, fun hs href hargs => ?_⟩
    · exact follows_moment (follows_eval (follows_recur hH depth _) hH hs hscope hn (Or.inr rfl))
    · refine follows_moment ?_
      refine Follows.congr ?_ fun stop =>
        form_ofFunction (M.breakIf depth stop) m.scope binder p tree s
      refine (follows_argument (follows_recur hH depth _) hs hscope htree).bind
        fun r t hdone hst ht hr => ?_
      cases r with
      | error f => exact follows_pure ht (Value.among_error f)
      | ok v =>
        exact (follows_made (Or.inl hP) hm hname hdone hst ht (ifOk_ok.mp hr) hH.lasting).bind
          fun w u _ _ hu hw => follows_pure hu (hw.located _)
    · simp only [breakIf_call]
      exact follows_call (follows_recur hH depth P) hH hs href hargs

/-- **The course of an evaluation**: its moments are those that the evaluation passes. -/
theorem course_of_eval (hH : M.host.Discreet I) (hs : s.Sealed M I)
    (hscope : Bindings.Among s.Plain scope) {n : Node} (hn : n.Among s.Plain) (depth : Nat) :
    (∃ es, M.Course P s es ((M.recur depth).eval scope n s).store ∧
      ∀ m, .moment m ∈ es ↔ M.Passes depth ⟨scope, n, s⟩ m) ∧
    ((M.recur depth).eval scope n s).store.Sealed M I := by
  have hfollows := (follows_recur hH depth P).eval hs hscope hn
  obtain ⟨es, hcourse, hpassed, hother⟩ := hfollows.course
  refine ⟨⟨es, hcourse, fun m => ⟨hpassed m, fun hpasses => ?_⟩⟩, hfollows.sealed⟩
  -- anywhere else evaluation would have to end with every alarm at once
  by_contra hm
  have hevery (alarm : Alarm) : (M.recur depth).eval scope n s = .raised alarm m.store :=
    (hother m hm alarm).symm.trans (hpasses alarm)
  have htwo : Outcome.raised (.native []) m.store = .raised (.native [0]) m.store :=
    (hevery _).symm.trans (hevery _)
  simp at htwo

end Machine

end LittleLisp
