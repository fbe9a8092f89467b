/-
# Evaluation keeps a policy

One lemma for each step of the machine says that a store which follows a policy is left
following it, however the step ends: with a result, an alarm or out of fuel. Steps are
written against the two ways in which evaluation comes back to itself, so the lemmas
assume that these keep the policy (`Policy.RecurHeld`), and the induction on the depth of
evaluation is done once (`Policy.recurHeld_recur`).

Key definitions: `Policy.RecurHeld`, `Policy.Checks`.
Key theorems: `Policy.keeps_arguments`, `Policy.keeps_call`, `Policy.keeps_expand`,
`Policy.recurHeld_recur`.
-/
import LittleLisp.Proofs.Policy.Pattern

namespace LittleLisp

namespace Policy

variable {σ : Type} {P : Policy σ} {M : Machine σ}

/-- The ways in which evaluation comes back to itself keep the policy. -/
structure RecurHeld (P : Policy σ) (M : Machine σ) (r : Recur σ) : Prop where
  eval : ∀ {s scope n}, P.StoreHeld M s → P.ScopeHeld s.extent scope →
    P.NodeResult s.extent n → P.Keeps M P.Result s.extent (r.eval scope n s)
  call : ∀ {s ref args}, P.StoreHeld M s → P.holds s.extent (.function ref) →
    (∀ v ∈ args, P.Held s.extent v) → P.Keeps M P.Result s.extent (r.call ref args s)

/-- A result that satisfies `Q`, or a fault that may be reported. -/
def Checks {α : Type} (P : Policy σ) (Q : Extent → α → Prop) (e : Extent) : Checked α → Prop
  | .ok a => Q e a
  | .error f => P.reports f

/-- Values that may all be held. -/
def AllHeld (P : Policy σ) (e : Extent) (vs : List Value) : Prop := ∀ v ∈ vs, P.Held e v

variable (hP : P.Admits M) {self : Recur σ} (hself : P.RecurHeld M self) {s : Store σ}

/-! ### Names and arguments -/

section Arguments

include hP

theorem checks_resolve (hs : P.StoreHeld M s) {scope : Scope} (hscope : P.ScopeHeld s.extent scope)
    {t : Token} (ht : P.TokenHeld s.extent t) :
    P.Checks P.Held s.extent (Machine.resolve scope t s) := by
  unfold Machine.resolve
  split
  · rename_i v hv
    exact hscope.find? hv
  · split
    · rename_i v hv
      exact hs.bindings.find? hv
    · split
      · exact hP.internal (by simp [Fault.placed])
      · exact hP.internal (by simp [Fault.placed])
      · rename_i hundefined
        rcases ht with ⟨_, name, hname⟩ | ht
        · exact absurd hname (hundefined name)
        · exact ht

include hself

theorem keeps_argument (hs : P.StoreHeld M s) {scope : Scope} (hscope : P.ScopeHeld s.extent scope)
    {n : Node} (hn : P.NodeResult s.extent n) :
    P.Keeps M (P.Checks P.Held) s.extent (Machine.argument self scope n s) := by
  have heval : ∀ n, (∀ t, n ≠ .leaf t) → P.NodeResult s.extent n →
      P.Keeps M (P.Checks P.Held) s.extent (Machine.argument self scope n s) := by
    intro n hleaf hn
    rw [Machine.argument_tree self scope hleaf]
    refine (hself.eval hs hscope hn).bind fun v t _ ht hv => ?_
    split
    · exact keeps_pure ht (reports_of_result hP hv)
    · rename_i hne
      exact keeps_pure ht (hv.held hne)
  rcases hn with hn | ⟨f, rfl, hf⟩
  · cases hn with
    | absent => exact heval _ (by simp) (Or.inl .absent)
    | form hns => exact heval _ (by simp) (Or.inl (.form hns))
    | @leaf t ht =>
      by_cases hid : t.type = .identifier
      · rw [Machine.argument_identifier self scope hid]
        exact keeps_done hs (checks_resolve hP hs hscope ht)
      · have hv : P.Held s.extent t.value := ht.resolve_left fun h => hid h.1
        by_cases herr : t.type = .error
        · by_cases hf : ∃ f, t.value = .error f
          · obtain ⟨f, hf⟩ := hf
            rw [Machine.argument_error self scope herr hf]
            exact keeps_pure hs (reports_of_held hP (hf ▸ hv))
          · rw [Machine.argument_invalid self scope herr fun f h => hf ⟨f, h⟩]
            exact keeps_pure hs (hP.internal (by simp [Fault.placed]))
        · rw [Machine.argument_literal self scope hid herr]
          exact keeps_pure hs (hv.orNil hP)
  · exact keeps_pure hs hf

theorem keeps_arguments {scope : Scope} : ∀ (ns : List Node) {s : Store σ}, P.StoreHeld M s →
    P.ScopeHeld s.extent scope → (∀ n ∈ ns, P.NodeResult s.extent n) →
      P.Keeps M (P.Checks P.AllHeld) s.extent (Machine.arguments self scope ns s)
  | [], s, hs, _, _ => keeps_pure hs (by simp [Checks, AllHeld])
  | n :: ns, s, hs, hscope, hns => by
    unfold Machine.arguments
    refine (keeps_argument hP hself hs hscope (hns n List.mem_cons_self)).bind
      fun x t hst ht hx => ?_
    split
    · exact keeps_pure ht hx
    · rename_i v
      have hrest : ∀ m ∈ ns, P.NodeResult t.extent m :=
        fun m hm => (hns m (List.mem_cons_of_mem _ hm)).mono hP hst
      refine (keeps_arguments ns ht (hscope.mono hP hst) hrest).bind fun y u htu hu hy => ?_
      split
      · exact keeps_pure hu hy
      · exact keeps_pure hu (List.forall_mem_cons.mpr ⟨Held.mono hP htu hx, hy⟩)

end Arguments

/-! ### Calls -/

section Calls

include hP hself

theorem keeps_body {scope : Scope} : ∀ (ns : List Node) {last : Value} {s : Store σ},
    P.StoreHeld M s → P.ScopeHeld s.extent scope → (∀ n ∈ ns, P.NodeHeld s.extent n) →
      P.Result s.extent last → P.Keeps M P.Result s.extent (Machine.body self scope last ns s)
  | [], last, s, hs, _, _, hlast => by
    unfold Machine.body
    exact keeps_pure hs hlast
  | n :: ns, last, s, hs, hscope, hns, _ => by
    unfold Machine.body
    refine (hself.eval hs hscope (Or.inl (hns n List.mem_cons_self))).bind fun v t hst ht hv => ?_
    split
    · exact keeps_pure ht hv
    · exact keeps_body ns ht (hscope.mono hP hst)
        (fun m hm => (hns m (List.mem_cons_of_mem _ hm)).mono hP hst) hv

theorem keeps_callClosure (hs : P.StoreHeld M s) {c : Closure}
    (hc : P.BodyHeld s.extent (.closure c)) {args : List Value} (hargs : P.AllHeld s.extent args)
    (ref : Nat) : P.Keeps M P.Result s.extent (Machine.callClosure M self ref c args s) := by
  have hscope : P.ScopeHeld s.extent (c.scope.insertAll c.params args) :=
    hc.2.insertAll c.params args hargs
  rw [Machine.callClosure_eq]
  split_ifs
  · exact keeps_bind_legend (keeps_pure hs (result_fail hP (by decide) _))
  · cases hrest : c.rest with
    | none => exact keeps_body hP hself c.body hs hscope hc.1 (Or.inl (held_atom hP _))
    | some name =>
      refine (keeps_stamped_list hs fun v hv => hargs v (List.mem_of_mem_drop hv)).bind
        fun more t hst ht hmore => ?_
      exact keeps_body hP hself c.body ht ((hscope.mono hP hst).insert hmore name)
        (fun n hn => (hc.1 n hn).mono hP hst) (Or.inl (held_atom hP _))

omit hP in
/-- A script keeps the policy if everything it passes on does. -/
theorem keeps_script : ∀ (script : Script σ Value) {s : Store σ}, P.StoreHeld M s →
    P.ScriptHeld script s.extent → P.Keeps M P.Result s.extent (Machine.script M self script s)
  | .done state v, s, hs, ⟨hstate, hv⟩ => by
    unfold Machine.script
    exact keeps_bind_host (keeps_settled (hs.withHost hstate) hv)
  | .raise state alarm, s, hs, ⟨hstate, halarm⟩ => by
    unfold Machine.script
    exact keeps_bind_host (keeps_raise (hs.withHost hstate) halarm)
  | .call state f args next, s, hs, ⟨hstate, hf, hargs, hnext⟩ => by
    unfold Machine.script
    refine keeps_bind_host ((hself.call (hs.withHost hstate) hf hargs).bind
      fun v t hst ht hv => ?_)
    exact keeps_script _ ht (hnext _ v _ hst ht.host hv)
  | .print state v next, s, hs, ⟨hstate, hv, hnext⟩ => by
    unfold Machine.script
    refine keeps_bind_host (keeps_bind_legend ?_)
    cases htext : v.text (Store.legend { s with host := state } M.host) with
    | ok t => exact keeps_script (next t) (hs.withHost hstate) (hnext t)
    | error message => exact keeps_raise (hs.withHost hstate) (hv _ _ htext)
  | .nameOf state f next, s, hs, ⟨hstate, hnext⟩ => by
    unfold Machine.script
    exact keeps_bind_host (keeps_bind_legend
      (keeps_script _ (hs.withHost hstate) (hnext _)))

theorem keeps_call (hs : P.StoreHeld M s) {ref : Nat} (href : P.holds s.extent (.function ref))
    {args : List Value} (hargs : P.AllHeld s.extent args) :
    P.Keeps M P.Result s.extent (Machine.call M self ref args s) := by
  unfold Machine.call
  refine keeps_bind_store ?_
  cases hf : s.functions[ref]? with
  | none => exact keeps_raise hs (hP.missing href (Array.getElem?_eq_none_iff.mp hf))
  | some f =>
    have hbody := hs.functions f (Array.mem_of_getElem? hf)
    cases hb : f.body with
    | builtin b =>
      simp only [hb]
      have hanswer := answers_builtin hP hargs b (L := s.legend M.host)
      refine (keeps_ofExcept (Q := P.Result) hs ?_ ?_).bind fun v t _ ht hv => ?_
      · intro v hv
        rwa [hv] at hanswer
      · intro message hm
        rwa [hm] at hanswer
      · split_ifs
        · exact keeps_stamped ht hv
        · exact keeps_pure ht (hv.orNil hP)
    | closure c =>
      simp only [hb]
      refine (keeps_callClosure hP hself hs (hb ▸ hbody) hargs ref).bind fun v t _ ht hv => ?_
      exact keeps_pure ht (hv.orNil hP)
    | binder name =>
      simp only [hb, Machine.callBinder_eq]
      split
      · rename_i v
        have hv : P.Held s.extent v := hargs v (by simp)
        have he := extent_define s name v
        change P.Keeps M P.Result s.extent (.done v.orNil (s.define name v))
        rw [← he] at hv ⊢
        exact keeps_done (hs.define (he ▸ hv) name) (Or.inl (hv.orNil hP))
      · exact keeps_pure hs (result_fail hP (by decide) _)
    | native name =>
      simp only [hb]
      rw [hb] at hbody
      refine (keeps_script hself _ hs (hP.native hbody hargs hs.host)).bind
        fun v t _ ht hv => ?_
      exact keeps_pure ht (hv.orNil hP)

theorem keeps_getKeyword (hs : P.StoreHeld M s) {keyword : Value}
    (hk : P.Held s.extent keyword) {args : List Value} (hargs : P.AllHeld s.extent args)
    (p : Position) :
    P.Keeps M P.Result s.extent (Machine.getKeyword M self keyword args p s) := by
  have hcall : ∀ args, P.AllHeld s.extent args → P.Keeps M P.Result s.extent ((do
      let v ← Machine.call M self M.getter args
      return v.located p) s) := by
    intro args hargs
    refine (keeps_call hP hself hs hs.core.getter hargs).bind fun v t _ ht hv => ?_
    exact keeps_pure ht (hv.located hP p)
  rw [Machine.getKeyword_eq]
  split
  · rename_i coll
    exact hcall _ (by simpa [AllHeld] using ⟨hargs coll (by simp), hk⟩)
  · rename_i coll default
    exact hcall _ (by simpa [AllHeld] using ⟨hargs coll (by simp), hk, hargs default (by simp)⟩)
  · exact keeps_bind_legend (keeps_pure hs (result_placed hP (by decide) _ _))

omit hself in
/-- A fault whose message mentions a value. -/
theorem keeps_mention (hs : P.StoreHeld M s) {v : Value}
    (hv : v = .absent ∨ P.Held s.extent v) {kind : FaultKind} (hk : kind ≠ .native)
    (p : Position) (message : Text → List Text) :
    P.Keeps M P.Result s.extent ((do
      let L ← Action.legend M.host
      let t ← Action.ofExcept (v.described L)
      return Value.error (.placed kind p (message t))) s) := by
  refine keeps_bind_legend ((keeps_ofExcept (Q := fun _ _ => True) hs (fun _ _ => trivial)
    fun m hm => ?_).bind fun t u _ hu _ => keeps_pure hu (result_placed hP hk _ _))
  rcases hv with rfl | hv
  · simp [Value.described] at hm
  · exact raises_of_described hP hv hm

theorem keeps_apply (hs : P.StoreHeld M s) {f : Value} (hf : f = .absent ∨ P.Result s.extent f)
    {args : List Value} (hargs : P.AllHeld s.extent args) (p : Position) :
    P.Keeps M P.Result s.extent (Machine.apply M self f args p s) := by
  unfold Machine.apply
  split
  · exact keeps_pure hs (hf.resolve_left (by simp))
  · exact keeps_getKeyword hP hself hs (held_atom hP _) hargs p
  · rename_i ref
    have href : P.Held s.extent (.function ref) :=
      (hf.resolve_left (by simp)).held (by simp)
    refine (keeps_call hP hself hs (href.of_part rfl) hargs).bind fun v t _ ht hv => ?_
    exact keeps_pure ht (hv.located hP p)
  · rename_i hne _ _
    exact keeps_mention hP hs (hf.imp id fun h => h.held hne) (by decide) _ _

/-! ### Methods -/

/-- A method call keeps the policy: what is not exported or not validated does not run. -/
theorem keeps_method (hs : P.StoreHeld M s) {o : Object} (ho : P.holds s.extent (.object o))
    {args : List Value} (hargs : P.AllHeld s.extent args) (name : Text) :
    P.Keeps M (fun e r => ∀ v, r = some v → P.Result e v) s.extent
      (Machine.method M self name o args s) := by
  by_cases havail : ∃ found run, M.host.Offers o name found run
  · obtain ⟨found, run, hfound⟩ := havail
    rw [Machine.method_available M self hfound]
    cases hcheck : M.refusal (s.legend M.host) found.rules args with
    | error message => exact keeps_raise hs (hP.failure ho hcheck)
    | ok refusal =>
      cases refusal with
      | some f =>
        have hf : P.reports f := hP.refusal ho hcheck
        exact keeps_done hs fun w hw => Option.some.inj hw ▸ Result.fault hf
      | none =>
        have hscript := hP.method ho hfound hcheck hargs hs.host
        refine (keeps_script hself _ hs hscript).bind fun v t _ ht hv => ?_
        exact keeps_pure ht fun w hw => Option.some.inj hw ▸ hv.orNil hP
  · rw [Machine.method_unavailable M self fun found run h => havail ⟨found, run, h⟩]
    exact keeps_pure hs (by simp)

theorem keeps_methodCall (hs : P.StoreHeld M s) {args : List Value}
    (hargs : P.AllHeld s.extent args) (t : Token) (p : Position) :
    P.Keeps M P.Result s.extent (Machine.methodCall M self t args p s) := by
  rw [Machine.methodCall_eq]
  dsimp only
  split
  · exact keeps_pure hs (result_placed hP (by decide) _ _)
  · rename_i o args
    have ho : P.Held s.extent (.object o) := hargs _ List.mem_cons_self
    have hrest : P.AllHeld s.extent args := fun v hv => hargs v (List.mem_cons_of_mem _ hv)
    refine (keeps_method hP hself hs (ho.of_part rfl) hrest _).bind fun r t _ ht hr => ?_
    split
    · exact keeps_pure ht ((hr _ rfl).located hP p)
    · exact keeps_bind_legend (keeps_pure ht (result_placed hP (by decide) _ _))
  · exact keeps_mention hP hs (Or.inr (hargs _ List.mem_cons_self)) (by decide) _ _

end Calls

/-! ### Special forms -/

section SpecialForms

include hP

omit hP in
theorem nodeHeld_ofValue {e : Extent} {v : Value} (hv : P.Held e v) (hne : ∀ f, v ≠ .error f)
    (p : Position) : P.NodeHeld e (.ofValue v p) := by
  cases v with
  | error f => exact absurd rfl (hne f)
  | _ => exact .leaf (Or.inr hv)

theorem nodeResult_ofValue {e : Extent} {v : Value} (hv : P.Result e v) (p : Position) :
    P.NodeResult e (.ofValue v p) := by
  cases v with
  | error f => exact NodeResult.fault (reports_of_result hP hv)
  | _ => exact Or.inl (nodeHeld_ofValue (hv.held (by simp)) (by simp) p)

omit hP in
theorem keeps_compiled {α : Type} {Q : α → Prop} (hs : P.StoreHeld M s) {x : Compiled α}
    (hx : P.CompiledHeld Q x) {k : α → Action σ Node}
    (hk : ∀ a, Q a → P.Keeps M P.NodeResult s.extent (k a s)) :
    P.Keeps M P.NodeResult s.extent (Machine.compiled x k s) := by
  unfold Machine.compiled
  split
  · exact hk _ hx
  · exact keeps_pure hs (NodeResult.fault hx)
  · rename_i alarm hne
    cases alarm with
    | fault f => exact absurd rfl (hne f)
    | native message => exact keeps_raise hs hx

/-- A report whose message mentions a tree. -/
theorem keeps_malformed_mention (hs : P.StoreHeld M s) {n : Node} (hn : P.NodeHeld s.extent n)
    (p : Position) (message : Text → List Text) :
    P.Keeps M P.NodeResult s.extent ((do
      let t ← Machine.mention M n
      return Node.malformed p (message t)) s) := by
  refine Keeps.bind (Q := fun _ _ => True) (keeps_bind_legend ?_)
    fun t u _ hu _ => keeps_pure hu (nodeResult_malformed hP _ _)
  exact keeps_ofExcept hs (fun _ _ => trivial) fun m hm => raises_of_text hP hn hm

theorem keeps_binding (hs : P.StoreHeld M s) (name : Token) {value : Node}
    (hvalue : P.NodeHeld s.extent value) :
    P.Keeps M P.NodeResult s.extent (Machine.binding name value s) := by
  have hb : P.BodyHeld s.extent (.binder name.text) := trivial
  refine (keeps_addFunction hP hs hb).bind fun ref t hst ht href => ?_
  refine keeps_pure ht (Or.inl (.form (List.forall_mem_cons.mpr ⟨?_, ?_⟩)))
  · exact nodeHeld_ofValue (.part rfl href) (by simp) _
  · simpa using hvalue.mono hP hst

theorem keeps_expandDefine (hs : P.StoreHeld M s) {operands : List Node}
    (hops : ∀ n ∈ operands, P.NodeHeld s.extent n) :
    P.Keeps M P.NodeResult s.extent (Machine.expandDefine M operands s) := by
  rw [Machine.expandDefine_eq]
  split
  · rename_i target value
    cases target.identifier? with
    | some name => exact keeps_binding hP hs name (hops value (by simp))
    | none => exact keeps_malformed_mention hP hs (hops target (by simp)) _ _
  · exact keeps_pure hs (nodeResult_malformed hP _ _)

theorem compiled_parameters {e : Extent} (L : Legend) (p : Position) :
    ∀ ns : List Node, (∀ n ∈ ns, P.NodeHeld e n) →
      P.CompiledHeld (fun _ => True) (Machine.parameters L p ns)
  | [], _ => trivial
  | n :: ns, hns => by
    rw [Machine.parameters_cons]
    split
    · exact compiled_fail_mention hP (hns n List.mem_cons_self) L _ _
    · split_ifs
      · split
        · split
          · trivial
          · exact compiled_fail hP _ _
        · exact compiled_fail hP _ _
      · exact (compiled_parameters L p ns fun m hm => hns m (List.mem_cons_of_mem _ hm)).bind
          fun _ _ => trivial

theorem keeps_expandLambda (hs : P.StoreHeld M s) {scope : Scope}
    (hscope : P.ScopeHeld s.extent scope) {operands : List Node}
    (hops : ∀ n ∈ operands, P.NodeHeld s.extent n) :
    P.Keeps M P.NodeResult s.extent (Machine.expandLambda M scope operands s) := by
  rw [Machine.expandLambda_eq]
  split
  · exact keeps_pure hs (nodeResult_malformed hP _ _)
  · rename_i params trees
    have htrees : ∀ n ∈ trees, P.NodeHeld s.extent n :=
      fun n hn => hops n (List.mem_cons_of_mem _ hn)
    have hparams : P.NodeHeld s.extent (.form params) := hops _ List.mem_cons_self
    cases hparams with
    | form hparams =>
      refine keeps_bind_legend (keeps_compiled hs (compiled_parameters hP _ _ _ hparams)
        fun r _ => ?_)
      have hb : P.BodyHeld s.extent (.closure ⟨r.1, r.2, trees, scope⟩) := ⟨htrees, hscope⟩
      refine (keeps_addFunction hP hs hb).bind fun ref t _ ht href => ?_
      exact keeps_pure ht (Or.inl (nodeHeld_ofValue (.part rfl href) (by simp) _))
  · exact keeps_malformed_mention hP hs (hops _ List.mem_cons_self) _ _

/-- The clauses of a `cond` become a tree made of their parts, or the report of a fault. -/
theorem nodeResult_nested {e : Extent} (hcore : P.CoreHeld M e) {otherwise : Node}
    (ho : P.NodeHeld e otherwise) : ∀ cs : List Node, (∀ c ∈ cs, P.NodeHeld e c) →
      (∀ n, Machine.nested otherwise cs = .ok n → P.NodeHeld e n) ∧
        ∀ n, Machine.nested otherwise cs = .error n → P.NodeResult e n
  | [], _ => by simpa [Machine.nested] using ho
  | c :: cs, hcs => by
    obtain ⟨hok, herr⟩ :=
      nodeResult_nested hcore ho cs fun d hd => hcs d (List.mem_cons_of_mem _ hd)
    unfold Machine.nested
    cases hrest : Machine.nested otherwise cs with
    | error n =>
      refine ⟨by simp, fun m hm => ?_⟩
      rw [← Except.error.inj hm]
      exact herr n hrest
    | ok others =>
      dsimp only
      split
      · rename_i test trees
        have hc : P.NodeHeld e (.form (test :: trees)) := hcs _ List.mem_cons_self
        cases hc with
        | form hparts =>
          have hchosen : P.NodeHeld e (.form (.ofValue (.function Store.doRef)
              (Node.form (test :: trees)).position :: trees)) :=
            .form (List.forall_mem_cons.mpr
              ⟨nodeHeld_ofValue (.part rfl hcore.sequence) (by simp) _,
                fun n hn => hparts n (List.mem_cons_of_mem _ hn)⟩)
          split_ifs
          · refine ⟨fun n hn => ?_, by simp⟩
            rw [← Except.ok.inj hn]
            exact hchosen
          · refine ⟨by simp, fun n hn => ?_⟩
            rw [← Except.error.inj hn]
            exact nodeResult_malformed hP _ _
          · refine ⟨fun n hn => ?_, by simp⟩
            rw [← Except.ok.inj hn]
            refine .form ?_
            simp only [List.forall_mem_cons]
            exact ⟨nodeHeld_ofValue (.part rfl hcore.conditional) (by simp) _,
              hparts test List.mem_cons_self, hchosen, hok others hrest, by simp⟩
      · refine ⟨by simp, fun n hn => ?_⟩
        rw [← Except.error.inj hn]
        exact nodeResult_malformed hP _ _

theorem nodeResult_conditionals {e : Extent} (hcore : P.CoreHeld M e) {operands : List Node}
    (hops : ∀ n ∈ operands, P.NodeHeld e n) : P.NodeResult e (Machine.conditionals operands) := by
  have ho : P.NodeHeld e (.ofValue .nil (Node.positionOfAll operands)) :=
    nodeHeld_ofValue (held_atom hP _) (by simp) _
  obtain ⟨hok, herr⟩ := nodeResult_nested hP hcore ho operands hops
  unfold Machine.conditionals
  split
  · rename_i n hn
    exact Or.inl (hok n hn)
  · rename_i n hn
    exact herr n hn

theorem keeps_expandQuote (hs : P.StoreHeld M s) {operands : List Node}
    (hops : ∀ n ∈ operands, P.NodeHeld s.extent n) :
    P.Keeps M P.NodeResult s.extent (Machine.expandQuote operands s) := by
  rw [Machine.expandQuote_eq]
  split
  · rename_i n
    have hn : P.NodeHeld s.extent n := hops n (by simp)
    refine (keeps_settled hs (Or.inl (held_datum hP hn))).bind fun v t _ ht hv => ?_
    exact keeps_pure ht (nodeResult_ofValue hP hv _)
  · exact keeps_pure hs (nodeResult_malformed hP _ _)

theorem keeps_expandDefineForm (hs : P.StoreHeld M s) {operands : List Node}
    (hops : ∀ n ∈ operands, P.NodeHeld s.extent n) :
    P.Keeps M P.NodeResult s.extent (Machine.expandDefineForm M operands s) := by
  rw [Machine.expandDefineForm_eq]
  split
  · rename_i target spec
    cases target.identifier? with
    | some name =>
      refine keeps_bind_legend (keeps_compiled hs
        (compiled_transformation hP _ name.text (hops spec (by simp))) fun x hx => ?_)
      refine (keeps_addTransformer hP hs hx).bind fun ref t _ ht href => ?_
      exact keeps_binding hP ht name (nodeHeld_ofValue (.part rfl href) (by simp) _)
    | none => exact keeps_malformed_mention hP hs (hops target (by simp)) _ _
  · exact keeps_pure hs (nodeResult_malformed hP _ _)

end SpecialForms

section Expansions

include hP hself

theorem keeps_expandConditional (hs : P.StoreHeld M s) {scope : Scope}
    (hscope : P.ScopeHeld s.extent scope) {operands : List Node}
    (hops : ∀ n ∈ operands, P.NodeHeld s.extent n) :
    P.Keeps M P.NodeResult s.extent (Machine.expandConditional self scope operands s) := by
  rw [Machine.expandConditional_eq]
  split
  · rename_i test yes
    refine (hself.eval hs hscope (Or.inl (hops test (by simp)))).bind fun v t hst ht hv => ?_
    split
    · exact keeps_pure ht (NodeResult.fault (reports_of_result hP hv))
    · refine keeps_pure ht (Or.inl ?_)
      split_ifs
      · exact (hops yes (by simp)).mono hP hst
      · exact nodeHeld_ofValue (held_atom hP _) (by simp) _
  · rename_i test yes no
    refine (hself.eval hs hscope (Or.inl (hops test (by simp)))).bind fun v t hst ht hv => ?_
    split
    · exact keeps_pure ht (NodeResult.fault (reports_of_result hP hv))
    · refine keeps_pure ht (Or.inl ?_)
      split_ifs
      · exact (hops yes (by simp)).mono hP hst
      · exact (hops no (by simp)).mono hP hst
  · exact keeps_pure hs (nodeResult_malformed hP _ _)

theorem keeps_eagerly {scope : Scope} : ∀ (ns : List Node) {last : Value} {s : Store σ},
    P.StoreHeld M s → P.ScopeHeld s.extent scope → (∀ n ∈ ns, P.NodeHeld s.extent n) →
      P.Result s.extent last → P.Keeps M P.Result s.extent (Machine.eagerly self scope last ns s)
  | [], last, s, hs, _, _, hlast => by
    unfold Machine.eagerly
    exact keeps_pure hs hlast
  | n :: ns, last, s, hs, hscope, hns, _ => by
    unfold Machine.eagerly
    refine (hself.eval hs hscope (Or.inl (hns n List.mem_cons_self))).bind fun v t hst ht hv => ?_
    exact keeps_eagerly ns ht (hscope.mono hP hst)
      (fun m hm => (hns m (List.mem_cons_of_mem _ hm)).mono hP hst) hv

/-- What a form is replaced by may be held, or it reports a fault. -/
theorem keeps_expand (hs : P.StoreHeld M s) {x : Transformer}
    (hx : P.ExpanderHeld s.extent x.expander) {operands : List Node}
    (hops : ∀ n ∈ operands, P.NodeHeld s.extent n) {scope : Scope}
    (hscope : P.ScopeHeld s.extent scope) :
    P.Keeps M P.NodeResult s.extent (Machine.expand M self x operands scope s) := by
  unfold Machine.expand
  cases hkind : x.expander with
  | special f =>
    cases f with
    | conditional => exact keeps_expandConditional hP hself hs hscope hops
    | define => exact keeps_expandDefine hP hs hops
    | lambda => exact keeps_expandLambda hP hs hscope hops
    | cond =>
      dsimp only
      rw [Machine.expandCond_eq]
      exact keeps_pure hs (nodeResult_conditionals hP hs.core hops)
    | quote => exact keeps_expandQuote hP hs hops
    | defineForm => exact keeps_expandDefineForm hP hs hops
  | userDefined t =>
    rw [hkind] at hx
    refine keeps_bind_legend (keeps_ofExcept hs (fun n hn => ?_) fun _ => raises_of_rewrite hx)
    rw [Transformation.rewrite_eq_ok hn]
    exact nodeResult_written hP hx.1 hops _
  | lastOperand =>
    refine keeps_pure hs (Or.inl ?_)
    cases hlast : operands.getLast? with
    | none => exact .absent
    | some n => exact hops n (List.mem_of_getLast? hlast)
  | eager =>
    rw [hkind] at hx
    refine (keeps_eagerly hP hself operands hs hscope hops (Or.inl (held_atom hP _))).bind
      fun v t _ ht hv => keeps_pure ht (Or.inl (.leaf (Or.inr ?_)))
    rcases hv with hv | ⟨f, rfl, hf⟩
    · exact hv
    · exact .part rfl (hP.eager hx hf)

end Expansions

/-! ### Forms and trees -/

section Forms

include hP

/-- What a leaf in head position stands for: nothing, if it stands for itself, or something that may
be held. -/
theorem checks_headValue (hs : P.StoreHeld M s) {scope : Scope}
    (hscope : P.ScopeHeld s.extent scope) {t : Token} (ht : P.TokenHeld s.extent t) :
    P.Checks (fun e v => v = .absent ∨ P.Held e v) s.extent (M.headValue scope t s) := by
  unfold Machine.headValue
  split_ifs with hself hid
  · exact Or.inl rfl
  · have hres := checks_resolve hP hs hscope ht
    cases hv : Machine.resolve scope t s with
    | ok v => exact Or.inr (by rwa [hv] at hres)
    | error f => rwa [hv] at hres
  · exact Or.inr (ht.resolve_left fun h => hid h.1)

include hself

theorem keeps_applyLeaf (hs : P.StoreHeld M s) {t : Token} (ht : P.TokenHeld s.extent t)
    {f : Value} (hf : f = .absent ∨ P.Held s.extent f) {args : List Value}
    (hargs : P.AllHeld s.extent args) (p : Position) :
    P.Keeps M P.Result s.extent (Machine.applyLeaf M self t f args p s) := by
  unfold Machine.applyLeaf
  split_ifs with hk hm
  · exact keeps_getKeyword hP hself hs (ht.resolve_left fun h => by simp [h.1] at hk) hargs p
  · exact keeps_methodCall hP hself hs hargs t p
  · exact keeps_apply hP hself hs (hf.imp id Or.inl) hargs p

/-- What follows the evaluation of the arguments starts from values that may be held. -/
theorem keeps_bind_arguments (hs : P.StoreHeld M s) {scope : Scope}
    (hscope : P.ScopeHeld s.extent scope) {operands : List Node}
    (hops : ∀ n ∈ operands, P.NodeResult s.extent n) {k : List Value → Action σ Value}
    (hk : ∀ args t, s.extent ≤ t.extent → P.StoreHeld M t → P.AllHeld t.extent args →
      P.Keeps M P.Result t.extent (k args t)) :
    P.Keeps M P.Result s.extent ((do
      match ← Machine.arguments self scope operands with
      | .error f => return Value.error f
      | .ok args => k args) s) := by
  refine (keeps_arguments hP hself operands hs hscope hops).bind fun x t hst ht hx => ?_
  cases x with
  | error f => exact keeps_pure ht (Result.fault hx)
  | ok args => exact hk args t hst ht hx

theorem keeps_form (hs : P.StoreHeld M s) {scope : Scope} (hscope : P.ScopeHeld s.extent scope)
    {head : Node} (hhead : P.NodeHeld s.extent head) {operands : List Node}
    (hops : ∀ n ∈ operands, P.NodeHeld s.extent n) :
    P.Keeps M P.Result s.extent (Machine.form M self scope head operands s) := by
  have hargs : ∀ n ∈ operands, P.NodeResult s.extent n := fun n hn => Or.inl (hops n hn)
  by_cases hleaf : ∃ t, head = .leaf t
  · obtain ⟨t, rfl⟩ := hleaf
    cases hhead with
    | leaf ht =>
      have hvalue := checks_headValue hP hs hscope ht
      cases hf : M.headValue scope t s with
      | error f =>
        rw [hf] at hvalue
        rw [Machine.form_unresolved M self hf]
        exact keeps_done hs (Result.fault hvalue)
      | ok f =>
        rw [hf] at hvalue
        by_cases hform : ∃ ref, f = .transformer ref
        · obtain ⟨ref, rfl⟩ := hform
          have hheld : P.Held s.extent (.transformer ref) := hvalue.resolve_left (by simp)
          rw [Machine.form_transformer M self hf]
          cases hx : s.transformers[ref]? with
          | none =>
            exact keeps_raise hs
              (hP.missingForm (hheld.of_part rfl) (Array.getElem?_eq_none_iff.mp hx))
          | some x =>
            have hxheld := hs.transformers x (Array.mem_of_getElem? hx)
            refine (keeps_expand hP hself hs hxheld hops hscope).bind fun n u hsu hu hn => ?_
            exact hself.eval hu (hscope.mono hP hsu) hn
        · rw [Machine.form_plain M self hf fun ref h => hform ⟨ref, h⟩]
          refine keeps_bind_arguments hP hself hs hscope hargs fun args u hsu hu hargs => ?_
          exact keeps_applyLeaf hP hself hu (ht.mono hP hsu)
            (hvalue.imp id (Held.mono hP hsu)) hargs _
  · rw [Machine.form_compound M self fun t h => hleaf ⟨t, h⟩]
    refine keeps_bind_arguments hP hself hs hscope hargs fun args t hst ht hargs => ?_
    refine (hself.eval ht (hscope.mono hP hst) (Or.inl (hhead.mono hP hst))).bind
      fun f u htu hu hf => ?_
    split
    · exact keeps_pure hu hf
    · exact keeps_apply hP hself hu (Or.inr hf) (fun v hv => (hargs v hv).mono hP htu) _

/-- A leaf alone is the argument of `identity`; it may be the report of a fault. -/
theorem keeps_eval (hs : P.StoreHeld M s) {scope : Scope} (hscope : P.ScopeHeld s.extent scope)
    {n : Node} (hn : P.NodeResult s.extent n) :
    P.Keeps M P.Result s.extent (Machine.eval M self scope n s) := by
  have hleaf : ∀ t : Token, P.NodeResult s.extent (.leaf t) →
      P.Keeps M P.Result s.extent (Machine.eval M self scope (.leaf t) s) := by
    intro t ht
    refine keeps_bind_store (keeps_bind_arguments hP hself hs hscope ?_
      fun args u hsu hu hargs => ?_)
    · simpa using ht
    · have hid : P.Held u.extent (.function Store.identityRef) := .part rfl hu.core.identity
      exact keeps_applyLeaf hP hself hu (Or.inr hid) (Or.inr hid) hargs _
  rcases hn with hn | ⟨f, rfl, hf⟩
  · cases hn with
    | absent => exact keeps_pure hs (Or.inl (held_atom hP _))
    | leaf ht => exact hleaf _ (Or.inl (.leaf ht))
    | @form ns hns =>
      cases ns with
      | nil => exact keeps_pure hs (Or.inl (held_atom hP _))
      | cons head operands =>
        exact keeps_form hP hself hs hscope (hns head List.mem_cons_self)
          fun n hn => hns n (List.mem_cons_of_mem _ hn)
  · exact hleaf _ (NodeResult.fault hf)

end Forms

include hP in
/-- Evaluation of any depth keeps the policy. -/
theorem recurHeld_recur : ∀ depth, P.RecurHeld M (M.recur depth)
  | 0 => ⟨fun hs _ _ => ⟨le_rfl, hs, trivial⟩, fun hs _ _ => ⟨le_rfl, hs, trivial⟩⟩
  | depth + 1 =>
    have ih := recurHeld_recur depth
    ⟨fun hs hscope hn => keeps_eval hP ih hs hscope hn,
      fun hs href hargs => keeps_call hP ih hs href hargs⟩

end Policy

end LittleLisp
