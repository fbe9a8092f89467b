/-
# Rules of evaluation

What the forms of the language evaluate to, in any local scope and however deep evaluation has
to nest: one rule for each sort of head that the prelude makes use of. A rule asks what the head
means in the store in which the form is met. What a function or a transformer does never
changes, so a name that is still bound to what it was bound to still means the same.

Key definitions: `Machine.Heads`, `Machine.Means`, `Machine.withArguments`.
Key theorems: `Machine.unbounded_userDefined`, `Machine.Means.conditional`,
`Machine.unbounded_function`, `Machine.unbounded_lambda`, `Machine.unbounded_closure`,
`Machine.unbounded_builtin`.
-/
import LittleLisp.Proofs.Nesting

namespace LittleLisp

variable {σ : Type}

namespace Value

theorem ne_error {v : Value} (h : v.isError = false) (f : Fault) : v ≠ .error f := by
  rintro rfl
  simp [isError] at h

theorem located_eq_self {v : Value} (h : v.isError = false) (p : Position) : v.located p = v := by
  cases v with
  | error f => simp [isError] at h
  | _ => rfl

theorem isError_orNil (v : Value) : v.orNil.isError = v.isError := by
  cases v <;> rfl

theorem isError_stamped (v : Value) (n : Nat) : (v.stamped n).1.isError = v.isError := by
  unfold stamped
  split_ifs
  · cases v <;> rfl
  · rfl

end Value

namespace Store

/-- The store after a new list has been made. -/
def made (items : List Value) (s : Store σ) : Store σ :=
  { s with stamps := ((Value.list 0 items).stamped s.stamps).2 }

theorem grows_made (items : List Value) (s : Store σ) : s.Grows (s.made items) :=
  ⟨fun _ f hf => ⟨f, hf, rfl⟩, fun _ _ hx => hx⟩

end Store

theorem Action.stamped_list (items : List Value) (s : Store σ) :
    ∃ k, Action.stamped (.list 0 items) s = .done (.list k items) (s.made items) := by
  unfold Action.stamped Action.update Store.made Value.stamped
  split_ifs
  · exact ⟨_, rfl⟩
  · exact ⟨0, rfl⟩

namespace Machine

open Outcome (Same)

variable {M : Machine σ} {scope : Scope} {s t : Store σ} {head : Token} {name : Text}

/-! ### Heads -/

variable (M scope) in
/-- A leaf in head position that is spelled like a name of the module: an identifier, no method and
no local name. -/
structure Heads (name : Text) (head : Token) : Prop where
  type : head.type = .identifier
  text : head.text = name
  method : M.isMethodName head = false
  free : scope.find? name = none

/-- Under the default sigil, most names are no methods. -/
theorem isMethodName_eq_false (hsigil : M.effectiveSigil = defaultSigil)
    (hname : defaultSigil.extendedBy name = false) (htext : head.text = name) :
    M.isMethodName head = false := by
  simp [isMethodName, hsigil, htext, hname]

theorem heads_of_identifier (hsigil : M.effectiveSigil = defaultSigil)
    (hname : defaultSigil.extendedBy name = false) (htype : head.type = .identifier)
    (htext : head.text = name) (hfree : scope.find? name = none) : M.Heads scope name head :=
  ⟨htype, htext, isMethodName_eq_false hsigil hname htext, hfree⟩

theorem Heads.headValue (h : M.Heads scope name head) {v : Value} (hv : s.find? name = some v) :
    M.headValue scope head s = .ok v := by
  obtain ⟨htype, rfl, hmethod, hfree⟩ := h
  have hres : resolve scope head s = .ok v := resolve_ok_iff.mpr (Or.inr ⟨hfree, Or.inl hv⟩)
  simp [Machine.headValue, htype, hmethod, hres]

variable (M scope) in
/-- A leaf in head position that stands for a transformer: as a name of the module, as a local name,
or as a value that the leaf itself carries. -/
def Means (s : Store σ) (e : Expander) (head : Token) : Prop :=
  ∃ ref x, M.headValue scope head s = .ok (.transformer ref) ∧ s.transformers[ref]? = some x ∧
    x.expander = e

theorem Heads.means {e : Expander} (h : M.Heads scope name head) (he : s.expander? name = some e) :
    M.Means scope s e head := by
  obtain ⟨ref, x, hfind, hx, hexp⟩ := Store.expander?_eq_some.mp he
  exact ⟨ref, x, h.headValue hfind, hx, hexp⟩

/-- A form with a transformer as its head is replaced, and then evaluated. -/
theorem Means.eval {e : Expander} (h : M.Means scope s e head) (operands : List Node) :
    ∃ x : Transformer, x.expander = e ∧
      Same (M.unbounded.eval scope (.form (.leaf head :: operands)) s)
        ((do
          let n ← expand M M.unbounded x operands scope
          M.unbounded.eval scope n) s) := by
  obtain ⟨ref, x, hhead, hx, hexp⟩ := h
  refine ⟨x, hexp, (M.unbounded_eval _ _ _).trans (.of_eq ?_)⟩
  change form M M.unbounded scope (.leaf head) operands s = _
  rw [form_transformer M _ hhead, hx]

theorem unbounded_transformer {e : Expander} (hhead : M.Heads scope name head)
    (he : s.expander? name = some e) (operands : List Node) :
    ∃ x : Transformer, x.expander = e ∧
      Same (M.unbounded.eval scope (.form (.leaf head :: operands)) s)
        ((do
          let n ← expand M M.unbounded x operands scope
          M.unbounded.eval scope n) s) :=
  (hhead.means he).eval operands

/-- A leaf that stands for a value is neither a keyword nor a method. -/
theorem plain_of_headValue {v : Value} (h : M.headValue scope head s = .ok v) (hv : v ≠ .absent) :
    head.type ≠ .keyword ∧ M.isMethodName head = false := by
  by_cases hself : head.type = .keyword ∨ M.isMethodName head
  · rw [Machine.headValue, if_pos hself] at h
    exact absurd (Except.ok.inj h).symm hv
  · simpa using hself

/-- A form with a function as its head: the arguments are collected, and then the function is
called. -/
theorem unbounded_applied {ref : Nat} (hkeyword : head.type ≠ .keyword)
    (hhead : M.headValue scope head s = .ok (.function ref))
    (hmethod : M.isMethodName head = false) (operands : List Node) :
    Same (M.unbounded.eval scope (.form (.leaf head :: operands)) s)
      ((do
        match ← arguments M.unbounded scope operands with
        | .error f => return Value.error f
        | .ok args =>
          let v ← M.unbounded.call ref args
          return v.located (Node.form (.leaf head :: operands)).position) s) := by
  refine (M.unbounded_eval _ _ _).trans ?_
  change Same (form M M.unbounded scope (.leaf head) operands s) _
  rw [form_plain M _ hhead (by simp)]
  refine Action.same_bind (.refl _) fun x u _ => ?_
  cases x with
  | error f => exact .refl _
  | ok args =>
    have hleaf : applyLeaf M M.unbounded head (.function ref) args
        (Node.form (.leaf head :: operands)).position = (do
          let v ← M.call M.unbounded ref args
          return v.located (Node.form (.leaf head :: operands)).position) := by
      simp [applyLeaf, hkeyword, hmethod, apply]
    simp only [hleaf]
    exact Action.same_bind (M.unbounded_call ref args u).symm fun v w _ => .refl _

theorem unbounded_function {ref : Nat} (htype : head.type = .identifier)
    (hhead : M.headValue scope head s = .ok (.function ref))
    (hmethod : M.isMethodName head = false) (operands : List Node) :
    Same (M.unbounded.eval scope (.form (.leaf head :: operands)) s)
      ((do
        match ← arguments M.unbounded scope operands with
        | .error f => return Value.error f
        | .ok args =>
          let v ← M.unbounded.call ref args
          return v.located (Node.form (.leaf head :: operands)).position) s) :=
  unbounded_applied (by simp [htype]) hhead hmethod operands

/-! ### Operands in turn -/

section Operands

variable {self : Recur σ} {n : Node} {ns : List Node} {k : List Value → Action σ Value}

/-- Goes on with the values of operands, unless one of them fails. -/
def withArguments (self : Recur σ) (scope : Scope) (ns : List Node)
    (k : List Value → Action σ Value) : Action σ Value := do
  match ← arguments self scope ns with
  | .error f => return .error f
  | .ok vs => k vs

/-- Operands are evaluated one after the other, up to the first that fails. -/
theorem withArguments_cons :
    withArguments self scope (n :: ns) k = (do
      match ← argument self scope n with
      | .error f => return Value.error f
      | .ok v => withArguments self scope ns fun vs => k (v :: vs)) := by
  unfold withArguments
  rw [arguments, Action.bind_assoc]
  refine congrArg (argument self scope n >>= ·) (funext fun x => ?_)
  cases x with
  | error f => rfl
  | ok v =>
    rw [Action.bind_assoc]
    refine congrArg (arguments self scope ns >>= ·) (funext fun y => ?_)
    cases y <;> rfl

/-- An operand that is no leaf is evaluated first. -/
theorem withArguments_tree (hn : ∀ t, n ≠ .leaf t) :
    withArguments self scope (n :: ns) k = (do
      match ← self.eval scope n with
      | .error f => return Value.error f
      | v => withArguments self scope ns fun vs => k (v :: vs)) := by
  rw [withArguments_cons, argument_tree self scope hn, Action.bind_assoc]
  refine congrArg (self.eval scope n >>= ·) (funext fun v => ?_)
  cases v <;> rfl

end Operands

/-! ### Leaves -/

theorem unbounded_ofFault (f : Fault) (s : Store σ) :
    M.unbounded.eval scope (.ofFault f) s = .done (.error f) s :=
  (M.unbounded_eval_iff (by simp [Outcome.result])).mpr ⟨1, eval_ofFault scope f s⟩

/-- A leaf evaluates to the value that it gives as an argument, with nothing evaluated inside it. -/
theorem eval_leaf {self : Recur σ} (hid : s.builtin? Store.identityRef = some .identity) {t : Token}
    {v : Value} (hv : Gives self scope (.leaf t) s v s) (herror : v.isError = false) :
    M.eval self scope (.leaf t) s = .done v.orNil s := by
  obtain ⟨text, hf⟩ := Store.builtin?_eq_some.mp hid
  have hargs : Collected self scope [.leaf t] s [v] s := .cons hv .nil
  have hcall : M.call self Store.identityRef [v] s = .done v.orNil s :=
    call_builtin M _ rfl hf rfl
  have hhead := headValue_ofFunction (M := M) scope Store.identityRef t.pos s
  change form M self scope
    (.leaf ⟨.literal, t.pos, [], .function Store.identityRef⟩) [.leaf t] s = _
  rw [form_plain M _ hhead (by simp), Action.bind_done (arguments_of_collected hargs)]
  change ((do
    let w ← M.call self Store.identityRef [v]
    return w.located _ : Action σ Value)) s = _
  rw [Action.bind_done hcall]
  exact congrArg (Outcome.done · s) (Value.located_eq_self (v.isError_orNil.trans herror) _)

theorem unbounded_leaf (hid : s.builtin? Store.identityRef = some .identity) {t : Token} {v : Value}
    (hv : Gives M.unbounded scope (.leaf t) s v s) (herror : v.isError = false) :
    M.unbounded.eval scope (.leaf t) s = .done v.orNil s :=
  Outcome.same_done_iff.mp ((M.unbounded_eval _ _ _).trans (.of_eq (eval_leaf hid hv herror)))

/-- A leaf with a value of its own evaluates to it. -/
theorem eval_literal {self : Recur σ} (hid : s.builtin? Store.identityRef = some .identity)
    {t : Token} (htype : t.type ≠ .identifier) (hreport : t.type ≠ .error)
    (hvalue : t.value.isError = false) :
    M.eval self scope (.leaf t) s = .done t.value.orNil s := by
  rw [eval_leaf hid (.literal htype hreport) (t.value.isError_orNil.trans hvalue)]
  cases t.value <;> rfl

theorem unbounded_literal (hid : s.builtin? Store.identityRef = some .identity) {t : Token}
    (htype : t.type ≠ .identifier) (hreport : t.type ≠ .error) (hvalue : t.value.isError = false) :
    M.unbounded.eval scope (.leaf t) s = .done t.value.orNil s :=
  Outcome.same_done_iff.mp
    ((M.unbounded_eval _ _ _).trans (.of_eq (eval_literal hid htype hreport hvalue)))

/-! ### Special forms -/

/-- A user-defined form is replaced by what its clauses say. -/
theorem unbounded_userDefined {x : Transformation} (hhead : M.Heads scope name head)
    (hx : s.expander? name = some (.userDefined x)) (hbounded : x.Bounded)
    (operands : List Node) :
    Same (M.unbounded.eval scope (.form (.leaf head :: operands)) s)
      (M.unbounded.eval scope (x.expand (s.legend M.host) operands) s) := by
  obtain ⟨y, hy, hsame⟩ := unbounded_transformer hhead hx operands
  refine hsame.trans (.of_eq ?_)
  have hexpand : expand M M.unbounded y operands scope s =
      .done (x.expand (s.legend M.host) operands) s := by
    simp only [expand, hy, bind, Action.bind, Action.legend,
      Transformation.rewrite_of_bounded hbounded, Transformation.expand_of_bounded hbounded]
    rfl
  exact Action.bind_done hexpand

/-- `(if test yes no)` evaluates the test, and then the branch it chooses. -/
theorem Means.conditional (h : M.Means scope s (.special .conditional) head) (test yes no : Node) :
    Same (M.unbounded.eval scope (.form [.leaf head, test, yes, no]) s)
      ((do
        match ← M.unbounded.eval scope test with
        | .error f => return Value.error f
        | v => M.unbounded.eval scope (if v.isTruthy then yes else no)) s) := by
  obtain ⟨y, hy, hsame⟩ := h.eval [test, yes, no]
  refine hsame.trans ?_
  have hexpand : expand M M.unbounded y [test, yes, no] scope =
      expandConditional M.unbounded scope [test, yes, no] := by simp only [expand, hy]
  rw [hexpand, expandConditional_eq, Action.bind_assoc]
  refine Action.same_bind (.refl _) fun v u _ => ?_
  cases v with
  | error f => exact .of_eq (unbounded_ofFault f u)
  | _ => exact .refl _

theorem unbounded_conditional (hhead : M.Heads scope name head)
    (hif : s.expander? name = some (.special .conditional)) (test yes no : Node) :
    Same (M.unbounded.eval scope (.form [.leaf head, test, yes, no]) s)
      ((do
        match ← M.unbounded.eval scope test with
        | .error f => return Value.error f
        | v => M.unbounded.eval scope (if v.isTruthy then yes else no)) s) :=
  (hhead.means hif).conditional test yes no

/-- `(fn (param ...) tree ...)` evaluates to a new function. -/
theorem unbounded_lambda (hhead : M.Heads scope name head)
    (hfn : s.expander? name = some (.special .lambda))
    (hid : s.builtin? Store.identityRef = some .identity) {params : List Token}
    (hparams : ∀ p ∈ params, p.type = .identifier ∧ p.text ≠ "&") (trees : List Node) :
    M.unbounded.eval scope (.form (.leaf head :: .form (params.map .leaf) :: trees)) s =
      .done (.function s.functions.size)
        (s.addFunction ⟨[], .closure ⟨params.map Token.text, none, trees, scope⟩⟩).2 := by
  obtain ⟨y, hy, hsame⟩ := unbounded_transformer hhead hfn (.form (params.map .leaf) :: trees)
  have hids (t : Token) (ht : t ∈ params) : (Node.leaf t).identifier? = some t := by
    simp [Node.identifier?, (hparams t ht).1]
  have htexts : ((params.map Node.leaf).filterMap fun n => n.identifier?.map Token.text) =
      params.map Token.text := by
    rw [List.filterMap_map, ← List.filterMap_eq_map]
    exact List.filterMap_congr fun t ht => by simp [hids t ht]
  have hwords : ∀ n ∈ params.map Node.leaf, ∃ t, n.identifier? = some t ∧ t.text ≠ "&" := by
    simpa using fun t ht => ⟨t, hids t ht, (hparams t ht).2⟩
  have hnames := parameters_of_identifiers (s.legend M.host)
    (Node.positionOfAll (params.map .leaf)) hwords
  rw [htexts] at hnames
  have hexpand : expand M M.unbounded y (.form (params.map .leaf) :: trees) scope s =
      .done (.ofValue (.function s.functions.size) (Node.positionOfAll (params.map .leaf)))
        (s.addFunction ⟨[], .closure ⟨params.map Token.text, none, trees, scope⟩⟩).2 := by
    simp only [expand, hy, expandLambda_eq, bind, Action.bind, Action.legend, hnames, compiled]
    rfl
  rw [Action.bind_done hexpand] at hsame
  refine Outcome.same_done_iff.mp (hsame.trans (.of_eq ?_))
  exact unbounded_literal ((s.extends_addFunction _).builtin? hid) (by simp) (by simp) rfl

/-! ### Functions -/

/-- A body with at least one tree has a value. -/
theorem body_ne_absent : ∀ {ns : List Node} {n : Node} {last v : Value} {s t : Store σ},
    body M.unbounded scope last (n :: ns) s = .done v t → v ≠ .absent
  | ns, n, last, v, s, t, h => by
    unfold body at h
    obtain ⟨w, u, hw, h⟩ := Action.bind_eq_done.mp h
    split at h
    · obtain ⟨rfl, -⟩ := Outcome.done.inj h
      simp
    · cases ns with
      | nil =>
        obtain ⟨rfl, -⟩ := Outcome.done.inj h
        exact unbounded_ne_absent hw
      | cons n' ns => exact body_ne_absent h

/-- So nothing is gained by taking a missing value for `nil`. -/
theorem body_orNil (n : Node) (ns : List Node) (last : Value) (s : Store σ) :
    (do
      let v ← body M.unbounded scope last (n :: ns)
      return v.orNil : Action σ Value) s = body M.unbounded scope last (n :: ns) s := by
  change Action.bind _ _ s = _
  unfold Action.bind
  cases h : body M.unbounded scope last (n :: ns) s with
  | raised alarm t => rfl
  | exhausted t => rfl
  | done v t =>
    have hv : v.orNil = v := by
      cases v with
      | absent => exact absurd rfl (body_ne_absent h)
      | _ => rfl
    exact congrArg (Outcome.done · t) hv

/-- A function of the language evaluates its body, with its parameters bound to the arguments. -/
theorem unbounded_closure {ref : Nat} {f : Function} {c : Closure}
    (hf : s.functions[ref]? = some f) (hbody : f.body = .closure c) (hrest : c.rest = none)
    {args : List Value} (hlength : args.length = c.params.length) :
    Same (M.unbounded.call ref args s)
      ((do
        let v ← body M.unbounded (c.scope.insertAll c.params args) .nil c.body
        return v.orNil) s) := by
  refine (M.unbounded_call ref args s).trans (.of_eq ?_)
  have harity : ¬ (args.length < c.params.length ∨
      c.rest.isNone = true ∧ c.params.length < args.length) := by omega
  have hcall : callClosure M M.unbounded ref c args =
      body M.unbounded (c.scope.insertAll c.params args) .nil c.body := by
    rw [callClosure_eq, if_neg harity, hrest]
  simp only [call, bind, Action.bind, Action.store, hf, hbody, hcall]

/-- The body of a function that is one tree. -/
theorem body_singleton (self : Recur σ) (n : Node) (last : Value) (s : Store σ) :
    body self scope last [n] s = self.eval scope n s := by
  change Action.bind _ _ s = _
  unfold Action.bind
  cases self.eval scope n s with
  | done v t => cases v <;> rfl
  | raised alarm t => rfl
  | exhausted t => rfl

/-- What a built-in function gives: a list or map that it builds is a new one. -/
def given (b : Builtin) (v : Value) : Action σ Value :=
  if b.builds then Action.stamped v else pure v.orNil

/-- There is always a result, and it is no fault if the value is none. -/
theorem given_done (b : Builtin) {v : Value} (h : v.isError = false) (s : Store σ) :
    ∃ w t, given b v s = .done w t ∧ w.isError = false := by
  unfold given
  split_ifs
  · exact ⟨_, _, rfl, (v.isError_stamped _).trans h⟩
  · exact ⟨_, _, rfl, v.isError_orNil.trans h⟩

theorem unbounded_call_builtin {ref : Nat} {f : Function} {b : Builtin} {args : List Value}
    {v : Value} (hf : s.functions[ref]? = some f) (hb : f.body = .builtin b)
    (hv : b.apply (s.legend M.host) args = .ok v) (herror : v.isError = false) :
    M.unbounded.call ref args s = given b v s := by
  obtain ⟨w, t, hw, -⟩ := given_done (σ := σ) b herror s
  have hcall : M.call M.unbounded ref args s = given b v s := by
    simp only [call, bind, Action.bind, Action.store, hf, hb, hv, Action.ofExcept, given]
    rfl
  rw [hw] at hcall ⊢
  exact Outcome.same_done_iff.mp ((M.unbounded_call ref args s).trans (.of_eq hcall))

/-- A built-in function is applied to the values of its operands. -/
theorem unbounded_builtin {b : Builtin} (hhead : M.Heads scope b.name head)
    (hb : s.body? b.name = some (.builtin b)) {operands : List Node} {args : List Value}
    (hargs : Collected M.unbounded scope operands s args t) {v : Value}
    (hv : b.apply (t.legend M.host) args = .ok v) (herror : v.isError = false) :
    M.unbounded.eval scope (.form (.leaf head :: operands)) s = given b v t := by
  obtain ⟨ref, f, hfind, hf, hbody⟩ := Store.body?_eq_some.mp hb
  have hcollected := arguments_of_collected hargs
  obtain ⟨g, hg, hsame⟩ := (grows_arguments hcollected).bodies ref f hf
  have hcall := unbounded_call_builtin (M := M) hg (hsame.trans hbody) hv herror
  obtain ⟨w, u, hw, hplain⟩ := given_done (σ := σ) b herror t
  have heval := unbounded_function hhead.type (hhead.headValue hfind) hhead.method operands
  rw [hw] at hcall ⊢
  rw [Action.bind_done hcollected] at heval
  dsimp only at heval
  rw [Action.bind_done hcall] at heval
  rw [Value.located_eq_self hplain] at heval
  exact Outcome.same_done_iff.mp heval

end Machine

end LittleLisp
