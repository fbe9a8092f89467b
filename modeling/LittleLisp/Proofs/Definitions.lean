/-
# Definitions

What a definition at the top of a source does. `(defsyntax name spec)` binds the name to a new
transformer if the specification is accepted, and `(def name (fn ...))` binds it to a new
function. Both leave all other names alone, and what functions and transformers did before they
still do, so definitions follow one another without getting in each other's way.

A definition comes to nothing if what it defines is no identifier, or if its value ends with a
fault; then the whole tree has a fault as its value.

Key definitions: `Store.Extends`, `Store.expander?`, `Store.body?`, `Machine.Names`,
`Machine.Evades`, `Machine.Faulty`.
Key theorems: `Machine.eval_binder`, `Machine.eval_lambda`, `Machine.run_defineForm`,
`Machine.run_defineLambda`.
-/
import LittleLisp.Proofs.Faults
import LittleLisp.Proofs.ShortCircuit

namespace LittleLisp

variable {σ : Type}

/-! ### What a definition changes -/

namespace Store

/-- The second store comes from the first by new functions and transformers and by binding some
names: all other names, and what functions and transformers do, are as before. -/
structure Extends (names : List Text) (s t : Store σ) : Prop where
  others : ∀ name, name ∉ names → t.find? name = s.find? name
  bodies : ∀ (ref : Nat) (f : Function), s.functions[ref]? = some f →
    ∃ g : Function, t.functions[ref]? = some g ∧ g.body = f.body
  transformers : ∀ (ref : Nat) (x : Transformer), s.transformers[ref]? = some x →
    t.transformers[ref]? = some x

variable {names names' : List Text} {s t u : Store σ}

theorem Extends.trans (h : Extends names s t) (h' : Extends names' t u) :
    Extends (names ++ names') s u where
  others name hname := by
    rw [List.mem_append, not_or] at hname
    rw [h'.others name hname.2, h.others name hname.1]
  bodies ref f hf := by
    obtain ⟨g, hg, hbody⟩ := h.bodies ref f hf
    obtain ⟨k, hk, hbody'⟩ := h'.bodies ref g hg
    exact ⟨k, hk, hbody'.trans hbody⟩
  transformers ref x hx := h'.transformers ref x (h.transformers ref x hx)

theorem extends_addFunction (s : Store σ) (f : Function) :
    Extends [] s (s.addFunction f).2 where
  others _ _ := rfl
  bodies ref g hg := by
    have href : ref ≠ s.functions.size := Nat.ne_of_lt (Array.getElem?_eq_some_iff.mp hg).1
    exact ⟨g, by simp [addFunction, Array.getElem?_push, href, hg], rfl⟩
  transformers _ _ hx := hx

theorem extends_addTransformer (s : Store σ) (x : Transformer) :
    Extends [] s (s.addTransformer x).2 where
  others _ _ := rfl
  bodies ref g hg := ⟨g, hg, rfl⟩
  transformers ref y hy := by
    have href : ref ≠ s.transformers.size := Nat.ne_of_lt (Array.getElem?_eq_some_iff.mp hy).1
    simp [addTransformer, Array.getElem?_push, href, hy]

theorem extends_bind (s : Store σ) (name : Text) (v : Value) :
    Extends [name] s (s.bind name v) where
  others _ hother :=
    Bindings.find?_insert_of_ne (fun h => hother (List.mem_singleton.mpr h)) v s.bindings
  bodies _ f hf := ⟨f, hf, rfl⟩
  transformers _ _ hx := hx

theorem extends_nameFunction (s : Store σ) (ref : Nat) (name : Text) :
    Extends [] s (s.nameFunction ref name) where
  others _ _ := rfl
  bodies i f hf := by
    simp only [nameFunction, Array.getElem?_modify]
    split_ifs with hi
    · exact ⟨_, by rw [hf]; rfl, by dsimp only; split_ifs <;> rfl⟩
    · exact ⟨f, hf, rfl⟩
  transformers _ _ hx := hx

theorem extends_define (s : Store σ) (name : Text) (v : Value) :
    Extends [name] s (s.define name v) := by
  cases v with
  | function ref => exact (extends_nameFunction s ref name).trans (extends_bind _ name _)
  | _ => exact extends_bind s name _

/-- The second store has all functions and transformers of the first, and they do the same. -/
structure Grows (s t : Store σ) : Prop where
  bodies : ∀ (ref : Nat) (f : Function), s.functions[ref]? = some f →
    ∃ g : Function, t.functions[ref]? = some g ∧ g.body = f.body
  transformers : ∀ (ref : Nat) (x : Transformer), s.transformers[ref]? = some x →
    t.transformers[ref]? = some x

theorem Extends.grows (h : Extends names s t) : Grows s t := ⟨h.bodies, h.transformers⟩

theorem Grows.refl (s : Store σ) : Grows s s := ⟨fun _ f hf => ⟨f, hf, rfl⟩, fun _ _ hx => hx⟩

theorem Grows.trans (h : Grows s t) (h' : Grows t u) : Grows s u where
  bodies ref f hf := by
    obtain ⟨g, hg, hbody⟩ := h.bodies ref f hf
    obtain ⟨k, hk, hbody'⟩ := h'.bodies ref g hg
    exact ⟨k, hk, hbody'.trans hbody⟩
  transformers ref x hx := h'.transformers ref x (h.transformers ref x hx)

/-- The special form that a name stands for. -/
def special? (s : Store σ) (name : Text) : Option SpecialForm :=
  match s.find? name with
  | some (.transformer ref) =>
    match s.transformers[ref]? with
    | some ⟨_, .special f⟩ => some f
    | _ => none
  | _ => none

theorem special?_eq_some {name : Text} {f : SpecialForm} :
    s.special? name = some f ↔
      ∃ ref x, s.find? name = some (.transformer ref) ∧ s.transformers[ref]? = some x ∧
        x.expander = .special f := by
  constructor
  · intro h
    unfold special? at h
    split at h
    next ref hfind =>
      split at h
      next text g hx =>
        cases h
        exact ⟨ref, _, hfind, hx, rfl⟩
      next => simp at h
    next => simp at h
  · rintro ⟨ref, ⟨text, expander⟩, hfind, hx, rfl⟩
    simp only [special?, hfind, hx]

theorem Extends.special? (h : Extends names s t) {name : Text} (hname : name ∉ names)
    {f : SpecialForm} (hf : s.special? name = some f) : t.special? name = some f := by
  obtain ⟨ref, x, hfind, hx, hspecial⟩ := special?_eq_some.mp hf
  exact special?_eq_some.mpr
    ⟨ref, x, (h.others name hname).trans hfind, h.transformers ref x hx, hspecial⟩

/-- The built-in function that a reference stands for. -/
def builtin? (s : Store σ) (ref : Nat) : Option Builtin :=
  match s.functions[ref]? with
  | some ⟨_, .builtin b⟩ => some b
  | _ => none

theorem builtin?_eq_some {ref : Nat} {b : Builtin} :
    s.builtin? ref = some b ↔ ∃ name, s.functions[ref]? = some ⟨name, .builtin b⟩ := by
  constructor
  · intro h
    unfold builtin? at h
    split at h
    next name c hf =>
      cases h
      exact ⟨name, hf⟩
    next => simp at h
  · rintro ⟨name, hf⟩
    simp only [builtin?, hf]

theorem Grows.builtin? (h : Grows s t) {ref : Nat} {b : Builtin}
    (hb : s.builtin? ref = some b) : t.builtin? ref = some b := by
  obtain ⟨name, hf⟩ := builtin?_eq_some.mp hb
  obtain ⟨⟨name', body⟩, hg, rfl⟩ := h.bodies ref _ hf
  exact builtin?_eq_some.mpr ⟨name', hg⟩

theorem Extends.builtin? (h : Extends names s t) {ref : Nat} {b : Builtin}
    (hb : s.builtin? ref = some b) : t.builtin? ref = some b :=
  h.grows.builtin? hb

/-- How forms are replaced that a name is the head of. -/
def expander? (s : Store σ) (name : Text) : Option Expander :=
  match s.find? name with
  | some (.transformer ref) => s.transformers[ref]?.map Transformer.expander
  | _ => none

theorem expander?_eq_some {name : Text} {e : Expander} :
    s.expander? name = some e ↔
      ∃ ref x, s.find? name = some (.transformer ref) ∧ s.transformers[ref]? = some x ∧
        x.expander = e := by
  unfold expander?
  split
  · rename_i ref hfind
    simp [hfind]
  · rename_i hfind
    simp only [reduceCtorEq, false_iff, not_exists, not_and]
    exact fun ref _ href => absurd href (hfind ref)

/-- What the function does that a name is bound to. -/
def body? (s : Store σ) (name : Text) : Option Body :=
  match s.find? name with
  | some (.function ref) => s.functions[ref]?.map Function.body
  | _ => none

theorem body?_eq_some {name : Text} {b : Body} :
    s.body? name = some b ↔
      ∃ ref f, s.find? name = some (.function ref) ∧ s.functions[ref]? = some f ∧ f.body = b := by
  unfold body?
  split
  · rename_i ref hfind
    simp [hfind]
  · rename_i hfind
    simp only [reduceCtorEq, false_iff, not_exists, not_and]
    exact fun ref _ href => absurd href (hfind ref)

/-- A name that is bound to the same as before does the same as before. -/
theorem Grows.expander? (h : Grows s t) {name : Text} (hname : t.find? name = s.find? name)
    {e : Expander} (he : s.expander? name = some e) : t.expander? name = some e := by
  obtain ⟨ref, x, hfind, hx, hexp⟩ := expander?_eq_some.mp he
  exact expander?_eq_some.mpr ⟨ref, x, hname.trans hfind, h.transformers ref x hx, hexp⟩

theorem Grows.body? (h : Grows s t) {name : Text} (hname : t.find? name = s.find? name)
    {b : Body} (hb : s.body? name = some b) : t.body? name = some b := by
  obtain ⟨ref, f, hfind, hf, hbody⟩ := body?_eq_some.mp hb
  obtain ⟨g, hg, hsame⟩ := h.bodies ref f hf
  exact body?_eq_some.mpr ⟨ref, g, hname.trans hfind, hg, hsame.trans hbody⟩

theorem find?_define (s : Store σ) (name : Text) (v : Value) :
    (s.define name v).find? name = some v := by
  cases v <;> exact Bindings.find?_insert_self ..

end Store

namespace Machine

open Store (Extends)

variable (M : Machine σ) {s t : Store σ} {depth : Nat} {head : Token}

/-! ### Heads -/

/-- A leaf in head position that stands for a special form. -/
structure Names (s : Store σ) (f : SpecialForm) (head : Token) : Prop where
  type : head.type = .identifier
  method : M.isMethodName head = false
  bound : s.special? head.text = some f

/-- A leaf in head position that stands for itself, a keyword or the name of a method. -/
def Evades (head : Token) : Prop := head.type = .keyword ∨ M.isMethodName head = true

/-- A leaf in head position that stands for nothing. -/
structure Dangling (s : Store σ) (head : Token) : Prop where
  type : head.type = .identifier
  method : M.isMethodName head = false
  free : s.find? head.text = none
  empty : CarriesNothing head

variable {M}

variable (depth) in
/-- A form with a special form as its head is replaced, and then evaluated. -/
theorem Names.exists_expand {f : SpecialForm} (h : M.Names s f head) (operands : List Node) :
    ∃ x : Transformer, x.expander = .special f ∧
      (M.recur (depth + 1)).eval [] (.form (.leaf head :: operands)) s =
        (do
          let n ← expand M (M.recur depth) x operands []
          (M.recur depth).eval [] n) s := by
  obtain ⟨ref, x, hfind, hx, hf⟩ := Store.special?_eq_some.mp h.bound
  have hres : resolve [] head s = .ok (.transformer ref) :=
    resolve_ok_iff.mpr (Or.inr ⟨rfl, Or.inl hfind⟩)
  have hvalue : M.headValue [] head s = .ok (.transformer ref) := by
    simp [headValue, h.type, h.method, hres]
  refine ⟨x, hf, ?_⟩
  change form M (M.recur depth) [] (.leaf head) operands s = _
  rw [form_transformer M _ hvalue, hx]

/-- If the replacement is known, it takes the place of the form. -/
theorem Names.eval {f : SpecialForm} (h : M.Names s f head) {operands : List Node} {n : Node}
    (hn : ∀ x : Transformer, x.expander = .special f →
      expand M (M.recur depth) x operands [] s = .done n t) :
    (M.recur (depth + 1)).eval [] (.form (.leaf head :: operands)) s =
      (M.recur depth).eval [] n t := by
  obtain ⟨x, hx, heval⟩ := h.exists_expand depth operands
  rw [heval]
  simp only [bind, Action.bind, hn x hx]

theorem Names.extends {f : SpecialForm} (h : M.Names s f head) (ht : Extends [] s t) :
    M.Names t f head :=
  ⟨h.type, h.method, ht.special? (by simp) h.bound⟩

theorem Evades.plainHead (h : M.Evades head) (scope : Scope) (s : Store σ) :
    M.PlainHead scope s (.leaf head) :=
  ⟨.absent, if_pos h, by simp⟩

theorem Dangling.fails (h : M.Dangling s head) (operands : List Node) :
    Fails (M.recur (depth + 1)) [] (.form (.leaf head :: operands)) s (notFound head) s :=
  .tree (by simp) (form_of_unbound_head h.type h.method rfl h.free h.empty operands)

/-- A form whose head is no special form has the fault of its first operand, if that fails. -/
theorem eval_of_first_fails {scope : Scope} {head n : Node} {f : Fault}
    (hhead : M.PlainHead scope s head) (hn : Fails (M.recur depth) scope n s f t)
    (post : List Node) :
    (M.recur (depth + 1)).eval scope (.form (head :: n :: post)) s = .done (.error f) t := by
  have hnone : Collected (M.recur depth) scope [] s [] s := .nil
  exact form_of_fails hhead hnone hn post

/-! ### Leaves -/

theorem headValue_ofFunction (scope : Scope) (ref : Nat) (p : Position) (s : Store σ) :
    M.headValue scope ⟨.literal, p, [], .function ref⟩ s = .ok (.function ref) := by
  simp [headValue, isMethodName]

theorem plainHead_ofFunction (scope : Scope) (ref : Nat) (p : Position) (s : Store σ) :
    M.PlainHead scope s (.ofValue (.function ref) p) :=
  show ∃ _, _ from ⟨_, headValue_ofFunction scope ref p s, by simp⟩

/-- A leaf that reports a fault evaluates to it. -/
theorem eval_ofFault (scope : Scope) (f : Fault) (s : Store σ) :
    (M.recur (depth + 1)).eval scope (.ofFault f) s = .done (.error f) s :=
  form_of_fails (plainHead_ofFunction scope _ f.pos s) .nil (.report rfl rfl) []

/-- A leaf that holds a function calls it with the arguments. -/
theorem form_function {self : Recur σ} {operands : List Node} {args : List Value}
    (hargs : Collected self [] operands s args t) (ref : Nat) (p : Position) :
    form M self [] (.ofValue (.function ref) p) operands s =
      (do
        let v ← M.call self ref args
        return v.located (Node.form (.ofValue (.function ref) p :: operands)).position) t := by
  have hvalue := headValue_ofFunction (M := M) [] ref p s
  rw [show Node.ofValue (.function ref) p = .leaf ⟨.literal, p, [], .function ref⟩ from rfl,
    form_plain M self hvalue (by simp)]
  simp only [bind, Action.bind, arguments_of_collected hargs]
  rfl

/-- A new function evaluates to itself. -/
theorem eval_function (hid : s.builtin? Store.identityRef = some .identity) (ref : Nat)
    (p : Position) :
    (M.recur (depth + 1)).eval [] (.ofValue (.function ref) p) s = .done (.function ref) s := by
  have hargs : Collected (M.recur depth) [] [.ofValue (.function ref) p] s [.function ref] s :=
    .cons (.literal (by simp) (by simp)) .nil
  obtain ⟨name, hf⟩ := Store.builtin?_eq_some.mp hid
  have hcall : M.call (M.recur depth) Store.identityRef [.function ref] s =
      .done (.function ref) s :=
    call_builtin M _ (v := .function ref) rfl hf rfl
  have hform := form_function (M := M) hargs Store.identityRef p
  simp only [bind, Action.bind, hcall] at hform
  exact hform

/-! ### Binders -/

/-- The call of a binder binds its name to the value of its operand. -/
theorem eval_binder {ref : Nat} {f : Function} {name : Text} {value : Node} {v : Value}
    (hv : Gives (M.recur depth) [] value s v t) (hf : t.functions[ref]? = some f)
    (hbinder : f.body = .binder name) (herror : v.isError = false) (hsome : v ≠ .absent)
    (p : Position) :
    (M.recur (depth + 1)).eval [] (.form [.ofValue (.function ref) p, value]) s =
      .done v (t.define name v) := by
  have hargs : Collected (M.recur depth) [] [value] s [v] t := .cons hv .nil
  have hcall : M.call (M.recur depth) ref [v] t = .done v (t.define name v) := by
    simp only [call, bind, Action.bind, Action.store, hf, hbinder]
    cases v with
    | absent => exact absurd rfl hsome
    | _ => rfl
  change form M (M.recur depth) [] (.ofValue (.function ref) p) [value] s = _
  rw [form_function hargs]
  simp only [bind, Action.bind, hcall]
  cases v with
  | error f => simp [Value.isError] at herror
  | _ => rfl

/-- If the operand fails, so does the call. -/
theorem eval_binder_of_fails {ref : Nat} {value : Node} {f : Fault}
    (h : Fails (M.recur depth) [] value s f t) (p : Position) :
    (M.recur (depth + 1)).eval [] (.form [.ofValue (.function ref) p, value]) s =
      .done (.error f) t :=
  eval_of_first_fails (plainHead_ofFunction [] ref p s) h []

/-! ### Functions -/

/-- Words that can be the parameters of a function. -/
theorem parameters_of_identifiers (L : Legend) (p : Position) : ∀ {ns : List Node},
    (∀ n ∈ ns, ∃ t, n.identifier? = some t ∧ t.text ≠ "&") →
      parameters L p ns = .ok (ns.filterMap fun n => n.identifier?.map Token.text, none)
  | [], _ => rfl
  | n :: ns, h => by
    rw [List.forall_mem_cons] at h
    obtain ⟨⟨t, ht, hword⟩, hns⟩ := h
    simp only [parameters, ht, hword, if_false, parameters_of_identifiers L p hns,
      List.filterMap_cons, Option.map_some]
    rfl

variable (depth) in
/-- `(fn (param ...) tree ...)` evaluates to a new function. -/
theorem eval_lambda (hhead : M.Names s .lambda head)
    (hid : s.builtin? Store.identityRef = some .identity) {params : List Node}
    (hparams : ∀ n ∈ params, ∃ t, n.identifier? = some t ∧ t.text ≠ "&")
    (trees : List Node) :
    ∃ ref t, (M.recur (depth + 2)).eval [] (.form (.leaf head :: .form params :: trees)) s =
      .done (.function ref) t ∧ Extends [] s t ∧
        ∃ f : Function, t.functions[ref]? = some f ∧
          f.body = .closure
            ⟨params.filterMap fun n => n.identifier?.map Token.text, none, trees, []⟩ := by
  have hnames :=
    parameters_of_identifiers (s.legend M.host) (Node.positionOfAll params) hparams
  generalize (params.filterMap fun n => n.identifier?.map Token.text) = names at hnames ⊢
  have hext := Store.extends_addFunction s ⟨[], .closure ⟨names, none, trees, []⟩⟩
  have hexpand (x : Transformer) (hx : x.expander = .special .lambda) :
      expand M (M.recur (depth + 1)) x (.form params :: trees) [] s =
        .done (.ofValue (.function s.functions.size) (Node.positionOfAll params))
          (s.addFunction ⟨[], .closure ⟨names, none, trees, []⟩⟩).2 := by
    simp only [expand, hx, expandLambda_eq, bind, Action.bind, Action.legend, hnames, compiled]
    rfl
  refine ⟨_, _, (hhead.eval hexpand).trans (eval_function (hext.builtin? hid) _ _), hext, ?_⟩
  exact ⟨⟨[], .closure ⟨names, none, trees, []⟩⟩, by simp [Store.addFunction], rfl⟩

/-! ### Definitions at the top -/

variable (M) in
/-- At the top, the tree has a fault as its value. -/
def Faulty (depth : Nat) (tree : Node) (s : Store σ) : Prop :=
  ∃ f t, M.run depth tree s = some (.error f, t)

theorem faulty_of_done {tree : Node} {f : Fault}
    (h : (M.recur depth).eval [] tree s = .done (.error f) t) : M.Faulty depth tree s :=
  ⟨_, t, by rw [run, h]; rfl⟩

theorem faulty_of_raised {tree : Node} {alarm : Alarm}
    (h : (M.recur depth).eval [] tree s = .raised alarm t) : M.Faulty depth tree s :=
  ⟨_, t, by rw [run, h]⟩

theorem run_of_done {tree : Node} {v : Value} (hv : v.isError = false)
    (h : (M.recur depth).eval [] tree s = .done v t) : M.run depth tree s = some (v, t) := by
  rw [run, h]
  cases v with
  | error f => simp [Value.isError] at hv
  | _ => rfl

/-- A form whose head stands for itself and whose first failing operand is known. -/
theorem Evades.faulty (h : M.Evades head) {pre : List Node} {n : Node} {vs : List Value}
    {f : Fault} {u : Store σ} (hpre : Collected (M.recur depth) [] pre s vs t)
    (hn : Fails (M.recur depth) [] n t f u) (post : List Node) :
    M.Faulty (depth + 1) (.form (.leaf head :: (pre ++ n :: post))) s :=
  faulty_of_done (form_of_fails (h.plainHead [] s) hpre hn post)

/-- A definition of something that is no identifier. -/
theorem faulty_of_target {f : SpecialForm} (hf : f = .define ∨ f = .defineForm)
    (hhead : M.Names s f head) {target : Token} (htype : target.type ≠ .identifier)
    (htext : target.text ≠ []) (value : Node) :
    M.Faulty (depth + 2) (.form [.leaf head, .leaf target, value]) s := by
  have hmention : mention M (.leaf target) s = .done target.text s := by
    simp only [mention, bind, Action.bind, Action.legend, Node.text, ne_eq, htext,
      not_false_eq_true, if_true, Action.ofExcept]
    rfl
  have hexpand : ∃ f', ∀ x : Transformer, x.expander = .special f →
      expand M (M.recur (depth + 1)) x [.leaf target, value] [] s = .done (.ofFault f') s := by
    rcases hf with rfl | rfl
    · refine ⟨.placed .malformed target.pos ["def expects an identifier, got ", target.text],
        fun x hx => ?_⟩
      simp only [expand, hx, expandDefine_eq, Node.identifier?, htype, if_false, bind, Action.bind,
        hmention]
      rfl
    · refine ⟨.placed .malformed target.pos ["defsyntax expects an identifier, got ", target.text],
        fun x hx => ?_⟩
      simp only [expand, hx, expandDefineForm_eq, Node.identifier?, htype, if_false, bind,
        Action.bind, hmention]
      rfl
  obtain ⟨f', hexpand⟩ := hexpand
  exact faulty_of_done ((hhead.eval hexpand).trans (eval_ofFault [] f' s))

variable (depth) in
/-- A definition becomes the call of a new binder. -/
theorem eval_define {target value : Node} {name : Token} (hhead : M.Names s .define head)
    (htarget : target.identifier? = some name) :
    (M.recur (depth + 1)).eval [] (.form [.leaf head, target, value]) s =
      (M.recur depth).eval [] (.form [.ofValue (.function s.functions.size) name.pos, value])
        (s.addFunction ⟨"def", .binder name.text⟩).2 := by
  refine hhead.eval fun x hx => ?_
  simp only [expand, hx, expandDefine_eq, htarget]
  rfl

/-- A definition whose value fails. -/
theorem faulty_define {target value : Node} {name : Token} (hhead : M.Names s .define head)
    (htarget : target.identifier? = some name)
    (hvalue : ∀ t, Extends [] s t → ∃ f u, Fails (M.recur depth) [] value t f u) :
    M.Faulty (depth + 2) (.form [.leaf head, target, value]) s := by
  obtain ⟨f, u, hfails⟩ := hvalue _ (Store.extends_addFunction s ⟨"def", .binder name.text⟩)
  exact faulty_of_done ((eval_define _ hhead htarget).trans (eval_binder_of_fails hfails name.pos))

/-- `(def name (fn (param ...) tree ...))` binds the name to a new function. -/
theorem run_defineLambda {target : Node} {name lambda : Token}
    (hhead : M.Names s .define head) (htarget : target.identifier? = some name)
    (hlambda : M.Names s .lambda lambda) (hid : s.builtin? Store.identityRef = some .identity)
    {params : List Node} (hparams : ∀ n ∈ params, ∃ t, n.identifier? = some t ∧ t.text ≠ "&")
    (trees : List Node) :
    ∃ ref t, M.run (depth + 4)
        (.form [.leaf head, target, .form (.leaf lambda :: .form params :: trees)]) s =
      some (.function ref, t) ∧ Extends [name.text] s t ∧
        t.body? name.text = some (.closure
          ⟨params.filterMap fun n => n.identifier?.map Token.text, none, trees, []⟩) := by
  have hadd := Store.extends_addFunction s ⟨"def", .binder name.text⟩
  obtain ⟨ref, t, heval, hext, f, hf, hclosure⟩ := eval_lambda depth (hlambda.extends hadd)
    (hadd.builtin? hid) hparams trees
  -- the binder is still there after the value was computed
  have hnew : (s.addFunction ⟨"def", .binder name.text⟩).2.functions[s.functions.size]? =
      some ⟨"def", .binder name.text⟩ := by simp [Store.addFunction]
  obtain ⟨b, hb, hbinder⟩ := hext.bodies _ _ hnew
  have hgives : Gives (M.recur (depth + 2)) [] _ _ (.function ref) t :=
    .tree (by simp) heval (by simp)
  have hrun := (eval_define (depth + 3) hhead htarget).trans
    (eval_binder hgives hb hbinder rfl (by simp) name.pos)
  refine ⟨ref, _, run_of_done rfl hrun, (hadd.trans hext).trans (Store.extends_define ..), ?_⟩
  obtain ⟨g, hg, hsame⟩ := (t.extends_define name.text (.function ref)).bodies ref f hf
  exact Store.body?_eq_some.mpr ⟨ref, g, Store.find?_define .., hg, hsame.trans hclosure⟩

/-- `(defsyntax name spec)` binds the name to a new transformer if the specification is accepted. -/
theorem run_defineForm {target spec : Node} {name : Token} {x : Transformation}
    (hhead : M.Names s .defineForm head) (htarget : target.identifier? = some name)
    (hx : Transformation.compile (s.legend M.host) name.text spec = .ok x) :
    ∃ ref t, M.run (depth + 2) (.form [.leaf head, target, spec]) s =
      some (.transformer ref, t) ∧ Extends [name.text] s t ∧
        t.expander? name.text = some (.userDefined x) := by
  have hext := (Store.extends_addTransformer s ⟨name.text, .userDefined x⟩).trans
    (Store.extends_addFunction _ ⟨"def", .binder name.text⟩)
  have hexpand (y : Transformer) (hy : y.expander = .special .defineForm) :
      expand M (M.recur (depth + 1)) y [target, spec] [] s =
        .done (.form [.ofValue (.function s.functions.size) name.pos,
            .ofValue (.transformer s.transformers.size) name.pos])
          ((s.addTransformer ⟨name.text, .userDefined x⟩).2.addFunction
            ⟨"def", .binder name.text⟩).2 := by
    simp only [expand, hy, expandDefineForm_eq, htarget, bind, Action.bind, Action.legend, hx,
      compiled]
    rfl
  have hbinder : ((s.addTransformer ⟨name.text, .userDefined x⟩).2.addFunction
      ⟨"def", .binder name.text⟩).2.functions[s.functions.size]? =
        some ⟨"def", .binder name.text⟩ := by
    simp [Store.addFunction, Store.addTransformer]
  have heval := (hhead.eval hexpand).trans
    (eval_binder (v := .transformer s.transformers.size) (.literal (by simp) (by simp)) hbinder
      rfl rfl (by simp) name.pos)
  refine ⟨_, _, run_of_done rfl heval, hext.trans (Store.extends_define ..), ?_⟩
  exact Store.expander?_eq_some.mpr ⟨_, ⟨name.text, .userDefined x⟩, Store.find?_define ..,
    by simp [Store.define, Store.bind, Store.addFunction, Store.addTransformer], rfl⟩

/-- And if it is not, the tree has a fault as its value. -/
theorem faulty_defineForm {target spec : Node} {name : Token}
    (hhead : M.Names s .defineForm head) (htarget : target.identifier? = some name)
    (hspec : (Transformation.compile (s.legend M.host) name.text spec).isOk = false) :
    M.Faulty (depth + 2) (.form [.leaf head, target, spec]) s := by
  cases hcompile : Transformation.compile (s.legend M.host) name.text spec with
  | ok x =>
    rw [hcompile] at hspec
    simp [Except.isOk, Except.toBool] at hspec
  | error alarm =>
    cases alarm with
    | fault f =>
      have hexpand (x : Transformer) (hx : x.expander = .special .defineForm) :
          expand M (M.recur (depth + 1)) x [target, spec] [] s = .done (.ofFault f) s := by
        simp only [expand, hx, expandDefineForm_eq, htarget, bind, Action.bind, Action.legend,
          hcompile, compiled]
        rfl
      exact faulty_of_done ((hhead.eval hexpand).trans (eval_ofFault [] f s))
    | native message =>
      -- not even the message of the fault can be written down
      obtain ⟨x, hx, heval⟩ := hhead.exists_expand (depth + 1) [target, spec]
      have hraised : (M.recur (depth + 2)).eval [] (.form [.leaf head, target, spec]) s =
          .raised (.native message) s := by
        rw [heval]
        simp only [expand, hx, expandDefineForm_eq, htarget, bind, Action.bind, Action.legend,
          hcompile, compiled]
        rfl
      exact faulty_of_raised hraised

end Machine

end LittleLisp
