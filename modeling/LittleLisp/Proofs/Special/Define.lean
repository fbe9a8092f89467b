/-
# Definitions

`(def name tree)` binds a name of the module to the value of the tree, and `(defsyntax name spec)`
to a new form. Either happens completely or not at all: a form of another shape, or a specification
that does not compile, is refused before anything is evaluated; and if the tree fails, its fault is
the value, and the module is as the tree left it.

Otherwise the name is bound, all other names stand for what they stood for, and a function without
a name gets this one. The binding is one of the module also where the form stands in the body of a
function, and a local name goes on shadowing it.

Key definitions: `Store.Defines`, `Machine.BindsOrFails`, `Compiled.Explained`.
Key theorems: `Store.defines_define`, `Transformation.explained_compile`,
`Machine.definitions_bind_all_or_nothing`.
-/
import LittleLisp.Proofs.Expansion.WellFormed
import LittleLisp.Proofs.Prelude.Forms
import LittleLisp.Proofs.Special

namespace LittleLisp

variable {σ : Type}

/-! ### What a definition changes -/

namespace Store

/-- The name stands for the value, and every other name for what it stood for. If the value is a
function without a name, it gets this one; all other functions and everything else are the same. -/
structure Defines (s : Store σ) (name : Text) (v : Value) (t : Store σ) : Prop where
  bound : t.find? name = some v
  others : ∀ other, other ≠ name → t.find? other = s.find? other
  named : ∀ ref, v = .function ref → t.functions[ref]? =
    (s.functions[ref]?).map fun f => if f.name = [] then { f with name } else f
  kept : ∀ ref : Nat, v ≠ .function ref → t.functions[ref]? = s.functions[ref]?
  rest : t = { s with bindings := t.bindings, functions := t.functions }

variable {s t : Store σ} {name : Text} {v : Value}

theorem find?_bind_self (s : Store σ) (name : Text) (v : Value) :
    (s.bind name v).find? name = some v :=
  Bindings.find?_insert_self name v s.bindings

theorem defines_bind (hv : ∀ ref, v ≠ .function ref) (s : Store σ) (name : Text) :
    s.Defines name v (s.bind name v) where
  bound := s.find?_bind_self name v
  others _ h := Bindings.find?_insert_of_ne h v s.bindings
  named ref h := absurd h (hv ref)
  kept _ _ := rfl
  rest := rfl

theorem defines_function (s : Store σ) (name : Text) (ref : Nat) :
    s.Defines name (.function ref) ((s.nameFunction ref name).bind name (.function ref)) where
  bound := (s.nameFunction ref name).find?_bind_self name _
  others _ h := Bindings.find?_insert_of_ne h _ s.bindings
  named ref' h := by
    obtain rfl : ref = ref' := by simpa using h
    have hmodify : ((s.nameFunction ref name).bind name (.function ref)).functions =
        s.functions.modify ref fun f => if f.name = [] then { f with name } else f := rfl
    rw [hmodify, Array.getElem?_modify, if_pos rfl]
  kept ref' h := by
    have hne : ref ≠ ref' := fun heq => h (by rw [heq])
    have hmodify : ((s.nameFunction ref name).bind name (.function ref)).functions =
        s.functions.modify ref fun f => if f.name = [] then { f with name } else f := rfl
    rw [hmodify, Array.getElem?_modify, if_neg hne]
  rest := rfl

/-- What a binder does. -/
theorem defines_define (s : Store σ) (name : Text) (v : Value) :
    s.Defines name v (s.define name v) := by
  cases v with
  | function ref => exact s.defines_function name ref
  | _ => exact defines_bind (by simp) s name

/-- A local name goes on shadowing the name of the module, everywhere else the identifier stands for
the value. -/
theorem Defines.resolve (h : s.Defines name v t) (scope : Scope) {word : Token}
    (hword : word.text = name) :
    Machine.resolve scope word t = .ok ((scope.find? name).getD v) := by
  rw [Machine.resolve_ok_iff, hword]
  cases hlocal : scope.find? name with
  | some w => exact Or.inl rfl
  | none => exact Or.inr ⟨rfl, Or.inl h.bound⟩

end Store

/-! ### Specifications that do not compile -/

namespace Compiled

open Node (Part)

/-- What a compilation ends with, unless it has a result: a fault that calls the tree malformed, or
the reason why a part of it has no text. -/
def Explained {γ : Type} (L : Legend) (root : Node) (x : Compiled γ) : Prop :=
  ∀ alarm, x = .error alarm →
    (∃ f, alarm = .fault f ∧ f.kind = .malformed) ∨
      ∃ reason, alarm = .native reason ∧ root.Unprintable L reason

variable {γ δ : Type} {L : Legend} {n root : Node} {x : Compiled γ}

theorem explained_ok (a : γ) : Explained L root (.ok a : Compiled γ) := nofun

theorem explained_fail (p : Position) (message : List Text) :
    Explained L root (fail p message : Compiled γ) := by
  intro alarm h
  obtain rfl := Except.error.inj h
  exact Or.inl ⟨_, rfl, rfl⟩

theorem Explained.bind (h : Explained L root x) {k : γ → Compiled δ}
    (hk : ∀ a, Explained L root (k a)) : Explained L root (x >>= k) := by
  intro alarm herror
  rcases except_bind_eq_error.mp herror with herror | ⟨a, -, herror⟩
  · exact h alarm herror
  · exact hk a alarm herror

theorem explained_fail_mention (hn : n.Part root) (p : Position) (message : Text → List Text) :
    Explained L root (do
      let t ← n.mention L
      fail p (message t) : Compiled γ) := by
  have hmention : Explained L root (n.mention L) := by
    intro alarm herror
    unfold Node.mention at herror
    split at herror
    · cases herror
    · rename_i reason htext
      obtain rfl := Except.error.inj herror
      exact Or.inr ⟨reason, rfl, n, hn, htext⟩
  exact hmention.bind fun _ => explained_fail p _

end Compiled

open Compiled (Explained explained_ok explained_fail explained_fail_mention)
open Node (Part)

variable {L : Legend} {root : Node}

namespace Pattern

mutual

theorem explained_compile (literals : List Text) : ∀ (n : Node) (depth : Nat) (vars : Bindings Nat),
    Explained L root (compile L literals depth n vars)
  | .absent, _, _ => explained_fail _ _
  | .leaf t, depth, vars => by
    unfold compile
    split_ifs
    · exact explained_ok _
    · exact explained_ok _
    · exact explained_ok _
    · exact explained_fail _ _
    · exact explained_ok _
  | .form ns, depth, vars => by
    unfold compile
    exact (explained_compileItems literals ns depth ns false vars).bind fun _ => explained_ok _

theorem explained_compileItems (literals : List Text) :
    ∀ (ns : List Node) (depth : Nat) (whole : List Node) (repeats : Bool) (vars : Bindings Nat),
      Explained L root (compileItems L literals depth whole repeats ns vars)
  | [], _, _, _, _ => by
    unfold compileItems
    exact explained_ok _
  | [n], depth, _, _, vars => by
    unfold compileItems
    exact (explained_compile literals n depth vars).bind fun _ => explained_ok _
  | n :: m :: ns, depth, whole, repeats, vars => by
    unfold compileItems
    split_ifs
    · exact explained_fail _ _
    · exact (explained_compile literals n (depth + 1) vars).bind fun _ =>
        (explained_compileItems literals ns depth whole true _).bind fun _ => explained_ok _
    · exact (explained_compile literals n depth vars).bind fun _ =>
        (explained_compileItems literals (m :: ns) depth whole repeats _).bind
          fun _ => explained_ok _

end

end Pattern

namespace Template

mutual

theorem explained_compile (vars : Bindings Nat) : ∀ (n : Node) (depth : Nat), n.Part root →
    Explained L root (compile L vars depth n)
  | .absent, _, _ => explained_fail _ _
  | .leaf t, depth, _ => by
    unfold compile
    split_ifs
    · exact explained_ok _
    · split
      · exact explained_ok _
      · split_ifs
        · exact explained_fail _ _
        · exact explained_ok _
  | .form ns, depth, hn => by
    have hns : ∀ m ∈ ns, m.Part root := fun m hm => Part.trans (.item hm .self) hn
    unfold compile
    exact (explained_compileItems vars ns depth hns).bind fun _ => explained_ok _

theorem explained_compileItems (vars : Bindings Nat) : ∀ (ns : List Node) (depth : Nat),
    (∀ n ∈ ns, n.Part root) → Explained L root (compileItems L vars depth ns)
  | [], _, _ => by
    unfold compileItems
    exact explained_ok _
  | [n], depth, hns => by
    unfold compileItems
    exact (explained_compile vars n depth (hns n List.mem_cons_self)).bind fun _ => explained_ok _
  | n :: m :: ns, depth, hns => by
    simp only [List.forall_mem_cons] at hns
    unfold compileItems
    split_ifs
    · refine (explained_compile vars n (depth + 1) hns.1).bind fun item => ?_
      split
      · exact explained_fail_mention hns.1 _ _
      · exact (explained_compileItems vars ns depth hns.2.2).bind fun _ => explained_ok _
    · have hrest : ∀ k ∈ m :: ns, k.Part root := List.forall_mem_cons.mpr hns.2
      exact (explained_compile vars n depth hns.1).bind fun _ =>
        (explained_compileItems vars (m :: ns) depth hrest).bind fun _ => explained_ok _

end

end Template

namespace Transformation

theorem explained_clause (literals : List Text) {n : Node} (hn : n.Part root) :
    Explained L root (Clause.compile L literals n) := by
  rw [Clause.compile_eq]
  split
  · rename_i first operands template
    have htemplate : template.Part root := Part.trans (.item (by simp) .self) hn
    exact (Pattern.explained_compileItems literals _ 0 _ false []).bind fun r =>
      (Template.explained_compile r.2 template 0 htemplate).bind fun _ => explained_ok _
  · exact explained_fail_mention (Part.trans (.item (by simp) .self) hn) _ _
  · exact explained_fail_mention hn _ _

theorem explained_clauses (literals : List Text) : ∀ {ns : List Node}, (∀ n ∈ ns, n.Part root) →
    Explained L root (Clause.compileAll L literals ns)
  | [], _ => explained_ok _
  | n :: ns, hns => by
    rw [List.forall_mem_cons] at hns
    exact (explained_clause literals hns.1).bind fun _ =>
      (explained_clauses literals hns.2).bind fun _ => explained_ok _

theorem explained_literalNames : ∀ {ns : List Node}, (∀ n ∈ ns, n.Part root) →
    Explained L root (literalNames L ns)
  | [], _ => explained_ok _
  | n :: ns, hns => by
    rw [List.forall_mem_cons] at hns
    unfold literalNames
    split
    · exact (explained_literalNames hns.2).bind fun _ => explained_ok _
    · exact explained_fail_mention hns.1 _ _

/-- Of every tree that is no specification it is said that it is malformed, unless a part of it
that this would have to name has no text. -/
theorem explained_compile (L : Legend) (keyword : Text) (spec : Node) :
    Explained L spec (compile L keyword spec) := by
  rw [compile_eq]
  split
  · rename_i first literals forms
    split_ifs
    · split
      · rename_i names
        have hnames : ∀ n ∈ names, n.Part (.form (first :: .form names :: forms)) :=
          fun n hn => .item (by simp) (.item hn .self)
        have hforms : ∀ n ∈ forms, n.Part (.form (first :: .form names :: forms)) :=
          fun n hn => .item (by simp [hn]) .self
        exact (explained_literalNames hnames).bind fun _ =>
          (explained_clauses _ hforms).bind fun _ => explained_ok _
      · exact explained_fail_mention (.item (by simp) .self) _ _
    · exact explained_fail_mention (.item (by simp) .self) _ _
  · exact explained_fail_mention .self _ _

end Transformation

/-! ### The call of a binder -/

/-- The store with the function that is going to bind a name. -/
def Store.prepared (s : Store σ) (name : Text) : Store σ :=
  (s.addFunction ⟨"def", .binder name⟩).2

namespace Machine

open Outcome (Same)

variable {M : Machine σ} {scope : Scope} {s : Store σ} {head name : Token} {o o' : Outcome σ Value}

variable (M scope) in
/-- How a definition ends. If the tree fails, its fault is the value, and the store is as the tree
left it. If it has a value, the name is bound to that in the store that the tree left, and it is the
value of the definition; local names go on shadowing it. If the tree is interrupted or does not end,
nor is anything defined. -/
structure BindsOrFails (name : Text) (value : Node) (s : Store σ) (o : Outcome σ Value) : Prop where
  fails : ∀ f t, Fails M.unbounded scope value s f t → o = .done (.error f) t
  binds : ∀ v t, Gives M.unbounded scope value s v t →
    ∃ p u, o = .done (v.orNil.located p) u ∧ t.Defines name v u ∧
      ∀ (inner : Scope) (word : Token), word.text = name →
        resolve inner word u = .ok ((inner.find? name).getD v)
  interrupted : ∀ alarm t, argument M.unbounded scope value s = .raised alarm t →
    o = .raised alarm t
  endless : ∀ t, argument M.unbounded scope value s = .exhausted t → o.result = none

theorem BindsOrFails.same {name : Text} {value : Node} (h : BindsOrFails M scope name value s o')
    (hsame : Same o o') : BindsOrFails M scope name value s o where
  fails f t hf := by
    rw [h.fails f t hf] at hsame
    exact Outcome.same_done_iff.mp hsame
  binds v t hv := by
    obtain ⟨p, u, rfl, hdefines⟩ := h.binds v t hv
    exact ⟨p, u, Outcome.same_done_iff.mp hsame, hdefines⟩
  interrupted alarm t hraised := by
    rw [h.interrupted alarm t hraised] at hsame
    exact Outcome.same_raised_iff.mp hsame
  endless t hendless := Eq.trans hsame (h.endless t hendless)

theorem unbounded_call_binder {ref : Nat} {f : Function} {name : Text} {t : Store σ}
    (hf : t.functions[ref]? = some f) (hbody : f.body = .binder name) (v : Value) :
    M.unbounded.call ref [v] t = .done v.orNil (t.define name v) := by
  have hcall : M.call M.unbounded ref [v] t = .done v.orNil (t.define name v) := by
    simp only [call, bind, Action.bind, Action.store, hf, hbody]
    rfl
  exact Outcome.same_done_iff.mp ((M.unbounded_call ref [v] t).trans (.of_eq hcall))

/-- The call of a binder with a tree. -/
theorem bindsOrFails_binder (M : Machine σ) (scope : Scope) {ref : Nat} {f : Function} {name : Text}
    (hf : s.functions[ref]? = some f) (hbody : f.body = .binder name) (p : Position)
    (value : Node) :
    BindsOrFails M scope name value s
      (M.unbounded.eval scope (.form [.ofValue (.function ref) p, value]) s) := by
  have hhead := headValue_ofFunction (M := M) scope ref p s
  refine BindsOrFails.same ?_ (unbounded_called hhead [value])
  constructor
  case fails =>
    intro fault t hfails
    exact Action.bind_done (arguments_of_fails .nil hfails [])
  case binds =>
    intro v t hgives
    have hcollected := arguments_of_collected (.cons hgives .nil)
    -- the tree may have defined anything, but the binder is still there
    obtain ⟨g, hg, hsame⟩ := (grows_arguments hcollected).bodies ref f hf
    have hcall := unbounded_call_binder (M := M) hg (hsame.trans hbody) v
    have hdefines := t.defines_define name v
    refine ⟨(Node.form [.ofValue (.function ref) p, value]).position, t.define name v, ?_, hdefines,
      fun inner word => hdefines.resolve inner⟩
    rw [withArguments, Action.bind_done hcollected]
    exact Action.bind_done hcall
  case interrupted =>
    intro alarm t hraised
    exact Action.bind_raised (Action.bind_raised hraised)
  case endless =>
    intro t hendless
    have harguments : arguments M.unbounded scope [value] s = .exhausted t :=
      Action.bind_exhausted hendless
    exact congrArg Outcome.result (Action.bind_exhausted harguments)

/-! ### Both forms -/

section Forms

variable {x : Transformer} {operands : List Node}

theorem expand_binding (hx : x.expander = .special .define) (hname : name.type = .identifier)
    (value : Node) :
    expand M M.unbounded x [.leaf name, value] scope s =
      .done (.form [.ofValue (.function s.functions.size) name.pos, value])
        (s.prepared name.text) := by
  simp only [expand, hx, expandDefine_eq, Node.identifier?, hname, if_true]
  rfl

/-- `(def name tree)` is the call of a binder. -/
theorem Means.define (h : M.Means scope s (.special .define) head)
    (hname : name.type = .identifier) (value : Node) :
    BindsOrFails M scope name.text value (s.prepared name.text)
      (M.unbounded.eval scope (.form [.leaf head, .leaf name, value]) s) := by
  have hnew : (s.prepared name.text).functions[s.functions.size]? =
      some ⟨"def", .binder name.text⟩ := by simp [Store.prepared, Store.addFunction]
  have hcall := bindsOrFails_binder M scope hnew rfl name.pos value
  exact hcall.same (h.replaced fun x hx => expand_binding hx hname value)

/-- A special form that takes a name and a tree is refused if it gets anything else. Of two operands
the first is named then. -/
theorem Means.refused_unless_named {f : SpecialForm} (h : M.Means scope s (.special f) head)
    (hshape : ∀ (name : Token) (value : Node), name.type = .identifier →
      operands ≠ [.leaf name, value]) (message : Text → List Text) (usage : List Text)
    (htarget : ∀ (x : Transformer) (n value : Node), x.expander = .special f →
      n.identifier? = none → expand M M.unbounded x [n, value] scope s = (do
        let text ← mention M n
        return Node.malformed n.position (message text)) s)
    (hcount : ∀ x : Transformer, x.expander = .special f → (∀ n value, operands ≠ [n, value]) →
      expand M M.unbounded x operands scope s =
        .done (.malformed (Node.positionOfAll operands) usage) s) :
    Refused (s.legend M.host) (fun n => ∃ value, operands = [n, value]) s
      (M.unbounded.eval scope (.form (.leaf head :: operands)) s) := by
  by_cases htwo : ∃ n value, operands = [n, value]
  · obtain ⟨n, value, rfl⟩ := htwo
    have honly (m : Node) : (∃ w, [n, value] = [m, w]) ↔ m = n := by simp [eq_comm]
    have hn : n.identifier? = none :=
      Node.identifier?_eq_none fun word hword heq => hshape word value hword (by rw [heq])
    exact h.refused_naming honly n.position message fun x hx => htarget x n value hx hn
  · have hnone (n : Node) : ¬ ∃ value, operands = [n, value] := fun hvalue => htwo ⟨n, hvalue⟩
    exact h.refused hnone (Node.positionOfAll operands) usage fun x hx =>
      hcount x hx fun n value heq => htwo ⟨n, value, heq⟩

/-- Any other `def` is refused. -/
theorem Means.define_refused (h : M.Means scope s (.special .define) head)
    (hshape : ∀ (name : Token) (value : Node), name.type = .identifier →
      operands ≠ [.leaf name, value]) :
    Refused (s.legend M.host) (fun n => ∃ value, operands = [n, value]) s
      (M.unbounded.eval scope (.form (.leaf head :: operands)) s) := by
  refine h.refused_unless_named hshape (fun text => ["def expects an identifier, got ", text])
    ["def expects a name and a value"] (fun x n value hx hn => ?target) fun x hx hcount => ?count
  case target => simp only [expand, hx, expandDefine_eq, hn]
  case count =>
    simp only [expand, hx, expandDefine_eq]
    rfl

/-- Any other `defsyntax` is refused. -/
theorem Means.defineForm_refused (h : M.Means scope s (.special .defineForm) head)
    (hshape : ∀ (name : Token) (spec : Node), name.type = .identifier →
      operands ≠ [.leaf name, spec]) :
    Refused (s.legend M.host) (fun n => ∃ spec, operands = [n, spec]) s
      (M.unbounded.eval scope (.form (.leaf head :: operands)) s) := by
  refine h.refused_unless_named hshape
    (fun text => ["defsyntax expects an identifier, got ", text])
    ["defsyntax expects a name and a syntax-rules form"] (fun x n spec hx hn => ?target)
    fun x hx hcount => ?count
  case target => simp only [expand, hx, expandDefineForm_eq, hn]
  case count =>
    simp only [expand, hx, expandDefineForm_eq]
    rfl

/-- A specification that compiles: the name is bound to a new form. -/
theorem Means.defineForm (h : M.Means scope s (.special .defineForm) head)
    (hname : name.type = .identifier) {spec : Node} {y : Transformation}
    (hspec : Transformation.compile (s.legend M.host) name.text spec = .ok y) :
    ∃ u, M.unbounded.eval scope (.form [.leaf head, .leaf name, spec]) s =
        .done (.transformer s.transformers.size) u ∧
      ((s.addTransformer ⟨name.text, .userDefined y⟩).2.prepared name.text).Defines name.text
        (.transformer s.transformers.size) u := by
  let made : Store σ := (s.addTransformer ⟨name.text, .userDefined y⟩).2
  let leaf : Node := .ofValue (.transformer s.transformers.size) name.pos
  have hexpand (x : Transformer) (hx : x.expander = .special .defineForm) :
      expand M M.unbounded x [.leaf name, spec] scope s =
        .done (.form [.ofValue (.function s.functions.size) name.pos, leaf])
          (made.prepared name.text) := by
    simp only [expand, hx, expandDefineForm_eq, Node.identifier?, hname, if_true, bind, Action.bind,
      Action.legend, hspec, compiled]
    rfl
  have hnew : (made.prepared name.text).functions[s.functions.size]? =
      some ⟨"def", .binder name.text⟩ := by
    simp [made, Store.prepared, Store.addFunction, Store.addTransformer]
  have hcall := bindsOrFails_binder M scope hnew rfl name.pos leaf
  obtain ⟨p, u, hdone, hdefines, -⟩ :=
    (hcall.same (h.replaced hexpand)).binds _ _ (.literal (by simp) (by simp))
  exact ⟨u, hdone, hdefines⟩

/-- A specification that does not compile: the form is replaced by what is wrong with it. -/
theorem Means.defineForm_uncompiled (h : M.Means scope s (.special .defineForm) head)
    (hname : name.type = .identifier) {spec : Node} {alarm : Alarm}
    (hspec : Transformation.compile (s.legend M.host) name.text spec = .error alarm) :
    (∃ fault, M.unbounded.eval scope (.form [.leaf head, .leaf name, spec]) s =
        .done (.error fault) s ∧ fault.kind = .malformed) ∨
      ∃ reason, M.unbounded.eval scope (.form [.leaf head, .leaf name, spec]) s =
        .raised (.native reason) s ∧ spec.Unprintable (s.legend M.host) reason := by
  rcases Transformation.explained_compile _ name.text spec alarm hspec with
    ⟨fault, rfl, hkind⟩ | ⟨reason, rfl, htext⟩
  · exact Or.inl ⟨fault, h.reported fault fun x hx => expand_refused hx hname hspec, hkind⟩
  · exact Or.inr ⟨reason, h.interrupted fun x hx => expand_refused hx hname hspec, htext⟩

/-- **Definitions bind all or nothing**, in every scope. `def` with a name and a tree binds the name
or fails as the tree does, and `defsyntax` with a name and a specification that compiles binds the
name to a new form. Everything else is refused before anything is evaluated, with the store as it
was. -/
theorem definitions_bind_all_or_nothing (M : Machine σ) (scope : Scope) (s : Store σ)
    (head : Token) :
    (M.Means scope s (.special .define) head →
      (∀ (name : Token) (value : Node), name.type = .identifier →
        BindsOrFails M scope name.text value (s.prepared name.text)
          (M.unbounded.eval scope (.form [.leaf head, .leaf name, value]) s)) ∧
      ∀ operands : List Node,
        (∀ (name : Token) (value : Node), name.type = .identifier →
          operands ≠ [.leaf name, value]) →
        Refused (s.legend M.host) (fun n => ∃ value, operands = [n, value]) s
          (M.unbounded.eval scope (.form (.leaf head :: operands)) s)) ∧
    (M.Means scope s (.special .defineForm) head →
      (∀ (name : Token) (spec : Node), name.type = .identifier →
        let outcome := M.unbounded.eval scope (.form [.leaf head, .leaf name, spec]) s
        let compiled := Transformation.compile (s.legend M.host) name.text spec
        (∀ y, compiled = .ok y → ∃ u, outcome = .done (.transformer s.transformers.size) u ∧
          ((s.addTransformer ⟨name.text, .userDefined y⟩).2.prepared name.text).Defines name.text
            (.transformer s.transformers.size) u) ∧
        ∀ alarm, compiled = .error alarm →
          (∃ fault, outcome = .done (.error fault) s ∧ fault.kind = .malformed) ∨
            ∃ reason, outcome = .raised (.native reason) s ∧
              spec.Unprintable (s.legend M.host) reason) ∧
      ∀ operands : List Node,
        (∀ (name : Token) (spec : Node), name.type = .identifier →
          operands ≠ [.leaf name, spec]) →
        Refused (s.legend M.host) (fun n => ∃ spec, operands = [n, spec]) s
          (M.unbounded.eval scope (.form (.leaf head :: operands)) s)) := by
  constructor
  · intro hdef
    exact ⟨fun name value hname => hdef.define hname value,
      fun operands hshape => hdef.define_refused hshape⟩
  · intro hdef
    refine ⟨fun name spec hname => ⟨fun y hspec => ?_, fun alarm hspec => ?_⟩,
      fun operands hshape => hdef.defineForm_refused hshape⟩
    · exact hdef.defineForm hname hspec
    · exact hdef.defineForm_uncompiled hname hspec

end Forms

end Machine

/-- `(def x :a)` binds `x`, also where a local `x` shadows it, and `(defsyntax)` is refused. -/
theorem Session.definitions_bind_all_or_nothing_of_keyword :
    let M := (start .default .none ()).machine
    let s := Store.withGlobals "user" ()
    let scope : Scope := [("x", .nil)]
    let word (text : Text) (column : Nat) : Token :=
      ⟨.identifier, ⟨"user", 1, column⟩, text, .undefined text⟩
    (∃ u, M.unbounded.eval scope (.form [.leaf (word "def" 2), .leaf (word "x" 6),
        .leaf ⟨.keyword, ⟨"user", 1, 8⟩, ":a", .keyword ":a"⟩]) s = .done (.keyword ":a") u ∧
      u.find? "x" = some (.keyword ":a") ∧
      Machine.resolve scope (word "x" 2) u = .ok .nil ∧
      Machine.resolve [] (word "x" 2) u = .ok (.keyword ":a")) ∧
    ∃ fault, M.unbounded.eval scope (.form [.leaf (word "defsyntax" 2)]) s =
      .done (.error fault) s ∧ fault.kind = .malformed := by
  intro M s scope word
  have hstandard := Store.standard_withGlobals "user" ()
  have hdef : M.Heads scope "def" (word "def" 2) :=
    Machine.heads_of_identifier (by decide) (by decide) rfl rfl rfl
  have hform : M.Heads scope "defsyntax" (word "defsyntax" 2) :=
    Machine.heads_of_identifier (by decide) (by decide) rfl rfl rfl
  constructor
  · have hoperands := ((Machine.definitions_bind_all_or_nothing M scope s _).1
      (hdef.means (hstandard.specials .define))).1
    obtain ⟨p, u, hdone, hdefines, hresolve⟩ :=
      (hoperands (word "x" 6) (.leaf ⟨.keyword, ⟨"user", 1, 8⟩, ":a", .keyword ":a"⟩) rfl).binds
        _ _ (.literal (by simp) (by simp))
    exact ⟨u, hdone, hdefines.bound, hresolve scope _ rfl, hresolve [] _ rfl⟩
  · have hrefused := ((Machine.definitions_bind_all_or_nothing M scope s _).2
      (hform.means (hstandard.specials .defineForm))).2 [] (by simp)
    exact hrefused.kind (by simp)

end LittleLisp
