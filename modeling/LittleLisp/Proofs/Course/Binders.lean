/-
# Binders are kept in

A binder is a function like any other, and whoever got hold of one could bind its name at any time.
But a definition puts its binder at the head of the form that takes its place, and nowhere else. So
nothing that a store keeps, and nothing that is computed from it, ever refers to one: not the values
that names are bound to, not the trees and scopes of functions, not the templates of user-defined
forms, and not what the embedding program knows of, as long as it makes up no functions that it has
not been given.

Key definitions: `Value.Among`, `Token.Among`, `Script.Discreet`, `Host.Discreet`, `Store.Plain`,
`Store.Sealed`.
Key theorems: `Value.among_apply`, `Node.among_datum`, `Store.Sealed.define`,
`Store.Sealed.addFunction`, `Store.Sealed.addTransformer`.
-/
import LittleLisp.Proofs.Course
import LittleLisp.Proofs.Provenance

namespace LittleLisp

variable {σ : Type} {F G : Nat → Prop}

/-! ### Values -/

namespace Value

/-- All functions in a value, at any depth of lists and maps, are among those in `F`. -/
def Among (F : Nat → Prop) (v : Value) : Prop :=
  v.Every fun
    | .function ref => F ref
    | _ => True

variable {v : Value}

theorem Among.mono (hFG : ∀ ref, F ref → G ref) (h : v.Among F) : v.Among G := by
  refine h.imp fun w hw => ?_
  cases w with
  | function ref => exact hFG ref hw
  | _ => trivial

@[simp] theorem among_function {ref : Nat} : (Value.function ref).Among F ↔ F ref :=
  ⟨fun h => h.of_part rfl, fun h => .part rfl h⟩

@[simp] theorem among_atom (a : Atom) : (Value.atom a).Among F := .part rfl trivial

@[simp] theorem among_error (f : Fault) : (Value.error f).Among F := .part rfl trivial

@[simp] theorem among_absent : Value.absent.Among F := .part rfl trivial

@[simp] theorem among_undefined (name : Text) : (Value.undefined name).Among F :=
  .part rfl trivial

@[simp] theorem among_transformer (ref : Nat) : (Value.transformer ref).Among F :=
  .part rfl trivial

@[simp] theorem among_object (o : Object) : (Value.object o).Among F := .part rfl trivial

@[simp] theorem among_fail (kind : FaultKind) (message : List Text) :
    (Value.fail kind message).Among F := among_error _

theorem among_list {stamp : Nat} {items : List Value} (h : ∀ v ∈ items, v.Among F) :
    (Value.list stamp items).Among F := .list h

theorem Among.orNil (h : v.Among F) : v.orNil.Among F := by
  cases v with
  | absent => exact among_atom _
  | _ => exact h

theorem Among.located (h : v.Among F) (p : Position) : (v.located p).Among F := by
  cases v with
  | error f => exact among_error _
  | _ => exact h

/-- The policy of values all of whose functions are in `F`, in a store in which there are none
yet. -/
def among (F : Nat → Prop) : Policy Unit where
  holds e
    | .function ref => F ref ∨ ref < e.functions
    | _ => True
  reports _ := True
  raises _ := True
  foreign := False
  states _ := True

theorem among_admits {M : Machine Unit} (hM : M.host = Host.none) : (among F).Admits M where
  mono {d e v} hde h := by
    cases v with
    | function ref => exact Or.imp id (fun h => Nat.lt_of_lt_of_le h hde.1) h
    | _ => trivial
  atom := trivial
  function h := Or.inr h
  transformer _ := trivial
  held _ := trivial
  located _ _ := trivial
  internal _ := trivial
  eager h := absurd h id
  printing _ _ := trivial
  missing _ _ := trivial
  missingForm _ _ := trivial
  native h := absurd h id
  refusal _ _ := trivial
  failure _ _ := trivial
  method {e o name found run args s} _ hfound := by
    have hlookup := hfound.found
    rw [hM] at hlookup
    rcases o with _ | h | ⟨_ | h, exports⟩ <;> cases hlookup

/-- Outside of any store the policy says what `Among` says. -/
theorem among_iff_held : v.Among F ↔ (among F).Held ⟨0, 0⟩ v := by
  constructor
  · refine Every.imp fun w hw => ?_
    cases w with
    | function ref => exact Or.inl hw
    | _ => trivial
  · refine Every.imp fun w hw => ?_
    cases w with
    | function ref => exact hw.resolve_right (Nat.not_lt_zero _)
    | _ => trivial

/-- A built-in function gives no functions but those in its arguments. -/
theorem among_apply {b : Builtin} {L : Legend} {args : List Value}
    (hargs : ∀ v ∈ args, v.Among F) (h : b.apply L args = .ok v) : v.Among F := by
  have hadmits := among_admits (F := F) (M := ⟨[], 0, none, Host.none⟩) rfl
  have hanswers := Policy.answers_builtin hadmits (L := L) (e := ⟨0, 0⟩)
    (fun w hw => among_iff_held.mp (hargs w hw)) b
  rw [h] at hanswers
  rcases hanswers with hheld | ⟨f, rfl, -⟩
  · exact among_iff_held.mpr hheld
  · exact among_error f

end Value

/-! ### Tokens, trees and scopes -/

/-- All functions that a token carries are among those in `F`, and an identifier is not empty. -/
structure Token.Among (F : Nat → Prop) (t : Token) : Prop where
  value : t.value.Among F
  name : t.type = .identifier → t.text ≠ []

theorem Token.Among.mono (hFG : ∀ ref, F ref → G ref) {t : Token} (h : t.Among F) :
    t.Among G := ⟨h.value.mono hFG, h.name⟩

/-- All functions that a tree carries are among those in `F`. -/
abbrev Node.Among (F : Nat → Prop) (n : Node) : Prop := n.MadeOf (Token.Among F)

namespace Node

theorem among_mono (hFG : ∀ ref, F ref → G ref) {n : Node} (h : n.Among F) : n.Among G :=
  h.imp fun _ => Token.Among.mono hFG

theorem among_ofFault (f : Fault) : (ofFault f).Among F :=
  .leaf ⟨Value.among_error f, nofun⟩

theorem among_malformed (p : Position) (message : List Text) : (malformed p message).Among F :=
  among_ofFault _

theorem among_ofValue {v : Value} (h : v.Among F) (p : Position) : (ofValue v p).Among F := by
  cases v with
  | error f => exact among_ofFault f
  | _ => exact .leaf ⟨h, nofun⟩

/-- A tree as data carries what the tree carries. -/
theorem among_datum {n : Node} (h : n.Among F) : n.datum.Among F := by
  have hheld : (Value.among F).NodeHeld ⟨0, 0⟩ n := by
    induction h with
    | absent => exact .absent
    | leaf ht => exact .leaf (Or.inr (Value.among_iff_held.mp ht.value))
    | form _ ih => exact .form ih
  have hadmits := Value.among_admits (F := F) (M := ⟨[], 0, none, Host.none⟩) rfl
  exact Value.among_iff_held.mpr (Policy.held_datum hadmits hheld)

end Node

theorem Template.among_mono (hFG : ∀ ref, F ref → G ref) {u : Template}
    (h : u.MadeOf (Token.Among F)) : u.MadeOf (Token.Among G) := by
  induction h with
  | leaf ht => exact .leaf (ht.mono hFG)
  | hole => exact .hole
  | list _ ih => exact .list ih
  | repeated _ ih => exact .repeated ih

namespace Bindings

/-- All functions in the values of bindings are among those in `F`. -/
def Among (F : Nat → Prop) (bs : Bindings Value) : Prop := ∀ b ∈ bs, b.2.Among F

variable {bs : Bindings Value} {v : Value}

theorem Among.mono (hFG : ∀ ref, F ref → G ref) (h : Among F bs) : Among G bs :=
  fun b hb => (h b hb).mono hFG

theorem Among.find? (h : Among F bs) {name : Text} (hv : bs.find? name = some v) : v.Among F :=
  h _ (mem_of_find? hv)

theorem Among.insert (h : Among F bs) (name : Text) (hv : v.Among F) :
    Among F (bs.insert name v) := by
  intro b hb
  rcases mem_insert hb with hb | hb
  · rwa [hb]
  · exact h b hb

theorem Among.insertAll : ∀ (names : List Text) (vs : List Value) {bs : Bindings Value},
    Among F bs → (∀ v ∈ vs, v.Among F) → Among F (bs.insertAll names vs)
  | [], _, _, h, _ => h
  | _ :: _, [], _, h, _ => h
  | name :: names, v :: vs, _, h, hvs => by
    rw [List.forall_mem_cons] at hvs
    exact Among.insertAll names vs (h.insert name hvs.1) hvs.2

end Bindings

/-- All functions that a body carries, in its trees and in its scope, are among those in `F`. -/
def Body.Among (F : Nat → Prop) : Body → Prop
  | .closure c => (∀ n ∈ c.body, n.Among F) ∧ Bindings.Among F c.scope
  | _ => True

theorem Body.Among.mono (hFG : ∀ ref, F ref → G ref) {b : Body} (h : b.Among F) :
    b.Among G := by
  cases b with
  | closure c => exact ⟨fun n hn => Node.among_mono hFG (h.1 n hn), h.2.mono hFG⟩
  | _ => trivial

/-- All functions that an expander carries, in its templates, are among those in `F`. -/
abbrev Expander.Among (F : Nat → Prop) (x : Expander) : Prop := x.MadeOf (Token.Among F)

theorem Expander.among_mono (hFG : ∀ ref, F ref → G ref) {x : Expander} (h : x.Among F) :
    x.Among G := by
  cases x with
  | userDefined x => exact fun c hc => Template.among_mono hFG (h c hc)
  | _ => trivial

/-! ### The embedding program -/

/-- A script of the embedding program passes on no function but those it knows of, to begin with and
from the calls that it makes. `I F` says of a state that it knows of no functions but those in
`F`. -/
def Script.Discreet (I : (Nat → Prop) → σ → Prop) : (Nat → Prop) → Script σ Value → Prop
  | F, .done state v => I F state ∧ v.Among F
  | F, .raise state _ => I F state
  | F, .call state f args next =>
    I F state ∧ F f ∧ (∀ v ∈ args, v.Among F) ∧
      ∀ (G : Nat → Prop) state' v, (∀ ref, F ref → G ref) → I G state' → v.Among G →
        Discreet I G (next state' v)
  | F, .print state _ next => I F state ∧ ∀ t, Discreet I F (next t)
  | F, .nameOf state _ next => I F state ∧ ∀ t, Discreet I F (next t)

/-- A state that knows of no functions but some knows of none but those and others. -/
def Host.Lasting (I : (Nat → Prop) → σ → Prop) : Prop :=
  ∀ ⦃F G : Nat → Prop⦄ ⦃state : σ⦄, (∀ ref, F ref → G ref) → I F state → I G state

/-- An embedding program that makes up no functions: its functions and methods pass on only those
that they are given, that the state knows of, or that are given back to them. -/
structure Host.Discreet (I : (Nat → Prop) → σ → Prop) (H : Host σ) : Prop where
  lasting : Host.Lasting I
  native : ∀ {F : Nat → Prop} {name : Text} {args : List Value} {state : σ},
    (∀ v ∈ args, v.Among F) → I F state → Script.Discreet I F (H.native name args state)
  method : ∀ {F : Nat → Prop} {o : Object} {name : Text} {found : Host.Found σ}
    {run : Legend → List Value → σ → Script σ Value} {L : Legend} {args : List Value} {state : σ},
    H.Offers o name found run → (∀ v ∈ args, v.Among F) → I F state →
    Script.Discreet I F (run L args state)

/-! ### Stores -/

namespace Store

/-- What a function does, if it is there. -/
def bodyOf (s : Store σ) (ref : Nat) : Option Body := s.functions[ref]?.map Function.body

/-- The function is there, and it is no binder. -/
def Plain (s : Store σ) (ref : Nat) : Prop :=
  ∃ b, s.bodyOf ref = some b ∧ ∀ name, b ≠ .binder name

/-- Nothing that the store keeps refers to a binder, and identifiers in its trees are not empty. -/
structure Sealed (M : Machine σ) (I : (Nat → Prop) → σ → Prop) (s : Store σ) : Prop where
  bindings : s.bindings.Among s.Plain
  bodies : ∀ ref b, s.bodyOf ref = some b → b.Among s.Plain
  transformers : ∀ (ref : Nat) (x : Transformer), s.transformers[ref]? = some x →
    x.expander.Among s.Plain
  /-- The functions that evaluation itself calls are none. -/
  identity : s.Plain identityRef
  sequence : s.Plain doRef
  getter : s.Plain M.getter
  host : I s.Plain s.host

variable {M : Machine σ} {I : (Nat → Prop) → σ → Prop} {s t : Store σ}

theorem Grows.bodyOf (h : s.Grows t) {ref : Nat} {b : Body} (hb : s.bodyOf ref = some b) :
    t.bodyOf ref = some b := by
  obtain ⟨f, hf, rfl⟩ := Option.map_eq_some_iff.mp hb
  obtain ⟨g, hg, hbody⟩ := h.bodies ref f hf
  rw [Store.bodyOf, hg, Option.map_some, hbody]

theorem Grows.plain (h : s.Grows t) (ref : Nat) (hs : s.Plain ref) : t.Plain ref := by
  obtain ⟨b, hb, hplain⟩ := hs
  exact ⟨b, h.bodyOf hb, hplain⟩

/-- A store that has grown is sealed if what is new in it is. -/
theorem Sealed.grows (h : s.Sealed M I) (hgrows : s.Grows t)
    (hbindings : t.bindings.Among t.Plain)
    (hbodies : ∀ ref b, t.bodyOf ref = some b → s.bodyOf ref = some b ∨ b.Among t.Plain)
    (htransformers : ∀ (ref : Nat) (x : Transformer), t.transformers[ref]? = some x →
      s.transformers[ref]? = some x ∨ x.expander.Among t.Plain)
    (hhost : I t.Plain t.host) : t.Sealed M I where
  bindings := hbindings
  bodies ref b hb := by
    rcases hbodies ref b hb with hold | hnew
    · exact (h.bodies ref b hold).mono hgrows.plain
    · exact hnew
  transformers ref x hx := by
    rcases htransformers ref x hx with hold | hnew
    · exact Expander.among_mono hgrows.plain (h.transformers ref x hold)
    · exact hnew
  identity := hgrows.plain _ h.identity
  sequence := hgrows.plain _ h.sequence
  getter := hgrows.plain _ h.getter
  host := hhost

theorem Sealed.withStamps (h : s.Sealed M I) (n : Nat) : Sealed M I { s with stamps := n } :=
  ⟨h.bindings, h.bodies, h.transformers, h.identity, h.sequence, h.getter, h.host⟩

theorem Sealed.withHost (h : s.Sealed M I) {state : σ} (hstate : I s.Plain state) :
    Sealed M I { s with host := state } :=
  ⟨h.bindings, h.bodies, h.transformers, h.identity, h.sequence, h.getter, hstate⟩

theorem Sealed.bind (h : s.Sealed M I) (name : Text) {v : Value} (hv : v.Among s.Plain) :
    (s.bind name v).Sealed M I :=
  ⟨h.bindings.insert name hv, h.bodies, h.transformers, h.identity, h.sequence, h.getter, h.host⟩

theorem bodyOf_addFunction (s : Store σ) (f : Function) (ref : Nat) :
    (s.addFunction f).2.bodyOf ref =
      if ref = s.functions.size then some f.body else s.bodyOf ref := by
  simp only [bodyOf, addFunction, Array.getElem?_push]
  split_ifs <;> rfl

theorem bodyOf_define (s : Store σ) (name : Text) (v : Value) (ref : Nat) :
    (s.define name v).bodyOf ref = s.bodyOf ref := by
  cases v with
  | function r =>
    simp only [define, bind, nameFunction, bodyOf, Array.getElem?_modify]
    split_ifs
    · cases s.functions[ref]? with
      | none => rfl
      | some f =>
        simp only [Option.map_some]
        split_ifs <;> rfl
    · rfl
  | _ => rfl

variable (hI : Host.Lasting I)

include hI

theorem Sealed.define (h : s.Sealed M I) (name : Text) {v : Value} (hv : v.Among s.Plain) :
    (s.define name v).Sealed M I := by
  have hgrows : s.Grows (s.define name v) := (s.extends_define name v).grows
  have hsame : (s.define name v).bindings = s.bindings.insert name v := by cases v <;> rfl
  refine h.grows hgrows ?_ (fun ref b hb => Or.inl ?_) (fun ref x hx => Or.inl ?_) ?_
  · rw [hsame]
    exact (h.bindings.insert name hv).mono hgrows.plain
  · rwa [bodyOf_define] at hb
  · cases v <;> exact hx
  · have hhost := hI hgrows.plain h.host
    cases v <;> exact hhost

theorem Sealed.addFunction (h : s.Sealed M I) {f : Function} (hf : f.body.Among s.Plain) :
    (s.addFunction f).2.Sealed M I := by
  have hgrows : s.Grows (s.addFunction f).2 := (s.extends_addFunction f).grows
  refine h.grows hgrows (h.bindings.mono hgrows.plain) (fun ref b hb => ?_)
    (fun ref x hx => Or.inl hx) (hI hgrows.plain h.host)
  rw [bodyOf_addFunction] at hb
  split_ifs at hb
  · exact Or.inr (Option.some.inj hb ▸ hf.mono hgrows.plain)
  · exact Or.inl hb

theorem Sealed.addTransformer (h : s.Sealed M I) {x : Transformer}
    (hx : x.expander.Among s.Plain) : (s.addTransformer x).2.Sealed M I := by
  have hgrows : s.Grows (s.addTransformer x).2 := (s.extends_addTransformer x).grows
  refine h.grows hgrows (h.bindings.mono hgrows.plain) (fun ref b hb => Or.inl hb)
    (fun ref y hy => ?_) (hI hgrows.plain h.host)
  simp only [Store.addTransformer, Array.getElem?_push] at hy
  split_ifs at hy
  · exact Or.inr (Option.some.inj hy ▸ Expander.among_mono hgrows.plain hx)
  · exact Or.inl hy

omit hI

/-- A new function that is no binder is plain. -/
theorem plain_addFunction (s : Store σ) {f : Function} (hf : ∀ name, f.body ≠ .binder name) :
    (s.addFunction f).2.Plain (s.addFunction f).1 :=
  ⟨f.body, by rw [bodyOf_addFunction]; exact if_pos rfl, hf⟩

end Store

end LittleLisp
