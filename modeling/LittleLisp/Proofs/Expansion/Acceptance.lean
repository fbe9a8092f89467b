/-
# What acceptance depends on

Whether a user-defined form is accepted depends on the shape of its clauses and on the sorts and
texts of their tokens. Positions, and how values are printed, go into the messages of faults
only. So a form can be tried at other positions, and outside of any session.

Key definitions: `Compiled.Both`.
Key theorems: `Acceptance.pattern_relabel`, `Acceptance.template_relabel`,
`Acceptance.isOk_relabel`.
-/
import LittleLisp.Proofs.Expansion.Head
import LittleLisp.Proofs.Reading.Brackets

namespace LittleLisp

/-! ### Compilations in step -/

/-- Two compilations both fail, or both succeed with related results. -/
inductive Compiled.Both {α β : Type} (R : α → β → Prop) : Compiled α → Compiled β → Prop where
  | ok {a : α} {b : β} (h : R a b) : Both R (.ok a) (.ok b)
  | error (x y : Alarm) : Both R (.error x) (.error y)

namespace Compiled

variable {α β γ δ : Type} {R : α → β → Prop} {S : γ → δ → Prop} {x : Compiled α} {y : Compiled β}

/-- What follows two compilations in step goes in step. -/
theorem Both.bind (h : Both R x y) {f : α → Compiled γ} {g : β → Compiled δ}
    (hfg : ∀ a b, R a b → Both S (f a) (g b)) : Both S (x >>= f) (y >>= g) := by
  cases h with
  | ok h => exact hfg _ _ h
  | error x y => exact .error x y

theorem Both.isOk (h : Both R x y) : x.isOk = y.isOk := by
  cases h <;> rfl

theorem both_fail (p q : Position) (message message' : List Text) :
    Both R (fail p message) (fail q message') := .error _ _

/-- Mentioning a tree in the message of a failure changes nothing about the failure. -/
theorem both_mention_fail (x y : Compiled Text) (p q : Position) (f g : Text → List Text) :
    Both R (x >>= fun t => fail p (f t)) (y >>= fun t => fail q (g t)) := by
  cases x <;> cases y <;> exact .error _ _

theorem both_of_ne_ok (hx : ∀ a, x ≠ .ok a) (hy : ∀ b, y ≠ .ok b) : Both R x y := by
  cases x with
  | ok a => exact absurd rfl (hx a)
  | error a =>
    cases y with
    | ok b => exact absurd rfl (hy b)
    | error b => exact .error a b

end Compiled

namespace Acceptance

open Compiled (Both)
open Reference (itemInduction beginsWithEllipsis templateItems_plain_eq)

variable {f : Token → Token} {L L' : Legend} {literals : List Text} {bs : Bindings Nat}
  {depth : Nat} {whole : List Node} {repeats : Bool} {n m : Node} {ns : List Node}

/-- The new tokens are of the same sorts and have the same texts. -/
structure Keeps (f : Token → Token) : Prop where
  type : ∀ t, (f t).type = t.type
  text : ∀ t, (f t).text = t.text

theorem identifier_relabel (hf : Keeps f) (n : Node) :
    (n.relabel f).identifier? = n.identifier?.map f := by
  cases n with
  | absent =>
    rw [Node.relabel]
    rfl
  | form ns =>
    rw [Node.relabel]
    rfl
  | leaf t =>
    rw [Node.relabel, Node.identifier?, Node.identifier?, hf.type]
    split_ifs <;> rfl

theorem isEllipsis_relabel (hf : Keeps f) (n : Node) :
    (n.relabel f).isEllipsis = n.isEllipsis := by
  rw [Node.isEllipsis, Node.isEllipsis, identifier_relabel hf]
  cases n.identifier? with
  | none => rfl
  | some t => simp only [Option.map_some, hf.text]

theorem beginsWithEllipsis_relabel (hf : Keeps f) (ns : List Node) :
    beginsWithEllipsis (Node.relabelAll f ns) = beginsWithEllipsis ns := by
  cases ns with
  | nil =>
    rw [Node.relabelAll]
  | cons n ns =>
    rw [Node.relabelAll]
    exact isEllipsis_relabel hf n

/-! ### Patterns -/

theorem compileItems_plain_eq (hns : beginsWithEllipsis ns = false) :
    Pattern.compileItems L literals depth whole repeats (n :: ns) bs =
      (do
        let (item, bs) ← Pattern.compile L literals depth n bs
        let (items, bs) ← Pattern.compileItems L literals depth whole repeats ns bs
        return (item :: items, bs)) := by
  cases ns with
  | nil =>
    rw [Pattern.compileItems]
    cases Pattern.compile L literals depth n bs with
    | error a => rfl
    | ok r =>
      simp only [bind, Except.bind, Pattern.compileItems]
  | cons m ns => rw [Pattern.compileItems, if_neg (by simpa [beginsWithEllipsis] using hns)]

variable (L L' literals) in
/-- With other positions a pattern is compiled in step, and declares the same variables. -/
theorem pattern_relabel (hf : Keeps f) :
    (∀ (n : Node) (depth : Nat) (bs : Bindings Nat),
      Both (fun r r' => r.2 = r'.2) (Pattern.compile L literals depth n bs)
        (Pattern.compile L' literals depth (n.relabel f) bs)) ∧
    ∀ (ns : List Node) (depth : Nat) (whole whole' : List Node) (repeats : Bool)
      (bs : Bindings Nat),
      Both (fun r r' => r.2 = r'.2) (Pattern.compileItems L literals depth whole repeats ns bs)
        (Pattern.compileItems L' literals depth whole' repeats (Node.relabelAll f ns) bs) := by
  refine itemInduction ?absent ?leaf ?form ?nil ?repeated ?plain
  case absent =>
    intro depth bs
    rw [Node.relabel, Pattern.compile, Pattern.compile]
    exact Compiled.both_fail ..
  case leaf =>
    intro t depth bs
    rw [Node.relabel, Pattern.compile, Pattern.compile, hf.type, hf.text]
    split_ifs
    · exact .ok rfl
    · exact .ok rfl
    · exact .ok rfl
    · exact Compiled.both_fail ..
    · exact .ok rfl
  case form =>
    intro ns ih depth bs
    rw [Node.relabel, Pattern.compile, Pattern.compile]
    refine (ih depth ns (Node.relabelAll f ns) false bs).bind ?_
    rintro ⟨ps, cs⟩ ⟨ps', cs'⟩ rfl
    exact .ok rfl
  case nil =>
    intro depth whole whole' repeats bs
    rw [Node.relabelAll, Pattern.compileItems, Pattern.compileItems]
    exact .ok rfl
  case repeated =>
    intro n m ns hm ihn ihns depth whole whole' repeats bs
    rw [Node.relabelAll, Node.relabelAll, Pattern.compileItems, Pattern.compileItems, if_pos hm,
      if_pos ((isEllipsis_relabel hf m).trans hm)]
    split_ifs
    · exact Compiled.both_fail ..
    · refine (ihn (depth + 1) bs).bind ?_
      rintro ⟨p, cs⟩ ⟨p', cs'⟩ rfl
      refine (ihns depth whole whole' true cs).bind ?_
      rintro ⟨ps, ds⟩ ⟨ps', ds'⟩ rfl
      exact .ok rfl
  case plain =>
    intro n ns hns ihn ihns depth whole whole' repeats bs
    rw [Node.relabelAll, compileItems_plain_eq hns,
      compileItems_plain_eq ((beginsWithEllipsis_relabel hf ns).trans hns)]
    refine (ihn depth bs).bind ?_
    rintro ⟨p, cs⟩ ⟨p', cs'⟩ rfl
    refine (ihns depth whole whole' repeats cs).bind ?_
    rintro ⟨ps, ds⟩ ⟨ps', ds'⟩ rfl
    exact .ok rfl

/-! ### Templates -/

/-- Templates with the same variables to repeat. -/
def SameDrivers (u u' : Template) : Prop := ∀ k, u.driver? k = u'.driver? k

/-- The same for the templates of lists. -/
def SameItemDrivers (us us' : List Template) : Prop :=
  ∀ k, Template.driverOfItems? k us = Template.driverOfItems? k us'

theorem SameDrivers.cons {u u' : Template} {us us' : List Template} (h : SameDrivers u u')
    (hs : SameItemDrivers us us') : SameItemDrivers (u :: us) (u' :: us') := by
  intro k
  rw [Template.driverOfItems?, Template.driverOfItems?, h k, hs k]

theorem SameDrivers.repeated {u u' : Template} (h : SameDrivers u u') (x : Text) :
    SameDrivers (.repeated x u) (.repeated x u') := by
  intro k
  rw [Template.driver?, Template.driver?, h k]

variable (L L' bs) in
/-- With other positions a template is compiled in step, and repeats by the same variables. -/
theorem template_relabel (hf : Keeps f) :
    (∀ (n : Node) (depth : Nat), Both SameDrivers (Template.compile L bs depth n)
      (Template.compile L' bs depth (n.relabel f))) ∧
    ∀ (ns : List Node) (depth : Nat), Both SameItemDrivers (Template.compileItems L bs depth ns)
      (Template.compileItems L' bs depth (Node.relabelAll f ns)) := by
  refine itemInduction ?absent ?leaf ?form ?nil ?repeated ?plain
  case absent =>
    intro depth
    rw [Node.relabel, Template.compile, Template.compile]
    exact Compiled.both_fail ..
  case leaf =>
    intro t depth
    rw [Node.relabel, Template.compile, Template.compile, hf.type, hf.text]
    split_ifs
    · exact .ok fun k => rfl
    · cases bs.find? t.text with
      | none => exact .ok fun k => rfl
      | some d =>
        dsimp only
        split_ifs
        · exact Compiled.both_fail ..
        · exact .ok fun k => rfl
  case form =>
    intro ns ih depth
    rw [Node.relabel, Template.compile, Template.compile]
    refine (ih depth).bind fun us us' hus => .ok fun k => ?_
    rw [Template.driver?, Template.driver?, hus k]
  case nil =>
    intro depth
    rw [Node.relabelAll, Template.compileItems, Template.compileItems]
    exact .ok fun k => rfl
  case repeated =>
    intro n m ns hm ihn ihns depth
    rw [Node.relabelAll, Node.relabelAll, Template.compileItems, Template.compileItems, if_pos hm,
      if_pos ((isEllipsis_relabel hf m).trans hm)]
    refine (ihn (depth + 1)).bind fun u u' hu => ?_
    rw [hu (depth + 1)]
    cases u'.driver? (depth + 1) with
    | none => exact Compiled.both_mention_fail ..
    | some x => exact (ihns depth).bind fun us us' hus => .ok ((hu.repeated x).cons hus)
  case plain =>
    intro n ns hns ihn ihns depth
    rw [Node.relabelAll, templateItems_plain_eq hns,
      templateItems_plain_eq ((beginsWithEllipsis_relabel hf ns).trans hns)]
    refine (ihn depth).bind fun u u' hu => ?_
    exact (ihns depth).bind fun us us' hus => .ok (hu.cons hus)

/-! ### Forms -/

theorem relabel_eq_form {ms : List Node} (h : n.relabel f = .form ms) :
    ∃ ns, n = .form ns ∧ ms = ns.map (Node.relabel f) := by
  cases n with
  | absent => simp [Node.relabel] at h
  | leaf t => simp [Node.relabel] at h
  | form ns =>
    rw [Node.relabel, Node.relabelAll_eq_map] at h
    exact ⟨ns, rfl, (Node.form.inj h).symm⟩

variable (L L' literals) in
theorem clause_relabel (hf : Keeps f) (form : Node) :
    Both (fun _ _ => True) (Clause.compile L literals form)
      (Clause.compile L' literals (form.relabel f)) := by
  by_cases hform : ∃ head operands template, form = .form [.form (head :: operands), template]
  · obtain ⟨head, operands, template, rfl⟩ := hform
    have hitems := (pattern_relabel L L' literals hf).2 (head :: operands) 0 (head :: operands)
      (Node.relabelAll f (head :: operands)) false []
    simp only [Node.relabel, Node.relabelAll, Clause.compile_pair] at hitems ⊢
    refine hitems.bind ?_
    rintro ⟨ps, cs⟩ ⟨ps', cs'⟩ rfl
    exact ((template_relabel L L' cs hf).1 template 0).bind fun _ _ _ => .ok trivial
  · -- a clause of another shape is refused, and so it is at other positions
    refine Compiled.both_of_ne_ok (fun c hc => hform ?_) fun c hc => hform ?_
    · obtain ⟨head, operands, template, -, -, -, heq, -⟩ := Clause.compile_eq_ok hc
      exact ⟨head, operands, template, heq⟩
    · obtain ⟨head, operands, template, -, -, -, heq, -⟩ := Clause.compile_eq_ok hc
      obtain ⟨ns, rfl, hns⟩ := relabel_eq_form heq
      obtain ⟨p, rest, rfl, hp, hrest⟩ := List.map_eq_cons_iff.mp hns.symm
      obtain ⟨t, rfl, -⟩ := List.map_eq_singleton_iff.mp hrest
      obtain ⟨ms, rfl, hms⟩ := relabel_eq_form hp
      obtain ⟨head', operands', rfl, -, -⟩ := List.map_eq_cons_iff.mp hms.symm
      exact ⟨head', operands', t, rfl⟩

variable (L L' literals) in
theorem clauses_relabel (hf : Keeps f) : ∀ forms : List Node,
    Both (fun _ _ => True) (Clause.compileAll L literals forms)
      (Clause.compileAll L' literals (forms.map (Node.relabel f)))
  | [] => .ok trivial
  | form :: forms => by
    rw [List.map_cons, Clause.compileAll, Clause.compileAll]
    refine (clause_relabel L L' literals hf form).bind fun _ _ _ => ?_
    exact (clauses_relabel hf forms).bind fun _ _ _ => .ok trivial

variable (L L') in
theorem literalNames_relabel (hf : Keeps f) : ∀ ns : List Node,
    Both (fun names names' => names = names') (Transformation.literalNames L ns)
      (Transformation.literalNames L' (ns.map (Node.relabel f)))
  | [] => .ok rfl
  | n :: ns => by
    rw [List.map_cons, Transformation.literalNames, Transformation.literalNames,
      identifier_relabel hf]
    cases n.identifier? with
    | none => exact Compiled.both_mention_fail ..
    | some t =>
      simp only [Option.map_some, hf.text]
      refine (literalNames_relabel hf ns).bind ?_
      rintro names _ rfl
      exact .ok rfl

theorem shape_of_compile {keyword : Text} {spec : Node} {x : Transformation}
    (h : Transformation.compile L keyword spec = .ok x) :
    ∃ head names forms, spec = .form (head :: .form names :: forms) := by
  obtain ⟨-, -, hmem⟩ := Reference.compile_spec h
  unfold Reference.literalsOf at hmem
  split at hmem
  · exact ⟨_, _, _, rfl⟩
  · simp at hmem

/-- **Acceptance depends on sorts and texts only.** A user-defined form is accepted exactly when it
is accepted with other positions and values, and however values are printed. -/
theorem isOk_relabel (hf : Keeps f) (L L' : Legend) (keyword : Text) (spec : Node) :
    (Transformation.compile L' keyword (spec.relabel f)).isOk =
      (Transformation.compile L keyword spec).isOk := by
  refine (Both.isOk (R := fun _ _ => True) ?_).symm
  by_cases hspec : ∃ head names forms, spec = .form (head :: .form names :: forms)
  · obtain ⟨head, names, forms, rfl⟩ := hspec
    simp only [Node.relabel, Node.relabelAll, Transformation.compile_eq, identifier_relabel hf,
      Option.any_map, hf.text]
    split_ifs
    · simp only [Node.relabelAll_eq_map]
      refine (literalNames_relabel L L' hf names).bind ?_
      rintro names' _ rfl
      exact (clauses_relabel L L' _ hf forms).bind fun _ _ _ => .ok trivial
    · exact Compiled.both_mention_fail ..
  · refine Compiled.both_of_ne_ok (fun x hx => hspec (shape_of_compile hx)) fun x hx => hspec ?_
    obtain ⟨head, names, forms, heq⟩ := shape_of_compile hx
    obtain ⟨ns, rfl, hns⟩ := relabel_eq_form heq
    obtain ⟨head', rest, rfl, -, hrest⟩ := List.map_eq_cons_iff.mp hns.symm
    obtain ⟨lits, forms', rfl, hlits, -⟩ := List.map_eq_cons_iff.mp hrest
    obtain ⟨names', rfl, -⟩ := relabel_eq_form hlits
    exact ⟨head', names', forms', rfl⟩

end Acceptance

end LittleLisp
