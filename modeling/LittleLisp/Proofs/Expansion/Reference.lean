/-
# The meaning of clauses

What a user-defined form means, said on the trees of its clauses and without tables.
Matching a pattern gives each variable a tree of matches: one tree of the program for a
variable under no ellipsis, and a list with one entry for each repetition under an
ellipsis. The item before an ellipsis takes any number of trees, and the items after it
take the rest. Writing a template repeats what stands before an ellipsis as often as its
variables were matched, where a variable follows the repetition numbers from the outermost
one on until its tree of matches ends.

A clause has no result where an ellipsis would repeat two variables a different number of
times, in a repetition that writing reaches.

Key definitions: `Reference.MatchTree`, `Reference.Matched`, `Reference.Written`,
`Reference.Uneven`, `Reference.Expands`.
Key theorems: `Reference.itemInduction`.
-/
import Mathlib.Data.List.Forall2
import Mathlib.Tactic.Common
import LittleLisp.Proofs.Expansion.Bounds

namespace LittleLisp

namespace Reference

/-! ### Items -/

/-- Whether trees begin with an ellipsis, so that the tree before them is repeated. -/
def beginsWithEllipsis : List Node → Bool
  | [] => false
  | n :: _ => n.isEllipsis

/-- Induction on trees, where a list is taken apart into single items and items with an ellipsis
after them. -/
theorem itemInduction {P : Node → Prop} {Q : List Node → Prop} (absent : P .absent)
    (leaf : ∀ t, P (.leaf t)) (form : ∀ ns, Q ns → P (.form ns)) (nil : Q [])
    (repeated : ∀ n m ns, m.isEllipsis = true → P n → Q ns → Q (n :: m :: ns))
    (plain : ∀ n ns, beginsWithEllipsis ns = false → P n → Q ns → Q (n :: ns)) :
    (∀ n, P n) ∧ ∀ ns, Q ns :=
  ⟨ofNode, ofItems⟩
where
  /-- The part for a tree. -/
  ofNode : ∀ n, P n
    | .absent => absent
    | .leaf t => leaf t
    | .form ns => form ns (ofItems ns)
  /-- The part for the items of a list. -/
  ofItems : ∀ ns, Q ns
    | [] => nil
    | [n] => plain n [] rfl (ofNode n) nil
    | n :: m :: ns =>
      if h : m.isEllipsis = true then repeated n m ns h (ofNode n) (ofItems ns)
      else plain n (m :: ns) (by simpa [beginsWithEllipsis] using h) (ofNode n) (ofItems (m :: ns))

mutual

/-- The identifiers of a tree, less the ellipses that mark a repetition. -/
def names : Node → List Text
  | .absent => []
  | .leaf t => if t.type = .identifier then [t.text] else []
  | .form ns => namesOfItems ns

/-- The identifiers of the items of a list. -/
def namesOfItems : List Node → List Text
  | [] => []
  | [n] => names n
  | n :: m :: ns =>
    if m.isEllipsis then names n ++ namesOfItems ns else names n ++ namesOfItems (m :: ns)

end

/-- Whether an identifier of a pattern is a variable. -/
def IsVariable (literals : List Text) (name : Text) : Prop :=
  name ≠ underscore ∧ name ∉ literals

instance (literals : List Text) (name : Text) : Decidable (IsVariable literals name) :=
  inferInstanceAs (Decidable (_ ∧ _))

/-- The variables of a pattern. -/
def vars (literals : List Text) (p : Node) : List Text :=
  (names p).filter fun x => IsVariable literals x

/-- The variables of the items of a list of a pattern. -/
def varsOfItems (literals : List Text) (ps : List Node) : List Text :=
  (namesOfItems ps).filter fun x => IsVariable literals x

/-! ### Matching -/

/-- What a variable stands for: a tree of the program, or a list with an entry for each
repetition. -/
inductive MatchTree where
  | one (n : Node)
  | many (ts : List MatchTree)

namespace MatchTree

/-- What a tree of matches comes to in a repetition, given by its numbers from the outermost one on;
numbers that are left over make no difference. -/
def follow : MatchTree → List Nat → Option MatchTree
  | t, [] => some t
  | .one n, _ :: _ => some (.one n)
  | .many ts, i :: path =>
    match ts[i]? with
    | some t => follow t path
    | none => none

end MatchTree

/-- What some variables stand for. -/
def Assignment : Type := Text → Option MatchTree

namespace Assignment

/-- No variable stands for anything. -/
def empty : Assignment := fun _ => none

/-- One variable stands for a tree. -/
def single (x : Text) (n : Node) : Assignment := fun y => if y = x then some (.one n) else none

/-- The variables of both assignments. -/
def union (a b : Assignment) : Assignment := fun x => (a x).or (b x)

/-- The assignments of all repetitions as one, for the variables `xs` that they all assign. -/
def gather (xs : List Text) (as : List Assignment) : Assignment := fun x =>
  if x ∈ xs then some (.many (as.filterMap fun a => a x)) else none

end Assignment

mutual

/-- A pattern matches a tree, and its variables stand for what the assignment says. -/
def Matched (literals : List Text) : Node → Node → Assignment → Prop
  | .absent, _, _ => False
  | .leaf t, n, a =>
    if t.type ≠ .identifier then
      (∃ u, n = .leaf u ∧ u.type = t.type ∧ u.value.same t.value = true) ∧ a = .empty
    else if t.text = underscore then a = .empty
    else if t.text ∈ literals then (∃ u, n.identifier? = some u ∧ u.text = t.text) ∧ a = .empty
    else a = .single t.text n
  | .form ps, n, a => ∃ ns, n = .form ns ∧ MatchedItems literals ps ns a

/-- The items of a list of a pattern match some trees. An item with an ellipsis matches any number
of them, each on its own. -/
def MatchedItems (literals : List Text) : List Node → List Node → Assignment → Prop
  | [], ns, a => ns = [] ∧ a = .empty
  | [p], ns, a => ∃ n, ns = [n] ∧ Matched literals p n a
  | p :: q :: ps, ns, a =>
    if q.isEllipsis then
      ∃ repetitions others as b, ns = repetitions ++ others ∧
        List.Forall₂ (Matched literals p) repetitions as ∧ MatchedItems literals ps others b ∧
          a = .union (.gather (vars literals p) as) b
    else
      ∃ n others b c, ns = n :: others ∧ Matched literals p n b ∧
        MatchedItems literals (q :: ps) others c ∧ a = .union b c

end

/-! ### Writing -/

/-- A variable was matched `k` times in the repetition `path`. -/
def CountAt (a : Assignment) (path : List Nat) (x : Text) (k : Nat) : Prop :=
  ∃ t ts, a x = some t ∧ t.follow path = some (.many ts) ∧ ts.length = k

/-- An ellipsis after a template repeats it `k` times in the repetition `path`: all variables that
it repeats were matched `k` times, and there is such a variable. -/
def Repeats (a : Assignment) (path : List Nat) (template : Node) (k : Nat) : Prop :=
  (∃ x ∈ names template, CountAt a path x k) ∧
    ∀ x ∈ names template, ∀ j, CountAt a path x j → j = k

mutual

/-- A template is written as a tree in the repetition `path`. -/
def Written (a : Assignment) : Node → List Nat → Node → Prop
  | .absent, _, _ => False
  | .leaf t, path, n =>
    match (if t.type = .identifier then a t.text else none) with
    | some u => u.follow path = some (.one n)
    | none => n = .leaf t
  | .form ts, path, n => ∃ ns, n = .form ns ∧ WrittenItems a ts path ns

/-- The items of a list of a template are written as some trees. -/
def WrittenItems (a : Assignment) : List Node → List Nat → List Node → Prop
  | [], _, ns => ns = []
  | [t], path, ns => ∃ n, ns = [n] ∧ Written a t path n
  | t :: q :: ts, path, ns =>
    if q.isEllipsis then
      ∃ repetitions others, ns = repetitions ++ others ∧ Repeats a path t repetitions.length ∧
        (∀ i n, repetitions[i]? = some n → Written a t (path ++ [i]) n) ∧
          WrittenItems a ts path others
    else
      ∃ n others, ns = n :: others ∧ Written a t path n ∧ WrittenItems a (q :: ts) path others

end

mutual

/-- In a repetition that writing a template reaches, an ellipsis repeats two variables that were
matched a different number of times. -/
def Uneven (a : Assignment) : Node → List Nat → Prop
  | .absent, _ => False
  | .leaf _, _ => False
  | .form ts, path => UnevenItems a ts path

/-- The same for the items of a list. -/
def UnevenItems (a : Assignment) : List Node → List Nat → Prop
  | [], _ => False
  | [t], path => Uneven a t path
  | t :: q :: ts, path =>
    if q.isEllipsis then
      (∃ x ∈ names t, ∃ y ∈ names t, ∃ j k, CountAt a path x j ∧ CountAt a path y k ∧ j ≠ k) ∨
        (∃ i k, Repeats a path t k ∧ i < k ∧ Uneven a t (path ++ [i])) ∨ UnevenItems a ts path
    else Uneven a t path ∨ UnevenItems a (q :: ts) path

end

/-! ### One item at a time -/

section Items

variable {literals : List Text} {n m p q : Node} {ns ps : List Node} {a : Assignment}
  {path : List Nat}

theorem namesOfItems_repeated (h : m.isEllipsis = true) :
    namesOfItems (n :: m :: ns) = names n ++ namesOfItems ns := by
  simp [namesOfItems, h]

theorem namesOfItems_plain (h : beginsWithEllipsis ns = false) :
    namesOfItems (n :: ns) = names n ++ namesOfItems ns := by
  cases ns with
  | nil => simp [namesOfItems]
  | cons m ns => simp [namesOfItems, show m.isEllipsis = false from h]

theorem varsOfItems_repeated (h : m.isEllipsis = true) :
    varsOfItems literals (n :: m :: ns) = vars literals n ++ varsOfItems literals ns := by
  simp [varsOfItems, vars, namesOfItems_repeated h]

theorem varsOfItems_plain (h : beginsWithEllipsis ns = false) :
    varsOfItems literals (n :: ns) = vars literals n ++ varsOfItems literals ns := by
  simp [varsOfItems, vars, namesOfItems_plain h]

theorem vars_form : vars literals (.form ns) = varsOfItems literals ns := by
  simp [vars, varsOfItems, names]

theorem Assignment.union_empty (a : Assignment) : a.union .empty = a := by
  funext x
  simp [Assignment.union, Assignment.empty]

theorem matchedItems_repeated (h : q.isEllipsis = true) :
    MatchedItems literals (p :: q :: ps) ns a ↔
      ∃ repetitions others as b, ns = repetitions ++ others ∧
        List.Forall₂ (Matched literals p) repetitions as ∧ MatchedItems literals ps others b ∧
          a = .union (.gather (vars literals p) as) b := by
  simp [MatchedItems, h]

theorem matchedItems_plain (h : beginsWithEllipsis ps = false) :
    MatchedItems literals (p :: ps) ns a ↔
      ∃ n others b c, ns = n :: others ∧ Matched literals p n b ∧
        MatchedItems literals ps others c ∧ a = .union b c := by
  cases ps with
  | nil =>
    simp only [MatchedItems]
    constructor
    · rintro ⟨n, rfl, hn⟩
      exact ⟨n, [], a, .empty, rfl, hn, ⟨rfl, rfl⟩, (Assignment.union_empty a).symm⟩
    · rintro ⟨n, others, b, c, rfl, hn, ⟨rfl, rfl⟩, rfl⟩
      exact ⟨n, rfl, by rwa [Assignment.union_empty]⟩
  | cons q ps => simp [MatchedItems, show q.isEllipsis = false from h]

theorem writtenItems_repeated (h : q.isEllipsis = true) :
    WrittenItems a (p :: q :: ps) path ns ↔
      ∃ repetitions others, ns = repetitions ++ others ∧ Repeats a path p repetitions.length ∧
        (∀ i n, repetitions[i]? = some n → Written a p (path ++ [i]) n) ∧
          WrittenItems a ps path others := by
  simp [WrittenItems, h]

theorem writtenItems_plain (h : beginsWithEllipsis ps = false) :
    WrittenItems a (p :: ps) path ns ↔
      ∃ n others, ns = n :: others ∧ Written a p path n ∧ WrittenItems a ps path others := by
  cases ps with
  | nil =>
    simp only [WrittenItems]
    constructor
    · rintro ⟨n, rfl, hn⟩
      exact ⟨n, [], rfl, hn, rfl⟩
    · rintro ⟨n, others, rfl, hn, rfl⟩
      exact ⟨n, rfl, hn⟩
  | cons q ps => simp [WrittenItems, show q.isEllipsis = false from h]

theorem unevenItems_repeated (h : q.isEllipsis = true) :
    UnevenItems a (p :: q :: ps) path ↔
      (∃ x ∈ names p, ∃ y ∈ names p, ∃ j k, CountAt a path x j ∧ CountAt a path y k ∧ j ≠ k) ∨
        (∃ i k, Repeats a path p k ∧ i < k ∧ Uneven a p (path ++ [i])) ∨
          UnevenItems a ps path := by
  simp [UnevenItems, h]

theorem unevenItems_plain (h : beginsWithEllipsis ps = false) :
    UnevenItems a (p :: ps) path ↔ Uneven a p path ∨ UnevenItems a ps path := by
  cases ps with
  | nil => simp [UnevenItems]
  | cons q ps => simp [UnevenItems, show q.isEllipsis = false from h]

end Items

/-! ### Clauses -/

/-- What the clauses of a user-defined form make of some operands. -/
inductive Expansion where
  /-- No clause matches. -/
  | unmatched
  /-- The first clause that matches repeats variables that were matched a different number of
  times. -/
  | uneven
  | tree (n : Node)

/-- What clauses `((head pattern ...) template)` make of some operands: the first one whose patterns
match decides. -/
def Expands (literals : List Text) (operands : List Node) : List Node → Expansion → Prop
  | [], r => r = .unmatched
  | .form [.form (_ :: patterns), template] :: clauses, r =>
    (∃ a, MatchedItems literals patterns operands a ∧
      ((∃ n, Written a template [] n ∧ r = .tree n) ∨ Uneven a template [] ∧ r = .uneven)) ∨
    (¬ ∃ a, MatchedItems literals patterns operands a) ∧ Expands literals operands clauses r
  | _ :: _, _ => False

/-- The tree that takes the place of the form: where there is none, the report of what is wrong. -/
def Expansion.node (L : Legend) (keyword : Text) (operands : List Node) : Expansion → Node
  | .unmatched =>
    .malformed (Node.positionOfAll operands)
      ["no syntax-rules clause of ", keyword, " matches ",
        Value.shown ((Node.form operands).text L)]
  | .uneven =>
    .malformed (Node.positionOfAll operands)
      [keyword, ": ellipsis variables matched different lengths in ",
        Value.shown ((Node.form operands).text L)]
  | .tree n => n

end Reference

end LittleLisp
