/-
# Which specifications are accepted

A specification `(syntax-rules (literal ...) (pattern template) ...)` is well-formed if its shape is
right and each of its clauses is: no variable stands twice in a pattern, no list of a pattern has
two ellipses, a variable of the template stands under at least as many ellipses as in the pattern,
and each ellipsis of a template has a variable to repeat by. Lists are read from left to right as
items, each with an ellipsis after it or not, so an ellipsis can itself be an item.

Compiling accepts exactly these, with one exception: it takes no variable with an empty name to
repeat by. Everything else is refused as malformed, or not even that: a message quotes a part of
the specification, and a leaf that was not read from a source may hold a value that has no text.
A definition with a refused specification changes nothing.

Key definitions: `Reference.items`, `Reference.Occurs`, `Reference.Repeated`,
`Reference.ClauseFits`, `Reference.WellFormed`, `Compiled.Judged`.
Key theorems: `Reference.judged_pattern`, `Reference.judged_template`,
`Reference.judged_spec`,
`Transformation.accepts_exactly_wellFormed`.
-/
import LittleLisp.Proofs.Attribution.Refusal
import LittleLisp.Proofs.Expansion.Acceptance
import LittleLisp.Proofs.Nesting.Rules
import LittleLisp.Proofs.Reading.RoundTrip

namespace LittleLisp

/-! ### Trees without gaps -/

namespace Node

/-- No part of the tree is missing. -/
def Whole (n : Node) : Prop := ¬ Part .absent n

theorem whole_leaf (t : Token) : (leaf t).Whole := nofun

theorem whole_form {ns : List Node} : (form ns).Whole ↔ ∀ n ∈ ns, n.Whole := by
  constructor
  · exact fun h n hn hpart => h (.item hn hpart)
  · intro h hpart
    cases hpart with
    | item hn hpart => exact h _ hn hpart

theorem Whole.of_part {n part : Node} (h : n.Whole) (hpart : part.Part n) : part.Whole :=
  fun hgap => h (hgap.trans hpart)

theorem MadeOf.imp {T T' : Token → Prop} (hT : ∀ t, T t → T' t) {n : Node} (h : n.MadeOf T) :
    n.MadeOf T' := by
  induction h with
  | absent => exact .absent
  | leaf h => exact .leaf (hT _ h)
  | form _ ih => exact .form ih

/-- A part of the tree has no text, for a reason. -/
def Unprintable (L : Legend) (n : Node) (reason : Text) : Prop :=
  ∃ part, Part part n ∧ part.text L = .error reason

theorem leaf_of_isEllipsis {n : Node} (h : n.isEllipsis = true) : ∃ t, n = .leaf t := by
  cases n with
  | leaf t => exact ⟨t, rfl⟩
  | _ => simp [isEllipsis, identifier?] at h

end Node

namespace Reference

open Node (Part Whole)

/-! ### Items -/

/-- The items of a list, read from left to right, and whether an ellipsis follows them. -/
def items : List Node → List (Node × Bool)
  | [] => []
  | [n] => [(n, false)]
  | n :: m :: ns => if m.isEllipsis then (n, true) :: items ns else (n, false) :: items (m :: ns)

/-- An identifier stands in the tree as an item, under so many ellipses. -/
inductive Occurs (x : Text) : Node → Nat → Prop where
  | leaf {t : Token} (ht : t.type = .identifier) (hx : t.text = x) : Occurs x (.leaf t) 0
  | item {ns : List Node} {n : Node} {dots : Bool} {d : Nat} (hn : (n, dots) ∈ items ns)
      (h : Occurs x n d) : Occurs x (.form ns) (d + dots.toNat)

/-- An ellipsis follows the second tree as an item somewhere in the first one, as the innermost of
so many ellipses around it. -/
inductive Repeated : Node → Node → Nat → Prop where
  | here {ns : List Node} {n : Node} (hn : (n, true) ∈ items ns) : Repeated (.form ns) n 1
  | inside {ns : List Node} {m n : Node} {dots : Bool} {d : Nat} (hm : (m, dots) ∈ items ns)
      (h : Repeated m n d) : Repeated (.form ns) n (d + dots.toNat)

section Items

variable {x : Text} {n m k : Node} {ns : List Node} {d : Nat}

theorem items_repeated (hm : m.isEllipsis = true) :
    items (n :: m :: ns) = (n, true) :: items ns := by
  simp [items, hm]

theorem items_plain (hns : beginsWithEllipsis ns = false) :
    items (n :: ns) = (n, false) :: items ns := by
  cases ns with
  | nil => rfl
  | cons m ns => simp [items, show m.isEllipsis = false from hns]

theorem exists_item_repeated (hm : m.isEllipsis = true) {R : Node → Bool → Prop} :
    (∃ k dots, (k, dots) ∈ items (n :: m :: ns) ∧ R k dots) ↔
      R n true ∨ ∃ k dots, (k, dots) ∈ items ns ∧ R k dots := by
  simp [items_repeated hm, or_and_right, exists_or]

theorem exists_item_plain (hns : beginsWithEllipsis ns = false) {R : Node → Bool → Prop} :
    (∃ k dots, (k, dots) ∈ items (n :: ns) ∧ R k dots) ↔
      R n false ∨ ∃ k dots, (k, dots) ∈ items ns ∧ R k dots := by
  simp [items_plain hns, or_and_right, exists_or]

theorem occurs_leaf {t : Token} :
    Occurs x (.leaf t) d ↔ t.type = .identifier ∧ t.text = x ∧ d = 0 := by
  constructor
  · rintro ⟨ht, hx⟩
    exact ⟨ht, hx, rfl⟩
  · rintro ⟨ht, hx, rfl⟩
    exact .leaf ht hx

theorem occurs_form : Occurs x (.form ns) d ↔
    ∃ n dots, (n, dots) ∈ items ns ∧ ∃ e, Occurs x n e ∧ d = e + dots.toNat := by
  constructor
  · rintro ⟨⟩
    exact ⟨_, _, ‹_›, _, ‹_›, rfl⟩
  · rintro ⟨n, dots, hn, e, h, rfl⟩
    exact .item hn h

theorem not_occurs_absent : ¬ Occurs x .absent d := nofun

theorem not_occurs_nil : ¬ Occurs x (.form []) d := by
  simp [occurs_form, items]

theorem occurs_repeated (hm : m.isEllipsis = true) :
    Occurs x (.form (n :: m :: ns)) d ↔
      (∃ e, Occurs x n e ∧ d = e + 1) ∨ Occurs x (.form ns) d := by
  rw [occurs_form, exists_item_repeated hm, ← occurs_form]
  simp

theorem occurs_plain (hns : beginsWithEllipsis ns = false) :
    Occurs x (.form (n :: ns)) d ↔ Occurs x n d ∨ Occurs x (.form ns) d := by
  rw [occurs_form, exists_item_plain hns, ← occurs_form]
  simp

theorem repeated_form : Repeated (.form ns) k d ↔
    ∃ n dots, (n, dots) ∈ items ns ∧
      ((k = n ∧ dots = true ∧ d = 1) ∨ ∃ e, Repeated n k e ∧ d = e + dots.toNat) := by
  constructor
  · intro h
    cases h with
    | here hn => exact ⟨k, true, hn, Or.inl ⟨rfl, rfl, rfl⟩⟩
    | inside hm h => exact ⟨_, _, hm, Or.inr ⟨_, h, rfl⟩⟩
  · rintro ⟨n, dots, hn, ⟨rfl, rfl, rfl⟩ | ⟨e, h, rfl⟩⟩
    · exact .here hn
    · exact .inside hn h

theorem not_repeated_leaf {t : Token} : ¬ Repeated (.leaf t) k d := nofun

theorem not_repeated_nil : ¬ Repeated (.form []) k d := by
  simp [repeated_form, items]

theorem repeated_repeated (hm : m.isEllipsis = true) :
    Repeated (.form (n :: m :: ns)) k d ↔
      ((k = n ∧ d = 1) ∨ ∃ e, Repeated n k e ∧ d = e + 1) ∨ Repeated (.form ns) k d := by
  rw [repeated_form, exists_item_repeated hm, ← repeated_form]
  simp

theorem repeated_plain (hns : beginsWithEllipsis ns = false) :
    Repeated (.form (n :: ns)) k d ↔ Repeated n k d ∨ Repeated (.form ns) k d := by
  rw [repeated_form, exists_item_plain hns, ← repeated_form]
  simp

theorem mem_of_mem_items {dots : Bool} : ∀ {ns : List Node}, (n, dots) ∈ items ns → n ∈ ns
  | [], h => by simp [items] at h
  | [m], h => by
    simp only [items, List.mem_singleton, Prod.mk.injEq] at h
    simp [h.1]
  | m :: k :: ns, h => by
    unfold items at h
    split_ifs at h
    · rcases List.mem_cons.mp h with heq | h
      · simp [(Prod.mk.inj heq).1]
      · simp [mem_of_mem_items h]
    · rcases List.mem_cons.mp h with heq | h
      · simp [(Prod.mk.inj heq).1]
      · exact List.mem_cons_of_mem _ (mem_of_mem_items h)

theorem Occurs.part (h : Occurs x n d) :
    ∃ t : Token, (Node.leaf t).Part n ∧ t.type = .identifier ∧ t.text = x := by
  induction h with
  | leaf ht hx => exact ⟨_, .self, ht, hx⟩
  | item hn _ ih =>
    obtain ⟨t, hpart, ht⟩ := ih
    exact ⟨t, .item (mem_of_mem_items hn) hpart, ht⟩

theorem Repeated.part (h : Repeated n k d) : k.Part n := by
  induction h with
  | here hn => exact .item (mem_of_mem_items hn) .self
  | inside hm _ ih => exact .item (mem_of_mem_items hm) ih

/-- The identifiers of a tree are those that stand in it as items. -/
theorem mem_names_all (x : Text) :
    (∀ n, x ∈ names n ↔ ∃ d, Occurs x n d) ∧
      ∀ ns, x ∈ namesOfItems ns ↔ ∃ d, Occurs x (.form ns) d := by
  refine itemInduction ?absent ?leaf ?form ?nil ?repeated ?plain
  case absent => simp [names, not_occurs_absent]
  case leaf =>
    intro t
    simp only [occurs_leaf, names]
    split_ifs with ht <;> simp [ht, eq_comm]
  case form => exact fun ns ih => ih
  case nil => simp [namesOfItems, not_occurs_nil]
  case repeated =>
    intro n m ns hm ihn ihns
    rw [namesOfItems_repeated hm, List.mem_append, ihn, ihns]
    simp only [occurs_repeated hm, exists_or]
    refine or_congr_left ⟨?_, ?_⟩
    · rintro ⟨d, h⟩
      exact ⟨d + 1, d, h, rfl⟩
    · rintro ⟨_, d, h, -⟩
      exact ⟨d, h⟩
  case plain =>
    intro n ns hns ihn ihns
    rw [namesOfItems_plain hns, List.mem_append, ihn, ihns]
    simp only [occurs_plain hns, exists_or]

theorem mem_vars_iff {literals : List Text} :
    x ∈ vars literals n ↔ IsVariable literals x ∧ ∃ d, Occurs x n d := by
  rw [vars, List.mem_filter, (mem_names_all x).1, decide_eq_true_iff, and_comm]

end Items

/-! ### Well-formed specifications -/

/-- A pattern and a template that fit together. An ellipsis of the template can only be driven by
variables whose names satisfy `drives`. -/
structure ClauseFits (drives : Text → Prop) (literals : List Text) (pattern template : Node) :
    Prop where
  /-- No variable stands twice in the pattern. -/
  once : (vars literals pattern).Nodup
  /-- No list of the pattern has two items with an ellipsis. -/
  single : ∀ ns, (Node.form ns).Part pattern → (items ns).countP Prod.snd ≤ 1
  /-- A variable stands in the template under at least as many ellipses as in the pattern. -/
  covered : ∀ x k d, IsVariable literals x → Occurs x pattern k → Occurs x template d → k ≤ d
  /-- An item of the template with an ellipsis has a variable in it that stands under at least as
  many ellipses in the pattern as there are up to this one. -/
  driven : ∀ n d, Repeated template n d →
    ∃ x k e, drives x ∧ IsVariable literals x ∧ Occurs x pattern k ∧ Occurs x n e ∧ d ≤ k

/-- A clause `(pattern template)` that fits, with a non-empty list as its pattern. -/
def FittingClause (drives : Text → Prop) (literals : List Text) (c : Node) : Prop :=
  ∃ first rest template, c = .form [.form (first :: rest), template] ∧
    ClauseFits drives literals (.form (first :: rest)) template

/-- A form `(syntax-rules (literal ...) clause ...)` with identifiers as literals and clauses that
fit. The keyword of the form that is described counts as a literal. -/
def WellFormed (drives : Text → Prop) (keyword : Text) (spec : Node) : Prop :=
  ∃ (head : Token) (names : List Token) (clauses : List Node),
    spec = .form (.leaf head :: .form (names.map .leaf) :: clauses) ∧
      head.type = .identifier ∧ head.text = "syntax-rules" ∧ (∀ t ∈ names, t.type = .identifier) ∧
        ∀ c ∈ clauses, FittingClause drives (keyword :: names.map Token.text) c

section Mono

variable {p q : Text → Prop} {literals : List Text} {keyword : Text} {spec : Node}

theorem ClauseFits.mono {pattern template : Node}
    (hpq : template.MadeOf fun t => t.type = .identifier → p t.text → q t.text)
    (h : ClauseFits p literals pattern template) : ClauseFits q literals pattern template := by
  refine ⟨h.once, h.single, h.covered, fun n d hn => ?_⟩
  obtain ⟨x, k, e, hx, hvar, hk, he, hle⟩ := h.driven n d hn
  obtain ⟨t, hpart, ht, rfl⟩ := he.part
  have hleaf := Node.madeOf_leaf.mp (hpq.of_part (hpart.trans hn.part))
  exact ⟨t.text, k, e, hleaf ht hx, hvar, hk, he, hle⟩

/-- The condition on what can drive an ellipsis only matters for identifiers of the tree. -/
theorem WellFormed.mono (hpq : spec.MadeOf fun t => t.type = .identifier → p t.text → q t.text)
    (h : WellFormed p keyword spec) : WellFormed q keyword spec := by
  obtain ⟨head, names, clauses, rfl, htype, htext, hnames, hclauses⟩ := h
  refine ⟨head, names, clauses, rfl, htype, htext, hnames, fun c hc => ?_⟩
  obtain ⟨first, rest, template, rfl, hfits⟩ := hclauses c hc
  have hclause := Node.madeOf_form.mp hpq _ (List.mem_cons_of_mem _ (List.mem_cons_of_mem _ hc))
  exact ⟨first, rest, template, rfl, hfits.mono (Node.madeOf_form.mp hclause _ (by simp))⟩

theorem wellFormed_iff_of_names
    (h : spec.MadeOf fun t => t.type = .identifier → t.text ≠ []) :
    WellFormed (· ≠ []) keyword spec ↔ WellFormed (fun _ => True) keyword spec :=
  ⟨.mono (h.imp fun _ _ _ _ => trivial), .mono (h.imp fun _ ht htype _ => ht htype)⟩

end Mono

end Reference

/-! ### Verdicts -/

namespace Compiled

open Node (Part)

/-- A compilation ends with a result if something holds. Otherwise it is refused with a fault of the
right kind, or with the reason why a part of the tree has no text. -/
inductive Judged {γ : Type} (L : Legend) (root : Node) (good : Prop) : Compiled γ → Prop where
  | accepted {a : γ} (h : good) : Judged L root good (.ok a)
  | malformed {f : Fault} (h : ¬ good) (hkind : f.kind = .malformed) :
      Judged L root good (.error (.fault f))
  | unprintable {reason : Text} (h : ¬ good) (hroot : root.Unprintable L reason) :
      Judged L root good (.error (.native reason))

variable {γ δ : Type} {L : Legend} {n root : Node} {p q : Prop} {x : Compiled γ}

theorem Judged.iff (h : Judged L root p x) : (∃ a, x = .ok a) ↔ p := by
  cases h with
  | accepted h => exact ⟨fun _ => h, fun _ => ⟨_, rfl⟩⟩
  | malformed h _ => simp [h]
  | unprintable h _ => simp [h]

theorem Judged.congr (h : Judged L root p x) (hpq : p ↔ q) : Judged L root q x := by
  rwa [propext hpq] at h

theorem Judged.of_part (h : Judged L n p x) (hn : n.Part root) : Judged L root p x := by
  cases h with
  | accepted h => exact .accepted h
  | malformed h hkind => exact .malformed h hkind
  | unprintable h hpart =>
    obtain ⟨part, hpart, htext⟩ := hpart
    exact .unprintable h ⟨part, hpart.trans hn, htext⟩

/-- Both links of a chain have to be accepted. -/
theorem Judged.bind (h : Judged L root p x) {k : γ → Compiled δ}
    (hk : ∀ a, x = .ok a → Judged L root q (k a)) : Judged L root (p ∧ q) (x >>= k) := by
  cases h with
  | accepted h => exact (hk _ rfl).congr (by simp [h])
  | malformed h hkind => exact .malformed (fun hpq => h hpq.1) hkind
  | unprintable h hroot => exact .unprintable (fun hpq => h hpq.1) hroot

/-- What is made of a result makes no difference. -/
theorem Judged.map (h : Judged L root p x) (f : γ → δ) :
    Judged L root p (x >>= fun a => .ok (f a)) :=
  (h.bind (q := True) fun _ _ => .accepted trivial).congr (by simp)

theorem judged_fail (h : ¬ p) (pos : Position) (message : List Text) :
    Judged L root p (fail pos message : Compiled γ) := .malformed h rfl

theorem judged_fail_mention (h : ¬ p) (hn : n.Part root) (pos : Position)
    (message : Text → List Text) :
    Judged L root p (do
      let t ← n.mention L
      fail pos (message t) : Compiled γ) := by
  unfold Node.mention
  cases htext : n.text L with
  | ok t => exact judged_fail h pos _
  | error reason => exact .unprintable h ⟨n, hn, htext⟩

end Compiled

namespace Reference

open Node (Part Whole)
open Compiled (Judged judged_fail judged_fail_mention)

variable {L : Legend} {literals : List Text} {bs cs : Bindings Nat} {depth : Nat}

/-! ### Patterns -/

/-- The variables are different ones, and none of them is declared. -/
def Undeclared (bs : Bindings Nat) (xs : List Text) : Prop :=
  xs.Nodup ∧ ∀ x ∈ xs, bs.find? x = none

theorem undeclared_nil : Undeclared bs [] := ⟨List.nodup_nil, by simp⟩

theorem Undeclared.left {xs ys : List Text} (h : Undeclared bs (xs ++ ys)) : Undeclared bs xs :=
  ⟨(List.nodup_append.mp h.1).1, fun x hx => h.2 x (List.mem_append_left _ hx)⟩

/-- Declaring some variables leaves those undeclared that are different from them. -/
theorem undeclared_append {xs ys : List Text} (h : Declares xs bs cs) :
    Undeclared bs (xs ++ ys) ↔ Undeclared cs ys := by
  constructor
  · rintro ⟨hnodup, hfresh⟩
    obtain ⟨-, hys, hdisjoint⟩ := List.nodup_append.mp hnodup
    refine ⟨hys, fun y hy => ?_⟩
    rw [h.other y fun hx => hdisjoint y hx y hy rfl]
    exact hfresh y (List.mem_append_right _ hy)
  · rintro ⟨hys, hfresh⟩
    refine ⟨List.nodup_append.mpr ⟨h.nodup, hys, ?_⟩, fun y hy => ?_⟩
    · rintro x hx _ hy rfl
      exact h.bound x hx (hfresh x hy)
    · by_cases hx : y ∈ xs
      · exact h.fresh y hx
      · rw [← h.other y hx]
        exact hfresh y ((List.mem_append.mp hy).resolve_left hx)

/-- No list of the tree has two items with an ellipsis. -/
def Single (n : Node) : Prop := ∀ ns, (Node.form ns).Part n → (items ns).countP Prod.snd ≤ 1

theorem single_leaf (t : Token) : Single (.leaf t) := nofun

theorem single_form {ns : List Node} :
    Single (.form ns) ↔ (items ns).countP Prod.snd ≤ 1 ∧ ∀ n ∈ ns, Single n := by
  constructor
  · exact fun h => ⟨h ns .self, fun n hn ms hms => h ms (.item hn hms)⟩
  · rintro ⟨hcount, hns⟩ ms hms
    cases hms with
    | self => exact hcount
    | item hn hms => exact hns _ hn ms hms

theorem judged_patternLeaf (t : Token) (depth : Nat) (bs : Bindings Nat) (root : Node) :
    Judged L root (Undeclared bs (vars literals (.leaf t)))
      (Pattern.compile L literals depth (.leaf t) bs) := by
  unfold Pattern.compile
  split_ifs with hid hunder hlit hdup
  · rw [vars_leaf_other fun h => absurd h hid]
    exact .accepted undeclared_nil
  · rw [vars_leaf_other fun _ h => h.1 hunder]
    exact .accepted undeclared_nil
  · rw [vars_leaf_other fun _ h => h.2 hlit]
    exact .accepted undeclared_nil
  · rw [vars_leaf_variable (not_not.mp hid) ⟨hunder, hlit⟩]
    refine judged_fail (fun h => ?_) _ _
    simp [h.2 t.text (by simp)] at hdup
  · rw [vars_leaf_variable (not_not.mp hid) ⟨hunder, hlit⟩]
    exact .accepted ⟨by simp, by simpa using hdup⟩

variable (L literals) in
/-- A pattern is accepted if its variables are new and different, and its lists have no two
ellipses. -/
theorem judged_pattern :
    (∀ n, n.Whole → ∀ (depth : Nat) (bs : Bindings Nat) (root : Node),
      Judged L root (Undeclared bs (vars literals n) ∧ Single n)
        (Pattern.compile L literals depth n bs)) ∧
    ∀ ns, (∀ n ∈ ns, Whole n) → ∀ (depth : Nat) (whole : List Node) (repeats : Bool)
      (bs : Bindings Nat) (root : Node),
      Judged L root (Undeclared bs (varsOfItems literals ns) ∧ (∀ n ∈ ns, Single n) ∧
          (items ns).countP Prod.snd + repeats.toNat ≤ 1)
        (Pattern.compileItems L literals depth whole repeats ns bs) := by
  refine itemInduction ?absent ?leaf ?form ?nil ?repeated ?plain
  case absent => exact fun h => absurd .self h
  case leaf =>
    intro t _ depth bs root
    exact (judged_patternLeaf t depth bs root).congr (by simp [single_leaf])
  case form =>
    intro ns ih hns depth bs root
    have hitems := (ih (Node.whole_form.mp hns) depth ns false bs root).map
      fun r : List Pattern × Bindings Nat => (Pattern.list r.1, r.2)
    unfold Pattern.compile
    exact hitems.congr (by simp [single_form, vars_form, and_comm])
  case nil =>
    intro _ depth whole repeats bs root
    unfold Pattern.compileItems
    refine .accepted ⟨undeclared_nil, by simp, ?_⟩
    cases repeats <;> simp [items]
  case repeated =>
    intro n m ns hm ihn ihns hwhole depth whole repeats bs root
    simp only [List.forall_mem_cons] at hwhole
    obtain ⟨t, rfl⟩ := Node.leaf_of_isEllipsis hm
    unfold Pattern.compileItems
    rw [if_pos hm, varsOfItems_repeated hm, items_repeated hm]
    split_ifs with hrepeats
    · exact judged_fail (by simp [hrepeats]) _ _
    · refine ((ihn hwhole.1 (depth + 1) bs root).bind (q := Undeclared bs (vars literals n ++
        varsOfItems literals ns) ∧ (∀ k ∈ ns, Single k) ∧ (items ns).countP Prod.snd + 1 ≤ 1)
          fun r hr => ?_).congr ?_
      · refine ((ihns hwhole.2.2 depth whole true r.2 root).map _).congr ?_
        -- the first item has declared its own variables, so the others are judged by a longer table
        rw [undeclared_append (declares_compile hr)]
        rfl
      · simp only [List.forall_mem_cons, single_leaf, true_and, List.countP_cons, if_true,
          hrepeats, Bool.toNat_false, Nat.add_zero]
        constructor
        · rintro ⟨⟨-, hn⟩, hvars, hns, hcount⟩
          exact ⟨hvars, ⟨hn, hns⟩, hcount⟩
        · rintro ⟨hvars, ⟨hn, hns⟩, hcount⟩
          exact ⟨⟨hvars.left, hn⟩, hvars, hns, hcount⟩
  case plain =>
    intro n ns hns ihn ihns hwhole depth whole repeats bs root
    rw [List.forall_mem_cons] at hwhole
    rw [Acceptance.compileItems_plain_eq hns, varsOfItems_plain hns, items_plain hns]
    refine ((ihn hwhole.1 depth bs root).bind (q := Undeclared bs (vars literals n ++
      varsOfItems literals ns) ∧ (∀ k ∈ ns, Single k) ∧
        (items ns).countP Prod.snd + repeats.toNat ≤ 1) fun r hr => ?_).congr ?_
    · refine ((ihns hwhole.2 depth whole repeats r.2 root).map _).congr ?_
      rw [undeclared_append (declares_compile hr)]
    · simp only [List.forall_mem_cons, List.countP_cons, Bool.false_eq_true, if_false, Nat.add_zero]
      constructor
      · rintro ⟨⟨-, hn⟩, hvars, hns, hcount⟩
        exact ⟨hvars, ⟨hn, hns⟩, hcount⟩
      · rintro ⟨hvars, ⟨hn, hns⟩, hcount⟩
        exact ⟨⟨hvars.left, hn⟩, hvars, hns, hcount⟩

variable (L literals) in
/-- A variable is declared with the number of ellipses that it stands under. -/
theorem find?_of_occurs_all (x : Text) (hx : IsVariable literals x) :
    (∀ (n : Node) (depth : Nat) (bs bs' : Bindings Nat) (p : Pattern),
      Pattern.compile L literals depth n bs = .ok (p, bs') →
        ∀ d, Occurs x n d → bs'.find? x = some (depth + d)) ∧
    ∀ (ns : List Node) (depth : Nat) (whole : List Node) (repeats : Bool) (bs bs' : Bindings Nat)
      (ps : List Pattern),
      Pattern.compileItems L literals depth whole repeats ns bs = .ok (ps, bs') →
        ∀ d, Occurs x (.form ns) d → bs'.find? x = some (depth + d) := by
  refine itemInduction ?absent ?leaf ?form ?nil ?repeated ?plain
  case absent =>
    intro depth bs bs' p h
    simp [Pattern.compile, Compiled.fail] at h
  case leaf =>
    intro t depth bs bs' p h d hd
    obtain ⟨ht, rfl, rfl⟩ := occurs_leaf.mp hd
    rcases compile_leaf h with ⟨hne, -⟩ | ⟨-, hunder, -⟩ | ⟨-, -, hlit, -⟩ | ⟨-, -, -, -, rfl⟩
    · exact absurd ht hne
    · exact absurd hunder hx.1
    · exact absurd hlit hx.2
    · exact Bindings.find?_insert_self ..
  case form =>
    intro ns ih depth bs bs' p h d hd
    obtain ⟨ps, hps, -⟩ := compile_form h
    exact ih _ _ _ _ _ _ hps d hd
  case nil => exact fun _ _ _ _ _ _ _ d hd => absurd hd not_occurs_nil
  case repeated =>
    intro n m ns hm ihn ihns depth whole repeats bs bs' ps h d hd
    obtain ⟨-, p, qs, cs, hp, hqs, -⟩ := compileItems_repeated hm h
    rcases (occurs_repeated hm).mp hd with ⟨e, he, rfl⟩ | hd
    · -- the items after it declare other variables and leave this one alone
      have hmem : x ∈ vars literals n := mem_vars_iff.mpr ⟨hx, e, he⟩
      have hrest := declares_compileItems hqs
      rw [hrest.other x ((declares_compile hp).disjoint hrest hmem), ihn _ _ _ _ hp e he]
      exact congrArg some (by omega)
    · exact ihns _ _ _ _ _ _ hqs d hd
  case plain =>
    intro n ns hns ihn ihns depth whole repeats bs bs' ps h d hd
    obtain ⟨p, qs, cs, hp, hqs, -⟩ := compileItems_plain hns h
    rcases (occurs_plain hns).mp hd with hd | hd
    · have hmem : x ∈ vars literals n := mem_vars_iff.mpr ⟨hx, d, hd⟩
      have hrest := declares_compileItems hqs
      rw [hrest.other x ((declares_compile hp).disjoint hrest hmem), ihn _ _ _ _ hp d hd]
    · exact ihns _ _ _ _ _ _ hqs d hd

/-- What is declared by a pattern: its variables, each with its depth. -/
theorem find?_iff_occurs {whole ns : List Node} {repeats : Bool} {ps : List Pattern}
    (h : Pattern.compileItems L literals 0 whole repeats ns [] = .ok (ps, bs)) (x : Text)
    (k : Nat) : bs.find? x = some k ↔ IsVariable literals x ∧ Occurs x (.form ns) k := by
  have hdepth (hx : IsVariable literals x) (d : Nat) (hd : Occurs x (.form ns) d) :
      bs.find? x = some d := by
    rw [(find?_of_occurs_all L literals x hx).2 _ _ _ _ _ _ _ h d hd, Nat.zero_add]
  refine ⟨fun hk => ?_, fun ⟨hx, hd⟩ => hdepth hx k hd⟩
  have hmem : x ∈ vars literals (.form ns) := by
    rw [vars_form]
    by_contra hx
    rw [(declares_compileItems h).other x hx] at hk
    simp [Bindings.find?] at hk
  obtain ⟨hx, d, hd⟩ := mem_vars_iff.mp hmem
  rw [hdepth hx d hd] at hk
  exact ⟨hx, Option.some.inj hk ▸ hd⟩

/-! ### Templates -/

/-- The declared variables stand under enough ellipses. -/
def Covers (bs : Bindings Nat) (depth : Nat) (n : Node) : Prop :=
  ∀ x k d, bs.find? x = some k → Occurs x n d → k ≤ depth + d

/-- An ellipsis around so many others has a declared variable to repeat by, with a name. -/
def HasDriver (bs : Bindings Nat) (depth : Nat) (n : Node) : Prop :=
  ∃ x k e, x ≠ [] ∧ bs.find? x = some k ∧ Occurs x n e ∧ depth ≤ k

/-- All ellipses have one. -/
def Drives (bs : Bindings Nat) (depth : Nat) (n : Node) : Prop :=
  ∀ m d, Repeated n m d → HasDriver bs (depth + d) m

section Template

variable {n m : Node} {ns : List Node}

theorem covers_repeated (hm : m.isEllipsis = true) :
    Covers bs depth (.form (n :: m :: ns)) ↔
      Covers bs (depth + 1) n ∧ Covers bs depth (.form ns) := by
  simp only [Covers, occurs_repeated hm]
  constructor
  · refine fun h => ⟨fun x k d hk hd => ?_, fun x k d hk hd => h x k d hk (Or.inr hd)⟩
    have := h x k (d + 1) hk (Or.inl ⟨d, hd, rfl⟩)
    omega
  · rintro ⟨hn, hns⟩ x k d hk (⟨e, he, rfl⟩ | hd)
    · have := hn x k e hk he
      omega
    · exact hns x k d hk hd

theorem covers_plain (hns : beginsWithEllipsis ns = false) :
    Covers bs depth (.form (n :: ns)) ↔ Covers bs depth n ∧ Covers bs depth (.form ns) := by
  simp only [Covers, occurs_plain hns]
  constructor
  · exact fun h => ⟨fun x k d hk hd => h x k d hk (Or.inl hd),
      fun x k d hk hd => h x k d hk (Or.inr hd)⟩
  · rintro ⟨hn, hns⟩ x k d hk (hd | hd)
    · exact hn x k d hk hd
    · exact hns x k d hk hd

theorem drives_repeated (hm : m.isEllipsis = true) :
    Drives bs depth (.form (n :: m :: ns)) ↔
      Drives bs (depth + 1) n ∧ HasDriver bs (depth + 1) n ∧ Drives bs depth (.form ns) := by
  simp only [Drives, repeated_repeated hm]
  constructor
  · refine fun h => ⟨fun k d hk => ?_, h n 1 (Or.inl (Or.inl ⟨rfl, rfl⟩)),
      fun k d hk => h k d (Or.inr hk)⟩
    rw [show depth + 1 + d = depth + (d + 1) by omega]
    exact h k (d + 1) (Or.inl (Or.inr ⟨d, hk, rfl⟩))
  · rintro ⟨hn, hdriver, hns⟩ k d ((⟨rfl, rfl⟩ | ⟨e, he, rfl⟩) | hk)
    · exact hdriver
    · rw [show depth + (e + 1) = depth + 1 + e by omega]
      exact hn k e he
    · exact hns k d hk

theorem drives_plain (hns : beginsWithEllipsis ns = false) :
    Drives bs depth (.form (n :: ns)) ↔ Drives bs depth n ∧ Drives bs depth (.form ns) := by
  simp only [Drives, repeated_plain hns]
  constructor
  · exact fun h => ⟨fun k d hk => h k d (Or.inl hk), fun k d hk => h k d (Or.inr hk)⟩
  · rintro ⟨hn, hns⟩ k d (hk | hk)
    · exact hn k d hk
    · exact hns k d hk

theorem hasDriver_repeated (hm : m.isEllipsis = true) :
    HasDriver bs depth (.form (n :: m :: ns)) ↔
      HasDriver bs depth n ∨ HasDriver bs depth (.form ns) := by
  simp only [HasDriver, occurs_repeated hm]
  constructor
  · rintro ⟨x, k, d, hx, hk, ⟨e, he, -⟩ | hd, hle⟩
    · exact Or.inl ⟨x, k, e, hx, hk, he, hle⟩
    · exact Or.inr ⟨x, k, d, hx, hk, hd, hle⟩
  · rintro (⟨x, k, e, hx, hk, he, hle⟩ | ⟨x, k, d, hx, hk, hd, hle⟩)
    · exact ⟨x, k, e + 1, hx, hk, Or.inl ⟨e, he, rfl⟩, hle⟩
    · exact ⟨x, k, d, hx, hk, Or.inr hd, hle⟩

theorem hasDriver_plain (hns : beginsWithEllipsis ns = false) :
    HasDriver bs depth (.form (n :: ns)) ↔
      HasDriver bs depth n ∨ HasDriver bs depth (.form ns) := by
  simp only [HasDriver, occurs_plain hns]
  constructor
  · rintro ⟨x, k, d, hx, hk, hd | hd, hle⟩
    · exact Or.inl ⟨x, k, d, hx, hk, hd, hle⟩
    · exact Or.inr ⟨x, k, d, hx, hk, hd, hle⟩
  · rintro (⟨x, k, d, hx, hk, hd, hle⟩ | ⟨x, k, d, hx, hk, hd, hle⟩)
    · exact ⟨x, k, d, hx, hk, Or.inl hd, hle⟩
    · exact ⟨x, k, d, hx, hk, Or.inr hd, hle⟩

theorem isSome_driverOfItems?_cons (least : Nat) (u : Template) (us : List Template) :
    (Template.driverOfItems? least (u :: us)).isSome = true ↔
      (u.driver? least).isSome = true ∨ (Template.driverOfItems? least us).isSome = true := by
  rw [Template.driverOfItems?]
  cases u.driver? least <;> simp

variable (L bs) in
/-- A compiled template finds a variable to repeat by if there is one. -/
theorem driver?_isSome_all (least : Nat) :
    (∀ (n : Node) (depth : Nat) (u : Template), Template.compile L bs depth n = .ok u →
      ((u.driver? least).isSome = true ↔ HasDriver bs least n)) ∧
    ∀ (ns : List Node) (depth : Nat) (us : List Template),
      Template.compileItems L bs depth ns = .ok us →
        ((Template.driverOfItems? least us).isSome = true ↔ HasDriver bs least (.form ns)) := by
  refine itemInduction ?absent ?leaf ?form ?nil ?repeated ?plain
  case absent =>
    intro depth u h
    simp [Template.compile, Compiled.fail] at h
  case leaf =>
    intro t depth u h
    rcases template_leaf h with ⟨rfl, hfree⟩ | ⟨k, ht, hk, -, rfl⟩
    · simp only [Template.driver?, Option.isSome_none, Bool.false_eq_true, false_iff]
      rintro ⟨x, k, e, -, hk, he, -⟩
      obtain ⟨ht, rfl, -⟩ := occurs_leaf.mp he
      simp [hfree ht] at hk
    · rw [Template.driver?]
      split_ifs with hle
      · exact iff_of_true rfl ⟨t.text, k, 0, hle.2, hk, .leaf ht rfl, hle.1⟩
      · refine iff_of_false (by simp) ?_
        rintro ⟨x, j, e, hx, hj, he, hlow⟩
        obtain ⟨-, rfl, -⟩ := occurs_leaf.mp he
        obtain rfl : k = j := Option.some.inj (hk.symm.trans hj)
        exact hle ⟨hlow, hx⟩
  case form =>
    intro ns ih depth u h
    obtain ⟨us, hus, rfl⟩ := template_form h
    exact ih depth us hus
  case nil =>
    intro depth us h
    rw [templateItems_nil h]
    simp [Template.driverOfItems?, HasDriver, not_occurs_nil]
  case repeated =>
    intro n m ns hm ihn ihns depth us h
    obtain ⟨u, y, vs, hu, -, hvs, rfl⟩ := templateItems_repeated hm h
    rw [isSome_driverOfItems?_cons, hasDriver_repeated hm, Template.driver?]
    exact or_congr (ihn _ u hu) (ihns _ vs hvs)
  case plain =>
    intro n ns hns ihn ihns depth us h
    obtain ⟨u, vs, hu, hvs, rfl⟩ := templateItems_plain hns h
    rw [isSome_driverOfItems?_cons, hasDriver_plain hns]
    exact or_congr (ihn _ u hu) (ihns _ vs hvs)

variable (L bs) in
theorem judged_templateLeaf (t : Token) (depth : Nat) (root : Node) :
    Judged L root (Covers bs depth (.leaf t) ∧ Drives bs depth (.leaf t))
      (Template.compile L bs depth (.leaf t)) := by
  have hdrives : Drives bs depth (.leaf t) := fun _ _ h => absurd h not_repeated_leaf
  unfold Template.compile
  split_ifs with ht
  · refine .accepted ⟨fun x k d _ hd => ?_, hdrives⟩
    exact absurd (occurs_leaf.mp hd).1 ht
  · cases hk : bs.find? t.text with
    | none =>
      refine .accepted ⟨fun x k d hx hd => ?_, hdrives⟩
      obtain ⟨-, rfl, -⟩ := occurs_leaf.mp hd
      simp [hk] at hx
    | some k =>
      dsimp only
      split_ifs with hlt
      · refine judged_fail (fun h => ?_) _ _
        have hle := h.1 t.text k 0 hk (.leaf (not_not.mp ht) rfl)
        omega
      · refine .accepted ⟨fun x j d hx hd => ?_, hdrives⟩
        obtain ⟨-, rfl, rfl⟩ := occurs_leaf.mp hd
        obtain rfl : k = j := Option.some.inj (hk.symm.trans hx)
        omega

variable (L bs) in
/-- A template is accepted if its variables stand under enough ellipses and its ellipses have a
variable to repeat by. -/
theorem judged_template :
    (∀ n, n.Whole → ∀ depth : Nat,
      Judged L n (Covers bs depth n ∧ Drives bs depth n) (Template.compile L bs depth n)) ∧
    ∀ ns, (∀ n ∈ ns, Whole n) → ∀ (depth : Nat) (root : Node), (∀ n ∈ ns, n.Part root) →
      Judged L root (Covers bs depth (.form ns) ∧ Drives bs depth (.form ns))
        (Template.compileItems L bs depth ns) := by
  refine itemInduction ?absent ?leaf ?form ?nil ?repeated ?plain
  case absent => exact fun h => absurd .self h
  case leaf =>
    intro t _ depth
    exact judged_templateLeaf L bs t depth (.leaf t)
  case form =>
    intro ns ih hns depth
    unfold Template.compile
    have hitems := ih (Node.whole_form.mp hns) depth (.form ns) fun n hn => .item hn .self
    exact hitems.map Template.list
  case nil =>
    intro _ depth root _
    unfold Template.compileItems
    exact .accepted ⟨fun _ _ _ _ h => absurd h not_occurs_nil,
      fun _ _ h => absurd h not_repeated_nil⟩
  case repeated =>
    intro n m ns hm ihn ihns hwhole depth root hparts
    simp only [List.forall_mem_cons] at hwhole hparts
    unfold Template.compileItems
    rw [if_pos hm, covers_repeated hm, drives_repeated hm]
    refine (((ihn hwhole.1 (depth + 1)).of_part hparts.1).bind (q := HasDriver bs (depth + 1) n ∧
      Covers bs depth (.form ns) ∧ Drives bs depth (.form ns)) fun u hu => ?_).congr ?_
    · -- the driver is looked for in the compiled item, which has one if the tree does
      have hdriver := (driver?_isSome_all L bs (depth + 1)).1 n _ u hu
      cases hx : u.driver? (depth + 1) with
      | none =>
        rw [hx] at hdriver
        exact judged_fail_mention (fun h => by simp [h.1] at hdriver) hparts.1 _ _
      | some x =>
        rw [hx] at hdriver
        refine ((ihns hwhole.2.2 depth root hparts.2.2).map _).congr ?_
        simp [hdriver.mp rfl]
    · constructor
      · rintro ⟨⟨hc, hd⟩, hdriver, hcs, hds⟩
        exact ⟨⟨hc, hcs⟩, hd, hdriver, hds⟩
      · rintro ⟨⟨hc, hcs⟩, hd, hdriver, hds⟩
        exact ⟨⟨hc, hd⟩, hdriver, hcs, hds⟩
  case plain =>
    intro n ns hns ihn ihns hwhole depth root hparts
    rw [List.forall_mem_cons] at hwhole hparts
    rw [templateItems_plain_eq hns, covers_plain hns, drives_plain hns]
    refine (((ihn hwhole.1 depth).of_part hparts.1).bind fun u _ =>
      (ihns hwhole.2 depth root hparts.2).map _).congr and_and_and_comm

end Template

/-! ### Clauses -/

variable (L) in
theorem judged_fits {first template : Node} {rest : List Node}
    (hpattern : (Node.form (first :: rest)).Whole) (htemplate : template.Whole)
    (literals : List Text) :
    Judged L template (ClauseFits (· ≠ []) literals (.form (first :: rest)) template)
      (do
        let (compiled, vars) ←
          Pattern.compileItems L literals 0 (first :: rest) false (first :: rest) []
        let template ← Template.compile L vars 0 template
        return (⟨compiled.tail, template⟩ : Clause)) := by
  have hitems := (judged_pattern L literals).2 (first :: rest) (Node.whole_form.mp hpattern) 0
    (first :: rest) false [] template
  refine (hitems.bind (q := (∀ x k d, IsVariable literals x → Occurs x (.form (first :: rest)) k →
      Occurs x template d → k ≤ d) ∧ ∀ n d, Repeated template n d → ∃ x k e, x ≠ [] ∧
        IsVariable literals x ∧ Occurs x (.form (first :: rest)) k ∧ Occurs x n e ∧ d ≤ k)
          fun r hr => ?_).congr ?_
  · -- the template is judged by the table that the pattern leaves
    refine (((judged_template L r.2).1 template htemplate 0).map _).congr ?_
    simp only [Covers, Drives, HasDriver, find?_iff_occurs hr, Nat.zero_add, and_imp, and_assoc]
  · simp only [Undeclared, ← vars_form, Bool.toNat_false, Nat.add_zero]
    constructor
    · rintro ⟨⟨⟨honce, -⟩, hsingle, hcount⟩, hcovered, hdriven⟩
      exact ⟨honce, single_form.mpr ⟨hcount, hsingle⟩, hcovered, hdriven⟩
    · rintro ⟨honce, hsingle, hcovered, hdriven⟩
      obtain ⟨hcount, hsingle⟩ := single_form.mp hsingle
      exact ⟨⟨⟨honce, fun _ _ => rfl⟩, hsingle, hcount⟩, hcovered, hdriven⟩

variable (L) in
theorem judged_clause {c : Node} (hc : c.Whole) (literals : List Text) :
    Judged L c (FittingClause (· ≠ []) literals c) (Clause.compile L literals c) := by
  rw [Clause.compile_eq]
  split
  · rename_i first rest template
    have hparts := Node.whole_form.mp hc
    have hfits := judged_fits L (hparts (.form (first :: rest)) (by simp))
      (hparts template (by simp)) literals
    refine (hfits.of_part (.item (by simp) .self)).congr ?_
    simp [FittingClause]
  · rename_i pattern template hpattern
    have hunfit : ¬ FittingClause (· ≠ []) literals (.form [pattern, template]) := by
      rintro ⟨first, rest, _, heq, -⟩
      cases heq
      exact hpattern first rest rfl
    exact judged_fail_mention hunfit (.item (by simp) .self) _ _
  · rename_i hshape _
    have hunfit : ¬ FittingClause (· ≠ []) literals c := by
      rintro ⟨first, rest, template, rfl, -⟩
      exact hshape _ _ _ rfl
    exact judged_fail_mention hunfit .self _ _

variable (L) in
theorem judged_clauses {root : Node} (literals : List Text) : ∀ {clauses : List Node},
    (∀ c ∈ clauses, Whole c) → (∀ c ∈ clauses, c.Part root) →
      Judged L root (∀ c ∈ clauses, FittingClause (· ≠ []) literals c)
        (Clause.compileAll L literals clauses)
  | [], _, _ => by
    unfold Clause.compileAll
    exact .accepted (by simp)
  | c :: clauses, hwhole, hparts => by
    rw [List.forall_mem_cons] at hwhole hparts
    unfold Clause.compileAll
    refine (((judged_clause L hwhole.1 literals).of_part hparts.1).bind fun x _ =>
      (judged_clauses literals hwhole.2 hparts.2).map (x :: ·)).congr ?_
    rw [List.forall_mem_cons]

/-! ### Specifications -/

variable (L) in
theorem judged_literals {root : Node} : ∀ {ns : List Node}, (∀ n ∈ ns, n.Part root) →
    Judged L root (∃ ts : List Token, ns = ts.map .leaf ∧ ∀ t ∈ ts, t.type = .identifier)
      (Transformation.literalNames L ns)
  | [], _ => .accepted ⟨[], rfl, by simp⟩
  | n :: ns, hparts => by
    rw [List.forall_mem_cons] at hparts
    unfold Transformation.literalNames
    cases hid : n.identifier? with
    | none =>
      refine judged_fail_mention ?_ hparts.1 _ _
      rintro ⟨ts, hts, htypes⟩
      obtain ⟨t, ts, rfl, rfl, -⟩ := List.map_eq_cons_iff.mp hts.symm
      simp [Node.identifier?, htypes t (by simp)] at hid
    | some t =>
      obtain ⟨rfl, ht⟩ := Node.identifier_eq_some hid
      refine ((judged_literals hparts.2).map (t.text :: ·)).congr ⟨?_, ?_⟩
      · rintro ⟨ts, rfl, htypes⟩
        exact ⟨t :: ts, rfl, List.forall_mem_cons.mpr ⟨ht, htypes⟩⟩
      · rintro ⟨ts, hts, htypes⟩
        obtain ⟨u, ts, rfl, -, rfl⟩ := List.map_eq_cons_iff.mp hts.symm
        exact ⟨ts, rfl, fun t h => htypes t (List.mem_cons_of_mem _ h)⟩

theorem names_of_leaves : ∀ {ts : List Token}, (∀ t ∈ ts, t.type = .identifier) →
    (ts.map Node.leaf).filterMap (fun n => n.identifier?.map Token.text) = ts.map Token.text
  | [], _ => rfl
  | t :: ts, hts => by
    rw [List.forall_mem_cons] at hts
    rw [List.map_cons, List.filterMap_cons, names_of_leaves hts.2]
    simp [Node.identifier?, hts.1]

theorem wellFormed_form {drives : Text → Prop} {keyword : Text} {head : Token}
    {ns clauses : List Node} :
    WellFormed drives keyword (.form (.leaf head :: .form ns :: clauses)) ↔
      (head.type = .identifier ∧ head.text = "syntax-rules") ∧
        (∃ ts : List Token, ns = ts.map .leaf ∧ ∀ t ∈ ts, t.type = .identifier) ∧
          ∀ c ∈ clauses, FittingClause drives
            (keyword :: ns.filterMap fun n => n.identifier?.map Token.text) c := by
  constructor
  · rintro ⟨head, ts, clauses, heq, htype, htext, hts, hclauses⟩
    simp only [Node.form.injEq, List.cons.injEq, Node.leaf.injEq] at heq
    obtain ⟨rfl, rfl, rfl⟩ := heq
    rw [names_of_leaves hts]
    exact ⟨⟨htype, htext⟩, ⟨ts, rfl, hts⟩, hclauses⟩
  · rintro ⟨⟨htype, htext⟩, ⟨ts, rfl, hts⟩, hclauses⟩
    rw [names_of_leaves hts] at hclauses
    exact ⟨head, ts, clauses, rfl, htype, htext, hts, hclauses⟩

variable (L) in
/-- A specification is accepted if it is well-formed, where only a variable with a name can drive an
ellipsis. -/
theorem judged_spec {spec : Node} (hspec : spec.Whole) (keyword : Text) :
    Judged L spec (WellFormed (· ≠ []) keyword spec) (Transformation.compile L keyword spec) := by
  rw [Transformation.compile_eq]
  split
  · rename_i head literals clauses
    split_ifs with hhead
    · obtain ⟨t, hid, htext⟩ := (Option.any_eq_true _ _).mp hhead
      obtain ⟨rfl, htype⟩ := Node.identifier_eq_some hid
      split
      · rename_i ns
        have hnames : ∀ n ∈ ns, n.Part (.form (.leaf t :: .form ns :: clauses)) :=
          fun n hn => .item (by simp) (.item hn .self)
        have hclauses : ∀ c ∈ clauses, c.Part (.form (.leaf t :: .form ns :: clauses)) :=
          fun c hc => .item (by simp [hc]) .self
        refine ((judged_literals L hnames).bind (q := ∀ c ∈ clauses, FittingClause (· ≠ [])
          (keyword :: ns.filterMap fun n => n.identifier?.map Token.text) c)
            fun names h => ?_).congr ?_
        · rw [← literalNames_eq h]
          exact (judged_clauses L _ (fun c hc => hspec.of_part (hclauses c hc)) hclauses).map _
        · rw [wellFormed_form]
          exact (and_iff_right ⟨htype, by simpa using htext⟩).symm
      · rename_i hne
        refine judged_fail_mention ?_ (.item (by simp) .self) _ _
        rintro ⟨u, ts, cs, heq, -⟩
        simp only [Node.form.injEq, List.cons.injEq] at heq
        exact hne _ heq.2.1
    · refine judged_fail_mention ?_ (.item (by simp) .self) _ _
      rintro ⟨t, ts, cs, heq, htype, htext, -⟩
      simp only [Node.form.injEq, List.cons.injEq] at heq
      simp [heq.1, Node.identifier?, htype, htext] at hhead
  · rename_i hne
    refine judged_fail_mention ?_ .self _ _
    rintro ⟨t, ts, cs, rfl, -⟩
    exact hne _ _ _ rfl

end Reference

/-! ### Refused definitions -/

namespace Node

/-- A tree whose leaves are spelled out has a text. -/
theorem text_of_madeOf (L : Legend) {n : Node} (h : n.MadeOf fun t => t.text ≠ []) :
    ∃ text, n.text L = .ok text := by
  induction h with
  | absent => exact ⟨"nil", by rw [text]⟩
  | leaf h => exact ⟨_, by rw [text, if_pos h]⟩
  | @form ns _ ih =>
    have htexts : ∀ n ∈ ns, ∃ x, n.text L = .ok x ∧ True := by simpa using ih
    obtain ⟨parts, hparts, -⟩ := Forest.texts_of_each L htexts
    exact ⟨_, by rw [text, hparts]; rfl⟩

end Node

namespace Machine

variable {σ : Type} {M : Machine σ} {scope : Scope} {s : Store σ} {head name : Token} {word : Text}
  {spec : Node}

theorem expand_refused {self : Recur σ} {x : Transformer} {alarm : Alarm}
    (hx : x.expander = .special .defineForm) (hname : name.type = .identifier)
    (h : Transformation.compile (s.legend M.host) name.text spec = .error alarm) :
    expand M self x [.leaf name, spec] scope s =
      compiled (.error alarm : Compiled Node) pure s := by
  simp only [expand, hx, expandDefineForm_eq, Node.identifier?, hname, if_true, bind, Action.bind,
    Action.legend, h, compiled]
  cases alarm <;> rfl

/-- A definition with a malformed specification evaluates to the fault. -/
theorem unbounded_defineForm_fault (hhead : M.Heads scope word head)
    (hdef : s.expander? word = some (.special .defineForm)) (hname : name.type = .identifier)
    {f : Fault} (h : Transformation.compile (s.legend M.host) name.text spec = .error (.fault f)) :
    M.unbounded.eval scope (.form [.leaf head, .leaf name, spec]) s = .done (.error f) s := by
  obtain ⟨x, hx, hsame⟩ := unbounded_transformer hhead hdef [.leaf name, spec]
  refine Outcome.same_done_iff.mp (hsame.trans (.of_eq ?_))
  exact (Action.bind_done (expand_refused hx hname h)).trans (unbounded_ofFault f s)

theorem unbounded_defineForm_native (hhead : M.Heads scope word head)
    (hdef : s.expander? word = some (.special .defineForm)) (hname : name.type = .identifier)
    {message : Text}
    (h : Transformation.compile (s.legend M.host) name.text spec = .error (.native message)) :
    M.unbounded.eval scope (.form [.leaf head, .leaf name, spec]) s =
      .raised (.native message) s := by
  obtain ⟨x, hx, hsame⟩ := unbounded_transformer hhead hdef [.leaf name, spec]
  exact Outcome.same_raised_iff.mp
    (hsame.trans (.of_eq (Action.bind_raised (expand_refused hx hname h))))

end Machine

/-! ### Accepted specifications -/

namespace Transformation

open Reference (WellFormed)

/-- **Exactly the well-formed specifications are accepted**, where only a variable with a name can
drive an ellipsis. Any other one is refused as malformed, unless a part of it has no text, and a
definition with it is refused alike and leaves the store as it was. Where all leaves are spelled
out, all variables have names and all parts have texts. -/
theorem accepts_exactly_wellFormed {spec : Node} (hspec : spec.Whole) :
    (∀ (L : Legend) (keyword : Text),
      ((∃ x, compile L keyword spec = .ok x) ↔ WellFormed (· ≠ []) keyword spec) ∧
      ∀ alarm, compile L keyword spec = .error alarm →
        (∃ f, alarm = .fault f ∧ f.kind = .malformed) ∨
          ∃ reason, alarm = .native reason ∧ spec.Unprintable L reason) ∧
    (∀ {σ : Type} (M : Machine σ) (scope : Scope) (s : Store σ) (word : Text) (head name : Token),
      M.Heads scope word head → s.expander? word = some (.special .defineForm) →
      name.type = .identifier → ¬ WellFormed (· ≠ []) name.text spec →
        let outcome := M.unbounded.eval scope (.form [.leaf head, .leaf name, spec]) s
        (∃ f, outcome = .done (.error f) s ∧ f.kind = .malformed) ∨
          ∃ reason, outcome = .raised (.native reason) s ∧
            spec.Unprintable (s.legend M.host) reason) ∧
    (spec.MadeOf (fun t => t.type = .identifier → t.text ≠ []) → ∀ keyword : Text,
      (WellFormed (· ≠ []) keyword spec ↔ WellFormed (fun _ => True) keyword spec)) ∧
    (spec.MadeOf (fun t => t.text ≠ []) → ∀ (L : Legend) (reason : Text),
      ¬ spec.Unprintable L reason) := by
  refine ⟨fun L keyword => ⟨?iff, fun alarm h => ?refused⟩, ?defined, fun h keyword => ?names,
    fun h L reason => ?texts⟩
  case iff => exact (Reference.judged_spec L hspec keyword).iff
  case refused =>
    have hjudged := Reference.judged_spec L hspec keyword
    rw [h] at hjudged
    cases hjudged with
    | malformed _ hkind => exact Or.inl ⟨_, rfl, hkind⟩
    | unprintable _ hroot => exact Or.inr ⟨_, rfl, hroot⟩
  case defined =>
    intro σ M scope s word head name hhead hdef hname hbad
    have hjudged := Reference.judged_spec (s.legend M.host) hspec name.text
    generalize hx : compile (s.legend M.host) name.text spec = x at hjudged
    cases hjudged with
    | accepted hgood => exact absurd hgood hbad
    | malformed _ hkind =>
      exact Or.inl ⟨_, Machine.unbounded_defineForm_fault hhead hdef hname hx, hkind⟩
    | unprintable _ hroot =>
      exact Or.inr ⟨_, Machine.unbounded_defineForm_native hhead hdef hname hx, hroot⟩
  case names => exact Reference.wellFormed_iff_of_names h
  case texts =>
    rintro ⟨part, hpart, htext⟩
    obtain ⟨text, hok⟩ := Node.text_of_madeOf L (h.of_part hpart)
    simp [hok] at htext

/-- The clause `((_ (a b ...) ...) (list (list a b ...) ...))` fits. -/
theorem accepts_exactly_wellFormed_groups :
    let word (text : Text) : Node := .leaf ⟨.identifier, .unknown, text, .undefined text⟩
    let spec : Node := .form [word "syntax-rules", .form [],
      .form [.form [word "_", .form [word "a", word "b", word "..."], word "..."],
        .form [word "list", .form [word "list", word "a", word "b", word "..."], word "..."]]]
    spec.Whole ∧ WellFormed (fun _ => True) "groups" spec := by
  intro word spec
  have hwhole : spec.Whole := by
    simp [spec, word, Node.whole_form, Node.whole_leaf]
  obtain ⟨hcompile, -, hnames, -⟩ := accepts_exactly_wellFormed hwhole
  have hmade : spec.MadeOf fun t => t.type = .identifier → t.text ≠ [] := by
    have hwords : ∀ text ∈ (["syntax-rules", "_", "a", "b", "...", "list"] : List Text),
        text ≠ [] := by decide
    simp [spec, word, Node.madeOf_form, Node.madeOf_leaf, hwords]
  let L : Legend := ⟨fun _ => [], fun _ => [], fun _ => .ok []⟩
  have hok : (compile L "groups" spec).isOk = true := by decide +kernel
  have haccepted : ∃ x, compile L "groups" spec = .ok x := by
    cases hx : compile L "groups" spec with
    | ok x => exact ⟨x, rfl⟩
    | error alarm => simp [hx, Except.isOk, Except.toBool] at hok
  exact ⟨hwhole, (hnames hmade _).mp ((hcompile L _).1.mp haccepted)⟩

/-- A variable drives the ellipsis after it, but not if its name is empty. -/
example :
    let word (text : Text) : Node := .leaf ⟨.identifier, .unknown, text, .undefined text⟩
    let spec (x : Text) : Node := .form [word "syntax-rules", .form [],
      .form [.form [word "_", word x, word "..."], .form [word "list", word x, word "..."]]]
    let L : Legend := ⟨fun _ => [], fun _ => [], fun _ => .ok []⟩
    (compile L "row" (spec "x")).isOk = true ∧ (compile L "row" (spec [])).isOk = false := by
  decide +kernel

end Transformation

end LittleLisp
