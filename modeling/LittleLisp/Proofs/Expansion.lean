/-
# User-defined forms mean what they say

The clauses of a user-defined form decide what takes the place of the form, as the
reference says it: the first clause whose patterns match the operands, written with what
its variables were matched with. A report of a fault takes its place if no clause matches,
or if an ellipsis of that clause repeats variables that were matched a different number of
times.

Key definitions: `Reference.Regular`, `Reference.outcome`.
Key theorems: `Reference.expands_iff`, `Reference.expand_eq_reference`.
-/
import LittleLisp.Proofs.Expansion.Writing

namespace LittleLisp

namespace Reference

variable {L : Legend} {literals : List Text} {keyword : Text}

instance (x : Text) : Decidable (Sharpless x) := inferInstanceAs (Decidable (¬ _))

/-- A clause whose pattern starts with `_` or the keyword, with no ellipsis after it, and whose
variables have no `#` in their names. -/
def Regular (keyword : Text) (literals : List Text) : Node → Prop
  | .form [.form (head :: patterns), _] =>
    (∃ t, head.identifier? = some t ∧ (t.text = underscore ∨ t.text = keyword)) ∧
      beginsWithEllipsis patterns = false ∧ ∀ x ∈ varsOfItems literals patterns, Sharpless x
  | _ => True

/-- The names of a form `(syntax-rules (literal ...) clause ...)` that match only themselves. -/
def literalsOf (keyword : Text) : Node → List Text
  | .form (_ :: .form names :: _) => keyword :: names.filterMap fun n => n.identifier?.map Token.text
  | _ => []

/-- The clauses of such a form. -/
def clausesOf : Node → List Node
  | .form (_ :: _ :: clauses) => clauses
  | _ => []

/-! ### One clause -/

/-- The first element of a regular pattern declares nothing, so what is left of the pattern is what
its operands compile to. -/
theorem compile_operands {head : Node} {patterns : List Node} {ps : List Pattern}
    {bs : Bindings Nat} {t : Token} (ht : head.identifier? = some t)
    (hname : t.text = underscore ∨ t.text ∈ literals) (hplain : beginsWithEllipsis patterns = false)
    (h : Pattern.compileItems L literals 0 (head :: patterns) false (head :: patterns) [] =
      .ok (ps, bs)) :
    Pattern.compileItems L literals 0 (head :: patterns) false patterns [] = .ok (ps.tail, bs) := by
  obtain ⟨p, qs, cs, hp, hqs, rfl⟩ := compileItems_plain hplain h
  have hcs : cs = [] := by
    cases head with
    | leaf u =>
      rcases compile_leaf hp with ⟨-, -, hcs⟩ | ⟨-, -, -, hcs⟩ | ⟨-, -, -, -, hcs⟩ |
        ⟨hid, hvar, -, -, -⟩
      · exact hcs
      · exact hcs
      · exact hcs
      · obtain rfl : u = t := by simpa [Node.identifier?, hid] using ht
        rcases hname with hname | hname
        · exact absurd hname hvar.1
        · exact absurd hname hvar.2
    | absent => simp [Node.identifier?] at ht
    | form ns => simp [Node.identifier?] at ht
  rw [hcs] at hqs
  exact hqs

/-- What a match finds is held by the tables, with the depths that were declared. -/
theorem held_of_matched {whole patterns operands : List Node} {ps : List Pattern}
    {bs : Bindings Nat} {a : Assignment} {m : Matches}
    (h : Pattern.compileItems L literals 0 whole false patterns [] = .ok (ps, bs))
    (ha : MatchedItems literals patterns operands a)
    (hstored : ∀ x t, a x = some t → Stored m x [] t) : Held bs a m := by
  refine ⟨fun x t ht => ?_, fun x hx => ?_⟩
  · obtain ⟨k, hk, hdeep⟩ := hasDepth_of_declared h ha ht
    exact ⟨k, hk, hdeep, hstored x t ht⟩
  · rw [(declares_compileItems h).other x ((assignedItems ha x).mp hx)]
    rfl

/-- A clause that matches: the tables it fills write the template as the reference does. -/
theorem clause_matches {form : Node} {c : Clause} (h : Clause.compile L literals form = .ok c)
    (hreg : Regular keyword literals form) (hkey : keyword ∈ literals) (operands : List Node) :
    ∃ head patterns template, form = .form [.form (head :: patterns), template] ∧
      (∀ a, MatchedItems literals patterns operands a →
        ∃ m, Matches.unifyItems? c.operands .empty [] operands = some m ∧
          Agrees (m.expand? c.template []) (Written a template []) (Uneven a template [])) ∧
      (∀ a b, MatchedItems literals patterns operands a →
        MatchedItems literals patterns operands b → a = b) ∧
      ((¬ ∃ a, MatchedItems literals patterns operands a) →
        Matches.unifyItems? c.operands .empty [] operands = none) := by
  obtain ⟨head, patterns, template, ps, bs, u, rfl, hps, hu, rfl⟩ := Clause.compile_eq_ok h
  obtain ⟨⟨t, ht, hname⟩, hplain, hsharp⟩ := hreg
  have hname : t.text = underscore ∨ t.text ∈ literals := by
    rcases hname with hname | hname
    · exact Or.inl hname
    · exact Or.inr (hname ▸ hkey)
  have hops := compile_operands ht hname hplain hps
  refine ⟨head, patterns, template, rfl, fun a ha => ?_, fun a b => matchedItems_unique hops,
    fun hno => unifyItems_eq_none hops hsharp hno _ _⟩
  obtain ⟨m, hm, hstored⟩ := unifyItems_eq_some hops hsharp ha .empty []
  have hheld := held_of_matched hops ha hstored
  have hreach : InReach a (names template) [] := fun x _ t _ => ⟨t, rfl⟩
  exact ⟨m, hm, (agrees_all L hheld).1 template 0 u hu [] rfl hreach⟩

/-! ### All clauses -/

/-- What the compiled clauses make of some operands. -/
def outcome (operands : List Node) (clauses : List Clause) : Expansion :=
  match Transformation.select? operands clauses with
  | none => .unmatched
  | some (c, m) =>
    match m.expand? c.template [] with
    | some n => .tree n
    | none => .uneven

theorem expand_eq_outcome {x : Transformation} (h : x.Bounded) (L : Legend)
    (operands : List Node) :
    x.expand L operands = (outcome operands x.clauses).node L x.keyword operands := by
  rw [Transformation.expand_of_bounded h]
  unfold Transformation.written outcome
  cases Transformation.select? operands x.clauses with
  | none => rfl
  | some r =>
    dsimp only
    cases r.2.expand? r.1.template [] <;> rfl

/-- The compiled clauses make of some operands what the reference says, and nothing else. -/
theorem expands_iff (hkey : keyword ∈ literals) (operands : List Node) :
    ∀ {forms : List Node} {cs : List Clause}, Clause.compileAll L literals forms = .ok cs →
      (∀ form ∈ forms, Regular keyword literals form) →
        ∀ r, Expands literals operands forms r ↔ r = outcome operands cs
  | [], cs, h, _, r => by
    cases h
    rfl
  | form :: forms, cs, h, hreg, r => by
    unfold Clause.compileAll at h
    obtain ⟨c, hc, h⟩ := except_bind_eq_ok.mp h
    obtain ⟨ds, hds, h⟩ := except_bind_eq_ok.mp h
    cases h
    rw [List.forall_mem_cons] at hreg
    have ih := expands_iff hkey operands hds hreg.2 r
    obtain ⟨head, patterns, template, rfl, hyes, hunique, hno⟩ :=
      clause_matches hc hreg.1 hkey operands
    by_cases hmatch : ∃ a, MatchedItems literals patterns operands a
    · obtain ⟨a, ha⟩ := hmatch
      obtain ⟨m, hm, hsome, hnone⟩ := hyes a ha
      have hfirst : Expands literals operands (.form [.form (head :: patterns), template] :: forms) r ↔
          (∃ n, Written a template [] n ∧ r = .tree n) ∨ Uneven a template [] ∧ r = .uneven := by
        unfold Expands
        constructor
        · rintro (⟨b, hb, h⟩ | ⟨hnot, -⟩)
          · rwa [hunique a b ha hb]
          · exact absurd ⟨a, ha⟩ hnot
        · exact fun h => Or.inl ⟨a, ha, h⟩
      have hout : outcome operands (c :: ds) =
          match m.expand? c.template [] with
          | some n => .tree n
          | none => .uneven := by
        simp [outcome, Transformation.select?, hm]
      rw [hfirst, hout]
      simp only [← hsome, ← hnone]
      cases m.expand? c.template [] with
      | some n => simp
      | none => simp
    · have hrest : Expands literals operands (.form [.form (head :: patterns), template] :: forms) r ↔
          Expands literals operands forms r := by
        conv_lhs => unfold Expands
        constructor
        · rintro (⟨a, ha, -⟩ | ⟨-, h⟩)
          · exact absurd ⟨a, ha⟩ hmatch
          · exact h
        · exact fun h => Or.inr ⟨hmatch, h⟩
      have hout : outcome operands (c :: ds) = outcome operands ds := by
        simp [outcome, Transformation.select?, hno hmatch]
      rw [hrest, hout, ih]

/-! ### User-defined forms -/

theorem literalNames_eq : ∀ {ns : List Node} {names : List Text},
    Transformation.literalNames L ns = .ok names →
      names = ns.filterMap fun n => n.identifier?.map Token.text
  | [], names, h => by
    cases h
    rfl
  | n :: ns, names, h => by
    unfold Transformation.literalNames at h
    cases hid : n.identifier? with
    | none =>
      simp only [hid] at h
      obtain ⟨t, -, h⟩ := except_bind_eq_ok.mp h
      simp [Compiled.fail] at h
    | some t =>
      simp only [hid] at h
      obtain ⟨rest, hrest, h⟩ := except_bind_eq_ok.mp h
      cases h
      simp [hid, literalNames_eq hrest]

theorem compile_spec {spec : Node} {x : Transformation}
    (h : Transformation.compile L keyword spec = .ok x) :
    Clause.compileAll L (literalsOf keyword spec) (clausesOf spec) = .ok x.clauses ∧
      x.keyword = keyword ∧ keyword ∈ literalsOf keyword spec := by
  rw [Transformation.compile_eq] at h
  split at h
  · rename_i head literals forms
    split_ifs at h
    · split at h
      · rename_i names
        obtain ⟨literals, hlits, h⟩ := except_bind_eq_ok.mp h
        obtain ⟨cs, hcs, h⟩ := except_bind_eq_ok.mp h
        cases h
        refine ⟨?_, rfl, by simp [literalsOf]⟩
        rwa [literalNames_eq hlits] at hcs
      · obtain ⟨t, -, h⟩ := except_bind_eq_ok.mp h
        simp [Compiled.fail] at h
    · obtain ⟨t, -, h⟩ := except_bind_eq_ok.mp h
      simp [Compiled.fail] at h
  · obtain ⟨t, -, h⟩ := except_bind_eq_ok.mp h
    simp [Compiled.fail] at h

/-- A user-defined form that compiles, with regular clauses, is replaced by what the reference makes
of its operands: the reference has exactly one answer, and if this is no tree, then the report of a
malformed form that says so. Nothing ever fails on the way there. -/
theorem expand_eq_reference {spec : Node} {x : Transformation}
    (h : Transformation.compile L keyword spec = .ok x)
    (hreg : ∀ c ∈ clausesOf spec, Regular keyword (literalsOf keyword spec) c)
    (L' : Legend) (operands : List Node) :
    ∃ r, (∀ r', Expands (literalsOf keyword spec) operands (clausesOf spec) r' ↔ r' = r) ∧
      x.expand L' operands = r.node L' keyword operands ∧
      x.rewrite L' operands = .ok (x.expand L' operands) := by
  obtain ⟨hclauses, hname, hkey⟩ := compile_spec h
  have hbounded := Transformation.bounded_of_compile h
  refine ⟨outcome operands x.clauses, expands_iff hkey operands hclauses hreg, ?_, ?_⟩
  · rw [expand_eq_outcome hbounded, hname]
  · rw [Transformation.rewrite_of_bounded hbounded, Transformation.expand_of_bounded hbounded]

/-- The form `groups` with the one clause `((_ (a b ...) ...) (list (list a b ...) ...))`, and what
becomes of `(groups (x y z) (x))`. -/
theorem expand_groups_eq_reference :
    let word (text : Text) : Node := .leaf ⟨.identifier, .unknown, text, .undefined text⟩
    let spec : Node := .form [word "syntax-rules", .form [],
      .form [.form [word "_", .form [word "a", word "b", word "..."], word "..."],
        .form [word "list", .form [word "list", word "a", word "b", word "..."], word "..."]]]
    let operands : List Node := [.form [word "x", word "y", word "z"], .form [word "x"]]
    let L : Legend := ⟨fun _ => [], fun _ => [], fun _ => .ok []⟩
    ∃ x, Transformation.compile L "groups" spec = .ok x ∧
      ∃ r, (∀ r', Expands (literalsOf "groups" spec) operands (clausesOf spec) r' ↔ r' = r) ∧
        x.expand L operands = r.node L "groups" operands ∧
        x.rewrite L operands = .ok (x.expand L operands) := by
  intro word spec operands L
  have hok : (Transformation.compile L "groups" spec).isOk = true := by decide +kernel
  cases h : Transformation.compile L "groups" spec with
  | error alarm => simp [h, Except.isOk, Except.toBool] at hok
  | ok x =>
    refine ⟨x, rfl, expand_eq_reference h ?_ L operands⟩
    simp only [spec, clausesOf, List.forall_mem_singleton]
    exact ⟨⟨_, rfl, Or.inl rfl⟩, by decide +kernel, by decide +kernel⟩

end Reference

end LittleLisp
