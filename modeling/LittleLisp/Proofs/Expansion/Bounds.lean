/-
# Expansion within bounds

A repeated pattern takes as many trees as the patterns after it leave over, so there are as many;
and a variable of a compiled template has at most as many ellipses around it as it was bound under,
so there are as many repetition numbers. So nothing fails while a form is matched or written out,
and matching and writing are the functions below, which cut a list where it ends. Nor does anything
fail while a form is compiled: its parts and those of its clauses are read if they are there.

Key definitions: `Matches.unify?`, `Matches.expand?`, `Template.Bounded`, `Transformation.written`.
Key theorems: `Matches.unifyItems_eq`, `Matches.agrees_expand`, `Clause.compile_eq`,
`Template.bounded_of_compile`, `Transformation.compile_eq`, `Transformation.bounded_of_compile`,
`Transformation.rewrite_eq_ok`, `Transformation.rewrite_of_bounded`.
-/
import LittleLisp.Pattern.Compiler
import LittleLisp.Pattern.Expansion
import Mathlib.Tactic.Common

namespace LittleLisp

/-! ### Searches -/

namespace Search

variable {α β : Type} {b c : Prop}

theorem run_ofOption (x : Option α) : (ofOption x).run = .ok x := rfl

/-- A search that does not fail goes on with what it found. -/
theorem ofOption_bind {x : Option α} {f : α → Search β} {g : α → Option β}
    (h : ∀ a, f a = ofOption (g a)) : (ofOption x >>= f) = ofOption (x.bind g) := by
  cases x with
  | none => rfl
  | some a => exact h a

/-- A search has a known result, or else it fails and a condition does not hold. -/
def Agrees (b : Prop) (x : Search α) (r : Option α) : Prop :=
  x = ofOption r ∨ (∃ message, x.run = .error message) ∧ ¬ b

theorem Agrees.imp {x : Search α} {r : Option α} (h : Agrees b x r) (hcb : c → b) :
    Agrees c x r :=
  Or.imp_right (And.imp_right fun hb hc => hb (hcb hc)) h

theorem Agrees.bind {x : Search α} {r : Option α} {f : α → Search β} {g : α → Option β}
    (h : Agrees b x r) (hf : ∀ a, Agrees c (f a) (g a)) :
    Agrees (b ∧ c) (x >>= f) (r.bind g) := by
  rcases h with rfl | ⟨⟨message, hx⟩, hb⟩
  · cases r with
    | none => exact Or.inl rfl
    | some a => exact (hf a).imp And.right
  · refine Or.inr ⟨⟨message, ?_⟩, fun hbc => hb hbc.1⟩
    rw [OptionT.run_bind, hx]
    rfl

theorem Agrees.map {x : Search α} {r : Option α} (h : Agrees b x r) (f : α → β) :
    Agrees b (do
      let a ← x
      return f a) (r.bind fun a => some (f a)) :=
  (h.bind fun _ => Or.inl rfl).imp fun hb => ⟨hb, trivial⟩

end Search

namespace Matches

/-! ### Matching -/

/-- Matches trees against one pattern after the other, the repetition number counted from `i`. -/
def unifyEach? (unify : Matches → List Nat → Node → Option Matches) (path : List Nat) :
    Nat → List Node → Matches → Option Matches
  | _, [], m => some m
  | i, n :: ns, m =>
    match unify m (path ++ [i]) n with
    | some m => unifyEach? unify path (i + 1) ns m
    | none => none

mutual

/-- Matches a tree against a pattern in the repetition `path`. -/
def unify? : Pattern → Matches → List Nat → Node → Option Matches
  | .wildcard, m, _, _ => some m
  | .variable name _, m, path, n => some { m with nodes := m.nodes.insert (key name path) n }
  | .literal name, m, _, n =>
    match n.identifier? with
    | some t => if t.text = name then some m else none
    | none => none
  | .constant t, m, _, n =>
    match n with
    | .leaf u => if u.type = t.type ∧ u.value.same t.value then some m else none
    | _ => none
  | .list items, m, path, n =>
    match n with
    | .form children => unifyItems? items m path children
    | _ => none
  | .repeated item, m, path, n => unify? item m path n

/-- Matches a list of trees against the patterns of a list. A repeated item takes what the items
after it leave over. -/
def unifyItems? : List Pattern → Matches → List Nat → List Node → Option Matches
  | [], m, _, nodes => if nodes.isEmpty then some m else none
  | .repeated item :: rest, m, path, nodes =>
    if nodes.length < rest.length then none
    else
      let n := nodes.length - rest.length
      match unifyEach? (unify? item) path 0 (nodes.take n) m with
      | some m => unifyItems? rest (count m path n item) path (nodes.drop n)
      | none => none
  | item :: rest, m, path, nodes =>
    match nodes with
    | [] => none
    | n :: ns =>
      match unify? item m path n with
      | some m => unifyItems? rest m path ns
      | none => none

end

/-- An item without an ellipsis takes one tree. -/
theorem unifyItems?_plain {item : Pattern} (h : ∀ q, item ≠ .repeated q) (rest : List Pattern)
    (m : Matches) (path : List Nat) (n : Node) (ns : List Node) :
    unifyItems? (item :: rest) m path (n :: ns) =
      (unify? item m path n).bind fun m => unifyItems? rest m path ns := by
  cases item with
  | repeated q => exact absurd rfl (h q)
  | _ =>
    simp only [unifyItems?]
    split <;> rename_i hu <;> simp [hu]

/-- It takes one, so there must be one. -/
theorem unifyItems?_plain_nil {item : Pattern} (h : ∀ q, item ≠ .repeated q) (rest : List Pattern)
    (m : Matches) (path : List Nat) : unifyItems? (item :: rest) m path [] = none := by
  cases item with
  | repeated q => exact absurd rfl (h q)
  | _ => simp only [unifyItems?]

theorem unifyEach_eq {unify : Matches → List Nat → Node → Search Matches}
    {unify' : Matches → List Nat → Node → Option Matches}
    (h : ∀ m path n, unify m path n = .ofOption (unify' m path n)) (path : List Nat) :
    ∀ (ns : List Node) (i : Nat) (m : Matches),
      unifyEach unify path i ns m = .ofOption (unifyEach? unify' path i ns m)
  | [], _, _ => rfl
  | n :: ns, i, m => by
    rw [unifyEach, unifyEach?, h]
    cases unify' m (path ++ [i]) n with
    | none => rfl
    | some m => exact unifyEach_eq h path ns (i + 1) m

theorem unifyItems_plain {item : Pattern} {rest : List Pattern} (hplain : ∀ q, item ≠ .repeated q)
    (hitem : ∀ m path n, unify item m path n = .ofOption (unify? item m path n))
    (hrest : ∀ m path ns, unifyItems rest m path ns = .ofOption (unifyItems? rest m path ns))
    (m : Matches) (path : List Nat) (nodes : List Node) :
    unifyItems (item :: rest) m path nodes =
      .ofOption (unifyItems? (item :: rest) m path nodes) := by
  cases nodes with
  | nil =>
    rw [unifyItems?_plain_nil hplain]
    cases item with
    | repeated q => exact absurd rfl (hplain q)
    | _ => rfl
  | cons n ns =>
    have hmatch : unifyItems (item :: rest) m path (n :: ns) = (do
        let m ← unify item m path n
        unifyItems rest m path ns) := by
      cases item with
      | repeated q => exact absurd rfl (hplain q)
      | _ => rfl
    rw [hmatch, hitem, unifyItems?_plain hplain]
    exact Search.ofOption_bind fun m => hrest m path ns

mutual

/-- No tree is taken that is not there. -/
theorem unify_eq : ∀ (p : Pattern) (m : Matches) (path : List Nat) (n : Node),
    unify p m path n = .ofOption (unify? p m path n)
  | .wildcard, _, _, _ => rfl
  | .variable _ _, _, _, _ => rfl
  | .literal name, m, path, n => by
    rw [unify, unify?]
    cases n.identifier? with
    | none => rfl
    | some t => by_cases h : t.text = name <;> simp only [h] <;> rfl
  | .constant t, m, path, n => by
    cases n with
    | leaf u =>
      rw [unify, unify?]
      split_ifs <;> rfl
    | _ => rfl
  | .list items, m, path, n => by
    cases n with
    | form children => exact unifyItems_eq items m path children
    | _ => rfl
  | .repeated item, m, path, n => unify_eq item m path n

theorem unifyItems_eq : ∀ (ps : List Pattern) (m : Matches) (path : List Nat) (nodes : List Node),
    unifyItems ps m path nodes = .ofOption (unifyItems? ps m path nodes)
  | [], m, path, nodes => by
    rw [unifyItems, unifyItems?]
    split_ifs <;> rfl
  | .repeated item :: rest, m, path, nodes => by
    rw [unifyItems, unifyItems?]
    dsimp only
    by_cases h : nodes.length < rest.length
    · rw [if_pos h, if_pos (by omega)]
      rfl
    · have hn : (nodes.length : Int) - rest.length = (nodes.length - rest.length : Nat) := by omega
      rw [if_neg h, if_neg (by omega), hn, Slice.upTo_of_le (Nat.sub_le _ _),
        Slice.after_of_le (Nat.sub_le _ _)]
      change (unifyEach (unify item) path 0 _ m >>= fun m => unifyItems rest _ path _) = _
      rw [unifyEach_eq (unify_eq item)]
      cases unifyEach? (unify? item) path 0 (nodes.take (nodes.length - rest.length)) m with
      | none => rfl
      | some m => exact unifyItems_eq rest _ path _
  | .constant t :: rest, m, path, nodes =>
    unifyItems_plain (by simp) (unify_eq (.constant t)) (unifyItems_eq rest) m path nodes
  | .literal name :: rest, m, path, nodes =>
    unifyItems_plain (by simp) (unify_eq (.literal name)) (unifyItems_eq rest) m path nodes
  | .wildcard :: rest, m, path, nodes =>
    unifyItems_plain (by simp) (unify_eq .wildcard) (unifyItems_eq rest) m path nodes
  | .variable name depth :: rest, m, path, nodes =>
    unifyItems_plain (by simp) (unify_eq (.variable name depth)) (unifyItems_eq rest) m path nodes
  | .list items :: rest, m, path, nodes =>
    unifyItems_plain (by simp) (unify_eq (.list items)) (unifyItems_eq rest) m path nodes

end

/-! ### Writing -/

/-- The expansions of a template in the repetitions `i`, `i + 1`, … of `path`, `n` of them. -/
def expandEach? (expand : List Nat → Option Node) (path : List Nat) :
    Nat → Nat → Option (List Node)
  | _, 0 => some []
  | i, n + 1 => do
    let t ← expand (path ++ [i])
    let ts ← expandEach? expand path (i + 1) n
    return t :: ts

mutual

/-- Writes out a template in the repetition `path`. Fails if variables that are repeated together
were found a different number of times. -/
def expand? (m : Matches) : Template → List Nat → Option Node
  | .leaf t, _ => some (.leaf t)
  | .variable name depth, path => m.nodes.find? (key name (path.take depth))
  | .list items, path => do
    let children ← expandItems? m items path
    return .form children
  | .repeated _ item, path => expand? m item path

/-- Writes out the templates of a list. -/
def expandItems? (m : Matches) : List Template → List Nat → Option (List Node)
  | [], _ => some []
  | .repeated driver item :: rest, path => do
    let n := (m.counts.find? (key driver path)).getD 0
    if sameCounts m path n item then
      let repetitions ← expandEach? (expand? m item) path 0 n
      let others ← expandItems? m rest path
      return repetitions ++ others
    else none
  | item :: rest, path => do
    let t ← expand? m item path
    let ts ← expandItems? m rest path
    return t :: ts

end

/-- An item without an ellipsis is written once. -/
theorem expandItems?_plain {item : Template} (h : ∀ d q, item ≠ .repeated d q) (m : Matches)
    (rest : List Template) (path : List Nat) :
    expandItems? m (item :: rest) path =
      (expand? m item path).bind fun t => (expandItems? m rest path).map fun ts => t :: ts := by
  cases item with
  | repeated d q => exact absurd rfl (h d q)
  | _ =>
    simp only [expandItems?, Option.bind_eq_bind, Option.map_eq_bind]
    rfl

end Matches

namespace Template

mutual

/-- Every variable has at most as many ellipses as there are around it, `n` of which are outside of
the template. -/
def Bounded : Nat → Template → Prop
  | _, .leaf _ => True
  | n, .variable _ depth => depth ≤ n
  | n, .list items => ItemsBounded n items
  | n, .repeated _ item => Bounded n item

/-- The same for the templates of a list, where an ellipsis is one more. -/
def ItemsBounded : Nat → List Template → Prop
  | _, [] => True
  | n, .repeated _ item :: rest => Bounded (n + 1) item ∧ ItemsBounded n rest
  | n, item :: rest => Bounded n item ∧ ItemsBounded n rest

end

theorem itemsBounded_plain {item : Template} (h : ∀ d q, item ≠ .repeated d q) (n : Nat)
    (rest : List Template) :
    ItemsBounded n (item :: rest) ↔ Bounded n item ∧ ItemsBounded n rest := by
  cases item with
  | repeated d q => exact absurd rfl (h d q)
  | _ => exact Iff.rfl

end Template

namespace Matches

open Search (Agrees)

variable (m : Matches)

omit m in
theorem agrees_expandEach {b : Prop} {expand : List Nat → Search Node}
    {expand' : List Nat → Option Node} {path : List Nat}
    (h : ∀ i, Agrees b (expand (path ++ [i])) (expand' (path ++ [i]))) :
    ∀ n i, Agrees b (expandEach expand path i n) (expandEach? expand' path i n)
  | 0, _ => Or.inl rfl
  | n + 1, i =>
    ((h i).bind fun t => (agrees_expandEach h n (i + 1)).map (t :: ·)).imp fun hb => ⟨hb, hb⟩

theorem agrees_expandItems_plain {item : Template} {rest : List Template} {path : List Nat}
    (h : ∀ d q, item ≠ .repeated d q)
    (hitem : Agrees (item.Bounded path.length) (expand m item path) (expand? m item path))
    (hrest : Agrees (Template.ItemsBounded path.length rest) (expandItems m rest path)
      (expandItems? m rest path)) :
    Agrees (Template.ItemsBounded path.length (item :: rest)) (expandItems m (item :: rest) path)
      (expandItems? m (item :: rest) path) := by
  have hsteps := hitem.bind fun t => hrest.map (t :: ·)
  rw [Template.itemsBounded_plain h]
  cases item with
  | repeated d q => exact absurd rfl (h d q)
  | _ => exact hsteps

mutual

/-- A template is written out as with lists cut where they end, or else it is not bounded. -/
theorem agrees_expand : ∀ (t : Template) (path : List Nat),
    Agrees (t.Bounded path.length) (expand m t path) (expand? m t path)
  | .leaf _, _ => Or.inl rfl
  | .variable name depth, path => by
    rw [expand, expand?]
    by_cases h : depth ≤ path.length
    · exact Or.inl (by rw [Slice.upTo_of_le h]; rfl)
    · have hout : Slice.upTo path depth = .error (Slice.endOutOfRange depth path.length) := if_neg h
      exact Or.inr ⟨⟨_, by rw [hout]; rfl⟩, h⟩
  | .list items, path => (agrees_expandItems items path).map Node.form
  | .repeated _ item, path => agrees_expand item path

theorem agrees_expandItems : ∀ (ts : List Template) (path : List Nat),
    Agrees (Template.ItemsBounded path.length ts) (expandItems m ts path) (expandItems? m ts path)
  | [], _ => Or.inl rfl
  | .repeated driver item :: rest, path => by
    rw [expandItems, expandItems?]
    split_ifs
    · have hitem (i : Nat) : Agrees (item.Bounded (path.length + 1)) (expand m item (path ++ [i]))
          (expand? m item (path ++ [i])) := by
        have h := agrees_expand item (path ++ [i])
        rwa [List.length_append] at h
      exact (agrees_expandEach hitem _ 0).bind fun repetitions =>
        (agrees_expandItems rest path).map (repetitions ++ ·)
    · exact Or.inl rfl
  | .leaf t :: rest, path =>
    agrees_expandItems_plain m (by simp) (agrees_expand (.leaf t) path)
      (agrees_expandItems rest path)
  | .variable name depth :: rest, path =>
    agrees_expandItems_plain m (by simp) (agrees_expand (.variable name depth) path)
      (agrees_expandItems rest path)
  | .list items :: rest, path =>
    agrees_expandItems_plain m (by simp) (agrees_expand (.list items) path)
      (agrees_expandItems rest path)

end

end Matches

/-! ### Compiling -/

namespace Pattern

variable {L : Legend} {literals : List Text}

/-- The pattern of a clause has an item for its first element. -/
theorem exists_cons_of_compileItems {depth : Nat} {whole : List Node} {repeats : Bool} {n : Node} :
    ∀ {ns : List Node} {vars bs : Bindings Nat} {ps : List Pattern},
      compileItems L literals depth whole repeats (n :: ns) vars = .ok (ps, bs) →
        ∃ item items, ps = item :: items
  | [], vars, bs, ps, h => by
    unfold compileItems at h
    obtain ⟨a, -, h⟩ := except_bind_eq_ok.mp h
    cases h
    exact ⟨_, _, rfl⟩
  | m :: rest, vars, bs, ps, h => by
    unfold compileItems at h
    split_ifs at h
    · cases h
    · obtain ⟨a, -, h⟩ := except_bind_eq_ok.mp h
      obtain ⟨b, -, h⟩ := except_bind_eq_ok.mp h
      cases h
      exact ⟨_, _, rfl⟩
    · obtain ⟨a, -, h⟩ := except_bind_eq_ok.mp h
      obtain ⟨b, -, h⟩ := except_bind_eq_ok.mp h
      cases h
      exact ⟨_, _, rfl⟩

end Pattern

/-- The first item of a pattern is there to be left out. -/
theorem Clause.compile_pair (L : Legend) (literals : List Text) (head template : Node)
    (operands : List Node) :
    Clause.compile L literals (.form [.form (head :: operands), template]) = (do
      let (compiled, vars) ←
        Pattern.compileItems L literals 0 (head :: operands) false (head :: operands) []
      let template ← Template.compile L vars 0 template
      return ⟨compiled.tail, template⟩) := by
  change (Pattern.compileItems L literals 0 (head :: operands) false (head :: operands) [] >>= _) =
    _
  cases hps : Pattern.compileItems L literals 0 (head :: operands) false (head :: operands) [] with
  | error a => rfl
  | ok r =>
    obtain ⟨ps, vars⟩ := r
    obtain ⟨item, items, rfl⟩ := Pattern.exists_cons_of_compileItems hps
    rfl

/-- A clause has two parts, and the first of them an item; they are read only if they are there. -/
theorem Clause.compile_eq (L : Legend) (literals : List Text) (form : Node) :
    Clause.compile L literals form =
      match form with
      | .form [.form (head :: operands), template] => do
        let (compiled, vars) ←
          Pattern.compileItems L literals 0 (head :: operands) false (head :: operands) []
        let template ← Template.compile L vars 0 template
        return ⟨compiled.tail, template⟩
      | .form [pattern, _] => do
        let t ← pattern.mention L
        .fail form.position ["syntax-rules pattern must be a non-empty list, got ", t]
      | form => (do
        let t ← form.mention L
        .fail form.position ["syntax-rules clause must be (pattern template), got ", t]) := by
  rcases form with _ | t | _ | ⟨pattern, _ | ⟨template, _ | ⟨n, ns⟩⟩⟩
  case form.cons.cons.nil =>
    rcases pattern with _ | t | _ | ⟨head, operands⟩
    case form.cons =>
      exact Clause.compile_pair L literals head template operands
    all_goals rfl
  all_goals first | rfl | (rcases pattern with _ | t | _ | ⟨head, operands⟩ <;> rfl)

/-- What a compiled clause was compiled from. -/
theorem Clause.compile_eq_ok {L : Legend} {literals : List Text} {form : Node} {c : Clause}
    (h : Clause.compile L literals form = .ok c) :
    ∃ head patterns template ps vars u, form = .form [.form (head :: patterns), template] ∧
      Pattern.compileItems L literals 0 (head :: patterns) false (head :: patterns) [] =
        .ok (ps, vars) ∧
      Template.compile L vars 0 template = .ok u ∧ c = ⟨ps.tail, u⟩ := by
  rw [Clause.compile_eq] at h
  split at h
  · rename_i head patterns template
    obtain ⟨⟨ps, vars⟩, hps, h⟩ := except_bind_eq_ok.mp h
    obtain ⟨u, hu, h⟩ := except_bind_eq_ok.mp h
    cases h
    exact ⟨head, patterns, template, ps, vars, u, rfl, hps, hu, rfl⟩
  · obtain ⟨t, -, h⟩ := except_bind_eq_ok.mp h
    cases h
  · obtain ⟨t, -, h⟩ := except_bind_eq_ok.mp h
    cases h

namespace Template

variable {L : Legend} {vars : Bindings Nat}

mutual

/-- A variable is compiled under as many ellipses as it needs. -/
theorem bounded_of_compile : ∀ {n : Node} {depth : Nat} {t : Template},
    compile L vars depth n = .ok t → t.Bounded depth ∧ ∀ d q, t ≠ .repeated d q
  | .absent, depth, t, h => by simp [compile, Compiled.fail] at h
  | .leaf u, depth, t, h => by
    unfold compile at h
    split_ifs at h
    · cases h
      exact ⟨trivial, by simp⟩
    · split at h
      · cases h
        exact ⟨trivial, by simp⟩
      · split_ifs at h with hdeep
        · cases h
        · cases h
          exact ⟨Nat.not_lt.mp hdeep, by simp⟩
  | .form ns, depth, t, h => by
    unfold compile at h
    obtain ⟨ts, hts, h⟩ := except_bind_eq_ok.mp h
    cases h
    exact ⟨itemsBounded_of_compileItems hts, by simp⟩

theorem itemsBounded_of_compileItems : ∀ {ns : List Node} {depth : Nat} {ts : List Template},
    compileItems L vars depth ns = .ok ts → ItemsBounded depth ts
  | [], depth, ts, h => by
    cases h
    exact trivial
  | [n], depth, ts, h => by
    unfold compileItems at h
    obtain ⟨t, ht, h⟩ := except_bind_eq_ok.mp h
    cases h
    obtain ⟨hbounded, hplain⟩ := bounded_of_compile ht
    exact (itemsBounded_plain hplain depth []).mpr ⟨hbounded, trivial⟩
  | n :: m :: rest, depth, ts, h => by
    unfold compileItems at h
    split_ifs at h
    · obtain ⟨t, ht, h⟩ := except_bind_eq_ok.mp h
      split at h
      · obtain ⟨text, -, h⟩ := except_bind_eq_ok.mp h
        cases h
      · obtain ⟨us, hus, h⟩ := except_bind_eq_ok.mp h
        cases h
        exact ⟨(bounded_of_compile ht).1, itemsBounded_of_compileItems hus⟩
    · obtain ⟨t, ht, h⟩ := except_bind_eq_ok.mp h
      obtain ⟨us, hus, h⟩ := except_bind_eq_ok.mp h
      cases h
      obtain ⟨hbounded, hplain⟩ := bounded_of_compile ht
      exact (itemsBounded_plain hplain depth us).mpr
        ⟨hbounded, itemsBounded_of_compileItems hus⟩

end

end Template

theorem Clause.bounded_of_compile {L : Legend} {literals : List Text} {form : Node} {c : Clause}
    (h : Clause.compile L literals form = .ok c) : c.template.Bounded 0 := by
  obtain ⟨head, patterns, template, ps, vars, u, rfl, -, hu, rfl⟩ := Clause.compile_eq_ok h
  exact (Template.bounded_of_compile hu).1

theorem Clause.bounded_of_compileAll {L : Legend} {literals : List Text} :
    ∀ {forms : List Node} {cs : List Clause}, Clause.compileAll L literals forms = .ok cs →
      ∀ c ∈ cs, c.template.Bounded 0
  | [], cs, h => by
    cases h
    simp
  | form :: forms, cs, h => by
    unfold Clause.compileAll at h
    obtain ⟨c, hc, h⟩ := except_bind_eq_ok.mp h
    obtain ⟨cs', hcs, h⟩ := except_bind_eq_ok.mp h
    cases h
    exact List.forall_mem_cons.mpr ⟨Clause.bounded_of_compile hc, Clause.bounded_of_compileAll hcs⟩

/-! ### User-defined forms -/

namespace Transformation

variable {L : Legend} {x : Transformation} {operands : List Node}

/-- The templates of the clauses are bounded. -/
def Bounded (x : Transformation) : Prop := ∀ c ∈ x.clauses, c.template.Bounded 0

/-- A form is compiled from its name, its literals and its clauses. -/
theorem compile_eq (L : Legend) (keyword : Text) (spec : Node) :
    compile L keyword spec =
      match spec with
      | .form (head :: literals :: forms) =>
        if head.identifier?.any fun t => t.text == Text.ofString "syntax-rules" then
          match literals with
          | .form names => do
            let names ← literalNames L names
            let clauses ← Clause.compileAll L (keyword :: names) forms
            return ⟨keyword, clauses⟩
          | literals => do
            let t ← literals.mention L
            .fail spec.position ["syntax-rules expects a literal list, got ", t]
        else do
          let t ← head.mention L
          .fail spec.position ["expected syntax-rules, got ", t]
      | spec => (do
        let t ← spec.mention L
        .fail spec.position ["expected syntax-rules, got ", t]) := by
  rcases spec with _ | t | _ | ⟨head, _ | ⟨literals, forms⟩⟩
  case form.cons.cons =>
    cases literals <;> rfl
  all_goals rfl

theorem bounded_of_compile {keyword : Text} {spec : Node} (h : compile L keyword spec = .ok x) :
    x.Bounded := by
  rw [compile_eq] at h
  split at h
  · split_ifs at h
    · split at h
      · obtain ⟨names, -, h⟩ := except_bind_eq_ok.mp h
        obtain ⟨cs, hcs, h⟩ := except_bind_eq_ok.mp h
        cases h
        exact Clause.bounded_of_compileAll hcs
      · obtain ⟨t, -, h⟩ := except_bind_eq_ok.mp h
        cases h
    · obtain ⟨t, -, h⟩ := except_bind_eq_ok.mp h
      cases h
  · obtain ⟨t, -, h⟩ := except_bind_eq_ok.mp h
    cases h

/-- The first clause whose patterns match the operands, with what they matched. -/
def select? (operands : List Node) : List Clause → Option (Clause × Matches)
  | [] => none
  | c :: cs =>
    match Matches.unifyItems? c.operands .empty [] operands with
    | some m => some (c, m)
    | none => select? operands cs

theorem select_eq (operands : List Node) : ∀ cs : List Clause,
    select operands cs = .ofOption (select? operands cs)
  | [] => rfl
  | c :: cs => by
    rw [select, select?, Matches.unifyItems_eq]
    cases Matches.unifyItems? c.operands .empty [] operands with
    | none => exact select_eq operands cs
    | some m => rfl

theorem mem_of_select? : ∀ {cs : List Clause} {c : Clause} {m : Matches},
    select? operands cs = some (c, m) → c ∈ cs
  | c' :: cs, c, m, h => by
    unfold select? at h
    split at h
    · cases h
      exact List.mem_cons_self
    · exact List.mem_cons_of_mem _ (mem_of_select? h)

/-- What a form with the given operands is replaced by, if nothing fails. -/
def written (L : Legend) (x : Transformation) (operands : List Node) : Node :=
  match select? operands x.clauses with
  | none =>
    .malformed (Node.positionOfAll operands)
      ["no syntax-rules clause of ", x.keyword, " matches ", operandText L operands]
  | some (clause, m) =>
    match m.expand? clause.template [] with
    | some n => n
    | none =>
      .malformed (Node.positionOfAll operands)
        [x.keyword, ": ellipsis variables matched different lengths in ", operandText L operands]

theorem rewrite_cases (L : Legend) (x : Transformation) (operands : List Node) :
    x.rewrite L operands = .ok (x.written L operands) ∨
      (∃ message, x.rewrite L operands = .error message) ∧ ¬ x.Bounded := by
  rw [rewrite, written, select_eq, Search.run_ofOption, except_ok_bind]
  cases hselect : select? operands x.clauses with
  | none => exact Or.inl rfl
  | some r =>
    obtain ⟨c, m⟩ := r
    dsimp only
    rcases m.agrees_expand c.template [] with h | ⟨⟨message, h⟩, hbounded⟩
    · rw [h, Search.run_ofOption, except_ok_bind]
      cases m.expand? c.template [] <;> exact Or.inl rfl
    · rw [h]
      exact Or.inr ⟨⟨message, rfl⟩, fun hx => hbounded (hx c (mem_of_select? hselect))⟩

theorem rewrite_eq_ok {n : Node} (h : x.rewrite L operands = .ok n) : n = x.written L operands := by
  rcases x.rewrite_cases L operands with hwritten | ⟨⟨message, hfails⟩, -⟩
  · rw [hwritten] at h
    exact (Except.ok.inj h).symm
  · rw [hfails] at h
    cases h

/-- Nothing fails where a compiled form is expanded. -/
theorem rewrite_of_bounded (h : x.Bounded) (L : Legend) (operands : List Node) :
    x.rewrite L operands = .ok (x.written L operands) :=
  (x.rewrite_cases L operands).resolve_right fun hfails => hfails.2 h

theorem expand_of_bounded (h : x.Bounded) (L : Legend) (operands : List Node) :
    x.expand L operands = x.written L operands := by
  rw [expand, rewrite_of_bounded h]

end Transformation

end LittleLisp
