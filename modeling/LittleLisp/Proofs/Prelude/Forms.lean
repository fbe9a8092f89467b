/-
# What the forms of the prelude are replaced by

The forms of the prelude are user-defined, so what takes their place is what the reference makes
of their clauses: matched are the operands with the patterns, and written are the templates. All
their ellipses follow a single variable, or a pair of variables in the pattern of `let`, and then
a variable stands for a list of trees, which a template writes out one after the other.

Key definitions: `Sketch.words`, `Sketch.Reads`, `Assignment.each`, `PreludeSpells`,
`PreludeDefines`.
Key theorems: `Reference.matchedItems_each`, `Reference.writtenItems_each`, `expand_let`,
`expand_junction`.
-/
import LittleLisp.Proofs.Expansion
import LittleLisp.Proofs.Nesting.Rules
import LittleLisp.Proofs.Prelude

namespace LittleLisp

variable {σ : Type}

/-! ### Sketches without keywords -/

namespace Token

/-- A token that the word is read as if it is no keyword. -/
def IsWord (word : Text) (t : Token) : Prop := t.unplaced = ofAtom word .unknown word

theorem extendedBy_self (word : Text) : word.extendedBy word = false := by
  simp [Text.extendedBy]

theorem ofAtom_of_constant {word : Text} (h : IsConstant word) (m m' : Text) (p : Position) :
    ofAtom m p word = ofAtom m' p word := by
  rcases h with rfl | rfl | rfl | ⟨hlooks, hsome⟩
  · rfl
  · rfl
  · rfl
  · obtain ⟨x, hx⟩ := Option.isSome_iff_exists.mp hsome
    simp [ofAtom, hlooks, hx]

/-- With this marker, the word is read as a keyword. -/
def KeywordUnder (m word : Text) : Prop := (ofAtom m .unknown word).type = .keyword

instance (m word : Text) : Decidable (KeywordUnder m word) := inferInstanceAs (Decidable (_ = _))

/-- A marker that makes no keyword of a word does not matter to it. -/
theorem ofAtom_plain {m word : Text} (h : ¬ KeywordUnder m word) :
    ofAtom m .unknown word = ofAtom word .unknown word := by
  by_cases hword : IsConstant word
  · exact ofAtom_of_constant hword m word .unknown
  · rw [KeywordUnder, ofAtom_of_not_constant hword] at h
    have hext : m.extendedBy word = false := by
      rw [Bool.eq_false_iff]
      exact fun hext => h (by rw [if_pos hext])
    rw [ofAtom_of_not_constant hword, ofAtom_of_not_constant hword, extendedBy_self, hext]

/-- Such a token is an identifier, unless the word is a constant. -/
theorem IsWord.identifier {word : Text} {t : Token} (h : IsWord word t)
    (hword : ¬ IsConstant word) : t.type = .identifier ∧ t.text = word := by
  rw [IsWord, ofAtom_of_not_constant hword, extendedBy_self] at h
  exact ⟨congrArg Token.type h, congrArg Token.text h⟩

end Token

/-- In head position, such a token is spelled like a name of the module. -/
theorem Machine.heads_of_word {M : Machine σ} (hsigil : M.effectiveSigil = defaultSigil)
    {word : Text} {t : Token} (h : t.IsWord word)
    (hword : ¬ Token.IsConstant word ∧ defaultSigil.extendedBy word = false) {scope : Scope}
    (hfree : scope.find? word = none) : M.Heads scope word t :=
  have hid := h.identifier hword.1
  heads_of_identifier hsigil hword.2 hid.1 hid.2 hfree

namespace Sketch

open Token (unplaced)

mutual

/-- The words of a sketch. -/
def words : Sketch → List Text
  | .word text => [text]
  | .form items => wordsOfAll items

/-- The words of some sketches. -/
def wordsOfAll : List Sketch → List Text
  | [] => []
  | s :: ss => words s ++ wordsOfAll ss

end

mutual

/-- The tree is read from the sketch, and none of its words as a keyword. -/
def Reads : Sketch → Node → Prop
  | .word text, n => ∃ t, n = .leaf t ∧ t.IsWord text
  | .form items, n => ∃ ns, n = .form ns ∧ ReadsAll items ns

/-- The trees are read from the sketches. -/
def ReadsAll : List Sketch → List Node → Prop
  | [], ns => ns = []
  | s :: ss, ns => ∃ n rest, ns = n :: rest ∧ Reads s n ∧ ReadsAll ss rest

end

mutual

/-- A tree that was read with none of the words as a keyword. -/
theorem reads_of_relabel {m : Text} : ∀ {s : Sketch} {n : Node},
    (∀ w ∈ s.words, ¬ Token.KeywordUnder m w) → n.relabel unplaced = s.node m → s.Reads n
  | .word text, n, hm, h => by
    rw [words, List.forall_mem_singleton] at hm
    rw [node, Token.ofAtom_plain hm] at h
    cases n with
    | leaf t => exact ⟨t, rfl, Node.leaf.inj h⟩
    | absent => simp [Node.relabel] at h
    | form ns => simp [Node.relabel] at h
  | .form items, n, hm, h => by
    obtain ⟨ns, rfl, hns⟩ := form_of_relabel h
    exact ⟨ns, rfl, readsAll_of_relabel hm hns⟩

theorem readsAll_of_relabel {m : Text} : ∀ {ss : List Sketch} {ns : List Node},
    (∀ w ∈ wordsOfAll ss, ¬ Token.KeywordUnder m w) →
      ns.map (Node.relabel unplaced) = nodes m ss → ReadsAll ss ns
  | [], ns, _, h => List.map_eq_nil_iff.mp h
  | s :: ss, ns, hm, h => by
    rw [wordsOfAll, List.forall_mem_append] at hm
    rw [nodes] at h
    obtain ⟨n, rest, rfl, hn, hrest⟩ := List.map_eq_cons_iff.mp h
    exact ⟨n, rest, rfl, reads_of_relabel hm.1 hn, readsAll_of_relabel hm.2 hrest⟩

end

end Sketch

/-! ### Definitions of the prelude -/

/-- A form that was defined with none of the words read as a keyword. -/
theorem Definition.Holds.reads {m name : Text} {clauses : List Sketch} {s : Store σ}
    (h : (Definition.form name clauses).Holds m s)
    (hm : ∀ w ∈ (Definition.form name clauses).sketch.words, ¬ Token.KeywordUnder m w) :
    ∃ L spec x, (specification clauses).Reads spec ∧ Transformation.compile L name spec = .ok x ∧
      s.expander? name = some (.userDefined x) := by
  obtain ⟨L, spec, x, hspec, hx, hexp⟩ := h
  refine ⟨L, spec, x, Sketch.reads_of_relabel (fun w hw => hm w ?_) hspec, hx, hexp⟩
  simp [sketch, Sketch.words, Sketch.wordsOfAll, hw]

/-- A function that was defined with none of the words read as a keyword. -/
theorem Definition.Holds.readsAll {m name : Text} {params : List Text} {trees : List Sketch}
    {s : Store σ} (h : (Definition.function name params trees).Holds m s)
    (hm : ∀ w ∈ (Definition.function name params trees).sketch.words, ¬ Token.KeywordUnder m w) :
    ∃ body, Sketch.ReadsAll trees body ∧
      s.body? name = some (.closure ⟨params, none, body, []⟩) := by
  obtain ⟨body, htrees, hbody⟩ := h
  refine ⟨body, Sketch.readsAll_of_relabel (fun w hw => hm w ?_) htrees, hbody⟩
  simp [sketch, Sketch.words, Sketch.wordsOfAll, hw]

/-- The marker makes no keyword of the words with which the prelude defines the name. -/
def PreludeSpells (m name : Text) : Prop :=
  ∀ d ∈ preludeDefinitions, d.name = name → ∀ w ∈ d.sketch.words, ¬ Token.KeywordUnder m w

instance (m name : Text) : Decidable (PreludeSpells m name) :=
  inferInstanceAs (Decidable (∀ d ∈ preludeDefinitions, d.name = name → _))

/-- The name is bound to what the prelude, read with the marker, defines it as. -/
def PreludeDefines (m : Text) (s : Store σ) (name : Text) : Prop :=
  ∀ d ∈ preludeDefinitions, d.name = name → d.Holds m s

/-! ### Matching and writing variables -/

namespace Reference

variable {literals : List Text} {x : Text} {t : Token} {dots n : Node} {ns ms ps : List Node}
  {a b : Assignment} {path : List Nat}

/-- One variable stands for a list of trees. -/
def Assignment.each (x : Text) (ns : List Node) : Assignment := fun y =>
  if y = x then some (.many (ns.map .one)) else none

theorem matchedItems_cons {p : Node} (hps : beginsWithEllipsis ps = false)
    (hn : Matched literals p n a) (hns : MatchedItems literals ps ns b) :
    MatchedItems literals (p :: ps) (n :: ns) (a.union b) :=
  (matchedItems_plain hps).mpr ⟨n, ns, a, b, rfl, hn, hns, rfl⟩

theorem matched_word (ht : t.IsWord x) (hconst : ¬ Token.IsConstant x) (hx : IsVariable literals x)
    (n : Node) : Matched literals (.leaf t) n (.single x n) := by
  obtain ⟨htype, rfl⟩ := ht.identifier hconst
  exact (matched_variable htype hx).mpr rfl

/-- A variable with an ellipsis after it takes all trees that are left. -/
theorem matchedItems_each (ht : t.IsWord x) (hconst : ¬ Token.IsConstant x)
    (hx : IsVariable literals x) (hdots : dots.isEllipsis = true) (ns : List Node) :
    MatchedItems literals [.leaf t, dots] ns (.each x ns) := by
  obtain ⟨htype, rfl⟩ := ht.identifier hconst
  refine (matchedItems_repeated hdots).mpr
    ⟨ns, [], ns.map (.single t.text), .empty, (List.append_nil ns).symm, ?_, ⟨rfl, rfl⟩, ?_⟩
  · rw [List.forall₂_map_right_iff, List.forall₂_same]
    exact fun n _ => (matched_variable htype hx).mpr rfl
  · rw [Assignment.union_empty]
    have hvars : vars literals (.leaf t) = [t.text] := vars_leaf_variable htype hx
    funext y
    by_cases hy : y = t.text
    · subst hy
      simp [Assignment.each, Assignment.gather, hvars, List.filterMap_map, Function.comp_def,
        Assignment.single]
    · simp [Assignment.each, Assignment.gather, hvars, hy]

/-- A pair of variables with an ellipsis after it takes any number of pairs. -/
theorem matchedItems_pairs {x' : Text} {t' : Token} (ht : t.IsWord x) (ht' : t'.IsWord x')
    (hconst : ¬ Token.IsConstant x ∧ ¬ Token.IsConstant x') (hx : IsVariable literals x)
    (hx' : IsVariable literals x') (hne : x' ≠ x)
    (hplain : beginsWithEllipsis [.leaf t'] = false) (hdots : dots.isEllipsis = true)
    (pairs : List (Node × Node)) :
    MatchedItems literals [.form [.leaf t, .leaf t'], dots] (pairs.map fun p => .form [p.1, p.2])
      (.union (.each x (pairs.map Prod.fst)) (.each x' (pairs.map Prod.snd))) := by
  obtain ⟨htype, rfl⟩ := ht.identifier hconst.1
  obtain ⟨htype', rfl⟩ := ht'.identifier hconst.2
  refine (matchedItems_repeated hdots).mpr ⟨_, [],
    pairs.map fun p => .union (.single t.text p.1) (.single t'.text p.2), .empty,
    (List.append_nil _).symm, ?_, ⟨rfl, rfl⟩, ?_⟩
  · rw [List.forall₂_map_right_iff, List.forall₂_map_left_iff, List.forall₂_same]
    refine fun p _ => ⟨_, rfl, matchedItems_cons hplain ((matched_variable htype hx).mpr rfl) ?_⟩
    exact ⟨p.2, rfl, (matched_variable htype' hx').mpr rfl⟩
  · rw [Assignment.union_empty]
    have hvars : vars literals (.form [.leaf t, .leaf t']) = [t.text, t'.text] := by
      rw [vars_form, varsOfItems_plain hplain, varsOfItems_plain rfl]
      simp [vars, varsOfItems, names, namesOfItems, htype, htype', hx, hx']
    funext y
    by_cases hy : y = t.text
    · subst hy
      simp [Assignment.union, Assignment.each, Assignment.gather, hvars, List.filterMap_map,
        Function.comp_def, Assignment.single]
    · by_cases hy' : y = t'.text
      · subst hy'
        simp [Assignment.union, Assignment.each, Assignment.gather, hvars, List.filterMap_map,
          Function.comp_def, Assignment.single, hne]
      · simp [Assignment.union, Assignment.each, Assignment.gather, hvars, hy, hy']

theorem writtenItems_cons {p : Node} (hps : beginsWithEllipsis ps = false)
    (hn : Written a p path n) (hns : WrittenItems a ps path ns) :
    WrittenItems a (p :: ps) path (n :: ns) :=
  (writtenItems_plain hps).mpr ⟨n, ns, rfl, hn, hns⟩

theorem written_variable (ht : t.IsWord x) (hconst : ¬ Token.IsConstant x)
    (ha : a x = some (.one n)) : Written a (.leaf t) path n := by
  obtain ⟨htype, rfl⟩ := ht.identifier hconst
  have hfollow : (MatchTree.one n).follow path = some (.one n) := by
    cases path <;> rfl
  simp [Written, htype, ha, hfollow]

theorem written_word (ht : t.IsWord x) (hconst : ¬ Token.IsConstant x) (ha : a x = none) :
    Written a (.leaf t) path (.leaf t) := by
  obtain ⟨htype, rfl⟩ := ht.identifier hconst
  simp [Written, htype, ha]

theorem written_constant (ht : t.type ≠ .identifier) : Written a (.leaf t) path (.leaf t) := by
  simp [Written, ht]

/-- A variable with an ellipsis after it writes the trees it stands for. -/
theorem writtenItems_each (ht : t.IsWord x) (hconst : ¬ Token.IsConstant x)
    (hdots : dots.isEllipsis = true) (ha : a x = some (.many (ms.map .one))) :
    WrittenItems a [.leaf t, dots] [] ms := by
  obtain ⟨htype, rfl⟩ := ht.identifier hconst
  have hnames : names (.leaf t) = [t.text] := by simp [names, htype]
  refine (writtenItems_repeated hdots).mpr
    ⟨ms, [], (List.append_nil ms).symm, ⟨?_, ?_⟩, fun i n hn => ?_, rfl⟩
  · exact ⟨t.text, by simp [hnames], _, _, ha, rfl, by simp⟩
  · intro x hx j hj
    obtain rfl : x = t.text := by simpa [hnames] using hx
    obtain ⟨u, us, hu, hfollow, rfl⟩ := hj
    rw [ha] at hu
    cases hu
    cases hfollow
    simp
  · simp [Written, htype, ha, MatchTree.follow, hn]

/-- A form that compiles, with regular clauses, is replaced by the tree that its clauses expand
to. -/
theorem expand_of_expands {L : Legend} {keyword : Text} {spec : Node} {x : Transformation}
    (h : Transformation.compile L keyword spec = .ok x)
    (hreg : ∀ c ∈ clausesOf spec, Regular keyword (literalsOf keyword spec) c)
    {operands : List Node}
    (hn : Expands (literalsOf keyword spec) operands (clausesOf spec) (.tree n)) (L' : Legend) :
    x.expand L' operands = n := by
  obtain ⟨hclauses, -, hkey⟩ := compile_spec h
  rw [expand_eq_outcome (Transformation.bounded_of_compile h),
    ← (expands_iff hkey operands hclauses hreg _).mp hn]
  rfl

/-- The first clause that matches decides. -/
theorem expands_of_matched {head template : Node} {operands clauses : List Node}
    (ha : MatchedItems literals ps operands a) (hn : Written a template [] n) :
    Expands literals operands (.form [.form (head :: ps), template] :: clauses) (.tree n) :=
  Or.inl ⟨a, ha, Or.inl ⟨n, hn, rfl⟩⟩

/-- A clause that does not match is passed over. -/
theorem expands_of_unmatched {head template : Node} {operands clauses : List Node} {r : Expansion}
    (hno : ¬ ∃ a, MatchedItems literals ps operands a) (hr : Expands literals operands clauses r) :
    Expands literals operands (.form [.form (head :: ps), template] :: clauses) r :=
  Or.inr ⟨hno, hr⟩

theorem isEllipsis_word (h : t.IsWord x) (hx : ¬ Token.IsConstant x) :
    (Node.leaf t).isEllipsis = (x == ellipsis) := by
  obtain ⟨htype, rfl⟩ := h.identifier hx
  simp [Node.isEllipsis, Node.identifier?, htype]

theorem isEllipsis_dots (h : t.IsWord "...") : (Node.leaf t).isEllipsis = true :=
  isEllipsis_word h (by decide)

/-- Trees that start with a word other than the ellipsis. -/
theorem beginsWithEllipsis_word (h : t.IsWord x)
    (hx : ¬ Token.IsConstant x ∧ x ≠ ellipsis) (ns : List Node) :
    beginsWithEllipsis (.leaf t :: ns) = false := by
  rw [beginsWithEllipsis, isEllipsis_word h hx.1]
  simpa using hx.2

theorem namesOfItems_singleton (n : Node) : namesOfItems [n] = names n := by
  simp only [namesOfItems]

theorem names_form (ns : List Node) : names (.form ns) = namesOfItems ns := rfl

theorem names_word (h : t.IsWord x) (hx : ¬ Token.IsConstant x) :
    names (.leaf t) = [x] := by
  obtain ⟨htype, rfl⟩ := h.identifier hx
  simp [names, htype]

/-- A clause whose pattern starts with `_`, if its variables have no `#` in their names. -/
theorem regular_of_underscore {keyword : Text} {template : Node} (ht : t.IsWord "_")
    (hplain : beginsWithEllipsis ps = false) (hnames : ∀ x ∈ namesOfItems ps, Sharpless x) :
    Regular keyword literals (.form [.form (.leaf t :: ps), template]) := by
  obtain ⟨htype, htext⟩ := ht.identifier (by decide)
  refine ⟨⟨t, by simp [Node.identifier?, htype], Or.inl htext⟩, hplain, fun x hx => hnames x ?_⟩
  exact List.mem_of_mem_filter hx

end Reference

/-! ### `and` and `or` -/

/-- The name of the form that goes on as long as tests come out as `unit`: `and` for true and `or`
for false. -/
def junction (unit : Bool) : Text := if unit then "and" else "or"

/-- The word of a truth value. -/
def truthWord (b : Bool) : Text := if b then "true" else "false"

/-- The branches of a conditional that goes on if its test comes out as `unit`. -/
def branches {α : Type} (unit : Bool) (go stop : α) : List α :=
  if unit then [go, stop] else [stop, go]

/-- The clauses of `and` and `or`. -/
def junctionClauses (unit : Bool) : List Sketch :=
  [.form [.form ["_"], .word (truthWord unit)], .form [.form ["_", "e"], "e"],
    .form [.form ["_", "e1", "e2", "e3", "..."],
      .form ("if" :: "e1" :: branches unit (.form [.word (junction unit), "e2", "e3", "..."])
        (.word (truthWord !unit)))]]

theorem junction_mem (unit : Bool) :
    .form (junction unit) (junctionClauses unit) ∈ preludeDefinitions := by
  cases unit <;> simp [preludeDefinitions, junction, junctionClauses, branches, truthWord]

theorem isWord_truth {b : Bool} {t : Token} (h : t.IsWord (truthWord b)) :
    t.type = .literal ∧ t.value = .bool b := by
  cases b <;> exact ⟨congrArg Token.type h, congrArg Token.value h⟩

theorem readsAll_branches {unit : Bool} {go stop : Sketch} {ns : List Node}
    (h : Sketch.ReadsAll (branches unit go stop) ns) :
    ∃ n m, ns = branches unit n m ∧ go.Reads n ∧ stop.Reads m := by
  cases unit with
  | true =>
    obtain ⟨n, _, rfl, hn, m, _, rfl, hm, rfl⟩ := h
    exact ⟨n, m, rfl, hn, hm⟩
  | false =>
    obtain ⟨m, _, rfl, hm, n, _, rfl, hn, rfl⟩ := h
    exact ⟨n, m, rfl, hn, hm⟩

open Reference

theorem writtenItems_branches {unit : Bool} {a : Assignment} {path : List Nat} {go stop n m : Node}
    (hgo : go.isEllipsis = false) (hstop : stop.isEllipsis = false) (hn : Written a go path n)
    (hm : Written a stop path m) :
    WrittenItems a (branches unit go stop) path (branches unit n m) := by
  cases unit with
  | true => exact writtenItems_cons hstop hn (writtenItems_cons rfl hm rfl)
  | false => exact writtenItems_cons hgo hm (writtenItems_cons rfl hn rfl)

section Junction

variable {unit : Bool} (keyword : Text) {literals : List Text} {c : Node}

/-- The clause without operands. -/
theorem expands_truth (literals : List Text) {b : Bool}
    (h : (Sketch.form [.form ["_"], .word (truthWord b)]).Reads c) :
    Regular keyword literals c ∧
      (∃ t : Token, t.IsWord (truthWord b) ∧
        ∀ clauses, Expands literals [] (c :: clauses) (.tree (.leaf t))) ∧
      ∀ e es clauses r, Expands literals (e :: es) clauses r →
        Expands literals (e :: es) (c :: clauses) r := by
  obtain ⟨_, rfl, _, _, rfl, ⟨_, rfl, _, _, rfl, ⟨u, rfl, hu⟩, rfl⟩, _, _, rfl, ⟨t, rfl, ht⟩,
    rfl⟩ := h
  refine ⟨regular_of_underscore hu rfl (by simp [namesOfItems]), ⟨t, ht, fun clauses => ?_⟩,
    fun e es clauses r hr => expands_of_unmatched (by simp [MatchedItems]) hr⟩
  have htype := (isWord_truth ht).1
  exact expands_of_matched ⟨rfl, rfl⟩ (written_constant (by simp [htype]))

/-- The clause with one operand. -/
theorem expands_operand (h : (Sketch.form [.form ["_", "e"], "e"]).Reads c)
    (he : IsVariable literals "e") :
    Regular keyword literals c ∧
      (∀ e clauses, Expands literals [e] (c :: clauses) (.tree e)) ∧
      ∀ e e' es clauses r, Expands literals (e :: e' :: es) clauses r →
        Expands literals (e :: e' :: es) (c :: clauses) r := by
  obtain ⟨_, rfl, _, _, rfl, ⟨_, rfl, _, _, rfl, ⟨u, rfl, hu⟩, _, _, rfl, ⟨t, rfl, ht⟩, rfl⟩, _, _,
    rfl, ⟨w, rfl, hw⟩, rfl⟩ := h
  have hdots : beginsWithEllipsis [.leaf t] = false := isEllipsis_word ht (by decide)
  refine ⟨regular_of_underscore hu hdots ?_, fun e clauses => ?_, fun e e' es clauses r hr => ?_⟩
  · rw [namesOfItems, names_word ht (by decide)]
    decide
  · exact expands_of_matched ⟨e, rfl, matched_word ht (by decide) he e⟩
      (written_variable hw (by decide) rfl)
  · refine expands_of_unmatched ?_ hr
    rintro ⟨a, n, hn, -⟩
    simp at hn

/-- The clause with several operands. -/
theorem expands_operands
    (h : (Sketch.form [.form ["_", "e1", "e2", "e3", "..."],
      .form ("if" :: "e1" :: branches unit (.form [.word (junction unit), "e2", "e3", "..."])
        (.word (truthWord !unit)))]).Reads c)
    (hvars : ∀ x ∈ (["e1", "e2", "e3"] : List Text), IsVariable literals x) :
    Regular keyword literals c ∧
      ∃ test head no : Token, test.IsWord "if" ∧ head.IsWord (junction unit) ∧
        no.IsWord (truthWord !unit) ∧ ∀ e e' es clauses,
          Expands literals (e :: e' :: es) (c :: clauses) (.tree (.form (.leaf test :: e ::
            branches unit (.form (.leaf head :: e' :: es)) (.leaf no)))) := by
  obtain ⟨_, rfl, _, _, rfl, ⟨_, rfl, _, _, rfl, ⟨u, rfl, hu⟩, _, _, rfl, ⟨e₁, rfl, he₁⟩, _, _, rfl,
    ⟨e₂, rfl, he₂⟩, _, _, rfl, ⟨e₃, rfl, he₃⟩, _, _, rfl, ⟨dots, rfl, hdots⟩, rfl⟩, _, _, rfl,
    ⟨_, rfl, _, _, rfl, ⟨test, rfl, htest⟩, _, _, rfl, ⟨w₁, rfl, hw₁⟩, hbranches⟩, rfl⟩ := h
  obtain ⟨_, _, rfl, ⟨_, rfl, _, _, rfl, ⟨head, rfl, hhead⟩, _, _, rfl, ⟨w₂, rfl, hw₂⟩, _, _, rfl,
    ⟨w₃, rfl, hw₃⟩, _, _, rfl, ⟨dots', rfl, hdots'⟩, rfl⟩, no, rfl, hno⟩ :=
    readsAll_branches hbranches
  have hrepeat := isEllipsis_dots hdots
  have hplain₂ := beginsWithEllipsis_word he₂ (by decide)
  have hplain₃ := beginsWithEllipsis_word he₃ (by decide)
  refine ⟨regular_of_underscore hu (beginsWithEllipsis_word he₁ (by decide) _) ?_, test, head, no,
    htest, hhead, hno, fun e e' es clauses => ?_⟩
  · rw [namesOfItems_plain (hplain₂ _), namesOfItems_plain (hplain₃ _),
      namesOfItems_repeated hrepeat, names_word he₁ (by decide), names_word he₂ (by decide),
      names_word he₃ (by decide)]
    decide
  -- what the variables stand for
  let a : Assignment := .union (.single "e1" e) (.union (.single "e2" e') (.each "e3" es))
  have ha : MatchedItems literals [.leaf e₁, .leaf e₂, .leaf e₃, .leaf dots] (e :: e' :: es) a :=
    matchedItems_cons (hplain₂ _) (matched_word he₁ (by decide) (hvars _ (by simp)) e)
      (matchedItems_cons (hplain₃ _) (matched_word he₂ (by decide) (hvars _ (by simp)) e')
        (matchedItems_each he₃ (by decide) (hvars _ (by simp)) hrepeat es))
  have hmore : Written a (.form [.leaf head, .leaf w₂, .leaf w₃, .leaf dots']) []
      (.form (.leaf head :: e' :: es)) := by
    refine ⟨_, rfl, writtenItems_cons (beginsWithEllipsis_word hw₂ (by decide) _)
      (written_word hhead (by cases unit <;> decide) (by cases unit <;> rfl))
        (writtenItems_cons (beginsWithEllipsis_word hw₃ (by decide) _)
          (written_variable hw₂ (by decide) rfl) ?_)⟩
    exact writtenItems_each hw₃ (by decide) (isEllipsis_dots hdots') rfl
  have hliteral := (isWord_truth hno).1
  have hstop : (Node.leaf no).isEllipsis = false := by
    simp [Node.isEllipsis, Node.identifier?, hliteral]
  refine expands_of_matched ha ⟨_, rfl, writtenItems_cons
    (beginsWithEllipsis_word hw₁ (by decide) _) (written_word htest (by decide) rfl)
      (writtenItems_cons ?_ (written_variable hw₁ (by decide) rfl)
        (writtenItems_branches rfl hstop hmore (written_constant (by simp [hliteral]))))⟩
  cases unit with
  | true => rfl
  | false => exact hstop

/-- What `and` and `or` are replaced by. -/
theorem expand_junction {L : Legend} {spec : Node} {x : Transformation}
    (hspec : (Definition.specification (junctionClauses unit)).Reads spec)
    (hx : Transformation.compile L (junction unit) spec = .ok x) :
    ∃ yes no test head : Token, yes.IsWord (truthWord unit) ∧ no.IsWord (truthWord !unit) ∧
      test.IsWord "if" ∧ head.IsWord (junction unit) ∧ ∀ L' : Legend,
        x.expand L' [] = .leaf yes ∧ (∀ e, x.expand L' [e] = e) ∧
        ∀ e e' es, x.expand L' (e :: e' :: es) =
          .form (.leaf test :: e ::
            branches unit (.form (.leaf head :: e' :: es)) (.leaf no)) := by
  obtain ⟨_, rfl, _, _, rfl, ⟨k, rfl, -⟩, _, _, rfl, ⟨_, rfl, rfl⟩, c₁, _, rfl, h₁, c₂, _, rfl, h₂,
    c₃, _, rfl, h₃, rfl⟩ := hspec
  have hvar (y : Text) (hy : y ∈ (["e", "e1", "e2", "e3"] : List Text)) :
      IsVariable [junction unit] y := by
    revert y
    cases unit <;> decide
  obtain ⟨hreg₁, ⟨yes, hyes, hnone⟩, hskip₁⟩ := expands_truth (junction unit) [junction unit] h₁
  obtain ⟨hreg₂, hone, hskip₂⟩ := expands_operand (junction unit) h₂ (hvar _ (by simp))
  obtain ⟨hreg₃, test, head, no, htest, hhead, hno, hmore⟩ :=
    expands_operands (junction unit) h₃ fun y hy => hvar y (List.mem_cons_of_mem _ hy)
  have hreg : ∀ c ∈ [c₁, c₂, c₃], Regular (junction unit) [junction unit] c := by
    simp [hreg₁, hreg₂, hreg₃]
  refine ⟨yes, no, test, head, hyes, hno, htest, hhead,
    fun L' => ⟨?_, fun e => ?_, fun e e' es => ?_⟩⟩
  · exact expand_of_expands hx hreg (hnone _) L'
  · exact expand_of_expands hx hreg (hskip₁ _ _ _ _ (hone e _)) L'
  · exact expand_of_expands hx hreg (hskip₁ _ _ _ _ (hskip₂ _ _ _ _ _ (hmore e e' es _))) L'

end Junction

/-! ### `let` -/

/-- The clause of `let`. -/
def letClause : Sketch :=
  .form [.form ["_", .form [.form ["name", "value"], "..."], "body1", "body2", "..."],
    .form [.form ["fn", .form ["name", "..."], "body1", "body2", "..."], "value", "..."]]

theorem let_mem : .form "let" [letClause] ∈ preludeDefinitions := by
  simp [preludeDefinitions, letClause]

/-- The clause of `let` with pairs of a name and a value. -/
theorem expands_let (keyword : Text) {literals : List Text} {c : Node} (h : letClause.Reads c)
    (hvars : ∀ x ∈ (["name", "value", "body1", "body2"] : List Text), IsVariable literals x) :
    Regular keyword literals c ∧
      ∃ lambda : Token, lambda.IsWord "fn" ∧ ∀ (pairs : List (Node × Node)) b bs clauses,
        Expands literals (.form (pairs.map fun p => .form [p.1, p.2]) :: b :: bs) (c :: clauses)
          (.tree (.form (.form (.leaf lambda :: .form (pairs.map Prod.fst) :: b :: bs) ::
            pairs.map Prod.snd))) := by
  obtain ⟨_, rfl, _, _, rfl, ⟨_, rfl, _, _, rfl, ⟨u, rfl, hu⟩, _, _, rfl, ⟨_, rfl, _, _, rfl,
    ⟨_, rfl, _, _, rfl, ⟨x, rfl, hx⟩, _, _, rfl, ⟨v, rfl, hv⟩, rfl⟩, _, _, rfl, ⟨dots, rfl, hdots⟩,
    rfl⟩, _, _, rfl, ⟨y, rfl, hy⟩, _, _, rfl, ⟨z, rfl, hz⟩, _, _, rfl, ⟨dots₁, rfl, hdots₁⟩, rfl⟩,
    _, _, rfl, htemplate, rfl⟩ := h
  obtain ⟨_, rfl, _, _, rfl, ⟨_, rfl, _, _, rfl, ⟨lambda, rfl, hlambda⟩, _, _, rfl, ⟨_, rfl, _, _,
    rfl, ⟨x', rfl, hx'⟩, _, _, rfl, ⟨dots₂, rfl, hdots₂⟩, rfl⟩, _, _, rfl, ⟨y', rfl, hy'⟩, _, _,
    rfl, ⟨z', rfl, hz'⟩, _, _, rfl, ⟨dots₃, rfl, hdots₃⟩, rfl⟩, _, _, rfl, ⟨v', rfl, hv'⟩, _, _,
    rfl, ⟨dots₄, rfl, hdots₄⟩, rfl⟩ := htemplate
  have hrepeat := isEllipsis_dots hdots
  have hrepeat₁ := isEllipsis_dots hdots₁
  have hplainv := beginsWithEllipsis_word hv (by decide)
  have hplainy := beginsWithEllipsis_word hy (by decide)
  have hplainz := beginsWithEllipsis_word hz (by decide)
  refine ⟨regular_of_underscore hu rfl ?_, lambda, hlambda, fun pairs b bs clauses => ?_⟩
  · rw [namesOfItems_plain (hplainy _), namesOfItems_plain (hplainz _),
      namesOfItems_repeated hrepeat₁, names_form, namesOfItems_repeated hrepeat, names_form,
      namesOfItems_plain (hplainv _), namesOfItems_singleton, names_word hx (by decide),
      names_word hv (by decide), names_word hy (by decide), names_word hz (by decide)]
    decide
  -- what the variables stand for
  let a : Assignment := .union
    (.union (.each "name" (pairs.map Prod.fst)) (.each "value" (pairs.map Prod.snd)))
    (.union (.single "body1" b) (.each "body2" bs))
  have ha : MatchedItems literals
      [.form [.form [.leaf x, .leaf v], .leaf dots], .leaf y, .leaf z, .leaf dots₁]
      (.form (pairs.map fun p => .form [p.1, p.2]) :: b :: bs) a := by
    refine matchedItems_cons (hplainy _) ⟨_, rfl, ?_⟩ (matchedItems_cons (hplainz _)
      (matched_word hy (by decide) (hvars _ (by simp)) b)
        (matchedItems_each hz (by decide) (hvars _ (by simp)) hrepeat₁ bs))
    exact matchedItems_pairs hx hv (by decide) (hvars _ (by simp)) (hvars _ (by simp)) (by decide)
      (hplainv []) hrepeat pairs
  have hfn : Written a (.leaf lambda) [] (.leaf lambda) := written_word hlambda (by decide) rfl
  have hnames : WrittenItems a [.leaf x', .leaf dots₂] [] (pairs.map Prod.fst) :=
    writtenItems_each hx' (by decide) (isEllipsis_dots hdots₂) rfl
  have hvalues : WrittenItems a [.leaf v', .leaf dots₄] [] (pairs.map Prod.snd) :=
    writtenItems_each hv' (by decide) (isEllipsis_dots hdots₄) rfl
  have hbody : Written a (.leaf y') [] b := written_variable hy' (by decide) rfl
  have hbodies : WrittenItems a [.leaf z', .leaf dots₃] [] bs :=
    writtenItems_each hz' (by decide) (isEllipsis_dots hdots₃) rfl
  refine expands_of_matched ha ⟨_, rfl, writtenItems_cons
    (beginsWithEllipsis_word hv' (by decide) _) ⟨_, rfl, ?_⟩ hvalues⟩
  exact writtenItems_cons rfl hfn
    (writtenItems_cons (beginsWithEllipsis_word hy' (by decide) _) ⟨_, rfl, hnames⟩
      (writtenItems_cons (beginsWithEllipsis_word hz' (by decide) _) hbody hbodies))

/-- What `let` is replaced by. -/
theorem expand_let {L : Legend} {spec : Node} {x : Transformation}
    (hspec : (Definition.specification [letClause]).Reads spec)
    (hx : Transformation.compile L "let" spec = .ok x) :
    ∃ lambda : Token, lambda.IsWord "fn" ∧ ∀ (L' : Legend) (pairs : List (Node × Node)) b bs,
      x.expand L' (.form (pairs.map fun p => .form [p.1, p.2]) :: b :: bs) =
        .form (.form (.leaf lambda :: .form (pairs.map Prod.fst) :: b :: bs) ::
          pairs.map Prod.snd) := by
  obtain ⟨_, rfl, _, _, rfl, ⟨k, rfl, -⟩, _, _, rfl, ⟨_, rfl, rfl⟩, c, _, rfl, hc, rfl⟩ := hspec
  have hvars : ∀ y ∈ (["name", "value", "body1", "body2"] : List Text),
      IsVariable ["let"] y := by decide
  obtain ⟨hreg, lambda, hlambda, hexpands⟩ := expands_let "let" hc hvars
  refine ⟨lambda, hlambda, fun L' pairs b bs => ?_⟩
  exact expand_of_expands hx (by simpa [clausesOf, literalsOf] using hreg)
    (hexpands pairs b bs _) L'

/-! ### Sessions with the prelude -/

namespace Store

/-- All built-in functions and special forms are bound to their names, and there is the function
that leaves are evaluated with. -/
structure Standard (s : Store σ) : Prop where
  identity : s.builtin? identityRef = some .identity
  specials : ∀ f : SpecialForm, s.expander? f.name = some (.special f)
  builtins : ∀ b : Builtin, s.body? b.name = some (.builtin b)

theorem expander?_of_special? {s : Store σ} {name : Text} {f : SpecialForm}
    (h : s.special? name = some f) : s.expander? name = some (.special f) :=
  expander?_eq_some.mpr (special?_eq_some.mp h)

/-- The built-in function that a name is bound to. -/
def named? (s : Store σ) (name : Text) : Option Builtin :=
  match s.find? name with
  | some (.function ref) => s.builtin? ref
  | _ => none

theorem body?_of_named? {s : Store σ} {name : Text} {b : Builtin} (h : s.named? name = some b) :
    s.body? name = some (.builtin b) := by
  unfold named? at h
  split at h
  next ref hfind =>
    obtain ⟨text, hf⟩ := builtin?_eq_some.mp h
    exact body?_eq_some.mpr ⟨ref, _, hfind, hf, rfl⟩
  next => simp at h

theorem named?_bare (s : Store σ) (name : Text) : s.bare.named? name = s.named? name := rfl

theorem standard_withGlobals (module : Text) (state : σ) : (withGlobals module state).Standard := by
  have hidentity : (withGlobals [] ()).builtin? identityRef = some .identity := by decide +kernel
  have hspecials : ∀ f ∈ SpecialForm.all, (withGlobals [] ()).special? f.name = some f := by
    decide +kernel
  have hbuiltins : ∀ b ∈ Builtin.all, (withGlobals [] ()).named? b.name = some b := by
    decide +kernel
  refine ⟨?_, fun f => expander?_of_special? ?_, fun b => body?_of_named? ?_⟩
  · rw [← builtin?_bare, bare_withGlobals]
    exact hidentity
  · rw [← special?_bare, bare_withGlobals]
    exact hspecials f (by cases f <;> simp [SpecialForm.all])
  · rw [← named?_bare, bare_withGlobals]
    exact hbuiltins b (by cases b <;> simp [Builtin.all])

theorem Standard.extends {s t : Store σ} {names : List Text} (h : s.Standard)
    (ht : s.Extends names t) (hspecials : ∀ f : SpecialForm, f.name ∉ names)
    (hbuiltins : ∀ b : Builtin, b.name ∉ names) : t.Standard where
  identity := ht.builtin? h.identity
  specials f := ht.grows.expander? (ht.others _ (hspecials f)) (h.specials f)
  builtins b := ht.grows.body? (ht.others _ (hbuiltins b)) (h.builtins b)

end Store

namespace Session

variable {c : Config}

/-- After the prelude has been loaded, its names mean what it says and all others what they meant
before. -/
theorem loadPrelude_standard (hc : c.IsValid) (hfits : PreludeFits c.sigil c.marker)
    (host : Host σ) (state : σ) :
    ∃ t, (start c host state).loadPrelude = some (none, { start c host state with store := t }) ∧
      t.Standard ∧ ∀ name, PreludeDefines c.marker t name := by
  obtain ⟨t, hload, hext, hholds⟩ := (loadPrelude_holds host state hc).1 hfits
  refine ⟨t, hload, ?_, fun name d hd _ => hholds d hd⟩
  refine (Store.standard_withGlobals c.module state).extends hext (fun f => ?_) fun b => ?_
  · cases f <;> decide
  · cases b <;> decide

theorem loadPrelude_default :
    ∃ t, (start .default .none ()).loadPrelude =
        some (none, { start .default .none () with store := t }) ∧
      t.Standard ∧ ∀ name, PreludeDefines Config.default.marker t name :=
  loadPrelude_standard (by decide) (by rw [PreludeFits]; decide) Host.none ()

/-- The values of the trees of a source after the prelude has been loaded. -/
def answers (c : Config) (source : Text) : Option (List Value) :=
  match (start c .none ()).loadPrelude with
  | some (none, s) => (s.eval source).map Prod.fst
  | _ => none

/-- Whether there is one value and it is a fault. -/
def isFault : Option (List Value) → Bool
  | some [v] => v.isError
  | _ => false

theorem isFault_iff {vs : Option (List Value)} : isFault vs = true ↔ ∃ f, vs = some [.error f] := by
  unfold isFault
  split
  · rename_i v
    cases v <;> simp [Value.isError]
  · rename_i hne
    simp only [Bool.false_eq_true, false_iff, not_exists]
    exact fun f hf => hne _ hf

end Session

end LittleLisp
