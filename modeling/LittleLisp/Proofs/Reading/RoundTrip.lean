/-
# Printing and reading again

A tree that was read is printed as its tokens were spelled, with round brackets for whatever
brackets it had. Each of these spellings is read as its token wherever it stands between two
delimiters, and blanks and brackets are delimiters. So the printed trees are read as the tokens
that the forest is written down as, and these build the forest again. Only positions change.

Key definitions: `Token.unplaced`, `Reader.Gains`, `Reader.Reads`.
Key theorems: `Reader.Spelled.reads`, `Reader.Reads.append`, `Reader.Reads.enclosed`,
`Forest.reads_text`, `Forest.printed_reads_back`.
-/
import LittleLisp.Proofs.Reading.Brackets
import LittleLisp.Proofs.Reading.Layout

namespace LittleLisp

namespace Token

/-- The token without its position. -/
def unplaced (t : Token) : Token := { t with pos := .unknown }

theorem type_unplaced (t : Token) : t.unplaced.type = t.type := rfl

/-- The bracket that a printed form starts with. -/
def roundOpening : Token := ⟨.listBegin, .unknown, "(", .absent⟩

/-- The bracket that a printed form ends with. -/
def roundClosing : Token := ⟨.listEnd, .unknown, ")", .absent⟩

end Token

namespace Reader

open Token (unplaced roundOpening roundClosing)

/-! ### Reading in any context -/

/-- The state `s'` is between tokens at the depth of `s`, and the tokens read since differ from `ts`
at most in their positions. -/
def Gains (ts : List Token) (s s' : State) : Prop :=
  ∃ (us : List Token) (place : Place), us.map unplaced = ts.map unplaced ∧
    s' = ⟨place, s.depth, .idle, us.reverse ++ s.done⟩

/-- Met between tokens, at any place and depth, the text is read as the tokens up to positions. A
word at its end may still go on. -/
def Reads (r : Reader) (x : Text) (ts : List Token) : Prop :=
  ∀ s : State, s.mode = .idle →
    Open (run r s x.glyphs).mode ∧ Gains ts s (settled r (run r s x.glyphs))

variable {r : Reader} {x y : Text} {ts us : List Token}

theorem Gains.idle {s s' : State} (h : Gains ts s s') : s'.mode = .idle := by
  obtain ⟨vs, place, -, rfl⟩ := h
  rfl

theorem Gains.trans {s₁ s₂ s₃ : State} (h : Gains ts s₁ s₂) (h' : Gains us s₂ s₃) :
    Gains (ts ++ us) s₁ s₃ := by
  obtain ⟨vs, place, hvs, rfl⟩ := h
  obtain ⟨ws, place', hws, rfl⟩ := h'
  refine ⟨vs ++ ws, place', ?_, ?_⟩
  · rw [List.map_append, List.map_append, hvs, hws]
  · rw [List.reverse_append, List.append_assoc]

theorem reads_nil : Reads r [] [] := by
  intro s hs
  have hrun : run r s (Text.glyphs []) = s := rfl
  rw [hrun, settled_idle hs]
  refine ⟨hs ▸ .idle, [], s.place, rfl, ?_⟩
  rw [List.reverse_nil, List.nil_append, ← hs]

/-- A word or a string is read as its token. -/
theorem Spelled.reads {t : Token} (h : Spelled r t.text.glyphs t) (ht : t.IsLeaf) :
    Reads r t.text [t] := by
  intro s hs
  generalize t.text.glyphs = gs at h ⊢
  cases h with
  | opening p h => exact absurd rfl ht.not_begin
  | closing p h => exact absurd rfl ht.not_end
  | word p h =>
    obtain ⟨hopen, hsettled⟩ := run_word (r := r) h hs
    obtain ⟨type, value, -, hatom⟩ := ofAtom_eq r.effectiveMarker (Glyph.bytes gs)
    refine ⟨hopen, [r.wordToken s.place gs.reverse], _, ?_, hsettled⟩
    rw [wordToken, List.reverse_reverse, hatom, hatom]
    rfl
  | @string body cs p h =>
    rw [run_string h hs]
    exact ⟨.idle, [⟨.literal, r.position s.place, _, .string (Text.ofChars cs)⟩], _, rfl, rfl⟩
  | invalid p h => exact absurd rfl ht.not_invalid

/-- A text that reads as some tokens wherever it stands has these tokens. -/
theorem Reads.tokens (h : Reads r x ts) : (r.tokens x).map unplaced = ts.map unplaced := by
  obtain ⟨hopen, us, place, hus, hsettled⟩ := h initial rfl
  have htokens : r.tokens x = us := by
    rw [Reader.tokens, finish_open hopen, hsettled, initial, List.append_nil, List.reverse_reverse]
  rw [htokens, hus]

/-- A delimiter after the text is met between tokens. -/
theorem Reads.run_delimiter (h : Reads r x ts) {s : State} (hs : s.mode = .idle) {g : Glyph}
    (hg : isDelimiter g = true) :
    ∃ s', Gains ts s s' ∧ run r s (x.glyphs ++ [g]) = startToken r s' g := by
  obtain ⟨hopen, hgains⟩ := h s hs
  refine ⟨settled r (run r s x.glyphs), hgains, ?_⟩
  rw [run_append, run_cons, run_nil, step_delimiter hg hopen]

/-- Two texts with a blank between them are read one after the other. -/
theorem Reads.append (hx : Reads r x ts) (hy : Reads r y us) {a : UInt8} (ha : a < 0x80)
    (hblank : Text.isBlank (Char.ofNat a.toNat) = true) : Reads r (x ++ a :: y) (ts ++ us) := by
  intro s hs
  have hg : isDelimiter (.char (Char.ofNat a.toNat)) = true := isDelimiter_iff.mpr (Or.inl hblank)
  obtain ⟨s', hts, hrun⟩ := hx.run_delimiter hs hg
  have hskip : Gains ts s (run r s (x.glyphs ++ [.char (Char.ofNat a.toNat)])) := by
    obtain ⟨vs, place, hvs, rfl⟩ := hts
    refine ⟨vs, place.after (.char (Char.ofNat a.toNat)), hvs, ?_⟩
    rw [hrun, startToken]
    simp [Glyph.isBlank, hblank]
  have hall : run r s (x ++ a :: y).glyphs =
      run r (run r s (x.glyphs ++ [.char (Char.ofNat a.toNat)])) y.glyphs := by
    rw [Text.glyphs_append_ascii ha, ← run_append, List.append_assoc, List.singleton_append]
  obtain ⟨hopen, hus⟩ := hy _ hskip.idle
  rw [hall]
  exact ⟨hopen, hskip.trans hus⟩

/-- A text in round brackets is read between the tokens of the brackets. -/
theorem Reads.enclosed (h : Reads r x ts) :
    Reads r (Text.concat ["(", x, ")"]) (roundOpening :: ts ++ [roundClosing]) := by
  intro s hs
  have hopening : step r s (.char '(') =
      ⟨s.place.after (.char '('), s.depth + 1, .idle,
        r.bareToken .listBegin s.place [.char '('] :: s.done⟩ := by
    rw [step, hs]
    rfl
  have hglyphs : (Text.concat ["(", x, ")"]).glyphs = .char '(' :: (x.glyphs ++ [.char ')']) := by
    have hbytes : Text.concat ["(", x, ")"] = 40 :: (x ++ 41 :: []) := by
      simp [Text.concat, Text.ofString]
      rfl
    rw [hbytes, Text.glyphs_ascii (by decide), Text.glyphs_append_ascii (by decide)]
    rfl
  have hidle : (step r s (.char '(')).mode = .idle := by rw [hopening]
  obtain ⟨s', ⟨us, place, hus, rfl⟩, hrun⟩ :=
    h.run_delimiter hidle (by decide : isDelimiter (.char ')') = true)
  -- one deeper after the opening bracket, the closing one has a list to close
  have hclosing : run r s (Text.concat ["(", x, ")"]).glyphs =
      ⟨place.after (.char ')'), s.depth, .idle,
        r.bareToken .listEnd place [.char ')'] ::
          (us.reverse ++ r.bareToken .listBegin s.place [.char '('] :: s.done)⟩ := by
    rw [hglyphs, run_cons, hrun, hopening]
    rfl
  rw [hclosing]
  refine ⟨.idle, r.bareToken .listBegin s.place [.char '('] :: us ++
    [r.bareToken .listEnd place [.char ')']], place.after (.char ')'), ?_, ?_⟩
  · simp only [List.cons_append, List.map_cons, List.map_append, hus]
    rfl
  · simp [settled]

end Reader

namespace Forest

open Node (linear linearAll)
open Reader (Reads Spelled)
open Token (unplaced roundOpening roundClosing)

variable {r : Reader} (L : Legend)

/-! ### Printed trees -/

theorem texts_of_each {P : Text → Node → Prop} : ∀ {ns : List Node},
    (∀ n ∈ ns, ∃ x, n.text L = .ok x ∧ P x n) →
      ∃ parts, Node.texts L ns = .ok parts ∧ List.Forall₂ P parts ns
  | [], _ => ⟨[], by rw [Node.texts], .nil⟩
  | n :: ns, h => by
    rw [List.forall_mem_cons] at h
    obtain ⟨⟨x, hx, hP⟩, hns⟩ := h
    obtain ⟨parts, hparts, hall⟩ := texts_of_each hns
    exact ⟨x :: parts, by rw [Node.texts, hx, hparts]; rfl, .cons hP hall⟩

/-- Texts of trees with blanks between them are read as the tokens of the trees. -/
theorem reads_join {a : UInt8} (ha : a < 0x80) (hblank : Text.isBlank (Char.ofNat a.toNat) = true)
    {parts : List Text} {ns : List Node}
    (h : List.Forall₂ (fun x n => Reads r x (linear roundOpening roundClosing n)) parts ns) :
    Reads r (Text.join [a] parts) (linearAll roundOpening roundClosing ns) := by
  induction h with
  | nil =>
    rw [Node.linearAll_nil]
    exact Reader.reads_nil
  | @cons x n parts ns hx hrest ih =>
    rw [Node.linearAll_cons]
    cases hrest with
    | nil => simpa [Text.join] using hx
    | cons hy _ => simpa [Text.join] using hx.append ih ha hblank

/-- A tree of spelled leaves is printed as a text that is read as its tokens. -/
theorem reads_text {n : Node} (h : n.Every fun t => t.IsLeaf ∧ Spelled r t.text.glyphs t) :
    ∃ x, n.text L = .ok x ∧ Reads r x (linear roundOpening roundClosing n) := by
  induction h with
  | @leaf t h =>
    obtain ⟨hleaf, hspelled⟩ := h
    have hne : t.text ≠ [] := fun hnil => hspelled.ne_nil (by rw [hnil]; rfl)
    refine ⟨t.text, by rw [Node.text, if_pos hne], ?_⟩
    rw [Node.linear_leaf]
    exact hspelled.reads hleaf
  | @form ns _ ih =>
    obtain ⟨parts, hparts, hall⟩ := texts_of_each L ih
    refine ⟨Text.concat ["(", Text.join " " parts, ")"], by rw [Node.text, hparts]; rfl, ?_⟩
    rw [Node.linear_form]
    exact (reads_join (by decide) (by decide) hall).enclosed

/-! ### Read again -/

theorem unoffending_tokens {source : Text} (h : ∀ t ∈ r.tokens source, t.type ≠ .invalid) :
    Token.Unoffending (r.tokens source) := by
  intro before t after hsplit hoffends
  rcases hoffends with hinvalid | ⟨hend, hclosed⟩
  · exact h t (by rw [hsplit]; simp) hinvalid
  · exact r.matched_tokens source before t after hsplit hend hclosed

/-- The leaves of what a source builds are spelled as the source has them. -/
theorem spelled_build (module : Text) {source : Text}
    (h : ∀ t ∈ r.tokens source, t.type ≠ .invalid) :
    ∀ n ∈ build module (r.tokens source),
      n.Every fun t => t.IsLeaf ∧ Spelled r t.text.glyphs t := by
  obtain ⟨s, hs, -⟩ := extend_of_unoffending module roundOpening roundClosing (unoffending_tokens h)
  have hspelled : ∀ t ∈ r.tokens source, t.IsLeaf → t.IsLeaf ∧ Spelled r t.text.glyphs t := by
    intro t ht hleaf
    have hl := Text.legible_glyphs source
    obtain ⟨before, last, -, hlay, -⟩ := Reader.layout_finish (Reader.accounts_run r _ hl) hl
    exact ⟨hleaf, hlay.spelled_of_mem t ht⟩
  rw [build_of_extend module hs]
  exact (every_extend module _ hspelled Stack.all_empty hs).forest fun _ => .form

/-- **Printed trees read back.** The trees of a source without invalid tokens can be printed, and
with a space or a line break between them they are read as the same trees, up to positions. -/
theorem printed_reads_back (module : Text) {source sep : Text}
    (h : ∀ t ∈ r.tokens source, t.type ≠ .invalid) (hsep : sep = " " ∨ sep = "\n") :
    ∃ parts, Node.texts L (build module (r.tokens source)) = .ok parts ∧
      (build module (r.tokens (Text.join sep parts))).map (Node.relabel unplaced) =
        (build module (r.tokens source)).map (Node.relabel unplaced) := by
  have hspelled := spelled_build module h
  obtain ⟨parts, hparts, hall⟩ := texts_of_each L fun n hn => reads_text L (hspelled n hn)
  have hreads : Reads r (Text.join sep parts)
      (linearAll roundOpening roundClosing (build module (r.tokens source))) := by
    rcases hsep with rfl | rfl
    · exact reads_join (by decide) (by decide) hall
    · exact reads_join (by decide) (by decide) hall
  have hleaves : ∀ n ∈ build module (r.tokens source), n.Every Token.IsLeaf :=
    fun n hn => (hspelled n hn).imp fun _ ht => ht.1
  obtain ⟨s, hs, hsame⟩ :=
    extend_of_map_eq module (by rfl) (by rfl) hleaves Token.type_unplaced hreads.tokens
  refine ⟨parts, hparts, ?_⟩
  rw [build_of_extend module hs, hsame]

/-- Square brackets that do not close, a string with a line break, a quote and a byte that is no
character, comments and a word that starts like one. -/
theorem printed_reads_back_unclosed :
    let r : Reader := ⟨"m", ":"⟩
    let L : Legend := ⟨fun _ => [], fun _ => [], fun _ => .ok []⟩
    let source : Text := Text.concat ["[a \"p\n\\\"", [0xFF], "q\" #|c|# #b (1.50 :k ; d"]
    let printed : Text := Text.concat ["(a \"p\n\\\"", [0xFF], "q\" #b (1.50 :k))"]
    (∀ t ∈ r.tokens source, t.type ≠ .invalid) ∧
      Node.texts L (build "m" (r.tokens source)) = .ok [printed] ∧
      (build "m" (r.tokens printed)).map (Node.relabel unplaced) =
        (build "m" (r.tokens source)).map (Node.relabel unplaced) := by
  intro r L source printed
  have hvalid : ∀ t ∈ r.tokens source, t.type ≠ .invalid := by decide +kernel
  have hprinted : (Node.texts L (build "m" (r.tokens source))).toOption = some [printed] := by
    decide +kernel
  obtain ⟨parts, hparts, hsame⟩ := printed_reads_back L "m" hvalid (Or.inl rfl)
  rw [hparts] at hprinted
  obtain rfl : parts = [printed] := Option.some.inj hprinted
  have hjoin : Text.join " " [printed] = printed := by simp [Text.join]
  rw [hjoin] at hsame
  exact ⟨hvalid, hparts, hsame⟩

end Forest

end LittleLisp
