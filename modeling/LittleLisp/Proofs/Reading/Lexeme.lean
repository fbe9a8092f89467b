/-
# Lexemes

The lexical grammar, said without the reader: what may stand between two tokens, and which
glyphs spell a token of which sort. A word runs up to the next delimiter, a string up to the
next quote that no backslash precedes, a line comment up to the end of the line and a block
comment up to the first `|#`, whose `|` may be that of the opening `#|`.

Met between two tokens, a lexeme is read as its token, at any place and depth. Only a word
needs the glyph after it to be finished, so what has been read is compared after settling the
word that is still open.

Key definitions: `Reader.Gap`, `Reader.Word`, `Reader.StringBody`, `Reader.Spelled`,
`Reader.settled`.
Key theorems: `Reader.step_delimiter`, `Reader.run_word`, `Reader.run_string`.
-/
import Mathlib.Data.List.Infix
import LittleLisp.Proofs.Reading.Glyphs
import LittleLisp.Token.Reader

namespace LittleLisp

namespace Reader

/-! ### Between tokens -/

/-- A comment up to the end of its line, the line break left out. -/
def LineComment (gs : List Glyph) : Prop :=
  ∃ body, gs = .char ';' :: body ∧ .char '\n' ∉ body

/-- A block comment after its first `#`, as long as it is not closed. -/
structure BlockInside (gs : List Glyph) : Prop where
  starts : gs.head? = some (.char '|')
  unclosed : ¬ [.char '|', .char '#'] <:+: gs

/-- A comment from `#|` to the first `|#`. -/
def BlockComment (gs : List Glyph) : Prop :=
  ∃ inside, gs = .char '#' :: inside ++ [.char '#'] ∧ BlockInside inside ∧
    inside.getLast? = some (.char '|')

/-- What may stand before a token: white space, commas and finished comments. -/
inductive Gap : List Glyph → Prop where
  | nil : Gap []
  | blank {g : Glyph} {gs : List Glyph} (hg : g.isBlank = true ∨ g = .char ',') (h : Gap gs) :
      Gap (g :: gs)
  | line {c gs : List Glyph} (hc : LineComment c) (h : Gap gs) : Gap (c ++ .char '\n' :: gs)
  | block {c gs : List Glyph} (hc : BlockComment c) (h : Gap gs) : Gap (c ++ gs)

/-- What may stand after the last token: also a comment on a line that does not end. -/
def LastGap (gs : List Glyph) : Prop :=
  Gap gs ∨ ∃ gap c, gs = gap ++ c ∧ Gap gap ∧ LineComment c

theorem Gap.append {gs hs : List Glyph} (h : Gap gs) (h' : Gap hs) : Gap (gs ++ hs) := by
  induction h with
  | nil => exact h'
  | blank hg _ ih => exact .blank hg ih
  | line hc _ ih =>
    rw [List.append_assoc]
    exact .line hc ih
  | block hc _ ih =>
    rw [List.append_assoc]
    exact .block hc ih

/-! ### Tokens -/

/-- A word: no delimiter in it, a readable first glyph, and no start of a block comment. -/
structure Word (gs : List Glyph) : Prop where
  starts : ∃ g rest, gs = g :: rest ∧ isUnreadable g = false
  unbroken : ∀ g ∈ gs, isDelimiter g = false
  noComment : ¬ [.char '#', .char '|'] <+: gs

/-- The glyphs between the quotes of a string, and the characters they stand for. -/
inductive StringBody : List Glyph → List Char → Prop where
  | nil : StringBody [] []
  | plain {g : Glyph} {gs : List Glyph} {cs : List Char} (hq : g ≠ .char '"')
      (hb : g ≠ .char '\\') (h : StringBody gs cs) : StringBody (g :: gs) (g.repaired :: cs)
  | escaped {g : Glyph} {gs : List Glyph} {cs : List Char} (h : StringBody gs cs) :
      StringBody (.char '\\' :: g :: gs) (escapedChar g :: cs)

/-- A string with its quotes. -/
def inQuotes (body : List Glyph) : List Glyph := .char '"' :: body ++ [.char '"']

/-- A string without its closing quote, perhaps just after a backslash. -/
def StringStart (gs : List Glyph) (cs : List Char) (escaped : Bool) : Prop :=
  ∃ body, gs = .char '"' :: body ++ (if escaped then [.char '\\'] else []) ∧ StringBody body cs

/-- What cannot be read: a closing bracket on its own, a glyph that is no character, and a
string or block comment that does not end. -/
inductive Unread : List Glyph → Prop where
  | bracket {g : Glyph} (h : g = .char ')' ∨ g = .char ']') : Unread [g]
  | glyph {g : Glyph} (h : isUnreadable g = true) : Unread [g]
  | string {gs : List Glyph} {cs : List Char} {escaped : Bool} (h : StringStart gs cs escaped) :
      Unread gs
  | comment {inside : List Glyph} (h : BlockInside inside) : Unread (.char '#' :: inside)

/-- The glyphs spell the token, which may stand anywhere. -/
inductive Spelled (r : Reader) : List Glyph → Token → Prop where
  | opening {g : Glyph} (p : Position) (h : g = .char '(' ∨ g = .char '[') :
      Spelled r [g] ⟨.listBegin, p, Glyph.bytes [g], .absent⟩
  | closing {g : Glyph} (p : Position) (h : g = .char ')' ∨ g = .char ']') :
      Spelled r [g] ⟨.listEnd, p, Glyph.bytes [g], .absent⟩
  | word {gs : List Glyph} (p : Position) (h : Word gs) :
      Spelled r gs (Token.ofAtom r.effectiveMarker p (Glyph.bytes gs))
  | string {body : List Glyph} {cs : List Char} (p : Position) (h : StringBody body cs) :
      Spelled r (inQuotes body)
        ⟨.literal, p, Glyph.bytes (inQuotes body), .string (Text.ofChars cs)⟩
  | invalid {gs : List Glyph} (p : Position) (h : Unread gs) :
      Spelled r gs ⟨.invalid, p, Glyph.bytes gs, .absent⟩

theorem StringBody.append {gs hs : List Glyph} {cs ds : List Char} (h : StringBody gs cs)
    (h' : StringBody hs ds) : StringBody (gs ++ hs) (cs ++ ds) := by
  induction h with
  | nil => exact h'
  | plain hq hb _ ih => exact .plain hq hb ih
  | escaped _ ih => exact .escaped ih

/-- The sort and the value of a word's token do not depend on where the word stands. -/
theorem ofAtom_eq (marker word : Text) :
    ∃ type value, (type = .literal ∨ type = .keyword ∨ type = .identifier) ∧
      ∀ p, Token.ofAtom marker p word = ⟨type, p, word, value⟩ := by
  by_cases htrue : word = "true"
  · exact ⟨.literal, .bool true, Or.inl rfl, fun p => if_pos htrue⟩
  by_cases hfalse : word = "false"
  · refine ⟨.literal, .bool false, Or.inl rfl, fun p => ?_⟩
    rw [Token.ofAtom, if_neg htrue, if_pos hfalse]
  by_cases hnil : word = "nil"
  · refine ⟨.literal, .nil, Or.inl rfl, fun p => ?_⟩
    rw [Token.ofAtom, if_neg htrue, if_neg hfalse, if_pos hnil]
  cases hnumber : (if Number.looksNumeric word then Number.ofLiteral? word else none) with
  | some x =>
    refine ⟨.literal, .number x, Or.inl rfl, fun p => ?_⟩
    rw [Token.ofAtom, if_neg htrue, if_neg hfalse, if_neg hnil, hnumber]
  | none =>
    by_cases hmarker : marker.extendedBy word = true
    · refine ⟨.keyword, .keyword word, Or.inr (Or.inl rfl), fun p => ?_⟩
      simp only [Token.ofAtom, htrue, hfalse, hnil, hnumber, hmarker, if_false, if_true]
    · refine ⟨.identifier, .undefined word, Or.inr (Or.inr rfl), fun p => ?_⟩
      simp only [Token.ofAtom, htrue, hfalse, hnil, hnumber, hmarker, if_false, Bool.false_eq_true]

/-! ### Reading lexemes -/

variable (r : Reader)

/-- The state with the word that is being read finished. -/
def settled (s : State) : State :=
  match s.mode with
  | .hash start => { s with mode := .idle, done := r.wordToken start [.char '#'] :: s.done }
  | .word start seen => { s with mode := .idle, done := r.wordToken start seen :: s.done }
  | _ => s

/-- Between tokens or inside a word: a delimiter is then read as one. -/
inductive Open : Mode → Prop where
  | idle : Open .idle
  | hash (start : Place) : Open (.hash start)
  | word (start : Place) (seen : List Glyph) : Open (.word start seen)

variable {r} {s : State}

@[simp] theorem run_nil : run r s [] = s := rfl

@[simp] theorem run_cons (g : Glyph) (gs : List Glyph) :
    run r s (g :: gs) = run r (step r s g) gs := rfl

theorem settled_idle (h : s.mode = .idle) : settled r s = s := by
  simp [settled, h]

theorem mode_settled (h : Open s.mode) : (settled r s).mode = .idle := by
  obtain ⟨place, depth, mode, done⟩ := s
  cases h <;> rfl

theorem isDelimiter_iff {g : Glyph} :
    isDelimiter g = true ↔ g.isBlank = true ∨ g = .char '(' ∨ g = .char ')' ∨ g = .char '[' ∨
      g = .char ']' ∨ g = .char '"' ∨ g = .char ';' ∨ g = .char ',' := by
  cases g <;> simp [isDelimiter, Glyph.isBlank, or_assoc]

/-- A delimiter finishes an open word and is then met between tokens. -/
theorem step_delimiter {g : Glyph} (hg : isDelimiter g = true) (h : Open s.mode) :
    step r s g = startToken r (settled r s) g := by
  have hbar : g ≠ .char '|' := by
    rintro rfl
    exact absurd hg (by decide)
  obtain ⟨place, depth, mode, done⟩ := s
  cases h with
  | idle => rfl
  | hash start => simp [step, settled, continueWord, hg, hbar]
  | word start seen => simp [step, settled, continueWord, hg]

/-- At the end of the source an open word is finished too. -/
theorem finish_open (h : Open s.mode) : finish r s = (settled r s).done.reverse := by
  obtain ⟨place, depth, mode, done⟩ := s
  cases h <;> rfl

/-! #### Words -/

theorem startToken_word {g : Glyph} (hd : isDelimiter g = false) (hu : isUnreadable g = false)
    (hh : g ≠ .char '#') :
    startToken r s g = { s with place := s.place.after g, mode := .word s.place [g] } := by
  have hnot : ¬ isDelimiter g = true := by simp [hd]
  rw [isDelimiter_iff] at hnot
  simp only [not_or] at hnot
  obtain ⟨hblank, h₁, h₂, h₃, h₄, h₅, h₆, h₇⟩ := hnot
  simp [startToken, hblank, h₁, h₂, h₃, h₄, h₅, h₆, h₇, hu, hh]

/-- Inside a word, glyphs that are no delimiters are taken up. -/
theorem run_unbroken {start : Place} : ∀ (gs : List Glyph) {s : State} {seen : List Glyph},
    (∀ g ∈ gs, isDelimiter g = false) → s.mode = .word start seen →
      run r s gs =
        { s with place := gs.foldl Place.after s.place, mode := .word start (gs.reverse ++ seen) }
  | [], s, seen, _, hs => by
    obtain ⟨place, depth, mode, done⟩ := s
    obtain rfl : mode = .word start seen := hs
    rfl
  | g :: gs, s, seen, hgs, hs => by
    rw [List.forall_mem_cons] at hgs
    have hstep : step r s g =
        { s with place := s.place.after g, mode := .word start (g :: seen) } := by
      simp [step, hs, continueWord, hgs.1]
    rw [run_cons, hstep, run_unbroken gs hgs.2 rfl]
    simp

/-- A word met between tokens is read as its token. -/
theorem run_word {gs : List Glyph} (h : Word gs) (hs : s.mode = .idle) :
    Open (run r s gs).mode ∧
      settled r (run r s gs) =
        ⟨gs.foldl Place.after s.place, s.depth, .idle,
          r.wordToken s.place gs.reverse :: s.done⟩ := by
  obtain ⟨g, rest, rfl, hreadable⟩ := h.starts
  have hbreak := h.unbroken
  rw [List.forall_mem_cons] at hbreak
  have hfirst : step r s g = startToken r s g := by simp [step, hs]
  rw [run_cons, hfirst]
  by_cases hg : g = .char '#'
  · subst hg
    have hhash : startToken r s (.char '#') =
        { s with place := s.place.after (.char '#'), mode := .hash s.place } := by
      simp [startToken, Glyph.isBlank, Text.isBlank]
    rw [hhash]
    cases rest with
    | nil => exact ⟨.hash _, rfl⟩
    | cons g' rest =>
      -- the second glyph decides that this is a word
      have hbar : g' ≠ .char '|' := by
        rintro rfl
        exact h.noComment ⟨rest, rfl⟩
      have hrest := hbreak.2
      rw [List.forall_mem_cons] at hrest
      rw [run_cons, step]
      simp only [beq_eq_false_iff_ne.mpr hbar, Bool.false_eq_true, if_false, continueWord, hrest.1]
      rw [run_unbroken rest hrest.2 rfl]
      refine ⟨.word _ _, ?_⟩
      simp [settled]
  · rw [startToken_word hbreak.1 hreadable hg, run_unbroken rest hbreak.2 rfl]
    refine ⟨.word _ _, ?_⟩
    simp [settled]

/-! #### Strings -/

theorem run_stringBody {start : Place} {gs : List Glyph} {cs : List Char} (h : StringBody gs cs) :
    ∀ {s : State} {seen : List Glyph} {value : List Char}, s.mode = .string start seen value false →
      run r s gs =
        { s with
          place := gs.foldl Place.after s.place
          mode := .string start (gs.reverse ++ seen) (cs.reverse ++ value) false } := by
  induction h with
  | nil =>
    intro s seen value hs
    obtain ⟨place, depth, mode, done⟩ := s
    obtain rfl : mode = .string start seen value false := hs
    rfl
  | plain hq hb _ ih =>
    intro s seen value hs
    rw [run_cons, step]
    simp only [hs, beq_eq_false_iff_ne.mpr hq, beq_eq_false_iff_ne.mpr hb, Bool.false_eq_true,
      if_false]
    rw [ih rfl]
    simp
  | @escaped g gs cs _ ih =>
    intro s seen value hs
    have hslash : step r s (.char '\\') =
        { s with
          place := s.place.after (.char '\\')
          mode := .string start (.char '\\' :: seen) value true } := by
      simp [step, hs]
    rw [run_cons, run_cons, hslash, step]
    simp only [if_true]
    rw [ih rfl]
    simp

/-- A string met between tokens is read as its token. -/
theorem run_string {body : List Glyph} {cs : List Char} (h : StringBody body cs)
    (hs : s.mode = .idle) :
    run r s (inQuotes body) =
      ⟨(inQuotes body).foldl Place.after s.place, s.depth, .idle,
        ⟨.literal, r.position s.place, Glyph.bytes (inQuotes body), .string (Text.ofChars cs)⟩ ::
          s.done⟩ := by
  have hquote : step r s (.char '"') =
      { s with
        place := s.place.after (.char '"')
        mode := .string s.place [.char '"'] [] false } := by
    simp [step, hs, startToken, Glyph.isBlank, Text.isBlank]
  rw [inQuotes, List.cons_append, run_cons, hquote, run_append, run_stringBody h rfl, run_cons,
    step]
  simp

end Reader

end LittleLisp
