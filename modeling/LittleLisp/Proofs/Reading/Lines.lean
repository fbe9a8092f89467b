/-
# Reading line by line

What is read further down is what would be read from the start of a source, moved: moving down goes
with whatever the reader does. A line break ends whatever the reader is in the middle
of, except a string or a block comment. So when a text leaves neither open, nor a list, what
follows on the next line is read as a source of its own, further down.

Key definitions: `Token.lower`, `Reader.State.lower`.
Key theorems: `Reader.run_lower`, `Reader.step_newline`, `Reader.tokens_append_line`.
-/
import LittleLisp.Proofs.Reading.Brackets
import LittleLisp.Proofs.Reading.Layout
import LittleLisp.Proofs.Reading.Moving

namespace LittleLisp

/-- The token `k` lines further down. -/
def Token.lower (k : Nat) (t : Token) : Token :=
  { t with pos := { t.pos with line := t.pos.line + k } }

namespace Reader

/-! ### Moving down -/

/-- The place `k` lines further down. -/
def Place.lower (k : Nat) (p : Place) : Place := ⟨p.line + k, p.column⟩

/-- The mode with the place where its token starts `k` lines further down. -/
def Mode.lower (k : Nat) : Mode → Mode
  | .idle => .idle
  | .hash start => .hash (start.lower k)
  | .word start seen => .word (start.lower k) seen
  | .string start seen value escaped => .string (start.lower k) seen value escaped
  | .lineComment => .lineComment
  | .blockComment start seen bar => .blockComment (start.lower k) seen bar

/-- The state `k` lines further down, after the tokens `before` in reverse order. -/
def State.lower (k : Nat) (before : List Token) (s : State) : State :=
  ⟨s.place.lower k, s.depth, s.mode.lower k, s.done.map (Token.lower k) ++ before⟩

variable {r : Reader} (k : Nat)

theorem after_lower (p : Place) (g : Glyph) : (p.lower k).after g = (p.after g).lower k := by
  unfold Place.after
  split
  · rw [Place.lower, Place.lower, Nat.add_right_comm]
  · rfl

/-- Moving down goes with whatever the reader does. -/
theorem moves_lower (r : Reader) :
    Moves r (Place.lower k) (fun p => { p with line := p.line + k }) fun _ => True where
  holds _ _ := trivial
  after g _ := after_lower k _ g
  position p := by simp [Reader.position, Place.lower]

variable (before : List Token)

theorem lower_eq_moved (s : State) :
    s.lower k before =
      s.moved (Place.lower k) (fun p => { p with line := p.line + k }) before := by
  obtain ⟨place, depth, mode, done⟩ := s
  cases mode <;> rfl

/-- One more glyph does the same further down. -/
theorem step_lower (s : State) (g : Glyph) :
    step r (s.lower k before) g = (step r s g).lower k before := by
  rw [lower_eq_moved, lower_eq_moved]
  exact step_moved (moves_lower k r) before g trivial

/-- Reading does the same further down. -/
theorem run_lower (gs : List Glyph) (s : State) :
    run r (s.lower k before) gs = (run r s gs).lower k before := by
  rw [lower_eq_moved, lower_eq_moved]
  exact run_moved (moves_lower k r) before gs trivial

theorem finish_lower (s : State) :
    finish r (s.lower k before) = before.reverse ++ (finish r s).map (Token.lower k) := by
  rw [lower_eq_moved]
  exact finish_moved (moves_lower k r) before s

/-! ### Line breaks -/

/-- A line break ends what the reader is in the middle of, as the end of the source does, unless
that is a string or a block comment. -/
theorem step_newline {s : State} (h : ∀ t ∈ finish r s, t.type ≠ .invalid) :
    step r s (.char '\n') = ⟨s.place.after (.char '\n'), s.depth, .idle, (finish r s).reverse⟩ := by
  by_cases hopen : Open s.mode
  · rw [step_delimiter (by decide) hopen, finish_open hopen, List.reverse_reverse]
    obtain ⟨place, depth, mode, done⟩ := s
    cases hopen <;> rfl
  obtain ⟨place, depth, mode, done⟩ := s
  cases mode with
  | idle => exact absurd .idle hopen
  | hash start => exact absurd (.hash start) hopen
  | word start seen => exact absurd (.word start seen) hopen
  | string start seen value escaped =>
    exact absurd rfl (h (r.bareToken .invalid start seen) (by simp [finish]))
  | lineComment => simp [step, finish]
  | blockComment start seen bar =>
    exact absurd rfl (h (r.bareToken .invalid start seen) (by simp [finish]))

/-- **Reading goes line by line.** A text that reads without an invalid token and leaves no list
open can be followed by a line break and any other text: that one is read as a source of its own,
as many lines further down as there are before it. -/
theorem tokens_append_line (r : Reader) {first : Text} (second : Text)
    (hvalid : ∀ t ∈ r.tokens first, t.type ≠ .invalid)
    (hclosed : Token.incomplete (r.tokens first) = false) :
    r.tokens (first ++ "\n" ++ second) =
      r.tokens first ++ (r.tokens second).map (Token.lower (1 + first.count 10)) := by
  have hl := Text.legible_glyphs first
  set s := run r initial first.glyphs with hs
  have hplace : s.place = ⟨1 + first.count 10, s.place.column⟩ := by
    have hpast : s.place = past first.glyphs := (accounts_run r first.glyphs hl).place
    rw [hpast, past_eq, ← count_bytes hl, Text.bytes_glyphs]
  have hdepth : s.depth = 0 := by
    have hopen : Token.openLists (r.tokens first) = s.depth :=
      (balanced_finish (balanced_run first.glyphs balanced_initial)).1
    rw [Token.incomplete, decide_eq_false_iff_not, hopen] at hclosed
    omega
  -- after the break the reader is where it starts, further down
  have hbreak : step r s (.char '\n') =
      initial.lower (1 + first.count 10) (r.tokens first).reverse := by
    rw [step_newline hvalid, hplace, hdepth]
    simp [Place.after, State.lower, Place.lower, Mode.lower, initial, tokens, Nat.add_comm]
  have hglyphs : (first ++ "\n" ++ second : Text).glyphs =
      first.glyphs ++ .char '\n' :: second.glyphs := by
    rw [List.append_assoc]
    exact Text.glyphs_append_ascii (by decide) first second
  rw [tokens, hglyphs, run_append, ← hs, run_cons, hbreak, run_lower, finish_lower,
    List.reverse_reverse]
  rfl

/-- A text of two lines with a string across the break and a comment at its end, before a line that
starts with a byte that is no character and leaves a list open. -/
theorem tokens_append_line_after_comment :
    let r : Reader := ⟨"m", ":"⟩
    let first : Text := "(a \"x\ny\") #b ; c"
    let second : Text := 0xFF :: "[d"
    (r.tokens first).length = 5 ∧ (∀ t ∈ r.tokens first, t.type ≠ .invalid) ∧
      Token.incomplete (r.tokens first) = false ∧
      r.tokens (first ++ "\n" ++ second) =
        r.tokens first ++ (r.tokens second).map (Token.lower 2) := by
  intro r first second
  have hlength : (r.tokens first).length = 5 := by decide +kernel
  have hvalid : ∀ t ∈ r.tokens first, t.type ≠ .invalid := by decide +kernel
  have hclosed : Token.incomplete (r.tokens first) = false := by decide +kernel
  have hcount : 1 + first.count 10 = 2 := by decide +kernel
  refine ⟨hlength, hvalid, hclosed, ?_⟩
  rw [← hcount]
  exact tokens_append_line r second hvalid hclosed

end Reader

end LittleLisp
