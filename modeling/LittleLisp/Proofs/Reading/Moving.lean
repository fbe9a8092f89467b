/-
# Reading elsewhere

Where the reader is makes no difference to what it does: it keeps a place only to write it down.
So two readings of the same glyphs that start at different places go in step, as long as going on
from a place and moving to the other reading's place can be exchanged. The tokens are then the
same, with their positions moved.

Key definitions: `Token.moved`, `Reader.State.moved`, `Reader.Moves`.
Key theorems: `Reader.step_moved`, `Reader.run_moved`, `Reader.finish_moved`.
-/
import LittleLisp.Proofs.Reading.Lexeme

namespace LittleLisp

/-- The token with its position moved. -/
def Token.moved (m : Position → Position) (t : Token) : Token := { t with pos := m t.pos }

namespace Reader

/-- The mode with the place where its token starts moved. -/
def Mode.moved (f : Place → Place) : Mode → Mode
  | .idle => .idle
  | .hash start => .hash (f start)
  | .word start seen => .word (f start) seen
  | .string start seen value escaped => .string (f start) seen value escaped
  | .lineComment => .lineComment
  | .blockComment start seen bar => .blockComment (f start) seen bar

/-- The state with all of its places moved, after the tokens `before` in reverse order. -/
def State.moved (f : Place → Place) (m : Position → Position) (before : List Token) (s : State) :
    State :=
  ⟨f s.place, s.depth, s.mode.moved f, s.done.map (Token.moved m) ++ before⟩

/-- Places are moved by `f`, which going on from a place with the property `P` can be exchanged
with, and positions by `m` likewise. -/
structure Moves (r : Reader) (f : Place → Place) (m : Position → Position) (P : Place → Prop) :
    Prop where
  holds : ∀ {p : Place} (g : Glyph), P p → P (p.after g)
  after : ∀ {p : Place} (g : Glyph), P p → (f p).after g = f (p.after g)
  position : ∀ p : Place, r.position (f p) = m (r.position p)

/-! ### Where the reader is -/

variable {r : Reader}

theorem place_startToken (s : State) (g : Glyph) :
    (startToken r s g).place = s.place.after g := by
  unfold startToken
  dsimp only
  split_ifs <;> rfl

theorem place_continueWord (s : State) (start : Place) (seen : List Glyph) (g : Glyph) :
    (continueWord r s start seen g).place = s.place.after g := by
  unfold continueWord
  split_ifs
  · exact place_startToken _ g
  · rfl

/-- Whatever the reader does with a glyph, it goes on after it. -/
theorem place_step (s : State) (g : Glyph) : (step r s g).place = s.place.after g := by
  obtain ⟨place, depth, mode, done⟩ := s
  cases mode with
  | idle => exact place_startToken _ g
  | hash start =>
    unfold step
    dsimp only
    split_ifs
    · rfl
    · exact place_continueWord _ start _ g
  | word start seen => exact place_continueWord _ start seen g
  | _ =>
    unfold step
    dsimp only
    split_ifs <;> rfl

/-! ### One glyph -/

variable {f : Place → Place} {m : Position → Position} {P : Place → Prop} (h : Moves r f m P)
include h

theorem bareToken_moved (type : TokenType) (p : Place) (seen : List Glyph) :
    r.bareToken type (f p) seen = (r.bareToken type p seen).moved m := by
  rw [bareToken, h.position]
  rfl

theorem wordToken_moved (p : Place) (seen : List Glyph) :
    r.wordToken (f p) seen = (r.wordToken p seen).moved m := by
  obtain ⟨type, value, -, hatom⟩ := ofAtom_eq r.effectiveMarker (Glyph.bytes seen.reverse)
  rw [wordToken, wordToken, hatom, hatom, h.position]
  rfl

variable (before : List Token) {s : State} (g : Glyph)

theorem startToken_moved (hs : P s.place) :
    startToken r (s.moved f m before) g = (startToken r s g).moved f m before := by
  simp only [startToken, State.moved, bareToken_moved h, h.after g hs]
  split_ifs <;> rfl

theorem continueWord_moved (hs : P s.place) (start : Place) (seen : List Glyph) :
    continueWord r (s.moved f m before) (f start) seen g =
      (continueWord r s start seen g).moved f m before := by
  unfold continueWord
  split_ifs
  · rw [← startToken_moved h before g (by exact hs), wordToken_moved h]
    rfl
  · rw [State.moved, State.moved, h.after g hs]
    rfl

/-- One more glyph does the same elsewhere. -/
theorem step_moved (hs : P s.place) :
    step r (s.moved f m before) g = (step r s g).moved f m before := by
  obtain ⟨place, depth, mode, done⟩ := s
  have hafter : (f place).after g = f (place.after g) := h.after g hs
  cases mode with
  | idle => exact startToken_moved h before g hs
  | hash start =>
    have hword := continueWord_moved (s := ⟨place, depth, .hash start, done⟩) h before g hs start
      [.char '#']
    simp only [step, State.moved, Mode.moved, hafter] at hword ⊢
    split_ifs
    · rfl
    · exact hword
  | word start seen => exact continueWord_moved h before g hs start seen
  | string start seen value escaped =>
    simp only [step, State.moved, Mode.moved, h.position, hafter]
    split_ifs <;> rfl
  | lineComment =>
    simp only [step, State.moved, Mode.moved, hafter]
    split_ifs <;> rfl
  | blockComment start seen bar =>
    simp only [step, State.moved, Mode.moved, hafter]
    split_ifs <;> rfl

/-! ### A text -/

/-- Reading does the same elsewhere. -/
theorem run_moved : ∀ (gs : List Glyph) {s : State}, P s.place →
    run r (s.moved f m before) gs = (run r s gs).moved f m before
  | [], _, _ => rfl
  | g :: gs, s, hs => by
    have hnext : P (step r s g).place := by
      rw [place_step]
      exact h.holds g hs
    rw [run_cons, run_cons, step_moved h before g hs, run_moved gs hnext]

theorem finish_moved (s : State) :
    finish r (s.moved f m before) = before.reverse ++ (finish r s).map (Token.moved m) := by
  obtain ⟨place, depth, mode, done⟩ := s
  cases mode <;> simp [finish, State.moved, Mode.moved, wordToken_moved h, bareToken_moved h]

end Reader

end LittleLisp
