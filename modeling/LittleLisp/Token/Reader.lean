/-
# Reading tokens

The reader goes through the glyphs of a source once, from left to right. Between two
glyphs its state says where it is: between tokens, inside a word, a string or a
comment. So what a source reads as is a fold over its glyphs, and reading one text
after another is reading their concatenation.

White space and commas separate tokens; `;` starts a comment up to the end of the
line, `#|` one up to `|#`. Anything that cannot be read becomes an invalid token, so
reading never fails.

Key definitions: `Reader`, `Reader.step`, `Reader.tokens`.
-/
import LittleLisp.Token
import LittleLisp.Text.Blank

namespace LittleLisp

/-- How sources of a module are read. -/
structure Reader where
  module : Text
  /-- What a keyword starts with; the default `:` if empty. -/
  marker : Text

/-- What a keyword starts with unless a reader says otherwise. -/
def defaultMarker : Text := ":"

namespace Reader

/-- The marker in force. -/
def effectiveMarker (r : Reader) : Text :=
  if r.marker = [] then defaultMarker else r.marker

/-- A place in a source. -/
structure Place where
  line : Nat
  column : Nat
  deriving DecidableEq

/-- The place after a glyph. -/
def Place.after (p : Place) : Glyph → Place
  | .char '\n' => ⟨p.line + 1, 1⟩
  | _ => ⟨p.line, p.column + 1⟩

/-- What the reader is in the middle of. The glyphs of an unfinished token are kept in reverse
order, with the place where it starts. -/
inductive Mode where
  /-- Between tokens. -/
  | idle
  /-- After a `#` that may start a block comment or a word. -/
  | hash (start : Place)
  /-- Inside a word. -/
  | word (start : Place) (seen : List Glyph)
  /-- Inside a string, of which `value` has been read; `escaped` after a backslash. -/
  | string (start : Place) (seen : List Glyph) (value : List Char) (escaped : Bool)
  /-- Inside a comment that ends with the line. -/
  | lineComment
  /-- Inside a comment that ends with `|#`; `bar` after a `|`. -/
  | blockComment (start : Place) (seen : List Glyph) (bar : Bool)

/-- The reader's state between two glyphs. -/
structure State where
  place : Place
  /-- The number of open lists. -/
  depth : Nat
  mode : Mode
  /-- The tokens read so far, in reverse order. -/
  done : List Token

/-- The state before the first glyph. -/
def initial : State := ⟨⟨1, 1⟩, 0, .idle, []⟩

/-- A place as a position in the reader's module. -/
def position (r : Reader) (p : Place) : Position := ⟨r.module, p.line, p.column⟩

/-- Whether a glyph ends a word. -/
def isDelimiter (g : Glyph) : Bool :=
  g.isBlank ||
    match g with
    | .char c => c == '(' || c == ')' || c == '[' || c == ']' || c == '"' || c == ';' || c == ','
    | .stray _ => false

/-- Whether a glyph is no readable character: a stray byte or the replacement character. -/
def isUnreadable : Glyph → Bool
  | .char c => c == '\uFFFD'
  | .stray _ => true

/-- The character that an escaped glyph stands for. -/
def escapedChar (g : Glyph) : Char :=
  match g.repaired with
  | 'n' => '\n'
  | 't' => '\t'
  | c => c

/-- The token of a finished word. -/
def wordToken (r : Reader) (start : Place) (seen : List Glyph) : Token :=
  Token.ofAtom r.effectiveMarker (r.position start) (Glyph.bytes seen.reverse)

/-- A token without a value. -/
def bareToken (r : Reader) (type : TokenType) (start : Place) (seen : List Glyph) : Token :=
  ⟨type, r.position start, Glyph.bytes seen.reverse, .absent⟩

/-- The state after a glyph that is met between tokens. -/
def startToken (r : Reader) (s : State) (g : Glyph) : State :=
  let next := s.place.after g
  if g.isBlank || g == .char ',' then { s with place := next, mode := .idle }
  else if g == .char ';' then { s with place := next, mode := .lineComment }
  else if g == .char '#' then { s with place := next, mode := .hash s.place }
  else if g == .char '(' || g == .char '[' then
    ⟨next, s.depth + 1, .idle, r.bareToken .listBegin s.place [g] :: s.done⟩
  else if g == .char ')' || g == .char ']' then
    if s.depth = 0 then ⟨next, 0, .idle, r.bareToken .invalid s.place [g] :: s.done⟩
    else ⟨next, s.depth - 1, .idle, r.bareToken .listEnd s.place [g] :: s.done⟩
  else if g == .char '"' then { s with place := next, mode := .string s.place [g] [] false }
  else if isUnreadable g then ⟨next, s.depth, .idle, r.bareToken .invalid s.place [g] :: s.done⟩
  else { s with place := next, mode := .word s.place [g] }

/-- The state after a glyph that is met inside a word. -/
def continueWord (r : Reader) (s : State) (start : Place) (seen : List Glyph) (g : Glyph) : State :=
  if isDelimiter g then
    startToken r { s with mode := .idle, done := r.wordToken start seen :: s.done } g
  else { s with place := s.place.after g, mode := .word start (g :: seen) }

/-- The state after one more glyph. -/
def step (r : Reader) (s : State) (g : Glyph) : State :=
  let next := s.place.after g
  match s.mode with
  | .idle => startToken r s g
  | .hash start =>
    if g == .char '|' then { s with place := next, mode := .blockComment start [g, .char '#'] true }
    else continueWord r s start [.char '#'] g
  | .word start seen => continueWord r s start seen g
  | .string start seen value escaped =>
    if escaped then
      { s with place := next, mode := .string start (g :: seen) (escapedChar g :: value) false }
    else if g == .char '"' then
      let token : Token :=
        ⟨.literal, r.position start, Glyph.bytes (g :: seen).reverse,
          .string (Text.ofChars value.reverse)⟩
      { s with place := next, mode := .idle, done := token :: s.done }
    else if g == .char '\\' then
      { s with place := next, mode := .string start (g :: seen) value true }
    else { s with place := next, mode := .string start (g :: seen) (g.repaired :: value) false }
  | .lineComment =>
    if g == .char '\n' then { s with place := next, mode := .idle } else { s with place := next }
  | .blockComment start seen bar =>
    if bar && g == .char '#' then { s with place := next, mode := .idle }
    else { s with place := next, mode := .blockComment start (g :: seen) (g == .char '|') }

/-- The tokens of a state at the end of the source: an unfinished string or block comment is an
invalid token. -/
def finish (r : Reader) (s : State) : List Token :=
  match s.mode with
  | .idle => s.done.reverse
  | .hash start => (r.wordToken start [.char '#'] :: s.done).reverse
  | .word start seen => (r.wordToken start seen :: s.done).reverse
  | .string start seen _ _ => (r.bareToken .invalid start seen :: s.done).reverse
  | .lineComment => s.done.reverse
  | .blockComment start seen _ => (r.bareToken .invalid start seen :: s.done).reverse

/-- The state after the glyphs of a text. -/
def run (r : Reader) (s : State) (gs : List Glyph) : State := gs.foldl (step r) s

/-- The tokens of a source. -/
def tokens (r : Reader) (source : Text) : List Token :=
  r.finish (r.run initial source.glyphs)

/-- Reading goes on where it stopped. -/
theorem run_append (r : Reader) (s : State) (gs hs : List Glyph) :
    r.run s (gs ++ hs) = r.run (r.run s gs) hs := by
  simp [run]

end Reader

end LittleLisp
