/-
# Places in a configuration file

A configuration file is read in blocks of up to 512 bytes, and only as far as needed: what
is wrong with a block that is never read does no harm. A cursor is a place in such a
file. It holds the characters that were read and not passed yet, so whoever looks at
some of them asks for their number first.

A byte order mark at the very start of a file is dropped. One that stands first among
the characters at hand when a block is read has an effect of its own, which the cursor
only records.

Key definitions: `Block`, `Block.ofText`, `Cursor`, `Cursor.need`, `Cursor.skip`,
`Cursor.skipLine`, `Cursor.collect`, `Cursor.seek`.
-/
import LittleLisp.Text

namespace LittleLisp

/-- What is read of a file at once: some characters, or none if there is something among them that
may not occur in a file. -/
abbrev Block := Option (List Char)

namespace Block

/-- The number of bytes that are read at once. -/
def size : Nat := 512

/-- Whether a character may occur in a file. -/
def isAllowed (c : Char) : Bool :=
  let n := c.toNat
  n == 0x09 || n == 0x0A || n == 0x0D || (0x20 ≤ n && n ≤ 0x7E) || n == 0x85 ||
    (0xA0 ≤ n && n ≤ 0xD7FF) || (0xE000 ≤ n && n ≤ 0xFFFD) || 0x10000 ≤ n

/-- The glyphs in runs, each as long as a block has room for it; the first run has less room. -/
def cut : Nat → List Glyph → List (List Glyph)
  | _, [] => [[]]
  | room, g :: gs =>
    let n := g.encode.length
    if n ≤ room then
      match cut (room - n) gs with
      | r :: rs => (g :: r) :: rs
      | [] => [[g]]
    else
      match cut (size - n) gs with
      | r :: rs => [] :: (g :: r) :: rs
      | [] => [[], [g]]

/-- The block of a run of glyphs. -/
def ofGlyphs (gs : List Glyph) : Block :=
  gs.mapM fun
    | .char c => if isAllowed c then some c else none
    | .stray _ => none

/-- The character that may be put before a text to tell the order of its bytes. -/
def byteOrderMark : Char := '\ufeff'

/-- The blocks of a file, without a byte order mark at its start. -/
def ofText (t : Text) : List Block :=
  match (cut size t.glyphs).map ofGlyphs with
  | some (c :: cs) :: bs => some (if c = byteOrderMark then cs else c :: cs) :: bs
  | bs => bs

end Block

/-- A place in a file that is read in blocks. -/
structure Cursor where
  /-- The characters at hand: those that were read and not passed yet. -/
  ahead : List Char
  /-- The blocks that were not read yet. -/
  later : List Block
  /-- How many times reading came to the end of the file. -/
  ends : Nat
  /-- Whether the characters at hand started with a byte order mark when a block was last read. -/
  marked : Bool
  /-- The number of characters before this place. -/
  index : Nat
  /-- The number of lines before this place. -/
  line : Nat
  /-- The number of characters before this place on its line. -/
  column : Nat

namespace Cursor

/-- The start of a file. -/
def start (t : Text) : Cursor := ⟨[], Block.ofText t, 0, false, 0, 0, 0⟩

/-! ### Kinds of characters -/

/-- Whether a character is a blank inside a line. -/
def isGap (c : Char) : Bool := c == ' ' || c == '\t'

/-- Whether a character ends a line. -/
def isBreak (c : Char) : Bool :=
  c == '\n' || c == '\r' || c == '\u0085' || c == '\u2028' || c == '\u2029'

/-- Whether a character is a blank or ends a line. -/
def isSpace (c : Char) : Bool := isGap c || isBreak c

/-- Whether a word ends before these characters. -/
def endsWord : List Char → Bool
  | [] => true
  | c :: _ => isSpace c

/-! ### Looking ahead -/

/-- Reads blocks until there are `n` characters at hand or none are left in the file. -/
def read (n : Nat) : List Char → List Block → Option (List Char × List Block)
  | ahead, [] => some (ahead, [])
  | _, none :: _ => none
  | ahead, some cs :: later =>
    if n ≤ (ahead ++ cs).length then some (ahead ++ cs, later) else read n (ahead ++ cs) later

/-- The same place with `n` characters at hand, or all if there are fewer left. Every time that
reading comes to the end counts as one more character. -/
def need (n : Nat) (c : Cursor) : Option Cursor :=
  if n ≤ c.ahead.length + c.ends then some c
  else do
    let (ahead, later) ← read n c.ahead c.later
    return { c with
      ahead := ahead
      later := later
      ends := if n ≤ ahead.length then c.ends else c.ends + 1
      marked := ahead.head? == some Block.byteOrderMark }

/-- A bound on the number of characters from here to the end. -/
def size (c : Cursor) : Nat := c.ahead.length + Block.size * c.later.length + 1

/-- The next character. -/
def next? (c : Cursor) : Option Char := c.ahead.head?

/-- Whether the next character is a blank or ends a line. -/
def atSpace (c : Cursor) : Bool := c.next?.any isSpace

/-- Whether the next character ends a line. -/
def atBreak (c : Cursor) : Bool := c.next?.any isBreak

/-- Whether a line starts here with three of the given characters and a blank or nothing after
them. -/
def atTriple (x : Char) (c : Cursor) : Bool :=
  c.column == 0 && c.ahead.take 3 == [x, x, x] && endsWord (c.ahead.drop 3)

/-- Whether a line starts here that separates documents. -/
def atSeparator (c : Cursor) : Bool := c.atTriple '-' || c.atTriple '.'

/-! ### Going on -/

/-- The place after the next character. -/
def skip (c : Cursor) : Cursor :=
  { c with ahead := c.ahead.tail, index := c.index + 1, column := c.column + 1 }

/-- The place after a number of characters on the same line. -/
def skipMany : Nat → Cursor → Cursor
  | 0, c => c
  | n + 1, c => skipMany n c.skip

/-- The start of the next line, from the end of a line. -/
def skipLine (c : Cursor) : Cursor :=
  match c.ahead with
  | '\r' :: '\n' :: cs =>
    { c with ahead := cs, index := c.index + 2, line := c.line + 1, column := 0 }
  | cs => { c with ahead := cs.tail, index := c.index + 1, line := c.line + 1, column := 0 }

/-- What the end of a line counts as in a text. The two separators of Unicode are kept, all others
are the same. -/
def lineBreak (c : Cursor) : Char :=
  match c.next? with
  | some '\u2028' => '\u2028'
  | some '\u2029' => '\u2029'
  | _ => '\n'

/-- The place after the next `n` characters, which may be on several lines. -/
def pass : Nat → Cursor → Cursor
  | 0, c => c
  | n + 1, c =>
    match c.ahead with
    | '\r' :: '\n' :: _ => pass n c.skip
    | _ => pass n (if c.atBreak then c.skipLine else c.skip)

/-- The characters of a kind that are next, in reverse order before those in `seen`, and the place
after them. -/
def collect (kind : Char → Bool) : Nat → List Char → Cursor → Option (List Char × Cursor)
  | 0, seen, c => some (seen, c)
  | fuel + 1, seen, c => do
    let c ← c.need 1
    match c.next? with
    | none => return (seen, c)
    | some x => if kind x then collect kind fuel (x :: seen) c.skip else return (seen, c)

/-- Passes characters of a kind. -/
def passWhile (kind : Char → Bool) (c : Cursor) : Option Cursor :=
  (collect kind c.size [] c).map Prod.snd

/-- The greatest number of characters that are looked through for something. -/
def sight : Nat := 512

/-- Looks for `x` behind a run of characters of some kind, of which the first `n` are known: their
number, if `x` follows them and it is less than `sight`. The first argument is what is left of
`sight`. -/
def seek (kind : Char → Bool) (x : Char) : Nat → Nat → Cursor → Option (Option Nat × Cursor)
  | 0, _, c => some (none, c)
  | left + 1, n, c => do
    let c ← c.need (n + 1)
    match (c.ahead.drop n).head? with
    | none => return (none, c)
    | some y =>
      if kind y then seek kind x left (n + 1) c
      else return (if y = x then some n else none, c)

end Cursor

end LittleLisp
