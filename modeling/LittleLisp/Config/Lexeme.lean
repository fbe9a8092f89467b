/-
# Lexemes of configuration files

A configuration file is scanned into lexemes: scalars, the signs between them, and the
places where a block of lines of one indentation starts and ends. The scan runs
ahead of its user, because a scalar turns out to be the name of a setting only at the
colon after it: then a sign for the name, and perhaps one for the start of a block, is put
in before a scalar that is waiting in the queue. Such a scalar is a `Candidate` until the
colon comes, its line ends, or more than 1024 characters have passed.

Directives, which the notation offers too, have no place in a configuration.

Key definitions: `Lexeme`, `Scan`, `Scan.fetch`, `Scan.peek`, `Scan.drop`.
-/
import LittleLisp.Config.Scalar.Block
import LittleLisp.Config.Scalar.Reader

namespace LittleLisp

/-- A piece of a configuration file. -/
inductive Lexeme where
  | scalar (s : Scalar)
  /-- A label for what follows. -/
  | label
  /-- A reference to a label. -/
  | reference
  /-- A sign that says something about the type of what follows, or nothing if it is bare. -/
  | tag (bare : Bool)
  /-- The start of a block of settings on lines of one indentation. -/
  | blockSettings
  /-- The start of a block of items on lines of one indentation. -/
  | blockItems
  | blockEnd
  /-- The sign before an item of a block. -/
  | item
  /-- The sign before a name, or the place where a name starts. -/
  | name
  /-- The sign before a value. -/
  | value
  | openBrace
  | closeBrace
  | openBracket
  | closeBracket
  | comma
  | documentStart
  | documentEnd
  | fileEnd
  deriving DecidableEq

/-- A lexeme that may turn out to start the name of a setting. -/
structure Candidate where
  /-- The number of lexemes before it. -/
  number : Nat
  /-- Whether it still may. -/
  live : Bool
  /-- Whether nothing but a name can stand there. -/
  required : Bool
  /-- Where it starts. -/
  place : Cursor

/-- The state of a scan. -/
structure Scan where
  cursor : Cursor
  /-- The lexemes that wait to be taken. -/
  queue : List Lexeme
  /-- The number of lexemes taken so far. -/
  taken : Nat
  /-- The indentations of the blocks that are open, innermost first. -/
  indents : List Nat
  /-- The last candidate inside the innermost brackets. -/
  candidate : Candidate
  /-- The last candidates outside of them, one for each pair of brackets, innermost first. -/
  outer : List Candidate
  /-- The numbers of the lexemes that must not be taken while they are candidates, each with the
  number of brackets around it. -/
  watched : List (Nat × Nat)
  /-- Whether a name may start here. -/
  allowed : Bool

namespace Scan

/-- The start of a scan. -/
def start (t : Text) : Scan :=
  let c := Cursor.start t
  ⟨c, [], 0, [], ⟨0, false, false, c⟩, [], [], true⟩

/-- Whether the scan is inside brackets. -/
def inner (s : Scan) : Bool := !s.outer.isEmpty

/-- The scan with one more lexeme. -/
def push (s : Scan) (l : Lexeme) : Scan := { s with queue := s.queue ++ [l] }

/-- The scan with a lexeme put in before the one with a number, or at the end if that was taken. -/
def insert (s : Scan) (number : Nat) (l : Lexeme) : Scan :=
  if number < s.taken then s.push l
  else
    let n := number - s.taken
    { s with queue := s.queue.take n ++ l :: s.queue.drop n }

/-- The scan after the next character, which is a lexeme of its own. -/
def sign (s : Scan) (l : Lexeme) : Scan := { s.push l with cursor := s.cursor.skip }

/-! ### Blanks and comments -/

/-- Passes the rest of a line. -/
def restOfLine (c : Cursor) : Option Cursor := Cursor.passWhile (!Cursor.isBreak ·) c

/-- Passes comments, from the start of one. Between them there may be any blanks and empty lines,
but only those that end in the usual ways. -/
def comments : Nat → Cursor → Option Cursor
  | 0, c => some c
  | fuel + 1, c => do
    let c ← restOfLine c
    let c ← c.need 2
    if c.next? == some '\n' || c.next? == some '\r' then
      let passes := fun x => Cursor.isGap x || x == '\n' || x == '\r'
      match ← c.seek passes '#' (Cursor.sight - 1) 1 with
      | (some n, c) => comments fuel (c.pass n)
      | (none, c) => return c
    else return c

/-- Passes a comment after a lexeme on the same line, if there is one. -/
def lineComment (c : Cursor) : Option Cursor := do
  match ← c.seek Cursor.isGap '#' Cursor.sight 0 with
  | (some n, c) => restOfLine (c.skipMany n)
  | (none, c) => return c

/-- Passes spaces, and tabs if they are allowed. -/
def spaces (tabs : Bool) : Nat → Cursor → Option Cursor
  | 0, c => some c
  | fuel + 1, c =>
    if c.next? == some ' ' || (tabs && c.next? == some '\t') then do
      let next ← c.skip.need 1
      spaces tabs fuel next
    else some c

/-- Passes whatever stands before the next lexeme. A name may start on a new line. As long as the
characters at hand started with a byte order mark, the first character of each line counts as
one. -/
def toLexeme : Nat → Scan → Option Scan
  | 0, s => some s
  | fuel + 1, s => do
    let c ← s.cursor.need 1
    let c ← if c.column == 0 && c.marked then c.skip.need 1 else some c
    let c ← spaces (s.inner || !s.allowed) c.size c
    let c ← if c.next? == some '#' then comments c.size c else some c
    if c.atBreak then
      let c ← c.need 2
      toLexeme fuel { s with cursor := c.skipLine, allowed := s.allowed || !s.inner }
    else return { s with cursor := c }

/-! ### Blocks -/

/-- Closes the blocks that are indented by more than a column. -/
def dedent (s : Scan) (column : Nat) : Scan :=
  if s.inner then s
  else
    let closed := s.indents.takeWhile (column < ·)
    { s with
      queue := s.queue ++ closed.map fun _ => .blockEnd
      indents := s.indents.drop closed.length }

/-- Closes all blocks. -/
def dedentAll (s : Scan) : Scan :=
  if s.inner then s
  else { s with queue := s.queue ++ s.indents.map (fun _ => .blockEnd), indents := [] }

/-- Opens a block at a column before the lexeme with a number, unless one is open there. -/
def indent (s : Scan) (column number : Nat) (l : Lexeme) : Scan :=
  if s.inner || s.indents.head?.any (column ≤ ·) then s
  else { s.insert number l with indents := column :: s.indents }

/-- The number of the next lexeme. -/
def number (s : Scan) : Nat := s.taken + s.queue.length

/-! ### Candidates -/

/-- The greatest number of characters from the start of a name to its colon. -/
def nameLimit : Nat := 1024

/-- Whether it is too late for a candidate to be a name. -/
def expired (s : Scan) (k : Candidate) : Bool :=
  k.place.line < s.cursor.line || k.place.index + nameLimit < s.cursor.index

/-- The scan that does not watch the lexeme with a number. -/
def unwatch (s : Scan) (number : Nat) : Scan :=
  { s with watched := s.watched.filter (·.1 != number) }

/-- The scan in which the last candidate is none any more. -/
def retire (s : Scan) : Scan := { s with candidate := { s.candidate with live := false } }

/-- Gives up the last candidate. Fails if nothing but a name can stand there. -/
def discard (s : Scan) : Option Scan :=
  if !s.candidate.live then some s
  else if s.candidate.required then none
  else some (s.unwatch s.candidate.number).retire

/-- Makes the next lexeme a candidate, if a name may start there. -/
def propose (s : Scan) : Option Scan :=
  if s.allowed then do
    let s ← s.discard
    let required := !s.inner && s.indents.head? == some s.cursor.column
    return { s with
      candidate := ⟨s.number, true, required, s.cursor⟩
      watched := (s.number, s.outer.length) :: s.watched }
  else some s

/-! ### Lexemes -/

/-- The end of the file. -/
def fetchEnd (s : Scan) : Option Scan := do
  let c := s.cursor
  let c := if c.column = 0 then c else { c with column := 0, line := c.line + 1 }
  let s ← { s.dedentAll with cursor := c }.discard
  return { s.push .fileEnd with allowed := false }

/-- A line that separates documents. -/
def fetchSeparator (s : Scan) (l : Lexeme) : Option Scan := do
  let s ← s.dedentAll.discard
  return { s.push l with cursor := s.cursor.skipMany 3, allowed := false }

/-- The greatest number of brackets around a lexeme. -/
def depthLimit : Nat := 10000

/-- An opening bracket. -/
def fetchOpen (s : Scan) (l : Lexeme) : Option Scan := do
  let s ← s.propose
  if depthLimit ≤ s.outer.length then none
  else
    return { s.sign l with
      candidate := ⟨s.number, false, false, s.cursor⟩
      outer := s.candidate :: s.outer
      allowed := true }

/-- A closing bracket. If there was no candidate after the opening one, that is not watched any
more. -/
def fetchClose (s : Scan) (l : Lexeme) : Option Scan := do
  let s ← s.discard
  let s := match s.outer with
    | [] => s
    | k :: ks => { s.unwatch s.candidate.number with candidate := k, outer := ks }
  return { s.sign l with allowed := false }

/-- A comma inside brackets. -/
def fetchComma (s : Scan) : Option Scan := do
  let s ← s.discard
  return { s.sign .comma with allowed := true }

/-- The sign before an item. -/
def fetchItem (s : Scan) : Option Scan :=
  if !s.inner && !s.allowed then none
  else do
    let s ← (s.indent s.cursor.column s.number .blockItems).discard
    return { s.sign .item with allowed := true }

/-- The sign before a name. -/
def fetchName (s : Scan) : Option Scan :=
  if !s.inner && !s.allowed then none
  else do
    let s ← (s.indent s.cursor.column s.number .blockSettings).discard
    return { s.sign .name with allowed := !s.inner }

/-- The sign before a value whose name was announced by a sign. -/
def fetchLateValue (s : Scan) : Option Scan :=
  if !s.inner && !s.allowed then none
  else
    let s := s.indent s.cursor.column s.number .blockSettings
    some { s.sign .value with allowed := !s.inner }

/-- The sign before a value, which makes the last candidate a name. -/
def fetchValue (s : Scan) : Option Scan :=
  let k := s.candidate
  if !k.live then s.fetchLateValue
  else if s.expired k then if k.required then none else s.retire.fetchLateValue
  else
    let s := (s.insert k.number .name).indent k.place.column k.number .blockSettings
    let s := (s.unwatch k.number).retire
    some { s.sign .value with allowed := false }

/-- A scalar in quotes. -/
def fetchQuoted (s : Scan) : Option Scan := do
  let s ← s.propose
  let (t, c) ← Scalar.quoted? s.cursor
  return { s.push (.scalar t) with cursor := c, allowed := false }

/-- The column that the further lines of a scalar reach at least, if it has no quotes. -/
def margin (s : Scan) : Nat :=
  match s.indents with
  | [] => 0
  | i :: _ => i + 1

/-- A scalar in block form. -/
def fetchBlock (s : Scan) (folded : Bool) : Option Scan := do
  let s ← s.discard
  let (t, c) ← Scalar.block? folded s.margin s.cursor.skip
  return { s.push (.scalar t) with cursor := c, allowed := true }

/-- A plain scalar. After one whose last line was passed a name may start. -/
def fetchPlain (s : Scan) : Option Scan := do
  let s ← s.propose
  let (t, passed, c) ← Scalar.plain? s.inner s.margin s.cursor
  return { s.push (.scalar t) with cursor := c, allowed := passed }

/-- Whether a character may occur in a label. -/
def isLabelChar (c : Char) : Bool := c.isAlphanum || c == '_' || c == '-'

/-- The characters that may follow a label, besides blanks. -/
def labelEnds : String := "?:,]\x7d%@`"

/-- A label or a reference to one. -/
def fetchLabel (s : Scan) (l : Lexeme) : Option Scan := do
  let s ← s.propose
  let c ← s.cursor.skip.need 1
  let start := c.index
  let c ← Cursor.passWhile isLabelChar c
  if c.index = start then none
  else if Cursor.endsWord c.ahead || c.next?.any labelEnds.toList.contains then
    return { s.push l with cursor := c, allowed := false }
  else none

/-- The characters that may occur in a type, besides those of labels. -/
def typeSigns : String := ";/?:@&=+$,.!~*'()[]%"

/-- Whether a type is written in full: there is something after a second exclamation mark. -/
def isFullType (text : List Char) : Bool := text.dropWhile isLabelChar != ['!']

/-- A sign for a type. -/
def fetchTag (s : Scan) : Option Scan := do
  let s ← s.propose
  let c ← s.cursor.need 2
  let isTypeChar := fun x => isLabelChar x || typeSigns.toList.contains x
  let (text, c) ← Cursor.collect isTypeChar c.size [] c.skip
  if isFullType text.reverse && Cursor.endsWord c.ahead then
    return { s.push (.tag text.isEmpty) with cursor := c, allowed := false }
  else none

/-- A comment after a lexeme. -/
def withComment (s : Scan) : Option Scan := do
  let c ← lineComment s.cursor
  return { s with cursor := c }

/-- The lexeme that starts with the next character, and a comment after it. -/
def fetchSome (s : Scan) (x : Char) (xs : List Char) : Option Scan :=
  let alone := s.inner || Cursor.endsWord xs
  match x with
  | '[' => s.fetchOpen .openBracket >>= withComment
  | '\x7b' => s.fetchOpen .openBrace >>= withComment
  | ']' => s.fetchClose .closeBracket >>= withComment
  | '\x7d' => s.fetchClose .closeBrace >>= withComment
  | ',' => s.fetchComma >>= withComment
  | '\x27' => s.fetchQuoted >>= withComment
  | '"' => s.fetchQuoted >>= withComment
  | '&' => s.fetchLabel .label >>= withComment
  | '*' => s.fetchLabel .reference >>= withComment
  | '!' => s.fetchTag >>= withComment
  | x =>
    if x == '-' && Cursor.endsWord xs then s.fetchItem
    else if x == '?' && alone then s.fetchName >>= withComment
    else if x == ':' && alone then s.fetchValue >>= withComment
    else if (x == '|' || x == '>') && !s.inner then s.fetchBlock (x == '>')
    else if Scalar.startsPlain s.inner (x :: xs) then do
      let s ← s.fetchPlain
      if s.allowed then return s else s.withComment
    else none

/-- Scans one more lexeme, with those that it brings about. -/
def fetch (s : Scan) : Option Scan := do
  let s ← s.toLexeme s.cursor.size
  let s := s.dedent s.cursor.column
  let c ← s.cursor.need 4
  let s := { s with cursor := c }
  match c.ahead with
  | [] => s.fetchEnd
  | x :: xs =>
    if c.column == 0 && x == '%' then none
    else if c.atTriple '-' then s.fetchSeparator .documentStart
    else if c.atTriple '.' then s.fetchSeparator .documentEnd
    else s.fetchSome x xs

/-! ### Taking lexemes -/

/-- The last candidates inside all brackets, outermost first. -/
def candidates (s : Scan) : List Candidate := (s.candidate :: s.outer).reverse

/-- The scan with other candidates inside all brackets. -/
def withCandidates (s : Scan) (ks : List Candidate) : Scan :=
  match ks.reverse with
  | [] => s
  | k :: ks => { s with candidate := k, outer := ks }

/-- If the first lexeme in the queue is watched, the last candidate inside as many brackets as are
around it, if it still is one, with their number. -/
def waiting (s : Scan) : Option (Candidate × Nat) := do
  let depth ← s.watched.lookup s.taken
  let k ← s.candidates[depth]?
  if k.live then some (k, depth) else none

/-- Scans until there are three lexemes in the queue and the first one is no candidate. -/
def prepare : Nat → Scan → Option Scan
  | 0, _ => none
  | fuel + 1, s =>
    if s.queue.length < 3 then s.fetch >>= prepare fuel
    else
      match s.waiting with
      | none => some s
      | some (k, depth) =>
        if !s.expired k then s.fetch >>= prepare fuel
        else if k.required then none
        else some (s.withCandidates (s.candidates.set depth { k with live := false }))

/-- The next lexeme, and the scan with that lexeme still in the queue. -/
def peek (s : Scan) : Option (Lexeme × Scan) := do
  let s ← s.prepare (s.cursor.size + 3)
  let l ← s.queue.head?
  return (l, s)

/-- The scan without the first lexeme in the queue. -/
def drop (s : Scan) : Scan := { s with queue := s.queue.tail, taken := s.taken + 1 }

end Scan

end LittleLisp
