/-
# Reading scalars

How a scalar is read from a place in a configuration file. Each reader goes by turns over
a word, without blanks, and over the gap after it. A plain scalar ends at a comment, at
a colon that is followed by a blank, and on a line that is not indented enough; inside
brackets it ends at a bracket, a comma or a question mark too. No scalar goes on over a
line that separates documents, and one in quotes must have ended before.

Key definitions: `Scalar.gap`, `Scalar.singleWord`, `Scalar.doubleWord`, `Scalar.quoted?`,
`Scalar.plain?`.
-/
import LittleLisp.Config.Cursor
import LittleLisp.Config.Scalar

namespace LittleLisp

namespace Scalar

open Cursor (isGap isBreak isSpace endsWord)

/-- Passes blanks and line breaks. Fails at a tab that starts a line, or follows only blanks on it,
before the column `margin`. -/
def gap (margin : Nat) : Nat → Folding → Cursor → Option (Folding × Cursor)
  | 0, f, c => some (f, c)
  | fuel + 1, f, c =>
    match c.next? with
    | none => some (f, c)
    | some x =>
      if isGap x then
        if f.broken && c.column < margin && x == '\t' then none
        else do
          let next ← c.skip.need 1
          gap margin fuel (f.blank x) next
      else if isBreak x then do
        let c ← c.need 2
        let next ← c.skipLine.need 1
        gap margin fuel (f.newline c.lineBreak) next
      else some (f, c)

/-! ### Quoted scalars -/

/-- A word in single quotes; two quotes stand for one. -/
def singleWord : Nat → Folding → Cursor → Option (Folding × Cursor)
  | 0, _, _ => none
  | fuel + 1, f, c =>
    match c.ahead with
    | [] => some (f, c)
    | '\x27' :: '\x27' :: _ => do
      let next ← c.skip.skip.need 2
      singleWord fuel (f.char '\x27') next
    | x :: _ =>
      if x == '\x27' || isSpace x then some (f, c)
      else do
        let next ← c.skip.need 2
        singleWord fuel (f.char x) next

/-- The character of a one-letter escape. -/
def escape : Char → Option Char
  | '0' => some '\x00'
  | 'a' => some '\x07'
  | 'b' => some '\x08'
  | 't' => some '\t'
  | '\t' => some '\t'
  | 'n' => some '\n'
  | 'v' => some '\x0b'
  | 'f' => some '\x0c'
  | 'r' => some '\r'
  | 'e' => some '\x1b'
  | ' ' => some ' '
  | '"' => some '"'
  | '\x27' => some '\x27'
  | '\\' => some '\\'
  | 'N' => some '\u0085'
  | '_' => some '\u00a0'
  | 'L' => some '\u2028'
  | 'P' => some '\u2029'
  | _ => none

/-- How many hexadecimal digits follow the letter of an escape. -/
def codeLength : Char → Nat
  | 'x' => 2
  | 'u' => 4
  | 'U' => 8
  | _ => 0

/-- The value of a hexadecimal digit. -/
def hexValue (c : Char) : Option Nat :=
  if '0' ≤ c ∧ c ≤ '9' then some (c.toNat - 48)
  else if 'a' ≤ c ∧ c ≤ 'f' then some (c.toNat - 87)
  else if 'A' ≤ c ∧ c ≤ 'F' then some (c.toNat - 55)
  else none

/-- The character with a number in hexadecimal notation, if there is one. -/
def codePoint (digits : List Char) : Option Char := do
  let n ← digits.foldlM (fun n c => (hexValue c).map (n * 16 + ·)) 0
  if n.isValidChar then some (Char.ofNat n) else none

/-- A word in double quotes; a backslash starts an escape, and at the end of a line it joins the
next line to this one. -/
def doubleWord : Nat → Folding → Cursor → Option (Folding × Cursor)
  | 0, _, _ => none
  | fuel + 1, f, c =>
    match c.ahead with
    | [] => some (f, c)
    | x :: xs =>
      if x == '"' || isSpace x then some (f, c)
      else if x == '\\' then
        match xs with
        | [] => none
        | y :: _ =>
          if isBreak y then do
            let c ← c.need 3
            return (f.joint, c.skip.skipLine)
          else if codeLength y = 0 then do
            let z ← escape y
            let next ← c.skip.skip.need 2
            doubleWord fuel (f.char z) next
          else do
            let n := codeLength y
            let c ← c.skip.skip.need n
            let digits := c.ahead.take n
            let z ← if digits.length = n then codePoint digits else none
            let next ← (c.skipMany n).need 2
            doubleWord fuel (f.char z) next
      else do
        let next ← c.skip.need 2
        doubleWord fuel (f.char x) next

/-- The rest of a scalar between quotes `q`, whose words are read by `word`. -/
def between (q : Char) (word : Nat → Folding → Cursor → Option (Folding × Cursor)) :
    Nat → Folding → Cursor → Option (Scalar × Cursor)
  | 0, _, _ => none
  | fuel + 1, f, c => do
    let c ← c.need 4
    if c.atSeparator || c.ahead.isEmpty then none
    else
      let (f, c) ← word c.size f c
      let c ← c.need 1
      if c.next? == some q then return (⟨f.text, true⟩, c.skip)
      else
        let (f, c) ← gap 0 c.size f c
        between q word fuel f c

/-- The scalar in quotes that starts here, if one does. -/
def quoted? (c : Cursor) : Option (Scalar × Cursor) :=
  match c.next? with
  | some '\x27' => between '\x27' singleWord c.size .empty c.skip
  | some '"' => between '"' doubleWord c.size .empty c.skip
  | _ => none

/-! ### Plain scalars -/

/-- The characters that no plain scalar starts with. -/
def indicators : String := ",[]\x7b\x7d#&*!|>'\"%@`"

/-- The characters that end a plain scalar inside brackets. -/
def enders : String := ",?[]\x7b\x7d"

/-- Whether a plain scalar starts here; `inner` says whether that is inside brackets. -/
def startsPlain (inner : Bool) : List Char → Bool
  | [] => false
  | c :: cs =>
    if isSpace c then false
    else if c == '-' then !endsWord cs
    else if c == '?' || c == ':' then !inner && !endsWord cs
    else !indicators.toList.contains c

/-- Whether a word of a plain scalar ends before these characters. -/
def endsPlain (inner : Bool) : List Char → Bool
  | [] => true
  | c :: cs =>
    isSpace c || (c == ':' && endsWord cs) || (inner && enders.toList.contains c)

/-- A word of a plain scalar. -/
def plainWord (inner : Bool) : Nat → Folding → Cursor → Option (Folding × Cursor)
  | 0, _, _ => none
  | fuel + 1, f, c =>
    if endsPlain inner c.ahead then some (f, c)
    else
      match c.next? with
      | none => some (f, c)
      | some x => do
        let next ← c.skip.need 2
        plainWord inner fuel (f.char x) next

/-- The rest of a plain scalar, whose further lines are indented by at least `margin`. -/
def plainRest (inner : Bool) (margin : Nat) : Nat → Folding → Cursor → Option (Folding × Cursor)
  | 0, _, _ => none
  | fuel + 1, f, c => do
    let c ← c.need 4
    if c.atSeparator || c.next? == some '#' then return (f, c)
    else
      let (f, c) ← plainWord inner c.size f c
      if !c.atSpace then return (f, c)
      else
        let (f, c) ← gap margin c.size f c
        if !inner && c.column < margin then return (f, c)
        else plainRest inner margin fuel f c

/-- The plain scalar that starts here, whether the line it ends on was passed, and the place after
it. -/
def plain? (inner : Bool) (margin : Nat) (c : Cursor) : Option (Scalar × Bool × Cursor) := do
  let (f, c) ← plainRest inner margin c.size .empty c
  return (⟨f.trimmed, false⟩, f.broken, c)

end Scalar

end LittleLisp
