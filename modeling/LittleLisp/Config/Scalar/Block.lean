/-
# Scalars in block form

A scalar may be written on lines of its own, indented under the sign that announces it:
after `|` the lines are kept as they are, after `>` they are folded into one, except
where they are indented further. The sign may be followed by a digit, for how far the
lines are indented beyond what is around them, and by `-` or `+`, for whether no line
breaks at the end count or all of them do.

Key definitions: `Scalar.Header`, `Scalar.Header.read?`, `Scalar.block?`.
-/
import LittleLisp.Config.Cursor
import LittleLisp.Config.Scalar

namespace LittleLisp

namespace Scalar

open Cursor (isGap isBreak collect passWhile)

/-- Which line breaks count at the end of a block. -/
inductive Ending where
  | strip
  | clip
  | keep
  deriving DecidableEq

/-- What is said about a block on the line of its sign. -/
structure Header where
  ending : Ending
  /-- How far its lines are indented, or zero if that is to be seen from them. -/
  step : Nat

namespace Header

/-- The ending that a sign stands for. -/
def ending? : Char → Option Ending
  | '-' => some .strip
  | '+' => some .keep
  | _ => none

/-- The digit that is next, and the place after it; zero if there is none. Fails at a zero. -/
def digit? (c : Cursor) : Option (Nat × Cursor) := do
  let c ← c.need 1
  match c.next? with
  | some x =>
    if x == '0' then none
    else if '1' ≤ x && x ≤ '9' then return (x.toNat - 48, c.skip)
    else return (0, c)
  | none => return (0, c)

/-- The sign for an ending that is next, and the place after it. -/
def sign? (c : Cursor) : Option (Option Ending × Cursor) := do
  let c ← c.need 1
  match c.next?.bind ending? with
  | some e => return (some e, c.skip)
  | none => return (none, c)

/-- The header that starts here, and the place after it. -/
def read? (c : Cursor) : Option (Header × Cursor) := do
  let (first, c) ← sign? c
  let (step, c) ← digit? c
  match first with
  | some e => return (⟨e, step⟩, c)
  | none =>
    if step = 0 then return (⟨.clip, 0⟩, c)
    else
      let (second, c) ← sign? c
      return (⟨second.getD .clip, step⟩, c)

end Header

/-- Passes spaces before a column, or all if it is zero. -/
def passIndent (column : Nat) : Nat → Cursor → Option Cursor
  | 0, c => some c
  | fuel + 1, c => do
    let c ← c.need 1
    if (column = 0 || c.column < column) && c.next? == some ' ' then
      passIndent column fuel c.skip
    else return c

/-- Passes empty lines and the spaces before a column, or all if it is zero: the greatest column
where spaces end, the line breaks in reverse order, and the place. Fails at a tab before that
column. -/
def passEmpty (column : Nat) : Nat → Nat → List Char → Cursor → Option (Nat × List Char × Cursor)
  | 0, widest, breaks, c => some (widest, breaks, c)
  | fuel + 1, widest, breaks, c => do
    let c ← passIndent column c.size c
    let widest := max widest c.column
    if (column = 0 || c.column < column) && c.next? == some '\t' then none
    else if c.atBreak then
      let c ← c.need 2
      passEmpty column fuel widest (c.lineBreak :: breaks) c.skipLine
    else return (widest, breaks, c)

/-- The text of a block so far. All characters are in reverse order. -/
structure Lines where
  done : List Char
  /-- The line break after the last line that is not empty. -/
  first : List Char
  /-- The line breaks of the empty lines after it. -/
  further : List Char
  /-- Whether that line was indented further. -/
  deep : Bool

namespace Lines

/-- The text before one more line, which may be indented further. -/
def settled (folded deep : Bool) (l : Lines) : List Char :=
  if folded && !l.deep && !deep && l.first == ['\n'] then
    if l.further = [] then ' ' :: l.done else l.further ++ l.done
  else l.further ++ l.first ++ l.done

/-- The whole text. -/
def text (ending : Ending) (l : Lines) : List Char :=
  match ending with
  | .strip => l.done.reverse
  | .clip => (l.first ++ l.done).reverse
  | .keep => (l.further ++ l.first ++ l.done).reverse

end Lines

/-- The lines of a block that is indented to a column. -/
def blockLines (folded : Bool) (column : Nat) : Nat → Lines → Cursor → Option (Lines × Cursor)
  | 0, l, c => some (l, c)
  | fuel + 1, l, c => do
    let c ← c.need 1
    if c.column = column && !c.ahead.isEmpty then
      let deep := c.next?.any isGap
      let (done, c) ← collect (!isBreak ·) c.size (l.settled folded deep) c
      let c ← c.need 2
      let (first, c) := if c.atBreak then ([c.lineBreak], c.skipLine) else ([], c)
      let (_, further, c) ← passEmpty column c.size 0 [] c
      blockLines folded column fuel ⟨done, first, further, deep⟩ c
    else return (l, c)

/-- The block that starts after its sign, and the place after it. What is around it allows lines
from the column `margin` on. -/
def block? (folded : Bool) (margin : Nat) (c : Cursor) : Option (Scalar × Cursor) := do
  let (h, c) ← Header.read? c
  let c ← passWhile isGap c
  let c ← if c.next? == some '#' then passWhile (!isBreak ·) c else some c
  if !c.ahead.isEmpty && !c.atBreak then none
  else
    let c ← if c.atBreak then (c.need 2).map (·.skipLine) else some c
    let column := if h.step = 0 then 0 else margin - 1 + h.step
    let (widest, further, c) ← passEmpty column c.size 0 [] c
    let column := if column = 0 then max (max widest margin) 1 else column
    let (l, c) ← blockLines folded column c.size ⟨[], [], further, false⟩ c
    return (⟨l.text h.ending, true⟩, c)

end Scalar

end LittleLisp
