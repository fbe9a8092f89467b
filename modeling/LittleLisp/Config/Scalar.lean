/-
# Scalars of configuration files

A scalar is a piece of text in a configuration file: plain, or in single or double
quotes. Written without quotes, some words stand for no value or for a truth value.

A scalar may go over several lines. Then the first line break, with the blanks around
it, stands for one space, unless empty lines follow, which stand for one line break
each. `Folding` is the text of a scalar while it is read.

Key definitions: `Scalar`, `Scalar.isNull`, `Scalar.bool?`, `Folding`.
-/
import LittleLisp.Text

namespace LittleLisp

/-- A piece of text of a configuration file. -/
structure Scalar where
  text : List Char
  /-- Whether it was written in quotes. -/
  quoted : Bool
  deriving DecidableEq

namespace Scalar

/-- The scalar that stands for nothing. -/
def empty : Scalar := ⟨[], false⟩

/-- The spellings of no value, besides writing nothing at all. -/
def nulls : List String := ["", "~", "null", "Null", "NULL"]

/-- Whether a scalar stands for no value; in quotes it never does. -/
def isNull (s : Scalar) : Bool := !s.quoted && nulls.contains (String.ofList s.text)

/-- The spellings of true and false that are truth values of their own. -/
def plainTruths : List (String × Bool) :=
  [ ("true", true), ("True", true), ("TRUE", true),
    ("false", false), ("False", false), ("FALSE", false) ]

/-- The words that stand for true and false where a truth value is wanted, in quotes too. -/
def truthWords : List (String × Bool) :=
  [ ("y", true), ("Y", true), ("yes", true), ("Yes", true), ("YES", true),
    ("on", true), ("On", true), ("ON", true),
    ("n", false), ("N", false), ("no", false), ("No", false), ("NO", false),
    ("off", false), ("Off", false), ("OFF", false) ]

/-- The truth value that a scalar stands for. -/
def bool? (s : Scalar) : Option Bool :=
  let words := if s.quoted then truthWords else plainTruths ++ truthWords
  words.lookup (String.ofList s.text)

end Scalar

/-- The text of a scalar so far. All characters are in reverse order. -/
structure Folding where
  done : List Char
  /-- The blanks after the last character, as long as no line break came after them. -/
  blanks : List Char
  /-- Whether a line ended after the last character. -/
  broken : Bool
  /-- What the first line break after the last character counts as; none if it does not count. -/
  first : Option Char
  /-- What the further line breaks count as. -/
  further : List Char

namespace Folding

/-- No text yet. -/
def empty : Folding := ⟨[], [], false, none, []⟩

/-- The characters with the blanks and breaks after them folded, in reverse order. -/
def settled (f : Folding) : List Char :=
  if f.broken then
    match f.first with
    | none => f.further ++ f.done
    | some c =>
      if c ≠ '\n' then f.further ++ c :: f.done
      else if f.further = [] then ' ' :: f.done
      else f.further ++ f.done
  else f.blanks ++ f.done

/-- One more character. -/
def char (f : Folding) (c : Char) : Folding := { empty with done := c :: f.settled }

/-- One more blank, which counts only if no line break comes before or after it. -/
def blank (f : Folding) (c : Char) : Folding :=
  if f.broken then f else { f with blanks := c :: f.blanks }

/-- One more line break. -/
def newline (f : Folding) (c : Char) : Folding :=
  if f.broken then { f with further := c :: f.further }
  else { f with blanks := [], broken := true, first := some c }

/-- A line break that leaves no trace. -/
def joint (f : Folding) : Folding := { empty with done := f.settled, broken := true }

/-- The text up to the last character that is no blank or break. -/
def trimmed (f : Folding) : List Char := f.done.reverse

/-- The whole text. -/
def text (f : Folding) : List Char := f.settled.reverse

end Folding

end LittleLisp
