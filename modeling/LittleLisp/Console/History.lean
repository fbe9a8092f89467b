/-
# Histories

The inputs of past dialogues, oldest first. Only the latest are kept, and an input that
repeats the one before it is not recorded again. A history is kept in a file, one input
a line.

Key definitions: `History`, `History.add`, `History.ofText`, `History.text`.
Key theorems: `History.length_add_le`.
-/
import LittleLisp.Console.Input

namespace LittleLisp

/-- Past inputs, oldest first. -/
abbrev History := List Text

namespace History

/-- The number of inputs that are kept. -/
def limit : Nat := 1000

/-- The latest inputs. -/
def cut (h : History) : History := h.drop (h.length - limit)

/-- Records an input, unless it repeats the last one. -/
def add (h : History) (input : Text) : History :=
  if h.getLast? = some input then h else cut (h ++ [input])

/-- Whether a text is well-formed: no byte is outside of a character. -/
def isWellFormed (t : Text) : Bool :=
  t.glyphs.all fun
    | .char _ => true
    | .stray _ => false

/-- The history in a file, up to the first line that is too long or not well-formed. -/
def ofText (t : Text) : History :=
  cut (((Console.pieces t).takeWhile fun p => !p.isPartial && isWellFormed p.text).map
    Console.Piece.text)

/-- A history as it is kept in a file. -/
def text (h : History) : Text := Text.concat (h.map fun t => t ++ ("\n" : Text))

/-- A history that keeps to the limit goes on keeping to it. -/
theorem length_add_le {h : History} (hl : h.length ≤ limit) (input : Text) :
    (h.add input).length ≤ limit := by
  unfold add
  split
  · exact hl
  · simp only [cut, List.length_drop, List.length_append, List.length_cons, List.length_nil]
    omega

end History

end LittleLisp
