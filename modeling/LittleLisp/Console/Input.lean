/-
# Input lines

Lines end with a line feed, which may follow a carriage return; the last line needs no
end. A line that is too long to be taken in at once comes in several pieces, each
treated as a line of its own.

Key definitions: `Console.pieces`, `Console.lines`.
-/
import LittleLisp.Text

namespace LittleLisp

namespace Console

/-- The number of bytes that are taken in at once. -/
def capacity : Nat := 4096

/-- A line, or a piece of one. -/
structure Piece where
  text : Text
  /-- Whether the line goes on after it. -/
  isPartial : Bool
  deriving DecidableEq

/-- The bytes of a finished line, kept in reverse order, without the carriage return at its end. -/
def withoutReturn : Text → Text
  | 0x0D :: seen => seen.reverse
  | seen => seen.reverse

/-- The pieces of an input of which the bytes `seen` of the current piece, `count` of them, have been
read; they are kept in reverse order. A carriage return at the end of a full piece is left to the
next one. -/
def piecesFrom : Text → Nat → Text → List Piece
  | [], _, [] => []
  | seen, _, [] => [⟨seen.reverse, false⟩]
  | seen, count, b :: bs =>
    if b = 0x0A then ⟨withoutReturn seen, false⟩ :: piecesFrom [] 0 bs
    else if count + 1 < capacity then piecesFrom (b :: seen) (count + 1) bs
    else if b = 0x0D then ⟨seen.reverse, true⟩ :: piecesFrom [b] 1 bs
    else ⟨(b :: seen).reverse, true⟩ :: piecesFrom [] 0 bs

/-- The lines of an input and the pieces of those that are too long. -/
def pieces (input : Text) : List Piece := piecesFrom [] 0 input

/-- What is taken for the lines of an input. -/
def lines (input : Text) : List Text := (pieces input).map Piece.text

end Console

end LittleLisp
