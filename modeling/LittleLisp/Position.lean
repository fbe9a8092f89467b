/-
# Source positions

A position names a module, a line and a column. A position on line zero is the
unknown position, whatever its other parts.

Key definitions: `Position`, `Position.isUnknown`, `Position.orElse`.
-/
import LittleLisp.Text

namespace LittleLisp

/-- A place in a module's source, counted from line 1 and column 1. -/
structure Position where
  module : Text
  line : Int
  column : Int
  deriving DecidableEq

namespace Position

/-- The position of something that was not read from a source. -/
def unknown : Position := ⟨[], 0, 0⟩

/-- Whether a position says nothing. -/
def isUnknown (p : Position) : Bool := p.line == 0

/-- The first position of a module. -/
def start (module : Text) : Position := ⟨module, 1, 1⟩

/-- The second position if only that one is known, and the first otherwise. -/
def orElse (p q : Position) : Position := if p.isUnknown && !q.isUnknown then q else p

/-- The first known position of a list. -/
def firstKnown : List Position → Position
  | [] => unknown
  | p :: ps => if p.isUnknown then firstKnown ps else p

/-- A position as `module:line:column`. -/
def text (p : Position) : Text :=
  Text.concat [p.module, ":", Text.ofInt p.line, ":", Text.ofInt p.column]

@[simp] theorem isUnknown_unknown : unknown.isUnknown = true := rfl

@[simp] theorem isUnknown_start (m : Text) : (start m).isUnknown = false := rfl

end Position

end LittleLisp
