/-
# Patterns and templates

A clause of a user-defined form is a pattern and a template. A pattern says
what the operands must look like and names their parts; a template says what to write
in their place. An item followed by an ellipsis stands for any number of repetitions.
Names in a template that the pattern does not bind are written as they are.

Key definitions: `Pattern`, `Template`, `Clause`, `Transformation`.
-/
import LittleLisp.Tree
import LittleLisp.Bindings

namespace LittleLisp

/-- What a tree must look like. -/
inductive Pattern where
  /-- Exactly this token, up to its position and spelling. -/
  | constant (token : Token)
  /-- The identifier of this name. -/
  | literal (name : Text)
  /-- Anything. -/
  | wildcard
  /-- Anything, remembered under a name; `depth` counts the ellipses around it. -/
  | variable (name : Text) (depth : Nat)
  | list (items : List Pattern)
  /-- As an item of a list: any number of trees that look like this. -/
  | repeated (item : Pattern)

/-- What to write. -/
inductive Template where
  /-- A token as it is. -/
  | leaf (token : Token)
  /-- What was remembered under a name, with the ellipsis depth at which it was bound. -/
  | variable (name : Text) (depth : Nat)
  | list (items : List Template)
  /-- As an item of a list: the item once for each repetition of the variable `driver`. -/
  | repeated (driver : Text) (item : Template)

/-- A pattern for the operands of a form and what the form is replaced by. -/
structure Clause where
  /-- The patterns of the operands. -/
  operands : List Pattern
  template : Template

/-- The clauses of a user-defined form, in the order in which they are tried. -/
structure Transformation where
  keyword : Text
  clauses : List Clause

/-- The identifier that marks a repetition. -/
def ellipsis : Text := "..."

/-- The identifier that matches anything. -/
def underscore : Text := "_"

/-- Whether a tree is the ellipsis. -/
def Node.isEllipsis (n : Node) : Bool :=
  match n.identifier? with
  | some t => t.text == ellipsis
  | none => false

end LittleLisp
