/-
# Trees

A program is a forest: a list of trees, each a token or a form of trees. Forms come
from the brackets of the source; trees also come from transformers, and then a leaf
can hold any value.

Key definitions: `Node`, `Node.position`, `Node.text`, `Node.ofValue`, `Node.datum`.
-/
import LittleLisp.Token
import LittleLisp.Value.Text

namespace LittleLisp

/-- A tree. -/
inductive Node where
  /-- No tree at all; it evaluates to `nil`. -/
  | absent
  | leaf (token : Token)
  | form (children : List Node)

instance : Inhabited Node := ⟨.absent⟩

/-- The trees of a source, in order. -/
abbrev Forest := List Node

namespace Node

mutual

/-- The position of the first token of a tree that has one. -/
def position : Node → Position
  | .absent => .unknown
  | .leaf t => t.pos
  | .form children => positionOfAll children

/-- The position of the first token of some trees that has one. -/
def positionOfAll : List Node → Position
  | [] => .unknown
  | n :: ns =>
    let p := position n
    if p.isUnknown then positionOfAll ns else p

end

mutual

/-- The text of a tree: tokens as they were spelled, forms in round brackets. -/
def text (L : Legend) : Node → Except Text Text
  | .absent => .ok "nil"
  | .leaf t =>
    if t.text ≠ [] then .ok t.text
    else
      match t.value with
      | .absent => .ok "nil"
      | v => v.text L
  | .form children => do
    let parts ← texts L children
    return Text.concat ["(", Text.join " " parts, ")"]

/-- The texts of some trees. -/
def texts (L : Legend) : List Node → Except Text (List Text)
  | [] => .ok []
  | n :: ns => do
    let t ← text L n
    let ts ← texts L ns
    return t :: ts

end

/-- The leaf of a fault. -/
def ofFault (f : Fault) : Node := .leaf ⟨.error, f.pos, f.message, .error f⟩

/-- A computed value as a tree; a fault becomes a leaf that reports it. -/
def ofValue (v : Value) (p : Position) : Node :=
  match v with
  | .error f => ofFault f
  | v => .leaf ⟨.literal, p, [], v⟩

/-- The leaf that reports a malformed form. -/
def malformed (p : Position) (message : List Text) : Node :=
  ofFault (.placed .malformed p message)

/-- The items of a form; other trees have none. -/
def children : Node → List Node
  | .form children => children
  | .leaf _ => []
  | .absent => []

theorem eq_form_of_children {n : Node} (h : n.children ≠ []) : n = .form n.children := by
  cases n with
  | form children => rfl
  | leaf t => exact absurd rfl h
  | absent => exact absurd rfl h

/-- The token of a tree that is an identifier. -/
def identifier? : Node → Option Token
  | .leaf t => if t.type = .identifier then some t else none
  | _ => none

mutual

/-- A tree as data: identifiers become strings and forms lists, other tokens their values. -/
def datum : Node → Value
  | .absent => .nil
  | .leaf t => if t.type = .identifier then .string t.text else t.value.orNil
  | .form children => .list 0 (data children)

/-- Some trees as data. -/
def data : List Node → List Value
  | [] => []
  | n :: ns => datum n :: data ns

end

end Node

end LittleLisp
