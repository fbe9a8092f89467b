/-
# Texts of values

How values are printed. A value alone does not say how a function is called or what a
host object looks like, so printing takes a legend that does. Printing fails where a
list or map holds no value at all, or where the embedding program fails to print one
of its objects; the failure is a message.

Key definitions: `Legend`, `Value.text`, `Value.described`, `Value.plainText`.
-/
import LittleLisp.Value
import LittleLisp.Number.Shortest
import LittleLisp.Text.Quoted

namespace LittleLisp

/-- What printing needs to know beyond the value itself. -/
structure Legend where
  functionName : Nat → Text
  transformerName : Nat → Text
  objectText : Object → Except Text Text

/-- The text of a function, with its name if it has one. -/
def Legend.functionText (L : Legend) (ref : Nat) : Text :=
  let name := L.functionName ref
  if name = [] then "#<fn>" else Text.concat ["#<fn ", name, ">"]

/-- The failure of looking into a missing value. -/
def missingValue : Text := "runtime error: invalid memory address or nil pointer dereference"

/-- The text of an atom. -/
def Atom.text : Atom → Text
  | .nil => "nil"
  | .bool b => if b then "true" else "false"
  | .number x => Number.text x
  | .string t => t.quote
  | .keyword t => t
  | .integer n => Text.ofInt n
  | .vacant => "<nil>"

namespace Value

mutual

/-- The text of a value. -/
def text (L : Legend) : Value → Except Text Text
  | .absent => .error missingValue
  | .atom a => .ok a.text
  | .undefined name => .ok (Text.concat ["#<undefined ", name, ">"])
  | .list _ items => do
    let parts ← itemTexts L items
    return Text.concat ["(", Text.join " " parts, ")"]
  | .map _ entries => do
    let parts ← entryTexts L entries
    return Text.concat ["\x7b", Text.join ", " (Text.sort parts), "\x7d"]
  | .function ref => .ok (L.functionText ref)
  | .transformer ref => .ok (Text.concat ["#<macro ", L.transformerName ref, ">"])
  | .object o => L.objectText o
  | .error f => .ok f.text

/-- The texts of the items of a list. -/
def itemTexts (L : Legend) : List Value → Except Text (List Text)
  | [] => .ok []
  | v :: vs => do
    let t ← text L v
    let ts ← itemTexts L vs
    return t :: ts

/-- The texts of the entries of a map. -/
def entryTexts (L : Legend) : List (Atom × Value) → Except Text (List Text)
  | [] => .ok []
  | (k, v) :: es => do
    let t ← text L v
    let ts ← entryTexts L es
    return Text.concat [k.text, " ", t] :: ts

end

/-- The text of a value in a message, where a missing value is shown as `nil`. -/
def described (L : Legend) : Value → Except Text Text
  | .absent => .ok "nil"
  | v => v.text L

/-- A text in a message that reports a failure to print instead of failing itself. -/
def shown (t : Except Text Text) : Text :=
  match t with
  | .ok t => t
  | .error message => Text.concat ["%!s(PANIC=String method: ", message, ")"]

/-- A text inside brackets, in a message that reports a failure to print. -/
def shownInside (L : Legend) : Value → Text
  | .absent => "<nil>"
  | v =>
    match v.text L with
    | .ok t => t
    | .error message => Text.concat ["%!v(PANIC=String method: ", message, ")"]

/-- The rank of an atom among the keys of a printed map, by its sort. -/
def keyRank : Atom → Nat
  | .nil => 0
  | .keyword _ => 1
  | .vacant => 2
  | .bool _ => 3
  | .integer _ => 4
  | .number _ => 5
  | .string _ => 6

/-- The order in which the keys of a map are shown in a message. -/
def keyLe (a b : Atom) : Bool :=
  match a, b with
  | .bool x, .bool y => !x || y
  | .integer m, .integer n => decide (m ≤ n)
  | .number x, .number y => Number.isNaN x || x ≤ y
  | .string s, .string t => s.le t
  | .keyword s, .keyword t => s.le t
  | a, b => keyRank a ≤ keyRank b

/-- The text of a value's bare contents, in messages about values of the wrong sort: strings
without quotes, numbers compact, lists and maps in brackets. -/
def plainText (L : Legend) : Value → Except Text Text
  | .number x => .ok (Number.compactText x)
  | .string t => .ok t
  | .list _ items => .ok (Text.concat ["[", Text.join " " (items.map (shownInside L)), "]"])
  | .map _ entries =>
    let sorted := entries.mergeSort fun e f => keyLe e.1 f.1
    let parts := sorted.map fun e => Text.concat [e.1.text, ":", shownInside L e.2]
    .ok (Text.concat ["map[", Text.join " " parts, "]"])
  | v => v.described L

end Value

end LittleLisp
