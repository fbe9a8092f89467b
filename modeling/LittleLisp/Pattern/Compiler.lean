/-
# Compiling clauses

A form `(syntax-rules (literal ...) (pattern template) ...)` is checked and compiled
into a transformation. The first element of a pattern stands for the keyword of the
form and is not matched, but takes part in the checks.

Compiling fails, with a fault that says why, if the form has another shape, a variable
occurs twice in a pattern, a list of a pattern has two ellipses, a variable is used
under fewer ellipses than it was bound under, or an ellipsis of a template repeats
nothing. The parts of a form and of a clause are read by their index, once it has been
checked that they are there.

Key definitions: `Pattern.compile`, `Template.compile`, `Transformation.compile`.
-/
import LittleLisp.Pattern
import LittleLisp.Slice

namespace LittleLisp

/-- What stops a compilation: a fault, or a tree of the message that cannot be printed. -/
abbrev Compiled := Except Alarm

/-- A compilation that fails at a position. -/
def Compiled.fail {α : Type} (p : Position) (message : List Text) : Compiled α :=
  .error (.fault (.placed .malformed p message))

/-- A step of a compilation that can only fail outside the language. -/
def Compiled.ofExcept {α : Type} (x : Except Text α) : Compiled α :=
  match x with
  | .ok a => .ok a
  | .error message => .error (.native message)

/-- The text of a tree in the message of a fault. -/
def Node.mention (L : Legend) (n : Node) : Compiled Text :=
  match n.text L with
  | .ok t => .ok t
  | .error message => .error (.native message)

namespace Pattern

mutual

/-- The pattern of a tree `depth` ellipses deep, and the variables bound so far with their
depths. -/
def compile (L : Legend) (literals : List Text) (depth : Nat) :
    Node → Bindings Nat → Compiled (Pattern × Bindings Nat)
  | .absent, _ => .fail .unknown ["invalid pattern"]
  | .leaf t, vars =>
    if t.type ≠ .identifier then .ok (.constant t, vars)
    else if t.text = underscore then .ok (.wildcard, vars)
    else if t.text ∈ literals then .ok (.literal t.text, vars)
    else if (vars.find? t.text).isSome then
      .fail t.pos ["duplicate pattern variable ", t.text]
    else .ok (.variable t.text depth, vars.insert t.text depth)
  | .form children, vars => do
    let (items, vars) ← compileItems L literals depth children false children vars
    return (.list items, vars)

/-- The patterns of the remaining items of the list `whole`; `repeats` says whether an ellipsis
came before them. -/
def compileItems (L : Legend) (literals : List Text) (depth : Nat) (whole : List Node)
    (repeats : Bool) : List Node → Bindings Nat → Compiled (List Pattern × Bindings Nat)
  | [], vars => .ok ([], vars)
  | [n], vars => do
    let (item, vars) ← compile L literals depth n vars
    return ([item], vars)
  | n :: m :: rest, vars =>
    if m.isEllipsis then
      if repeats then
        .fail (Node.form whole).position
          ["more than one ellipsis in pattern ", Value.shown ((Node.form whole).text L)]
      else do
        let (item, vars) ← compile L literals (depth + 1) n vars
        let (items, vars) ← compileItems L literals depth whole true rest vars
        return (.repeated item :: items, vars)
    else do
      let (item, vars) ← compile L literals depth n vars
      let (items, vars) ← compileItems L literals depth whole repeats (m :: rest) vars
      return (item :: items, vars)

end

end Pattern

namespace Template

mutual

/-- A variable of the template that was bound at least `depth` ellipses deep: the first one. -/
def driver? (depth : Nat) : Template → Option Text
  | .leaf _ => none
  | .variable name d => if depth ≤ d ∧ name ≠ [] then some name else none
  | .list items => driverOfItems? depth items
  | .repeated _ item => driver? depth item

/-- The first such variable of some items. -/
def driverOfItems? (depth : Nat) : List Template → Option Text
  | [] => none
  | t :: ts =>
    match driver? depth t with
    | some name => some name
    | none => driverOfItems? depth ts

end

mutual

/-- The template of a tree `depth` ellipses deep, for the variables of a pattern. -/
def compile (L : Legend) (vars : Bindings Nat) (depth : Nat) : Node → Compiled Template
  | .absent => .fail .unknown ["invalid template"]
  | .leaf t =>
    if t.type ≠ .identifier then .ok (.leaf t)
    else
      match vars.find? t.text with
      | none => .ok (.leaf t)
      | some d =>
        if depth < d then
          .fail t.pos ["pattern variable ", t.text, " used without enough ellipses"]
        else .ok (.variable t.text d)
  | .form children => do
    let items ← compileItems L vars depth children
    return .list items

/-- The templates of the items of a list. -/
def compileItems (L : Legend) (vars : Bindings Nat) (depth : Nat) :
    List Node → Compiled (List Template)
  | [] => .ok []
  | [n] => do
    let item ← compile L vars depth n
    return [item]
  | n :: m :: rest =>
    if m.isEllipsis then do
      let item ← compile L vars (depth + 1) n
      match item.driver? (depth + 1) with
      | none => do
        let t ← n.mention L
        .fail n.position ["nonmatching ellipsis after ", t]
      | some name => do
        let items ← compileItems L vars depth rest
        return .repeated name item :: items
    else do
      let item ← compile L vars depth n
      let items ← compileItems L vars depth (m :: rest)
      return item :: items

end

end Template

namespace Clause

/-- The clause that a form `(pattern template)` describes. -/
def compile (L : Legend) (literals : List Text) (form : Node) : Compiled Clause :=
  let parts := form.children
  if parts.length ≠ 2 then do
    let t ← form.mention L
    .fail form.position ["syntax-rules clause must be (pattern template), got ", t]
  else do
    let pattern ← Compiled.ofExcept (Slice.item parts 0)
    let items := pattern.children
    if items.length = 0 then
      let t ← pattern.mention L
      .fail form.position ["syntax-rules pattern must be a non-empty list, got ", t]
    else
      let (compiled, vars) ← Pattern.compileItems L literals 0 items false items []
      let template ← Compiled.ofExcept (Slice.item parts 1)
      let template ← Template.compile L vars 0 template
      let operands ← Compiled.ofExcept (Slice.after compiled 1)
      return ⟨operands, template⟩

/-- The clauses that some forms describe. -/
def compileAll (L : Legend) (literals : List Text) : List Node → Compiled (List Clause)
  | [] => .ok []
  | n :: ns => do
    let clause ← compile L literals n
    let clauses ← compileAll L literals ns
    return clause :: clauses

end Clause

namespace Transformation

/-- The names of a literal list. -/
def literalNames (L : Legend) : List Node → Compiled (List Text)
  | [] => .ok []
  | n :: ns =>
    match n.identifier? with
    | some t => do
      let names ← literalNames L ns
      return t.text :: names
    | none => do
      let t ← n.mention L
      .fail n.position ["syntax-rules literal ", t, " is not an identifier"]

/-- The transformation that a form `(syntax-rules (literal ...) (pattern template) ...)` describes
for `keyword`. -/
def compile (L : Legend) (keyword : Text) (spec : Node) : Compiled Transformation :=
  let parts := spec.children
  if parts.length < 2 then do
    let t ← spec.mention L
    .fail spec.position ["expected syntax-rules, got ", t]
  else do
    let head ← Compiled.ofExcept (Slice.item parts 0)
    if head.identifier?.any fun t => t.text == Text.ofString "syntax-rules" then
      let literals ← Compiled.ofExcept (Slice.item parts 1)
      match literals with
      | .form names =>
        let names ← literalNames L names
        let forms ← Compiled.ofExcept (Slice.after parts 2)
        let clauses ← Clause.compileAll L (keyword :: names) forms
        return ⟨keyword, clauses⟩
      | literals =>
        let t ← literals.mention L
        .fail spec.position ["syntax-rules expects a literal list, got ", t]
    else
      let t ← head.mention L
      .fail spec.position ["expected syntax-rules, got ", t]

end Transformation

end LittleLisp
