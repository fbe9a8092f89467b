/-
# Parameter rules

A host method says what its arguments must be by a rule for each parameter and, if it
takes any number of further arguments, one rule for all of those. A validator checks
the rules before the method runs.

Key definitions: `Rule`, `Rules`, `Rules.check`, `Validator`.
-/
import LittleLisp.Value.Text

namespace LittleLisp

/-- What one argument must be. -/
inductive Rule where
  | any
  | number
  /-- A string or a keyword. -/
  | string
  | bool
  /-- A list or `nil`. -/
  | list
  | map
  | object
  deriving DecidableEq

namespace Rule

/-- The rule's name in messages. -/
def name : Rule → Text
  | .any => "any"
  | .number => "number"
  | .string => "string"
  | .bool => "bool"
  | .list => "list"
  | .map => "map"
  | .object => "object"

/-- Whether a value satisfies the rule. -/
def accepts : Rule → Value → Bool
  | .any, _ => true
  | .number, .number _ => true
  | .string, .string _ => true
  | .string, .keyword _ => true
  | .bool, .bool _ => true
  | .list, .nil => true
  | .list, .list _ _ => true
  | .map, .map _ _ => true
  | .object, .object _ => true
  | _, _ => false

end Rule

/-- What the arguments of a method must be. -/
structure Rules where
  params : List Rule
  /-- The rule of every argument past the parameters; without it there must be none. -/
  rest : Option Rule
  deriving DecidableEq

namespace Rules

/-- The rules as a parameter list. -/
def text (r : Rules) : Text :=
  let rest : List Text := match r.rest with
    | some rule => [rule.name ++ "..."]
    | none => []
  Text.concat ["(", Text.join " " (r.params.map Rule.name ++ rest), ")"]

/-- Whether a number of arguments is admissible. -/
def admits (r : Rules) (n : Nat) : Bool :=
  r.params.length ≤ n && (r.rest.isSome || n == r.params.length)

/-- The rule of the argument at an index. -/
def ruleAt (r : Rules) (i : Nat) : Option Rule :=
  if i < r.params.length then r.params[i]? else r.rest

/-- The first argument that breaks its rule, counted from `i`. -/
def firstRefused (r : Rules) : Nat → List Value → Option (Nat × Rule × Value)
  | _, [] => none
  | i, v :: vs =>
    match r.ruleAt i with
    | some rule => if rule.accepts v then firstRefused r (i + 1) vs else some (i, rule, v)
    | none => firstRefused r (i + 1) vs

/-- What is wrong with the arguments, if anything: their number, or else the first one that breaks
its rule. Fails if that argument cannot be printed. -/
def check (L : Legend) (r : Rules) (args : List Value) : Except Text (Option Fault) :=
  if r.admits args.length then
    match r.firstRefused 0 args with
    | none => .ok none
    | some (i, rule, v) => do
      let t ← v.described L
      return some (.unplaced .violation
        ["argument ", Text.ofNat (i + 1), ": expected ", rule.name, ", got ", t])
  else
    .ok (some (.unplaced .violation
      ["expected arguments ", r.text, ", got ", Text.ofNat args.length]))

end Rules

/-- Decides whether the arguments of a method satisfy its rules. A fault becomes the result of the
call, and the method does not run. -/
structure Validator where
  validate : Legend → Rules → List Value → Except Text (Option Fault)

namespace Validator

/-- Checks the number of arguments and then each one. -/
def rules : Validator := ⟨Rules.check⟩

/-- Refuses every call. -/
def reject : Validator := ⟨fun _ _ _ => .ok (some (.unplaced .violation ["rejected"]))⟩

end Validator

end LittleLisp
