/-
# Host methods

The embedding program offers functions, and objects with methods. What a function or
method does is a script: it may read and change the host's state, raise an alarm, ask
for the text of a value, or call a function of the language and go on with the result.

Methods are found by name. A method runs only if it is exported; methods of reflected
objects take and return host values, and their rules follow from their signatures.

Key definitions: `Script`, `Method`, `Signature`, `ReflectedMethod`, `Host`, `Host.lookup`,
`Host.Offers`.
-/
import LittleLisp.Host.Value

namespace LittleLisp

/-- What a host function or method does. The state of the host is handed on from step to step. -/
inductive Script (σ α : Type) where
  /-- The end, with a result. -/
  | done (state : σ) (result : α)
  /-- The end, with an alarm. -/
  | raise (state : σ) (alarm : Alarm)
  /-- Calls a function of the language. -/
  | call (state : σ) (function : Nat) (args : List Value) (next : σ → Value → Script σ α)
  /-- Asks for the text of a value. -/
  | print (state : σ) (value : Value) (next : Text → Script σ α)
  /-- Asks for the name of a function of the language. -/
  | nameOf (state : σ) (function : Nat) (next : Text → Script σ α)

/-- A method of an object that answers look-ups itself. -/
structure Method (σ : Type) where
  exported : Bool
  rules : Rules
  /-- What the method does; a method without a body cannot be called. -/
  body : Option (List Value → σ → Script σ Value)

/-- The parameters and results of a host method. -/
structure Signature where
  params : List HostType
  /-- The type of any number of further arguments. -/
  variadic : Option HostType
  results : List HostType

namespace Signature

/-- The rules that follow from the parameter types. -/
def rules (s : Signature) : Rules := ⟨s.params.map HostType.rule, s.variadic.map HostType.rule⟩

/-- The parameter type of the argument at an index. -/
def typeAt (s : Signature) (i : Nat) : Option HostType :=
  if i < s.params.length then s.params[i]? else s.variadic

/-- What is wrong with a number of arguments, if anything. -/
def arityFault? (s : Signature) (name : Text) (n : Nat) : Option Fault :=
  let want := s.params.length
  if s.variadic.isSome then
    if n < want then
      some (.unplaced .arity
        [name, " expects at least ", Text.ofNat want, " arguments, got ", Text.ofNat n])
    else none
  else if n ≠ want then
    some (.unplaced .arity [name, " expects ", Text.ofNat want, " arguments, got ", Text.ofNat n])
  else none

/-- The arguments from index `i` on as host values of their parameter types. -/
def convert (H : HostTypes) (L : Legend) (s : Signature) (name : Text) :
    Nat → List Value → Except Alarm (List HostValue)
  | _, [] => .ok []
  | i, v :: vs =>
    match HostValue.ofValue H L v ((s.typeAt i).getD .value) with
    | .error (.fault f) =>
      .error (.fault (.unplaced .argument
        [name, ": argument ", Text.ofNat (i + 1), ": ", f.message]))
    | .error a => .error a
    | .ok x =>
      match convert H L s name (i + 1) vs with
      | .ok xs => .ok (x :: xs)
      | .error a => .error a

/-- The results of a call as one value: none is `nil`, several are a list. -/
def result (H : HostTypes) (s : Signature) (xs : List HostValue) : Value :=
  match (s.results.zip xs).map fun p => HostValue.toValue H p.1 p.2 with
  | [] => .nil
  | [v] => v
  | vs => .list 0 vs

end Signature

/-- A method of a host type. -/
structure ReflectedMethod (σ : Type) where
  signature : Signature
  /-- What the method of a receiver does with converted arguments: results, or a failure. -/
  body : Handle → List HostValue → σ → Script σ (Except Text (List HostValue))

/-- An embedding program with states `σ`. -/
structure Host (σ : Type) where
  types : HostTypes
  /-- The host functions, by name. -/
  native : Text → List Value → σ → Script σ Value
  /-- The methods of objects that answer look-ups themselves. -/
  direct : Handle → Text → Option (Method σ)
  /-- The methods of host types. -/
  reflected : HostType → Text → Option (ReflectedMethod σ)
  /-- The text of a host value that has one of its own. -/
  label : σ → Handle → Option Text

namespace Host

/-- An embedding program that offers nothing. -/
def none : Host Unit where
  types := ⟨fun _ _ => false, fun _ => [], fun _ => false⟩
  native _ _ s := .done s .absent
  direct _ _ := .none
  reflected _ _ := .none
  label _ _ := .none

/-- The failure of asking a missing host value for its text. -/
def textOfNothing : Text := "reflect: call of reflect.Value.Interface on zero Value"

/-- The text of a host object. -/
def objectText {σ : Type} (H : Host σ) (s : σ) : Object → Except Text Text
  | .hollow => .ok "#<object <nil>>"
  | .reflected .none _ => .error textOfNothing
  | .reflected (some h) _ =>
    .ok ((H.label s h).getD (Text.concat ["#<object ", h.type.spelling, ">"]))
  | .direct h => .ok ((H.label s h).getD (Text.concat ["#<object ", h.type.spelling, ">"]))

/-- What a look-up of a method finds: whether it is exported, its rules, and what it does with
arguments of the language, given how values are printed. -/
structure Found (σ : Type) where
  exported : Bool
  rules : Rules
  body : Option (Legend → List Value → σ → Script σ Value)

/-- The call of a method of a host type: arguments are checked and converted, results converted
back. -/
def callReflected {σ : Type} (H : Host σ) (name : Text) (receiver : Handle) (m : ReflectedMethod σ)
    (L : Legend) (args : List Value) (s : σ) : Script σ Value :=
  match m.signature.arityFault? name args.length with
  | some f => .done s (.error f)
  | .none =>
    match m.signature.convert H.types L name 0 args with
    | .error (.fault f) => .done s (.error f)
    | .error a => .raise s a
    | .ok xs => finish (m.body receiver xs s)
where
  /-- Turns the outcome of the method into a value. -/
  finish : Script σ (Except Text (List HostValue)) → Script σ Value
    | .done s (.ok xs) => .done s (m.signature.result H.types xs)
    | .done s (.error message) => .done s (.fail .native [name, ": ", message])
    | .raise s a => .raise s a
    | .call s f args next => .call s f args fun s v => finish (next s v)
    | .print s v next => .print s v fun t => finish (next t)
    | .nameOf s f next => .nameOf s f fun t => finish (next t)

/-- Looks a method up on an object. -/
def lookup {σ : Type} (H : Host σ) (o : Object) (name : Text) : Option (Found σ) :=
  match o with
  | .hollow => .none
  | .reflected .none _ => .none
  | .direct h =>
    (H.direct h name).map fun m => ⟨m.exported, m.rules, m.body.map fun b => fun _ => b⟩
  | .reflected (some h) exports =>
    (H.reflected h.type name).map fun m =>
      ⟨decide (name ∈ exports), m.signature.rules, some (H.callReflected name h m)⟩

/-- An object has an exported method of a name, which does `run`. -/
structure Offers {σ : Type} (H : Host σ) (o : Object) (name : Text) (m : Found σ)
    (run : Legend → List Value → σ → Script σ Value) : Prop where
  found : H.lookup o name = some m
  exported : m.exported = true
  body : m.body = some run

end Host

end LittleLisp
