/-
# Built-in functions

The functions every module starts with: arithmetic and comparison, lists and maps,
strings. They have no effects. A call with arguments of the wrong number or sort gives
a fault as its value. It fails where a missing value has to be printed, and it would fail
where an argument is read that is not there or a list is used as a key, which the checks
before keep from happening.

Key definitions: `Builtin`, `Builtin.name`, `Builtin.apply`.
-/
import LittleLisp.Slice
import LittleLisp.Value.Text

namespace LittleLisp

/-- The built-in functions. -/
inductive Builtin where
  | add | sub | mul | div | mod
  | eq | lt | gt | le | ge
  | not | isNil | isNumber | isError | errorKind
  | list | cons | first | rest
  | hashMap | get | assoc
  | count | str | do | identity
  deriving DecidableEq

namespace Builtin

/-- The name a function is bound to. -/
def name : Builtin → Text
  | .add => "+"
  | .sub => "-"
  | .mul => "*"
  | .div => "/"
  | .mod => "mod"
  | .eq => "="
  | .lt => "<"
  | .gt => ">"
  | .le => "<="
  | .ge => ">="
  | .not => "not"
  | .isNil => "nil?"
  | .isNumber => "number?"
  | .isError => "error?"
  | .errorKind => "error-kind"
  | .list => "list"
  | .cons => "cons"
  | .first => "first"
  | .rest => "rest"
  | .hashMap => "hash-map"
  | .get => "get"
  | .assoc => "assoc"
  | .count => "count"
  | .str => "str"
  | .do => "do"
  | .identity => "identity"

/-- All built-in functions. -/
def all : List Builtin :=
  [.add, .sub, .mul, .div, .eq, .lt, .gt, .le, .ge, .mod, .not, .isNil, .isNumber, .isError,
    .errorKind, .list, .cons, .first, .rest, .hashMap, .get, .assoc, .count, .str, .do, .identity]

/-- The result of a call: a value, which may be a fault, or a failure. -/
abbrev Result := Except Text Value

/-- What is wrong with a number of arguments, if anything; without `most` there is no upper
limit. -/
def arityFault? (name : Text) (n least : Nat) (most : Option Nat) : Option Value :=
  if n < least ∨ most.any (· < n) then
    some <| .fail .arity <|
      match most with
      | none => [name, " expects at least ", Text.ofNat least, " arguments, got ", Text.ofNat n]
      | some m =>
        if least = m then [name, " expects ", Text.ofNat least, " arguments, got ", Text.ofNat n]
        else
          [name, " expects ", Text.ofNat least, " to ", Text.ofNat m, " arguments, got ",
            Text.ofNat n]
  else none

/-- Goes on if the number of arguments is right. -/
def withArity (name : Text) (args : List Value) (least : Nat) (most : Option Nat) (k : Result) :
    Result :=
  match arityFault? name args.length least most with
  | some v => .ok v
  | none => k

/-- The numbers among the arguments from index `i` on: all of them, or the first argument that is
none. -/
def numbers : Nat → List Value → Except (Nat × Value) (List Float)
  | _, [] => .ok []
  | i, v :: vs =>
    match v.number? with
    | none => .error (i, v)
    | some x =>
      match numbers (i + 1) vs with
      | .ok xs => .ok (x :: xs)
      | .error e => .error e

/-- Goes on with the arguments as numbers, if they all are. -/
def withNumbers (L : Legend) (name : Text) (args : List Value) (k : List Float → Result) :
    Result :=
  match numbers 0 args with
  | .ok xs => k xs
  | .error (i, v) => do
    let t ← v.described L
    return .fail .argument [name, ": argument ", Text.ofNat (i + 1), " is not a number: ", t]

/-- The result of dividing in order, unless a divisor is zero. -/
def quotient : Float → List Float → Option Float
  | x, [] => some x
  | x, y :: ys => if y == 0 then none else quotient (x / y) ys

/-- Whether each number is related to the next. -/
def ordered (r : Float → Float → Bool) : List Float → Bool
  | x :: y :: more => r x y && ordered r (y :: more)
  | _ => true

/-- A comparison of neighbours. -/
def comparison (L : Legend) (name : Text) (r : Float → Float → Bool) (args : List Value) : Result :=
  withArity name args 1 none <|
    withNumbers L name args fun xs => .ok (.bool (ordered r xs))

/-- A division by zero. -/
def divisionByZero (name : Text) : Value := .fail .argument [name, ": division by zero"]

/-- Goes on with the items of a list; `nil` is the empty list. -/
def withList (L : Legend) (name : Text) (v : Value) (k : List Value → Result) : Result :=
  match v with
  | .nil => k []
  | .list _ items => k items
  | v => do
    let t ← v.described L
    return .fail .argument [name, ": ", t, " is not a list"]

/-- The entries with the pairs of the arguments from index `i` on added, or the first key that
cannot be one. -/
def addPairs : Nat → Entries → List Value → Except Text (Except Value Entries)
  | _, es, [] => .ok (.ok es)
  | i, _, [k] =>
    if k.isKey then .error (Slice.outOfRange (i + 1) (i + 1)) else .ok (.error k)
  | i, es, k :: v :: more =>
    if k.isKey then do
      let es ← es.write k v
      addPairs (i + 2) es more
    else .ok (.error k)

/-- Goes on with the pairs of the arguments from index `i` on added to the entries. -/
def withPairs (L : Legend) (name : Text) (i : Nat) (es : Entries) (pairs : List Value) :
    Result := do
  match ← addPairs i es pairs with
  | .ok es => return .map 0 es
  | .error k =>
    let t ← k.described L
    return .fail .argument [name, ": ", t, " cannot be used as a key"]

/-- Looks up a key of a map or an index of a list. A missing entry gives `default`. -/
def getFrom (L : Legend) (coll key default : Value) : Result :=
  match coll with
  | .nil => .ok default
  | .map _ es =>
    if key.isKey then do
      match ← Entries.read key es with
      | some v => return v
      | none => return default
    else .ok default
  | .list _ items =>
    match key.number?.bind Number.toIndex with
    | some i => if i < items.length then Slice.item items i else .ok default
    | none => .ok default
  | coll => do
    let t ← coll.described L
    return .fail .argument ["get: ", t, " is not a collection"]

/-- The number of items, entries or characters. -/
def countOf (L : Legend) (v : Value) : Result :=
  match v with
  | .nil => .ok (.number (Number.ofNat 0))
  | .list _ items => .ok (.number (Number.ofNat items.length))
  | .map _ es => .ok (.number (Number.ofNat es.length))
  | .string t => .ok (.number (Number.ofNat t.runeCount))
  | v => do
    let t ← v.described L
    return .fail .argument ["count: ", t, " is not countable"]

/-- Strings as they are, `nil` as nothing, everything else as it is printed. -/
def strTexts (L : Legend) : List Value → Except Text Text
  | [] => .ok []
  | v :: vs => do
    let t ← match v with
      | .string t => .ok t
      | .nil => .ok []
      | v => v.text L
    let ts ← strTexts L vs
    return t ++ ts

/-- Calls a built-in function. The arguments are read by their index, once their number is known to
be right. -/
def apply (L : Legend) (f : Builtin) (args : List Value) : Result :=
  match f with
  | .add => withNumbers L "+" args fun xs => .ok (.number (xs.foldl (· + ·) 0))
  | .mul => withNumbers L "*" args fun xs => .ok (.number (xs.foldl (· * ·) 1))
  | .sub =>
    withArity "-" args 1 none <| withNumbers L "-" args fun xs => do
      let x ← Slice.item xs 0
      if xs.length = 1 then return .number (-x)
      else
        let ys ← Slice.after xs 1
        return .number (ys.foldl (· - ·) x)
  | .div =>
    withArity "/" args 1 none <| withNumbers L "/" args fun xs => do
      let xs := if xs.length = 1 then 1 :: xs else xs
      let x ← Slice.item xs 0
      let ys ← Slice.after xs 1
      match quotient x ys with
      | some x => return .number x
      | none => return divisionByZero "/"
  | .mod =>
    withArity "mod" args 2 (some 2) <| withNumbers L "mod" args fun xs => do
      let y ← Slice.item xs 1
      if y == 0 then return divisionByZero "mod"
      else
        let x ← Slice.item xs 0
        return .number (Number.remainder x y)
  | .eq =>
    withArity "=" args 1 none do
      let vs ← Slice.after args 1
      let v ← Slice.item args 0
      return .bool (vs.all fun w => v.same w)
  | .lt => comparison L "<" (fun x y => x < y) args
  | .gt => comparison L ">" (fun x y => x > y) args
  | .le => comparison L "<=" (fun x y => x ≤ y) args
  | .ge => comparison L ">=" (fun x y => x ≥ y) args
  | .not =>
    withArity "not" args 1 (some 1) do
      let v ← Slice.item args 0
      return .bool (!v.isTruthy)
  | .isNil =>
    withArity "nil?" args 1 (some 1) do
      match ← Slice.item args 0 with
      | .nil => return .bool true
      | _ => return .bool false
  | .isNumber =>
    withArity "number?" args 1 (some 1) do
      let v ← Slice.item args 0
      return .bool v.number?.isSome
  | .isError =>
    withArity "error?" args 1 (some 1) do
      let v ← Slice.item args 0
      return .bool v.isError
  | .errorKind =>
    withArity "error-kind" args 1 (some 1) do
      match ← Slice.item args 0 with
      | .error f => return .string f.kind.name
      | _ => return .nil
  | .list => .ok (.list 0 args)
  | .cons =>
    withArity "cons" args 2 (some 2) do
      let l ← Slice.item args 1
      withList L "cons" l fun items => do
        let v ← Slice.item args 0
        return .list 0 (v :: items)
  | .first =>
    withArity "first" args 1 (some 1) do
      let l ← Slice.item args 0
      withList L "first" l fun items =>
        if items.length = 0 then .ok .nil else Slice.item items 0
  | .rest =>
    withArity "rest" args 1 (some 1) do
      let l ← Slice.item args 0
      withList L "rest" l fun items =>
        if items.length ≤ 1 then .ok (.list 0 [])
        else do
          let others ← Slice.after items 1
          return .list 0 others
  | .hashMap =>
    if args.length % 2 ≠ 0 then
      .ok (.fail .arity
        ["hash-map expects an even number of arguments, got ", Text.ofNat args.length])
    else withPairs L "hash-map" 0 [] args
  | .get =>
    withArity "get" args 2 (some 3) do
      let default ← if args.length = 3 then Slice.item args 2 else .ok .nil
      let coll ← Slice.item args 0
      let key ← Slice.item args 1
      getFrom L coll key default
  | .assoc =>
    if args.length < 3 ∨ args.length % 2 ≠ 1 then
      .ok (.fail .arity
        ["assoc expects a map followed by key value pairs, got ", Text.ofNat args.length,
          " arguments"])
    else do
      match ← Slice.item args 0 with
      | .nil => withPairs L "assoc" 1 [] (args.drop 1)
      | .map _ es => withPairs L "assoc" 1 es (args.drop 1)
      | v =>
        let t ← v.described L
        return .fail .argument ["assoc: ", t, " is not a hash-map"]
  | .count =>
    withArity "count" args 1 (some 1) do
      let v ← Slice.item args 0
      countOf L v
  | .str => do
    let t ← strTexts L args
    return .string t
  | .do => if args.length = 0 then .ok .nil else Slice.item args ((args.length : Int) - 1)
  | .identity =>
    if args.length ≠ 1 then
      .ok (.fail .arity ["identity expects 1 argument, got ", Text.ofNat args.length])
    else Slice.item args 0

/-- Whether a function builds a new list or map. -/
def builds : Builtin → Bool
  | .list => true
  | .cons => true
  | .rest => true
  | .hashMap => true
  | .assoc => true
  | _ => false

end Builtin

end LittleLisp
