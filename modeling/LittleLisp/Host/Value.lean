/-
# Host values

Arguments cross over to the embedding program as host values of the parameter types
of a method, and results come back as values of the language. A number becomes an
integer by dropping its fraction and wrapping around, a list becomes a slice item by
item, an object becomes the host value behind it. What has no counterpart is refused
with a message that names the value and the type.

Two things that a host method could hand over have no place here, since no value of the
language stands for them: a map with keys that are no atoms, and a pointer of one of the
language's own types that points to nothing.

Key definitions: `HostValue`, `HostKey`, `HostType.rule`, `HostValue.ofValue`,
`HostValue.toValue`.
-/
import LittleLisp.Host.Type
import LittleLisp.Rule

namespace LittleLisp

/-- A key of a host map. -/
inductive HostKey where
  /-- The empty value of an interface. -/
  | nothing
  | integer (n : Int)
  | float (x : Float)
  | string (t : Text)
  | bool (b : Bool)
  /-- A key of the language, as it is. -/
  | atom (a : Atom)

/-- A value as the embedding program sees it. -/
inductive HostValue where
  /-- The empty value of a slice, map, pointer, function or interface, and the zero of a struct. -/
  | nothing
  | integer (n : Int)
  | float (x : Float)
  | string (t : Text)
  | bool (b : Bool)
  /-- A slice or an array. -/
  | list (items : List HostValue)
  | map (entries : List (HostKey × HostValue))
  /-- A struct, a pointer or a table. -/
  | handle (h : Handle)
  /-- A value of the language, as it is. -/
  | value (v : Value)

/-- What the embedding program knows about its types and objects. -/
structure HostTypes where
  /-- Whether the values of a type satisfy an interface. -/
  satisfies : HostType → Interface → Bool
  /-- The entries of a host table, where one is passed around as a plain map. -/
  tableEntries : Handle → List (Text × Handle)
  /-- Whether a host value answers method look-ups itself. -/
  isDirect : Handle → Bool

namespace HostType

/-- The rule for an argument of a type. -/
def rule : HostType → Rule
  | .integer _ => .number
  | .float32 => .number
  | .float64 => .number
  | .string _ => .string
  | .bool => .bool
  | .slice _ => .list
  | .array _ _ => .list
  | .map _ _ => .map
  | .table _ => .map
  | .pointer _ => .object
  | .struct _ => .object
  | .interface _ => .any
  | .function _ => .any
  | .own .keyword => .string
  | .own _ => .object

/-- The zero value of a type. -/
def zero : HostType → HostValue
  | .integer _ => .integer 0
  | .float32 => .float 0
  | .float64 => .float 0
  | .string _ => .string []
  | .bool => .bool false
  | .array n elem => .list (List.replicate n elem.zero)
  | .own .nil => .value .nil
  | .own .undefined => .value (.undefined [])
  | .own .keyword => .string []
  | .own .primitive => .value (.atom .vacant)
  | _ => .nothing

/-- Whether a value of type `source` can be assigned to a variable of type `target`. -/
def assignable (H : HostTypes) (source target : HostType) : Bool :=
  source == target ||
    match target with
    | .interface .any => true
    | .interface i => H.satisfies source i
    | _ => false

end HostType

namespace IntType

/-- The least 64-bit machine integer, which also stands for numbers that do not fit. -/
def leastWord : Int := -0x8000000000000000

/-- An integer cut to the 64-bit machine integers before it is narrowed. -/
def carrier (t : IntType) (z : Int) : Int :=
  let limit : Int := if t.isSigned then 0x8000000000000000 else 0x10000000000000000
  if leastWord ≤ z ∧ z < limit then z else leastWord

/-- A number as an integer of a type: without its fraction, wrapped to the type's width. -/
def ofNumber (t : IntType) (x : Float) : Int :=
  match Number.toInt x with
  | some z => t.wrap (t.carrier z)
  | none => t.wrap leastWord

end IntType

namespace HostValue

/-! ### From the language to the host -/

/-- The interfaces that a value of the language satisfies as it is, host objects and plain data
aside. -/
def isHeldBy (v : Value) : Interface → Bool
  | .any => true
  | .value => true
  | .stringer => true
  | .callable =>
    match v with
    | .function _ => true
    | _ => false

/-- The type of a value of the language, unless there is no value at all. -/
def ownType? : Value → Option OwnType
  | .absent => none
  | .nil => some .nil
  | .keyword _ => some .keyword
  | .atom _ => some .primitive
  | .undefined _ => some .undefined
  | .list _ _ => some .primitive
  | .map _ _ => some .primitive
  | .function _ => some .function
  | .transformer _ => some .transformer
  | .object _ => some .object
  | .error _ => some .error

/-- The refusal of a value. -/
def refuse (L : Legend) (v : Value) (t : HostType) : Except Alarm HostValue :=
  match v.plainText L with
  | .ok text => .error (.fault (.unplaced .argument ["cannot use ", text, " as ", t.spelling]))
  | .error message => .error (.native message)

/-- A value of the language that is handed over as it is, if the type can hold it. -/
def passed (L : Legend) (v : Value) (t : HostType) : Except Alarm HostValue :=
  match t with
  | .interface i => if isHeldBy v i then .ok (.value v) else refuse L v t
  | .own o => if ownType? v = some o then .ok (.value v) else refuse L v t
  | t => refuse L v t

/-- The failure of asking a missing host value for its type. -/
def typeOfNothing : Text := "reflect: call of reflect.Value.Type on zero Value"

/-- A host object as a host value. -/
def ofObject (H : HostTypes) (L : Legend) (o : Object) (t : HostType) : Except Alarm HostValue :=
  match o with
  | .hollow => .error (.native missingValue)
  | .reflected none _ => .error (.native typeOfNothing)
  | .reflected (some h) _ =>
    if h.type.assignable H t then .ok (.handle h) else passed L (.object o) t
  | .direct h => if h.type.assignable H t then .ok (.handle h) else passed L (.object o) t

/-- An atom as a host value. -/
def ofAtom (L : Legend) (a : Atom) (t : HostType) : Except Alarm HostValue :=
  match a, t with
  | .vacant, t => .ok t.zero
  | .nil, t => if t.isNilable then .ok .nothing else passed L .nil t
  | .keyword k, .string _ => .ok (.string k)
  | .keyword k, .own .keyword => .ok (.string k)
  | .keyword k, t => passed L (.keyword k) t
  | .number x, .integer i => .ok (.integer (i.ofNumber x))
  | .number x, .float32 => .ok (.float (Number.toSingle x))
  | .number x, .float64 => .ok (.float x)
  | .integer n, .integer .int => .ok (.integer n)
  | .string s, .string _ => .ok (.string s)
  | .string s, .own .keyword => .ok (.string s)
  | .bool b, .bool => .ok (.bool b)
  | .number x, .interface .any => .ok (.float x)
  | .integer n, .interface .any => .ok (.integer n)
  | .string s, .interface .any => .ok (.string s)
  | .bool b, .interface .any => .ok (.bool b)
  | a, t => refuse L (.atom a) t

mutual

/-- A value of the language as a host value of a type. -/
def ofValue (H : HostTypes) (L : Legend) : Value → HostType → Except Alarm HostValue
  | v, .interface .value => .ok (.value v)
  | .atom a, t => ofAtom L a t
  | .object o, t => ofObject H L o t
  | .list s items, .slice elem => do
    let _ := s
    let items ← ofItems H L items elem
    return .list items
  | .list _ items, .interface .any => .ok (.list (items.map .value))
  | .list s items, t => refuse L (.list s items) t
  | .map s entries, t =>
    if t = .map .value .value ∨ t = .interface .any then
      .ok (.map (entries.map fun e => (.atom e.1, .value e.2)))
    else refuse L (.map s entries) t
  | .absent, t => refuse L .absent t
  | .undefined n, t => passed L (.undefined n) t
  | .function r, t => passed L (.function r) t
  | .transformer r, t => passed L (.transformer r) t
  | .error f, t => passed L (.error f) t

/-- The items of a list as host values of one type. -/
def ofItems (H : HostTypes) (L : Legend) : List Value → HostType → Except Alarm (List HostValue)
  | [], _ => .ok []
  | v :: vs, t => do
    let x ← ofValue H L v t
    let xs ← ofItems H L vs t
    return x :: xs

end

/-! ### From the host to the language -/

/-- A host object without exported methods, unless it answers look-ups itself. -/
def objectOf (H : HostTypes) (h : Handle) : Value :=
  if H.isDirect h then .object (.direct h) else .object (.reflected (some h) [])

/-- A handle as a value: a table becomes a map, everything else an object. -/
def ofHandle (H : HostTypes) (h : Handle) : Value :=
  match h.type with
  | .table _ =>
    .map 0 ((H.tableEntries h).map fun e => (.string e.1, objectOf H e.2))
  | _ => objectOf H h

/-- A key of a host map with keys of a type as a key of the language. -/
def keyAtom : HostType → HostKey → Atom
  | _, .nothing => .nil
  | _, .integer n => .number (Number.ofInt n)
  | _, .float x => .number x
  | .own .keyword, .string t => .keyword t
  | _, .string t => .string t
  | _, .bool b => .bool b
  | _, .atom a => a

mutual

/-- A host value of a type as a value of the language. -/
def toValue (H : HostTypes) : HostType → HostValue → Value
  | .slice _, .nothing => .list 0 []
  | .map _ _, .nothing => .map 0 []
  | .table _, .nothing => .map 0 []
  | _, .nothing => .nil
  | _, .integer n => .number (Number.ofInt n)
  | _, .float x => .number x
  | .own .keyword, .string t => .keyword t
  | _, .string t => .string t
  | _, .bool b => .bool b
  | .slice elem, .list items => .list 0 (toValues H elem items)
  | .array _ elem, .list items => .list 0 (toValues H elem items)
  | _, .list items => .list 0 (toValues H (.interface .any) items)
  | .map key elem, .map entries => .map 0 (toEntries H key elem [] entries)
  | _, .map entries => .map 0 (toEntries H (.interface .any) (.interface .any) [] entries)
  | _, .handle h => ofHandle H h
  | _, .value v => v.orNil

/-- Host values of one type as values of the language. -/
def toValues (H : HostTypes) (elem : HostType) : List HostValue → List Value
  | [] => []
  | x :: xs => toValue H elem x :: toValues H elem xs

/-- The entries of a host map as entries of a map of the language, added to `done`. -/
def toEntries (H : HostTypes) (key elem : HostType) (done : Entries) :
    List (HostKey × HostValue) → Entries
  | [] => done
  | (k, x) :: rest =>
    toEntries H key elem (done.insert (keyAtom key k) (toValue H elem x)) rest

end

end HostValue

end LittleLisp
