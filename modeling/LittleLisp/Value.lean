/-
# Values

What an evaluation can produce. Functions and transformers are references into the
store, where `def` can give them a name; host objects are handles that the embedding
program understands. All other values are plain data.

The values that can be keys of a map are the atoms. Lists and maps are compared by
their contents, with one exception: a list or map that directly holds a number which
is none (such a number differs even from itself) is equal to itself only, so it
carries a stamp of its own. All other lists and maps have stamp zero.

Key definitions: `Atom`, `Value`, `Value.same`, `Value.stamped`, `Value.isKey`, `Entries.insert`,
`Entries.write`.
-/
import LittleLisp.Fault
import LittleLisp.Host.Type
import LittleLisp.Number

namespace LittleLisp

/-- The values without parts; exactly these can be keys of a map. -/
inductive Atom where
  | nil
  | bool (b : Bool)
  | number (x : Float)
  | string (t : Text)
  /-- A keyword, with its marker. -/
  | keyword (t : Text)
  /-- An integer of the embedding program, which the language only passes around. -/
  | integer (n : Int)
  /-- An empty payload of the embedding program. -/
  | vacant

namespace Atom

/-- Equality of atoms; numbers are compared as numbers. -/
def same : Atom → Atom → Bool
  | .nil, .nil => true
  | .bool a, .bool b => a == b
  | .number x, .number y => x == y
  | .string s, .string t => s == t
  | .keyword s, .keyword t => s == t
  | .integer m, .integer n => m == n
  | .vacant, .vacant => true
  | _, _ => false

/-- Whether an atom is a number that is none. -/
def isNaN : Atom → Bool
  | .number x => Number.isNaN x
  | _ => false

end Atom

/-- A value of the embedding program, known by its type and a number. -/
structure Handle where
  type : HostType
  id : Nat
  deriving DecidableEq

/-- A host object: something of the embedding program with methods. -/
inductive Object where
  /-- An object without anything behind it. -/
  | hollow
  /-- A host value that answers method look-ups itself. -/
  | direct (h : Handle)
  /-- A host value of which only the listed methods are exported; `none` has no methods at all. -/
  | reflected (h : Option Handle) (exports : List Text)
  deriving DecidableEq

/-- The values of the language. -/
inductive Value where
  /-- No value at all, which only an embedding program can bring in. -/
  | absent
  | atom (a : Atom)
  /-- What an identifier carries that the reader knows nothing about. -/
  | undefined (name : Text)
  | list (stamp : Nat) (items : List Value)
  | map (stamp : Nat) (entries : List (Atom × Value))
  /-- A function of the store. -/
  | function (ref : Nat)
  /-- A transformer of the store: what makes a form a special form. -/
  | transformer (ref : Nat)
  | object (o : Object)
  | error (f : Fault)

instance : Inhabited Value := ⟨.absent⟩

/-- The entries of a map, with at most one for each key. -/
abbrev Entries := List (Atom × Value)

namespace Entries

/-- The value of a key. -/
def find? (k : Atom) : Entries → Option Value
  | [] => none
  | (k', v) :: rest => if k.same k' then some v else find? k rest

/-- The entries with `k` bound to `v`, the key being written as given. -/
def insert (k : Atom) (v : Value) : Entries → Entries
  | [] => [(k, v)]
  | (k', v') :: rest => if k.same k' then (k, v) :: rest else (k', v') :: insert k v rest

end Entries

namespace Value

/-- The value `nil`. -/
@[match_pattern] abbrev nil : Value := .atom .nil

/-- A truth value. -/
@[match_pattern] abbrev bool (b : Bool) : Value := .atom (.bool b)

/-- A number. -/
@[match_pattern] abbrev number (x : Float) : Value := .atom (.number x)

/-- A string. -/
@[match_pattern] abbrev string (t : Text) : Value := .atom (.string t)

/-- A keyword. -/
@[match_pattern] abbrev keyword (t : Text) : Value := .atom (.keyword t)

/-- A fault without a position, as a value. -/
def fail (kind : FaultKind) (message : List Text) : Value := .error (.unplaced kind message)

/-- The fault a value is, if it is one. -/
def fault? : Value → Option Fault
  | .error f => some f
  | _ => none

/-- Whether a value is a fault. -/
def isError : Value → Bool
  | .error _ => true
  | _ => false

/-- Only `nil`, `false` and no value at all count as false. -/
def isTruthy : Value → Bool
  | .absent => false
  | .nil => false
  | .bool b => b
  | _ => true

/-- Whether a value is a number that is none. -/
def isNaN : Value → Bool
  | .atom a => a.isNaN
  | _ => false

/-- The number a value is. -/
def number? : Value → Option Float
  | .number x => some x
  | _ => none

/-- A missing value counts as `nil`. -/
def orNil : Value → Value
  | .absent => .nil
  | v => v

/-- A fault without a position gets `p`; everything else stays as it is. -/
def located (v : Value) (p : Position) : Value :=
  match v with
  | .error f => .error (f.located p)
  | v => v

/-! ### Equality -/

mutual

/-- Equality of values: of data by contents, of functions and transformers by identity. -/
def same : Value → Value → Bool
  | .absent, .absent => true
  | .atom a, .atom b => a.same b
  | .undefined m, .undefined n => m == n
  | .list s xs, .list t ys => (s != 0 && s == t) || sameItems xs ys
  | .map s es, .map t fs => (s != 0 && s == t) || (es.length == fs.length && sameEntries es fs)
  | .function r, .function q => r == q
  | .transformer r, .transformer q => r == q
  | .object o, .object p => o == p
  | .error f, .error g => f == g
  | _, _ => false

/-- Equality of items, place by place. -/
def sameItems : List Value → List Value → Bool
  | [], [] => true
  | x :: xs, y :: ys => same x y && sameItems xs ys
  | _, _ => false

/-- Whether every entry of the first map has an equal one in the second. -/
def sameEntries : List (Atom × Value) → List (Atom × Value) → Bool
  | [], _ => true
  | (k, v) :: es, fs =>
    (match Entries.find? k fs with
      | some w => same v w
      | none => false) && sameEntries es fs

end

/-! ### Keys -/

/-- Whether a value can be a key of a map. -/
def isKey : Value → Bool
  | .atom _ => true
  | _ => false

/-- The failure to use a value as a key. Lists and maps have no hash; the other values that are no
atoms are kept out of maps as well. -/
def hashFailure : Value → Text
  | .list _ _ => "runtime error: hash of unhashable type []lisp.Value"
  | .map _ _ => "runtime error: hash of unhashable type map[lisp.Value]lisp.Value"
  | _ => "runtime error: hash of unhashable type lisp.Value"

/-! ### Stamps -/

/-- Whether a fresh list or map needs a stamp: it directly holds a number that is none. -/
def needsStamp : Value → Bool
  | .list 0 items => items.any isNaN
  | .map 0 entries => entries.any fun e => e.1.isNaN || e.2.isNaN
  | _ => false

/-- A fresh list or map, stamped with the successor of `n` if it needs a stamp, and the last stamp
in use afterwards. -/
def stamped (v : Value) (n : Nat) : Value × Nat :=
  if v.needsStamp then
    match v with
    | .list _ items => (.list (n + 1) items, n + 1)
    | .map _ entries => (.map (n + 1) entries, n + 1)
    | v => (v, n)
  else (v, n)

mutual

/-- A value built in one go, with every fresh list and map in it stamped that needs it. -/
def settled : Value → Nat → Value × Nat
  | .list 0 items, n =>
    let (items, n) := settledItems items n
    (Value.list 0 items).stamped n
  | .map 0 entries, n =>
    let (entries, n) := settledEntries entries n
    (Value.map 0 entries).stamped n
  | v, n => (v, n)

/-- The items of a fresh list, settled from left to right. -/
def settledItems : List Value → Nat → List Value × Nat
  | [], n => ([], n)
  | v :: vs, n =>
    let (v, n) := settled v n
    let (vs, n) := settledItems vs n
    (v :: vs, n)

/-- The entries of a fresh map, settled from left to right. -/
def settledEntries : List (Atom × Value) → Nat → List (Atom × Value) × Nat
  | [], n => ([], n)
  | (k, v) :: es, n =>
    let (v, n) := settled v n
    let (es, n) := settledEntries es n
    ((k, v) :: es, n)

end

end Value

namespace Entries

/-- The value of a key, whatever is taken as the key. -/
def read (k : Value) (es : Entries) : Except Text (Option Value) :=
  match k with
  | .atom a => .ok (es.find? a)
  | k => .error k.hashFailure

/-- The entries with a key bound to `v`, whatever is taken as the key. -/
def write (k v : Value) (es : Entries) : Except Text Entries :=
  match k with
  | .atom a => .ok (es.insert a v)
  | k => .error k.hashFailure

end Entries

end LittleLisp
