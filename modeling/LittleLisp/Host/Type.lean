/-
# Host types

The types of the embedding program that its methods can take and return, as far as
the language has to tell them apart: to spell them in messages, to derive the rule
an argument must satisfy, and to convert arguments and results.

Key definitions: `HostType`, `OwnType`, `HostType.spelling`, `HostType.isNilable`.
-/
import LittleLisp.Text

namespace LittleLisp

/-- The widths of sized integers. -/
inductive IntWidth where
  | w8 | w16 | w32 | w64
  deriving DecidableEq

namespace IntWidth

/-- The number of bits. -/
def bits : IntWidth → Nat
  | .w8 => 8
  | .w16 => 16
  | .w32 => 32
  | .w64 => 64

end IntWidth

/-- The integer types. -/
inductive IntType where
  /-- The native signed integer, 64 bits wide. -/
  | int
  /-- The native unsigned integer, 64 bits wide. -/
  | uint
  | signed (w : IntWidth)
  | unsigned (w : IntWidth)
  deriving DecidableEq

namespace IntType

/-- The number of bits. -/
def bits : IntType → Nat
  | .int => 64
  | .uint => 64
  | .signed w => w.bits
  | .unsigned w => w.bits

/-- Whether the type has negative values. -/
def isSigned : IntType → Bool
  | .int => true
  | .uint => false
  | .signed _ => true
  | .unsigned _ => false

/-- The type as it is spelled. -/
def spelling : IntType → Text
  | .int => "int"
  | .uint => "uint"
  | .signed w => ("int" : Text) ++ Text.ofNat w.bits
  | .unsigned w => ("uint" : Text) ++ Text.ofNat w.bits

/-- The number of integers of the type. -/
def size (t : IntType) : Nat := Nat.pow 2 t.bits

/-- The unique integer of the type that is congruent to `z` modulo its size. -/
def wrap (t : IntType) (z : Int) : Int :=
  if t.isSigned then Int.bmod z t.size else z % (t.size : Int)

end IntType

/-- The interfaces: types that hold values of other types. -/
inductive Interface where
  /-- Holds everything. -/
  | any
  /-- Holds the values of the language. -/
  | value
  /-- Holds what can be called with values of the language. -/
  | callable
  /-- Holds what has a text of its own. -/
  | stringer
  deriving DecidableEq

namespace Interface

/-- The interface as it is spelled. -/
def spelling : Interface → Text
  | .any => "interface \x7b\x7d"
  | .value => "lisp.Value"
  | .callable => "lisp.Callable"
  | .stringer => "fmt.Stringer"

end Interface

/-- The types of the language's own values, as the embedding program sees them. -/
inductive OwnType where
  | nil
  | undefined
  /-- The keywords, a string type. -/
  | keyword
  /-- The atoms other than `nil` and the keywords, and the lists and maps. -/
  | primitive
  | function
  | transformer
  | object
  | error
  deriving DecidableEq

namespace OwnType

/-- The type as it is spelled. -/
def spelling : OwnType → Text
  | .nil => "lisp.Nil"
  | .undefined => "lisp.Undefined"
  | .keyword => "lisp.Keyword"
  | .primitive => "lisp.Primitive"
  | .function => "*lisp.Function"
  | .transformer => "*lisp.Macro"
  | .object => "*lisp.Object"
  | .error => "*lisp.Error"

/-- Whether the values of the type are pointers. -/
def isPointer : OwnType → Bool
  | .function => true
  | .transformer => true
  | .object => true
  | .error => true
  | _ => false

end OwnType

/-- The types of method parameters and results. Those with a name are the embedding program's. -/
inductive HostType where
  | integer (t : IntType)
  | float32
  | float64
  /-- A string type, known by its name. -/
  | string (name : Text)
  | bool
  | slice (elem : HostType)
  | array (length : Nat) (elem : HostType)
  | map (key elem : HostType)
  | pointer (name : Text)
  | struct (name : Text)
  /-- A named map type whose values answer look-ups themselves. -/
  | table (name : Text)
  | interface (i : Interface)
  /-- A function type, known by its signature. -/
  | function (signature : Text)
  /-- A type of values of the language. -/
  | own (t : OwnType)
  deriving DecidableEq

namespace HostType

/-- The type as it is spelled in messages. -/
def spelling : HostType → Text
  | .integer t => t.spelling
  | .float32 => "float32"
  | .float64 => "float64"
  | .string name => name
  | .bool => "bool"
  | .slice elem => ("[]" : Text) ++ elem.spelling
  | .array n elem => Text.concat ["[", Text.ofNat n, "]", elem.spelling]
  | .map key elem => Text.concat ["map[", key.spelling, "]", elem.spelling]
  | .pointer name => ("*" : Text) ++ name
  | .struct name => name
  | .table name => name
  | .interface i => i.spelling
  | .function signature => signature
  | .own t => t.spelling

/-- Whether `nil` is a value of the type. -/
def isNilable : HostType → Bool
  | .slice _ => true
  | .map _ _ => true
  | .pointer _ => true
  | .table _ => true
  | .interface _ => true
  | .function _ => true
  | .own t => t.isPointer
  | _ => false

/-- The plain string type. -/
abbrev text : HostType := .string "string"

/-- The values of the language. -/
abbrev value : HostType := .interface .value

/-- The native signed integer. -/
abbrev int : HostType := .integer .int

end HostType

end LittleLisp
