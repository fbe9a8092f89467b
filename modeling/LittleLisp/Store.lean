/-
# The store

What an evaluation can change: the names of a module, the functions and transformers
made so far, the last stamp given out, and the state of the embedding program.
Functions and transformers are referred to by their number, so that every holder of a
function sees the name that `def` gives it.

The store starts with a few functions that evaluation itself needs, whatever the
module binds.

Key definitions: `Function`, `Transformer`, `Store`, `Store.withGlobals`, `Store.legend`.
-/
import LittleLisp.Bindings
import LittleLisp.Builtin
import LittleLisp.Host.Method
import LittleLisp.Pattern
import LittleLisp.Tree

namespace LittleLisp

/-- The local names of an evaluation. -/
abbrev Scope := Bindings Value

/-- A function written in the language: its parameters, its body, and the scope it was made in. -/
structure Closure where
  params : List Text
  /-- The name of the list of all further arguments. -/
  rest : Option Text
  body : List Node
  scope : Scope

/-- What a function does. -/
inductive Body where
  | builtin (b : Builtin)
  | closure (c : Closure)
  /-- Binds a name of the module to the one argument. -/
  | binder (name : Text)
  /-- A function of the embedding program. -/
  | native (name : Text)

/-- A function, whose name is empty until `def` gives it one. -/
structure Function where
  name : Text
  body : Body

/-- The special forms every module starts with. -/
inductive SpecialForm where
  | conditional
  | define
  | lambda
  | cond
  | quote
  | defineForm
  deriving DecidableEq

namespace SpecialForm

/-- The name a special form is bound to. -/
def name : SpecialForm → Text
  | .conditional => "if"
  | .define => "def"
  | .lambda => "fn"
  | .cond => "cond"
  | .quote => "quote"
  | .defineForm => "defsyntax"

/-- All special forms. -/
def all : List SpecialForm := [.conditional, .define, .lambda, .cond, .quote, .defineForm]

end SpecialForm

/-- How a transformer finds what a form is replaced by. -/
inductive Expander where
  | special (f : SpecialForm)
  /-- By the clauses of a user-defined form. -/
  | userDefined (x : Transformation)
  /-- By its last operand. -/
  | lastOperand
  /-- By the value that its last operand has at that moment. -/
  | eager

/-- A transformer. -/
structure Transformer where
  name : Text
  expander : Expander

/-- What an evaluation can change. -/
structure Store (σ : Type) where
  module : Text
  bindings : Bindings Value
  functions : Array Function
  transformers : Array Transformer
  /-- The last stamp given to a list or map. -/
  stamps : Nat
  host : σ

namespace Store

variable {σ : Type}

/-- The function `identity` that leaves are evaluated with. -/
def identityRef : Nat := 0

/-- The function `get` that keywords in head position stand for. -/
def getRef : Nat := 1

/-- The function `do` that the clauses of `cond` are evaluated with. -/
def doRef : Nat := 2

/-- The form `if` that `cond` is made of. -/
def conditionalRef : Nat := 0

/-- The store of a module that binds nothing. -/
def empty (module : Text) (host : σ) : Store σ where
  module
  bindings := []
  functions := #[.identity, .get, .do].map fun b : Builtin => ⟨b.name, .builtin b⟩
  transformers := #[⟨SpecialForm.conditional.name, .special .conditional⟩]
  stamps := 0
  host

/-- A new function and its reference. -/
def addFunction (s : Store σ) (f : Function) : Nat × Store σ :=
  (s.functions.size, { s with functions := s.functions.push f })

/-- A new transformer and its reference. -/
def addTransformer (s : Store σ) (x : Transformer) : Nat × Store σ :=
  (s.transformers.size, { s with transformers := s.transformers.push x })

/-- Binds a name of the module. -/
def bind (s : Store σ) (name : Text) (v : Value) : Store σ :=
  { s with bindings := s.bindings.insert name v }

/-- What a name of the module is bound to. -/
def find? (s : Store σ) (name : Text) : Option Value := s.bindings.find? name

/-- A new value of a built-in function, except that there is only one `identity` and one `get`. -/
def builtin (s : Store σ) (b : Builtin) : Value × Store σ :=
  match b with
  | .identity => (.function identityRef, s)
  | .get => (.function getRef, s)
  | b =>
    let (ref, s) := s.addFunction ⟨b.name, .builtin b⟩
    (.function ref, s)

/-- A new value of a special form. -/
def special (s : Store σ) (f : SpecialForm) : Value × Store σ :=
  let (ref, s) := s.addTransformer ⟨f.name, .special f⟩
  (.transformer ref, s)

/-- Binds a built-in function to its name. -/
def bindBuiltin (s : Store σ) (b : Builtin) : Store σ :=
  let (v, s) := s.builtin b
  s.bind b.name v

/-- Binds a special form to its name. -/
def bindSpecial (s : Store σ) (f : SpecialForm) : Store σ :=
  let (v, s) := s.special f
  s.bind f.name v

/-- The store of a module that binds the built-in functions, the special forms and `pi`. -/
def withGlobals (module : Text) (host : σ) : Store σ :=
  SpecialForm.all.foldl bindSpecial <|
    (Builtin.all.foldl bindBuiltin (empty module host)).bind "pi" (.number Number.pi)

/-- A new value of what a name is bound to in a fresh module. -/
def global? (s : Store σ) (name : Text) : Option (Value × Store σ) :=
  match Builtin.all.find? fun b => b.name == name with
  | some b => some (s.builtin b)
  | none =>
    match SpecialForm.all.find? fun f => f.name == name with
    | some f => some (s.special f)
    | none => if name = "pi" then some (.number Number.pi, s) else none

/-- Gives a function the name of its first definition; a named function keeps its name. -/
def nameFunction (s : Store σ) (ref : Nat) (name : Text) : Store σ :=
  { s with functions := s.functions.modify ref fun f => if f.name = [] then { f with name } else f }

/-- What a binder does: names a nameless function, and binds the name in the module. -/
def define (s : Store σ) (name : Text) (v : Value) : Store σ :=
  match v with
  | .function ref => (s.nameFunction ref name).bind name v
  | v => s.bind name v

/-- How values are printed in a store. -/
def legend (s : Store σ) (H : Host σ) : Legend where
  functionName ref := (s.functions[ref]?.map Function.name).getD []
  transformerName ref := (s.transformers[ref]?.map Transformer.name).getD []
  objectText := H.objectText s.host

end Store

end LittleLisp
