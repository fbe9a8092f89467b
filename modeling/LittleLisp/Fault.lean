/-
# Faults

A fault is what went wrong while a program was built or evaluated: a kind, a message
and the position of the form that produced it. Faults are values of the language, so
a program that goes wrong has a result like any other.

Key definitions: `Fault`, `Fault.text`, `Fault.located`.
-/
import LittleLisp.Position

namespace LittleLisp

/-- The kinds of fault. An embedding may make up further ones, known by their number. -/
inductive FaultKind where
  /-- The brackets of a token list do not match. -/
  | invalidInput
  /-- A token could not be read. -/
  | invalidToken
  /-- A name is bound nowhere. -/
  | notFound
  /-- The head of a form cannot be applied. -/
  | notAFunction
  /-- A method call has no receiver. -/
  | noReceiver
  /-- The receiver has no such method, or keeps it to itself. -/
  | notExported
  /-- The number of arguments is wrong. -/
  | arity
  /-- An argument is of the wrong sort. -/
  | argument
  /-- A special form is malformed. -/
  | malformed
  /-- A validator refused the arguments of a method. -/
  | violation
  /-- Something outside the language failed. -/
  | native
  | other (code : Nat)
  deriving DecidableEq

namespace FaultKind

/-- The kind with a number. -/
def ofCode : Nat → FaultKind
  | 1 => .invalidInput
  | 2 => .invalidToken
  | 3 => .notFound
  | 4 => .notAFunction
  | 5 => .noReceiver
  | 6 => .notExported
  | 7 => .arity
  | 8 => .argument
  | 9 => .malformed
  | 10 => .violation
  | 11 => .native
  | n => .other n

/-- The name of a kind, as programs and users see it. -/
def name : FaultKind → Text
  | .invalidInput => "BuildInvalidInput"
  | .invalidToken => "BuildInvalidToken"
  | .notFound => "EvalNotFoundInContext"
  | .notAFunction => "EvalIsNotAFunctionDataType"
  | .noReceiver => "EvalInvalidDotExprArity"
  | .notExported => "EvalNotExportedMethod"
  | .arity => "EvalInvalidArity"
  | .argument => "EvalInvalidArgument"
  | .malformed => "EvalInvalidSyntax"
  | .violation => "EvalSpecViolation"
  | .native => "EvalNativeFault"
  | .other n => Text.concat ["FaultKind(", Text.ofNat n, ")"]

end FaultKind

/-- Something that went wrong. -/
structure Fault where
  kind : FaultKind
  message : Text
  pos : Position
  deriving DecidableEq

namespace Fault

/-- A fault whose position is still to be filled in. -/
def unplaced (kind : FaultKind) (message : List Text) : Fault :=
  ⟨kind, Text.concat message, .unknown⟩

/-- A fault at a position. -/
def placed (kind : FaultKind) (pos : Position) (message : List Text) : Fault :=
  ⟨kind, Text.concat message, pos⟩

/-- The same fault, at `p` if its own position is unknown. -/
def located (f : Fault) (p : Position) : Fault := { f with pos := f.pos.orElse p }

/-- A fault as users see it: its position if known, its kind and its message. -/
def text (f : Fault) : Text :=
  let body := Text.concat [f.kind.name, ": ", f.message]
  if f.pos.isUnknown then body else Text.concat [f.pos.text, ": ", body]

@[simp] theorem located_kind (f : Fault) (p : Position) : (f.located p).kind = f.kind := rfl

@[simp] theorem located_message (f : Fault) (p : Position) :
    (f.located p).message = f.message := rfl

/-- A known position is kept. -/
theorem located_of_known {f : Fault} (h : f.pos.isUnknown = false) (p : Position) :
    f.located p = f := by
  simp [located, Position.orElse, h]

end Fault

/-- What interrupts an evaluation: a fault raised on purpose, or a failure outside the language
of which only a message is known. -/
inductive Alarm where
  | fault (f : Fault)
  | native (message : Text)
  deriving DecidableEq

namespace Alarm

/-- The fault that an alarm is reported as, at the first known position of its own and `ps`. -/
def toFault (kind : FaultKind) (a : Alarm) (ps : List Position) : Fault :=
  match a with
  | .fault f => f.located (Position.firstKnown ps)
  | .native message => ⟨kind, message, Position.firstKnown ps⟩

end Alarm

/-! ### Chains of computations that may fail -/

/-- A chain goes on with the result of its first link. -/
theorem except_ok_bind {ε α β : Type} (a : α) (f : α → Except ε β) :
    ((Except.ok a : Except ε α) >>= f) = f a := rfl

/-- A chain ends with a result if both of its links do. -/
theorem except_bind_eq_ok {ε α β : Type} {x : Except ε α} {f : α → Except ε β} {b : β} :
    (x >>= f) = .ok b ↔ ∃ a, x = .ok a ∧ f a = .ok b := by
  cases x <;> simp [bind, Except.bind]

/-- A chain fails with the first link that does. -/
theorem except_bind_eq_error {ε α β : Type} {x : Except ε α} {f : α → Except ε β} {a : ε} :
    (x >>= f) = .error a ↔ x = .error a ∨ ∃ b, x = .ok b ∧ f b = .error a := by
  cases x <;> simp [bind, Except.bind]

end LittleLisp
