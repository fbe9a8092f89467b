/-
# Command lines

A command line may name a configuration file, after `-config` or `--config`, and a
source file. Options end at the first argument that is none, or at `--`.

Key definitions: `Console.Request`, `Console.Request.ofArguments`.
-/
import LittleLisp.Text

namespace LittleLisp

namespace Console

/-- What the command line asks for: a configuration file and a source file, both optional. -/
structure Request where
  config : Option Text
  source : Option Text
  deriving DecidableEq

/-- What is wrong with a command line. -/
inductive ArgumentFault where
  /-- There is no such option. -/
  | unknown (name : Text)
  /-- An option is not followed by its value. -/
  | noValue (name : Text)
  /-- An argument starts like an option but names none. -/
  | malformed (argument : Text)
  /-- The user asks for help. -/
  | help
  deriving DecidableEq

/-- How the program is used. -/
def usage : Text :=
  "Usage of grove:\n  -config string\n    \tpath to a YAML config file\n"

/-- What a faulty command line is answered with. -/
def ArgumentFault.message : ArgumentFault → Text
  | .unknown name =>
    Text.concat ["flag provided but not defined: -", name, "\n", usage]
  | .noValue name => Text.concat ["flag needs an argument: -", name, "\n", usage]
  | .malformed argument => Text.concat ["bad flag syntax: ", argument, "\n", usage]
  | .help => usage

/-- The exit code after a faulty command line. -/
def ArgumentFault.exitCode : ArgumentFault → Nat
  | .help => 0
  | _ => 2

/-- The name of the option that an argument is, with what follows an equals sign. -/
def option? : Text → Option (Text × Option Text)
  | 0x2D :: 0x2D :: rest => some (divide rest)
  | 0x2D :: rest => if rest = [] then none else some (divide rest)
  | _ => none
where
  /-- The part before the first equals sign, and the part after it. -/
  divide (t : Text) : Text × Option Text :=
    let name := t.takeWhile (· != 0x3D)
    match t.drop name.length with
    | [] => (name, none)
    | _ :: value => (name, some value)

/-- The name of the option for a configuration file. -/
def configOption : Text := "config"

namespace Request

/-- The request of a command line, the options before it having named the configuration file
`config`. -/
def ofArgumentsWith (config : Option Text) : List Text → Except ArgumentFault Request
  | [] => .ok ⟨config, none⟩
  | argument :: others =>
    match option? argument with
    | none => .ok ⟨config, some argument⟩
    | some (name, value) =>
      if name = [] then
        if argument = "--" then .ok ⟨config, others.head?⟩ else .error (.malformed argument)
      else if name.head? = some 0x2D then .error (.malformed argument)
      else if name = configOption then
        match value, others with
        | some path, others => ofArgumentsWith (some path) others
        | none, path :: others => ofArgumentsWith (some path) others
        | none, [] => .error (.noValue name)
      else if name = "h" ∨ name = "help" then .error .help
      else .error (.unknown name)

/-- The request of a command line. -/
def ofArguments (arguments : List Text) : Except ArgumentFault Request :=
  ofArgumentsWith none arguments

end Request

end Console

end LittleLisp
