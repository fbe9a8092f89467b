/-
# The console

The embedding program behind the command line. It offers one function, `print`, and
keeps what is printed in a transcript. It runs a file up to the first fault, or holds a
dialogue: it asks for lines until they leave no list open, evaluates them and prints the
values. A dialogue keeps a record of the trees that it evaluates.

Key definitions: `Transcript`, `Console.host`, `Console.start`, `Console.runTrees`,
`Console.runFile`, `Dialogue`, `Dialogue.feed`, `Dialogue.converse`, `Console.serve`,
`Console.run`.
-/
import LittleLisp.Config.File
import LittleLisp.Console.History
import LittleLisp.Console.Request
import LittleLisp.Session
import LittleLisp.Text.Blank

namespace LittleLisp

/-- What was printed, latest first. -/
structure Transcript where
  written : List Text

namespace Transcript

/-- Nothing printed yet. -/
def empty : Transcript := ⟨[]⟩

/-- Prints a text. -/
def write (t : Transcript) (text : Text) : Transcript := ⟨text :: t.written⟩

/-- Everything printed, in order. -/
def text (t : Transcript) : Text := Text.concat t.written.reverse

end Transcript

namespace Console

/-- The name of the function that prints. -/
def printName : Text := "print"

/-- Prints the values on one line, strings as they are and everything else as its text; `parts` are
the texts so far in reverse order. -/
def printing : List Value → List Text → Transcript → Script Transcript Value
  | [], parts, s => .done (s.write (Text.join " " parts.reverse ++ ("\n" : Text))) .nil
  | v :: vs, parts, s =>
    match v with
    | .string t => printing vs (t :: parts) s
    | v => .print s v fun t => printing vs (t :: parts) s

/-- The console as an embedding program. -/
def host : Host Transcript where
  types := ⟨fun _ _ => false, fun _ => [], fun _ => false⟩
  native name args s := if name = printName then printing args [] s else .done s .absent
  direct _ _ := none
  reflected _ _ := none
  label _ _ := none

/-- A session of the console. -/
abbrev ConsoleSession := Session Transcript

/-- Prints a text outside of any evaluation. -/
def say (s : ConsoleSession) (text : Text) : ConsoleSession :=
  { s with store := { s.store with host := s.store.host.write text } }

/-- A session with `print` and, if the configuration asks for it, the prelude; or the fault that the
prelude ended with. -/
def start (c : Config) : Option (Except Fault ConsoleSession) :=
  let s := (Session.start c host .empty).bindNative printName
  if c.loadsPrelude then do
    let (f, s) ← s.loadPrelude
    match f with
    | some f => return .error f
    | none => return .ok s
  else some (.ok s)

end Console

/-! ### Dialogues -/

/-- A dialogue: a session, the inputs so far, and the lines of an unfinished one. -/
structure Dialogue where
  session : Console.ConsoleSession
  history : History
  pending : Text
  /-- The trees that were evaluated, in order. -/
  evaluated : Forest

/-- How a dialogue stands. -/
inductive Dialogue.Stage where
  /-- It takes another line. -/
  | waiting
  /-- It has come to its end. -/
  | over
  /-- An evaluation nested deeper than the session allows. -/
  | stuck
  deriving DecidableEq

namespace Dialogue

/-- A dialogue at its start, with the inputs of earlier ones. -/
def start (session : Console.ConsoleSession) (history : History) : Dialogue :=
  ⟨session, history, [], []⟩

/-- What a dialogue starts with. -/
def banner : Text := "grove REPL. Ctrl+D or :quit exits.\n"

/-- The input that ends a dialogue. -/
def quit : Text := ":quit"

/-- What asks for the next line. -/
def prompt (d : Dialogue) : Text := if d.pending = [] then "> " else ". "

/-- Prints a text. -/
def say (d : Dialogue) (text : Text) : Dialogue := { d with session := Console.say d.session text }

/-- An unfinished input with one more line. -/
def addLine (pending line : Text) : Text :=
  if pending = [] then line else Text.concat [pending, "\n", line]

/-- Whether an input leaves a list open. -/
def isOpen (r : Reader) (input : Text) : Bool := Token.incomplete (r.tokens input)

/-- An input as it is recorded, on one line. -/
def oneLine (input : Text) : Text := input.map fun b => if b = 0x0A then 0x20 else b

/-- Evaluates an input and prints one line for each value. -/
def evaluate (d : Dialogue) (input : Text) : Dialogue × Stage :=
  let trees := d.session.parse input
  let d := { d with history := d.history.add (oneLine input), evaluated := d.evaluated ++ trees }
  match d.session.evalForest trees with
  | none => (d, .stuck)
  | some (vs, session) =>
    let L := session.legend
    let out := Text.concat (vs.map fun v => v.shownInside L ++ ("\n" : Text))
    ({ d with session := Console.say session out }, .waiting)

/-- Takes a finished input. -/
def take (d : Dialogue) (input : Text) : Dialogue × Stage :=
  if input.trim = [] then (d, .waiting)
  else if input.trim = quit then (d, .over)
  else d.evaluate input

/-- Takes a line. -/
def feed (d : Dialogue) (line : Text) : Dialogue × Stage :=
  let input := addLine d.pending line
  if isOpen d.session.reader input then ({ d with pending := input }, .waiting)
  else take { d with pending := [] } input

/-- The whole dialogue with the lines of an input; an unfinished input at its end is dropped. -/
def converse : List Text → Dialogue → Dialogue × Stage
  | [], d => ((d.say d.prompt).say "\n", .over)
  | line :: lines, d =>
    match (d.say d.prompt).feed line with
    | (d, .waiting) => converse lines d
    | ended => ended

end Dialogue

/-! ### The command line -/

namespace Console

/-- What a run of the console leaves behind. -/
structure Report where
  exitCode : Nat
  output : Text
  errors : Text
  /-- The new contents of the history file, if it was written. -/
  history : Option Text

/-- The report of a run that ended with an error before anything was printed. -/
def failure (exitCode : Nat) (message : Text) : Report :=
  ⟨exitCode, [], message ++ ("\n" : Text), none⟩

/-- The message of a prelude that ended with a fault. -/
def preludeMessage (f : Fault) : Text := Text.concat ["loading prelude: ", f.text]

/-- What is wrong with the entry at the path of a source file, if anything. -/
def sourceProblem (path : Text) (found : Entry) : Text :=
  match found with
  | .directory => Text.concat ["read ", path, ": ", found.problem]
  | found => Text.concat ["open ", path, ": ", found.problem]

/-- What the run of a file leaves behind: its exit code, what was reported and the session. -/
structure FileRun (σ : Type) where
  exitCode : Nat
  errors : Text
  session : Session σ

/-- Runs the trees of a file up to the first fault, which is reported. -/
def runTrees {σ : Type} : Forest → Session σ → Option (FileRun σ)
  | [], s => some ⟨0, [], s⟩
  | tree :: trees, s => do
    let (v, store) ← s.machine.run s.depth tree s.store
    let s := { s with store }
    match v with
    | .error f => return ⟨1, f.text ++ ("\n" : Text), s⟩
    | _ => runTrees trees s

/-- Runs what was found at the path of a source file. -/
def runFile {σ : Type} (s : Session σ) (path : Text) (found : Entry) : Option (FileRun σ) :=
  match found with
  | .file source => runTrees (s.parse source) s
  | found => some ⟨1, sourceProblem path found ++ ("\n" : Text), s⟩

/-- The report of the run of a file, with everything that was printed. -/
def FileRun.report (r : FileRun Transcript) : Report :=
  ⟨r.exitCode, r.session.store.host.text, r.errors, none⟩

/-- Holds a dialogue with the lines of an input. -/
def runDialogue (s : ConsoleSession) (history input : Text) : Option Report :=
  match Dialogue.converse (lines input) (.start (say s Dialogue.banner) (.ofText history)) with
  | (_, .stuck) => none
  | (d, _) => some ⟨0, d.session.store.host.text, [], some d.history.text⟩

/-- The configuration that a request asks for; an empty path asks for none. -/
def Request.load (q : Request) (d : Directory) : Except Config.LoadFault Config :=
  match q.config with
  | none => .ok .default
  | some path => if path = [] then .ok .default else Config.load d path

/-- The name of the file that histories are kept in. -/
def historyFile : Text := ".grove_history"

/-- The history that is kept in a directory. -/
def storedHistory (d : Directory) : Option Text := d.file? (d.home ++ [historyFile])

/-- Serves a request in a directory, where the history is kept too. -/
def serve (d : Directory) (q : Request) (input : Text) : Option Report :=
  match q.load d with
  | .error f => some (failure 2 f.message)
  | .ok c => do
    match ← start c with
    | .error f => return failure 1 (preludeMessage f)
    | .ok s =>
      match q.source with
      | some path =>
        let r ← runFile s path (d.find path)
        return r.report
      | none => runDialogue s ((storedHistory d).getD []) input

/-- Runs the console on a command line in a directory. -/
def run (d : Directory) (arguments : List Text) (input : Text) : Option Report :=
  match Request.ofArguments arguments with
  | .error f => some ⟨f.exitCode, [], f.message, none⟩
  | .ok q => serve d q input

end Console

end LittleLisp
