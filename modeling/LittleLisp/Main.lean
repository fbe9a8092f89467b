/-
# The program

Runs the console on the files and streams of the operating system. Everything that can
be decided without them is decided in `LittleLisp.Console`.
-/
import LittleLisp.Console

namespace LittleLisp

namespace Program

/-- A text as bytes. -/
def bytes (t : Text) : ByteArray := ⟨t.toArray⟩

/-- A text as a string, for use as a path. -/
def pathString (t : Text) : String := String.ofList (t.glyphs.map Glyph.repaired)

/-- What is found at a path. -/
def readEntry (path : Text) : IO Entry := do
  if 0 ∈ path then return .malformed
  if path = [] then return .missing
  let place := (← IO.currentDir) / pathString path
  if ← place.isDir then return .directory
  try
    let contents ← IO.FS.readBinFile place
    return .file contents.toList
  catch
    | .inappropriateType .. => return .blocked
    | .invalidArgument .. => return if Path.isOverlong path then .overlong else .malformed
    | _ => return .missing

/-- The next line of an input, with its end; empty at the end of the input. -/
partial def readLine (input : IO.FS.Stream) (seen : Text) : IO Text := do
  let b := (← input.read 1).toList
  match b with
  | [] => return seen.reverse
  | b :: _ => if b = 0x0A then return (b :: seen).reverse else readLine input (b :: seen)

/-- Writes what a dialogue has printed since the last time. -/
def release (d : Dialogue) : IO Dialogue := do
  let out ← IO.getStdout
  out.write (bytes d.session.store.host.text)
  out.flush
  return { d with
    session := { d.session with store := { d.session.store with host := .empty } } }

/-- Holds a dialogue on the standard streams; `waiting` are lines that have been read already. -/
partial def converse (d : Dialogue) (waiting : List Text) : IO Dialogue := do
  let d ← release (d.say d.prompt)
  let waiting ← if waiting = [] then Console.lines <$> readLine (← IO.getStdin) [] else pure waiting
  match waiting with
  | [] => release (d.say "\n")
  | line :: waiting =>
    match d.feed line with
    | (_, .stuck) => throw (IO.userError "evaluation nests too deep")
    | (d, .waiting) => converse (← release d) waiting
    | (d, .over) => release d

/-- Prints a report and gives its exit code. -/
def publish (r : Console.Report) : IO UInt32 := do
  (← IO.getStdout).write (bytes r.output)
  (← IO.getStderr).write (bytes r.errors)
  return r.exitCode.toUInt32

/-- Holds a dialogue and keeps its history. -/
def dialogue (s : Console.ConsoleSession) : IO UInt32 := do
  let home := Text.ofString ((← IO.getEnv "HOME").getD "")
  let file := Text.join "/" [home, Console.historyFile]
  let history : Text ← match ← readEntry file with
    | .file t => pure t
    | _ => pure []
  let d ← converse (.start (Console.say s Dialogue.banner) (.ofText history)) []
  try
    IO.FS.writeBinFile (pathString file) (bytes d.history.text)
  catch _ => pure ()
  return 0

/-- Serves a request. -/
def serve (q : Console.Request) : IO UInt32 := do
  let home := Path.resolve [] (Path.names (Text.ofString (← IO.currentDir).toString))
  let config : Except Config.LoadFault Config ← match q.config with
    | none => pure (.ok .default)
    | some [] => pure (.ok .default)
    | some path =>
      let path := Path.absolute home path
      pure (Config.ofEntry path (← readEntry path))
  match config with
  | .error f => publish (Console.failure 2 f.message)
  | .ok c =>
    match Console.start c with
    | none => throw (IO.userError "evaluation nests too deep")
    | some (.error f) => publish (Console.failure 1 (Console.preludeMessage f))
    | some (.ok s) =>
      match q.source with
      | none => dialogue s
      | some path =>
        match Console.runFile s path (← readEntry path) with
        | none => throw (IO.userError "evaluation nests too deep")
        | some r => publish r.report

end Program

end LittleLisp

open LittleLisp in
/-- Runs the program. -/
def main (arguments : List String) : IO UInt32 := do
  match Console.Request.ofArguments (arguments.map Text.ofString) with
  | .error f => Program.publish ⟨f.exitCode, [], f.message, none⟩
  | .ok q => Program.serve q
