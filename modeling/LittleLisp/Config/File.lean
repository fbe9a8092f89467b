/-
# Configurations from files

A configuration file sets some of the settings and leaves the others as they are. It is
refused if it cannot be understood, names a setting twice or one that does not exist,
gives a setting a value of the wrong sort, or amounts to a configuration with issues.

Key definitions: `Config.ofDocument`, `Config.parse`, `Config.load`.
-/
import LittleLisp.Config
import LittleLisp.Config.Document
import LittleLisp.Directory

namespace LittleLisp

namespace Config

/-- The text of a setting; a null leaves it as it is. -/
def textSetting (old : Text) : Item → Option Text
  | .scalar s => some (if s.isNull then old else Text.ofChars s.text)
  | .collection => none

/-- The truth value of a setting; a null leaves it as it is. -/
def boolSetting (old : Bool) : Item → Option Bool
  | .scalar s => if s.isNull then some old else s.bool?
  | .collection => none

/-- The configuration after the setting with some name. -/
def setNamed (c : Config) (name : String) (value : Item) : Option Config :=
  match name with
  | "module" => (textSetting c.module value).map fun t => { c with module := t }
  | "dot_sigil" => (textSetting c.sigil value).map fun t => { c with sigil := t }
  | "keyword_prefix" => (textSetting c.marker value).map fun t => { c with marker := t }
  | "prelude" => (boolSetting c.loadsPrelude value).map fun b => { c with loadsPrelude := b }
  | _ => none

/-- The configuration after one setting. A null in place of the setting's name is passed over. -/
def set (c : Config) (key value : Item) : Option Config :=
  match key with
  | .scalar s => if s.isNull then some c else c.setNamed (String.ofList s.text) value
  | .collection => none

/-- What names of settings are told apart by. -/
def nameText : Item → List Char
  | .scalar s => s.text
  | .collection => []

/-- The default configuration with the settings of a document. -/
def ofDocument (d : Document) : Option Config :=
  if (d.map fun e => nameText e.1).Nodup then d.foldlM (fun c e => c.set e.1 e.2) default else none

/-- Why a text is no configuration. -/
inductive ParseFault where
  | unreadable
  | invalid (issues : List Issue)

/-- The report of why a text is no configuration. -/
def ParseFault.message : ParseFault → Text
  | .unreadable => "parse: not a configuration"
  | .invalid issues => report (issues.map Issue.message)

/-- The configuration that a text describes. -/
def parse (t : Text) : Except ParseFault Config :=
  match (Document.parse t).bind ofDocument with
  | none => .error .unreadable
  | some c => if c.issues = [] then .ok c else .error (.invalid c.issues)

/-- Why no configuration could be loaded. -/
inductive LoadFault where
  | noPath
  /-- There is no file at the path. -/
  | unopened (path : Text) (found : Entry)
  | refused (path : Text) (why : ParseFault)

/-- The report of why no configuration could be loaded. -/
def LoadFault.message : LoadFault → Text
  | .noPath => "config: empty path"
  | .unopened path found =>
    Text.concat ["config: open ", path, ": open ", path, ": ", found.problem]
  | .refused path why => Text.concat ["config: ", path, ": ", why.message]

/-- The configuration in what was found at an absolute path. -/
def ofEntry (path : Text) (found : Entry) : Except LoadFault Config :=
  match found with
  | .file t =>
    match parse t with
    | .ok c => .ok c
    | .error why => .error (.refused path why)
  | .directory => .error (.refused path .unreadable)
  | found => .error (.unopened path found)

/-- The configuration at a path, which may be relative to the directory. -/
def load (d : Directory) (path : Text) : Except LoadFault Config :=
  if path = [] then .error .noPath
  else
    let path := Path.absolute d.home path
    ofEntry path (d.find path)

end Config

end LittleLisp
