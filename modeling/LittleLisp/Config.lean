/-
# Configurations

How a session reads and evaluates its module: the module's name, what method names and
keywords start with, and whether the prelude is loaded. A configuration is checked
before it is used; the check lists everything that is wrong with it.

Key definitions: `Config`, `Config.default`, `Config.issues`, `Config.report`.
-/
import LittleLisp.Text.Quoted

namespace LittleLisp

/-- How a session reads and evaluates its module. -/
structure Config where
  module : Text
  /-- What the name of a method starts with in head position. -/
  sigil : Text
  /-- What a keyword starts with. -/
  marker : Text
  /-- Whether the prelude is loaded. -/
  loadsPrelude : Bool
  deriving DecidableEq

namespace Config

/-- The configuration of a session that says nothing else. -/
def default : Config := ⟨"user", ".", ":", true⟩

/-- Something that is wrong with a configuration. -/
inductive Issue where
  | noModule
  | noSigil
  | reservedInSigil (sigil : Text)
  | noMarker
  | reservedInMarker (marker : Text)
  /-- Method names and keywords would start alike. -/
  | sigilIsMarker
  deriving DecidableEq

/-- What an issue says. -/
def Issue.message : Issue → Text
  | .noModule => "module must be provided"
  | .noSigil => "dot_sigil must be provided"
  | .reservedInSigil t => Text.concat ["dot_sigil ", t.quote, " contains reserved characters"]
  | .noMarker => "keyword_prefix must be provided"
  | .reservedInMarker t =>
    Text.concat ["keyword_prefix ", t.quote, " contains reserved characters"]
  | .sigilIsMarker => "dot_sigil and keyword_prefix must differ"

/-- The characters that separate tokens, which no sigil or marker may contain. -/
def separators : Text := " \t\n()[]\";,"

/-- The digits, which no marker may contain: keywords must not look like numbers. -/
def digits : Text := "0123456789"

/-- The issues of a sigil on its own. -/
def sigilIssues (sigil : Text) : List Issue :=
  if sigil = [] then [.noSigil]
  else if sigil.any (separators.contains ·) then [.reservedInSigil sigil]
  else []

/-- The issues of a marker on its own. -/
def markerIssues (marker : Text) : List Issue :=
  if marker = [] then [.noMarker]
  else if marker.any ((separators ++ digits).contains ·) then [.reservedInMarker marker]
  else []

/-- Everything that is wrong with a configuration. -/
def issues (c : Config) : List Issue :=
  (if c.module = [] then [.noModule] else []) ++ sigilIssues c.sigil ++ markerIssues c.marker ++
    (if c.sigil ≠ [] ∧ c.sigil = c.marker then [.sigilIsMarker] else [])

/-- Whether nothing is wrong with a configuration. -/
def IsValid (c : Config) : Prop := c.issues = []

instance (c : Config) : Decidable c.IsValid := inferInstanceAs (Decidable (c.issues = []))

/-- The report of a list of issues, given by their messages. -/
def report (messages : List Text) : Text :=
  if messages = [] then "config: invalid configuration"
  else
    Text.concat ("config validation failed:" :: messages.map fun m => ("\n- " : Text) ++ m)

end Config

end LittleLisp
