/-
# Configuration documents

A configuration file is a document that maps settings to scalars, one setting a line
or all in one pair of braces. Comments start with `#`; `---` and `...` separate
documents, of which only the first one counts. A document may be empty.

Settings, and items of lists, may be nested. A configuration has no use for that, so
of a nested collection nothing is kept but that it is one. Labels are passed over, and
there is no way to refer to them. Nothing can be said about types.

Key definitions: `Item`, `Document`, `Document.parse`.
-/
import LittleLisp.Config.Lexeme

namespace LittleLisp

/-- What a name or a value is made of. -/
inductive Item where
  | scalar (s : Scalar)
  | collection
  deriving DecidableEq

/-- The item that stands for nothing. -/
def Item.empty : Item := .scalar .empty

/-- The settings of a document and their values, in order. -/
abbrev Document := List (Item × Item)

namespace Document

/-- The lexemes before which an item of a block is left out. -/
def blockStops : List Lexeme := [.name, .value, .blockEnd]

/-- The lexemes before which a name in braces is left out. -/
def braceStops : List Lexeme := [.value, .comma, .closeBrace]

/-- The lexemes before which a name in brackets is left out. -/
def bracketStops : List Lexeme := [.value, .comma, .closeBracket]

/-- The scan after a lexeme, if that comes next. -/
def expect (l : Lexeme) (s : Scan) : Option Scan := do
  let (m, s) ← s.peek
  if m = l then return s.drop else none

/-- Passes a label, if it comes next, and tells whether it does. -/
def label (s : Scan) : Option (Bool × Scan) := do
  let (l, s) ← s.peek
  if l = .label then return (true, s.drop) else return (false, s)

/-- Passes a sign for a type, if it comes next, and tells whether it does. Fails unless it is
bare. -/
def bareTag (s : Scan) : Option (Bool × Scan) := do
  let (l, s) ← s.peek
  match l with
  | .tag bare => if bare then return (true, s.drop) else none
  | _ => return (false, s)

/-- Passes a label and a bare sign for a type in any order, and tells whether there is one. -/
def properties (s : Scan) : Option (Bool × Scan) := do
  let (labelled, s) ← label s
  let (tagged, s) ← bareTag s
  if tagged && !labelled then
    let (_, s) ← label s
    return (true, s)
  else return (labelled || tagged, s)

mutual

/-- The next item. In a block, a collection may be a block too; a list may do without indentation
if it is the name or value of a setting. Where there is only a label, the item is empty. -/
def item (block loose : Bool) : Nat → Scan → Option (Item × Scan)
  | 0, _ => none
  | fuel + 1, s => do
    let (named, s) ← properties s
    let (l, s) ← s.peek
    match l with
    | .scalar t => return (.scalar t, s.drop)
    | .openBracket =>
      let s ← bracketItems fuel true s.drop
      return (.collection, s)
    | .openBrace =>
      let (_, s) ← braceSettings fuel true s.drop
      return (.collection, s)
    | .item =>
      if loose then
        let s ← looseItems fuel s
        return (.collection, s)
      else if named then return (.empty, s) else none
    | .blockItems =>
      if block then
        let s ← blockItems fuel s.drop
        return (.collection, s)
      else none
    | .blockSettings =>
      if block then
        let (_, s) ← blockSettings fuel s.drop
        return (.collection, s)
      else none
    | _ => if named then return (.empty, s) else none

/-- The next item, or the empty one before certain lexemes. -/
def itemOr (stops : List Lexeme) (block loose : Bool) : Nat → Scan → Option (Item × Scan)
  | 0, _ => none
  | fuel + 1, s => do
    let (l, s) ← s.peek
    if l ∈ stops then return (.empty, s) else item block loose fuel s

/-- The value of a setting; without the sign for one it is empty. -/
def valueOr (stops : List Lexeme) (block : Bool) : Nat → Scan → Option (Item × Scan)
  | 0, _ => none
  | fuel + 1, s => do
    let (l, s) ← s.peek
    if l = .value then itemOr stops block block fuel s.drop else return (.empty, s)

/-- The settings of a block. -/
def blockSettings : Nat → Scan → Option (Document × Scan)
  | 0, _ => none
  | fuel + 1, s => do
    let (l, s) ← s.peek
    match l with
    | .blockEnd => return ([], s.drop)
    | .name =>
      let (key, s) ← itemOr blockStops true true fuel s.drop
      let (value, s) ← valueOr blockStops true fuel s
      let (others, s) ← blockSettings fuel s
      return ((key, value) :: others, s)
    | _ => none

/-- The items of a block. -/
def blockItems : Nat → Scan → Option Scan
  | 0, _ => none
  | fuel + 1, s => do
    let (l, s) ← s.peek
    match l with
    | .blockEnd => return s.drop
    | .item =>
      let (_, s) ← itemOr [.item, .blockEnd] true false fuel s.drop
      blockItems fuel s
    | _ => none

/-- The items of a list without indentation. -/
def looseItems : Nat → Scan → Option Scan
  | 0, _ => none
  | fuel + 1, s => do
    let (l, s) ← s.peek
    if l = .item then
      let (_, s) ← itemOr (.item :: blockStops) true false fuel s.drop
      looseItems fuel s
    else return s

/-- The settings up to the closing brace. All but the first come after a comma. -/
def braceSettings : Nat → Bool → Scan → Option (Document × Scan)
  | 0, _, _ => none
  | fuel + 1, first, s => do
    let (l, s) ← s.peek
    if l = .closeBrace then return ([], s.drop)
    else
      let s ← if first then some s else expect .comma s
      let (l, s) ← s.peek
      match l with
      | .closeBrace => return ([], s.drop)
      | .name =>
        let (key, s) ← itemOr braceStops false false fuel s.drop
        let (value, s) ← valueOr [.comma, .closeBrace] false fuel s
        let (others, s) ← braceSettings fuel false s
        return ((key, value) :: others, s)
      | _ =>
        let (key, s) ← item false false fuel s
        let (others, s) ← braceSettings fuel false s
        return ((key, .empty) :: others, s)

/-- The items up to the closing bracket. All but the first come after a comma. An item may be a
single setting, without braces; where its name is left out, the next lexeme is too. -/
def bracketItems : Nat → Bool → Scan → Option Scan
  | 0, _, _ => none
  | fuel + 1, first, s => do
    let (l, s) ← s.peek
    if l = .closeBracket then return s.drop
    else
      let s ← if first then some s else expect .comma s
      let (l, s) ← s.peek
      match l with
      | .closeBracket => return s.drop
      | .name =>
        let (m, s) ← s.drop.peek
        let s ← if m ∈ bracketStops then some s.drop
          else (item false false fuel s).map Prod.snd
        let (_, s) ← valueOr [.comma, .closeBracket] false fuel s
        bracketItems fuel false s
      | _ =>
        let (_, s) ← item false false fuel s
        bracketItems fuel false s

end

/-- A bound on the depth of reading what is left of a scan. -/
def depth (s : Scan) : Nat := 8 * (s.cursor.size + s.queue.length)

/-- The settings of the document that starts here, which are all that is kept of it. A scalar in
their place must stand for nothing. What follows is looked at, but not understood. -/
def root (s : Scan) : Option Document := do
  let (named, s) ← properties s
  let (l, s) ← s.peek
  let (d, s) ← match l with
    | .blockSettings => blockSettings (depth s) s.drop
    | .openBrace => braceSettings (depth s) true s.drop
    | .scalar t => if t.isNull then some ([], s.drop) else none
    | .openBracket => none
    | .blockItems => none
    | _ => if named then some ([], s) else none
  let _ ← s.peek
  return d

/-- The settings of the first document of a scan. -/
def ofScan (s : Scan) : Option Document := do
  let (l, s) ← s.peek
  match l with
  | .fileEnd => return []
  | .documentStart =>
    let (l, s) ← s.drop.peek
    if l ∈ [Lexeme.documentStart, .documentEnd, .fileEnd] then return [] else root s
  | _ => root s

/-- The settings of the first document of a file. -/
def parse (t : Text) : Option Document := ofScan (Scan.start t)

end Document

end LittleLisp
