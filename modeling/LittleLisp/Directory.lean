/-
# Paths and directories

The little that the console has to know about files: some files, a working directory,
and what is found when a path is followed. There are no directories but those on the way
to them from the root. A path is followed one name after the other, and `..` leads back
from wherever the names before it have led. Before a configuration is opened its path is
made absolute, which takes `..` together with the name before it, whether there is such a
directory or not.

Key definitions: `Path.names`, `Path.absolute`, `Entry`, `Directory`, `Directory.find`.
-/
import LittleLisp.Text

namespace LittleLisp

namespace Path

/-- The names of a path. -/
def names : Text → List Text
  | [] => [[]]
  | b :: bs =>
    if b = 0x2F then [] :: names bs
    else
      match names bs with
      | n :: ns => (b :: n) :: ns
      | [] => [[b]]

/-- Whether a path starts from the root. -/
def isAbsolute (path : Text) : Bool := path.head? == some 0x2F

/-- Whether a name leads nowhere. -/
def isIdle (name : Text) : Bool := name = [] ∨ name = "."

/-- The name that leads back. -/
def parent : Text := ".."

/-- The path from the root that goes by the given names. -/
def ofNames (names : List Text) : Text := "/" ++ Text.join "/" names

/-- The names without detours; `before` are the names so far in reverse order. -/
def resolve : List Text → List Text → List Text
  | before, [] => before.reverse
  | before, n :: ns =>
    if isIdle n then resolve before ns
    else if n = parent then resolve before.tail ns
    else resolve (n :: before) ns

/-- A path from the root without detours, for a path that may be relative to the directory with the
names `home`. -/
def absolute (home : List Text) (path : Text) : Text :=
  ofNames (resolve (if isAbsolute path then [] else home.reverse) (names path))

/-- The greatest number of bytes of a name. -/
def nameLimit : Nat := 255

/-- The greatest number of bytes of a path. -/
def limit : Nat := 4095

/-- Whether a path, or some name in it, has too many bytes. -/
def isOverlong (path : Text) : Bool :=
  limit < path.length || (names path).any (nameLimit < ·.length)

end Path

/-- What is found at a path. -/
inductive Entry where
  | file (contents : Text)
  | directory
  /-- Nothing has that name. -/
  | missing
  /-- The path goes on after a file. -/
  | blocked
  /-- The path, or a name in it, is too long. -/
  | overlong
  /-- The path has a zero byte in it. -/
  | malformed
  deriving DecidableEq

/-- What keeps an entry from being read as a file. -/
def Entry.problem : Entry → Text
  | .file _ => []
  | .directory => "is a directory"
  | .missing => "no such file or directory"
  | .blocked => "not a directory"
  | .overlong => "file name too long"
  | .malformed => "invalid argument"

/-- A working directory, and all the files there are. -/
structure Directory where
  /-- The names on the way to the directory from the root. -/
  home : List Text
  /-- The files, each with the names on the way to it from the root. -/
  files : List (List Text × Text)

namespace Directory

/-- The path of a directory. -/
def path (d : Directory) : Text := Path.ofNames d.home

/-- The contents of the file that the names lead to from the root. -/
def file? (d : Directory) (names : List Text) : Option Text := d.files.lookup names

/-- Whether the names lead to a directory from the root. -/
def isDirectory (d : Directory) (names : List Text) : Bool :=
  names.isPrefixOf d.home || d.files.any fun f => names.isPrefixOf f.1.dropLast

/-- What is found by following names from a directory; `before` are the names that lead to that one
in reverse order. -/
def follow (d : Directory) : List Text → List Text → Entry
  | _, [] => .directory
  | before, n :: ns =>
    if Path.isIdle n then follow d before ns
    else if n = Path.parent then follow d before.tail ns
    else if Path.nameLimit < n.length then .overlong
    else
      match d.file? (n :: before).reverse with
      | some t => if ns = [] then .file t else .blocked
      | none => if d.isDirectory (n :: before).reverse then follow d (n :: before) ns else .missing

/-- What is found at a path, which may be relative to the working directory. -/
def find (d : Directory) (path : Text) : Entry :=
  if 0 ∈ path then .malformed
  else if path = [] then .missing
  else if Path.limit < path.length then .overlong
  else d.follow (if Path.isAbsolute path then [] else d.home.reverse) (Path.names path)

end Directory

end LittleLisp
