import Scriptlet.Native.World

/-!
Files in memory, for machines that are to see no others. Paths are read as usual: names
divided by slashes, where `.` stays, `..` goes up, and only a directory can be gone through.
A path that ends in a slash has to lead to a directory, and a name or path that is too long
leads nowhere.
-/

namespace Scriptlet

open Text (Bytes)

inductive FileEntry where
  | directory
  | file (contents : Bytes)
  deriving DecidableEq, Repr

/-- Entries by the names that lead to them from the working directory. The directories on
the way to an entry are there too. -/
structure FileTree where
  entries : List (List String × FileEntry) := []
  deriving Repr

namespace FileTree

def maxName : Nat := 255

def maxPath : Nat := 4095

def pathNames (path : String) : List String := (path.splitOn "/").filter (· ≠ "")

def insert (t : FileTree) (path : String) (entry : FileEntry) : FileTree :=
  ⟨t.entries ++ [(pathNames path, entry)]⟩

def entry? (t : FileTree) (names : List String) : Option FileEntry :=
  match t.entries.find? (·.1 = names) with
  | some (_, entry) => some entry
  | none =>
    if names.isEmpty ∨ t.entries.any (names.isPrefixOf ·.1) then some .directory else none

/-- Follows names from a directory. The directory is given by the names that lead to it, or
by `none` if it is one above the working directory, of which nothing is known. -/
def follow (t : FileTree) : (directory : Option (List String)) → List String → Option FileEntry
  | none, [] => some .directory
  | some here, [] => t.entry? here
  | none, name :: rest => if name = "." ∨ name = ".." then t.follow none rest else none
  | some here, name :: rest =>
    if t.entry? here ≠ some .directory ∨ name.utf8ByteSize > maxName then none
    else if name = "." then t.follow (some here) rest
    else if name = ".." then
      t.follow (if here.isEmpty then none else some here.dropLast) rest
    else t.follow (some (here ++ [name])) rest

def resolve (t : FileTree) (path : String) : Option FileEntry :=
  let chars := path.toList
  if path = "" ∨ path.utf8ByteSize > maxPath ∨ chars.contains (Char.ofNat 0) then none
  else
    match t.follow (if chars.head? = some '/' then none else some []) (pathNames path) with
    | some (.file contents) => if chars.getLast? = some '/' then none else some (.file contents)
    | other => other

def reading (t : FileTree) (path : String) : Reading :=
  match t.resolve path with
  | some (.file contents) => .contents contents
  | some .directory => .unreadable
  | none => .missing

/-- The world of these files, where it is always the same time and chance always picks the
least. -/
def world (t : FileTree) (seconds : Word) : World := fun _ q =>
  match q with
  | .fileExists path => some (t.resolve path).isSome
  | .fileContents path => some (t.reading path)
  | .randomBelow _ => some 0
  | .secondsSinceEpoch => some seconds

end FileTree

end Scriptlet
