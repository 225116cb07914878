/-!
Quoted strings on their way to a call. While an argument list is read its strings are
stacked; when the native starts, those of its own list become the pending ones, and come out
oldest first. The strings that were pending before are handed to the caller, who puts them
back afterwards.
-/

namespace Scriptlet

/-- The strings of unfinished argument lists, and those pending for the running native; both
oldest first. -/
structure Literals where
  stack : List String := []
  pending : List String := []
  deriving DecidableEq, Repr

namespace Literals

def size (l : Literals) : Nat := l.stack.length

def push (l : Literals) (text : String) : Literals := { l with stack := l.stack ++ [text] }

def truncate (l : Literals) (count : Nat) : Literals := { l with stack := l.stack.take count }

/-- Makes the strings above the first `count` the pending ones, and gives those pending so
far. -/
def openFrame (l : Literals) (count : Nat) : List String × Literals :=
  (l.pending, ⟨l.stack.take count, l.stack.drop count⟩)

/-- Puts back the pending strings of before. -/
def closeFrame (l : Literals) (outer : List String) : Literals := { l with pending := outer }

def takeOldest (l : Literals) : Option String × Literals :=
  match l.pending with
  | [] => (none, l)
  | text :: rest => (some text, { l with pending := rest })

end Literals

end Scriptlet
