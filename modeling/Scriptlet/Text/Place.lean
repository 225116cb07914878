import Scriptlet.Text.Blank
import Scriptlet.Text.Utf8

/-!
Where something is in a text, as people are told it: a line number, and an excerpt of the
text that starts there.
-/

namespace Scriptlet.Text

def lineFeed : UInt8 := 0x0A

/-- The one-based number of the line that holds a byte offset. An offset past the end counts
as the end. -/
def lineNumber (bytes : Bytes) (offset : Nat) : Nat :=
  (bytes.take offset).count lineFeed + 1

def excerptLimit : Nat := 40

def clip (line : List Char) : List Char :=
  if line.length > excerptLimit then line.take excerptLimit ++ ['.', '.', '.'] else line

/-- The first line of what follows leading blanks, without trailing blanks. -/
def firstLine (s : List Char) : List Char :=
  trimEnd ((trimStart s).takeWhile (· ≠ '\n'))

/-- A short, one-line quotation of the start of a text. -/
def excerpt (s : String) : String := String.ofList (clip (firstLine s.toList))

end Scriptlet.Text
