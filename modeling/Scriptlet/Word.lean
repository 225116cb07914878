/-!
Machine words: the one kind of value that scripts compute with. A word is a signed 64-bit
integer and all arithmetic on it wraps.
-/

namespace Scriptlet

abbrev Word := Int64

/-- What a call receives in place of a quoted string. The text itself waits among the
literals. -/
def Word.literalMark : Word := Int64.minValue

def Word.ofBool (b : Bool) : Word := if b then 1 else 0

def Word.decimal (w : Word) : String :=
  match w.toInt with
  | .ofNat n => n.repr
  | .negSucc n => "-" ++ (n + 1).repr

def Word.index? (w : Word) : Option Nat :=
  match w.toInt with
  | .ofNat n => some n
  | .negSucc _ => none

end Scriptlet
