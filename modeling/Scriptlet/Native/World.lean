import Scriptlet.Text.Utf8
import Scriptlet.Word

/-!
The world outside a machine: files, chance and time. A machine reaches it only by asking
questions, and a `World` is a way of answering them. A question is answered by its number,
so that one question asked twice may have two answers. A world need not know every answer; a
machine that needs one it does not know stops there, and can be run again in a world that
does.
-/

namespace Scriptlet

inductive Question where
  | fileExists (path : String)
  | fileContents (path : String)
  | randomBelow (bound : Word)
  | secondsSinceEpoch
  deriving DecidableEq, Repr

/-- What comes of an attempt to read a file. -/
inductive Reading where
  | missing
  | unreadable
  | contents (bytes : Text.Bytes)
  deriving DecidableEq, Repr

abbrev Question.Answer : Question → Type
  | .fileExists _ => Bool
  | .fileContents _ => Reading
  | .randomBelow _ => Word
  | .secondsSinceEpoch => Word

/-- The answers known to the questions a machine asks, by the number of questions asked
before. -/
def World := Nat → (q : Question) → Option q.Answer

structure Answered where
  question : Question
  answer : question.Answer

/-- The world that knows the answers to the first questions, in order, and no others. -/
def World.ofAnswers (first : Nat) (known : Array Answered) : World := fun number q =>
  match known[number - first]? with
  | some ⟨asked, answer⟩ => if h : asked = q then some (h ▸ answer) else none
  | none => none

end Scriptlet
