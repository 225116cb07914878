import Scriptlet.Native.Action

/-!
The natives every machine starts with. Each takes words; where it takes a text, it is called
with the literal mark and takes the text from the pending literals.
-/

namespace Scriptlet.Builtin

def firstArgument (args : List Word) : Word := args.headD 0

/-- Takes the literal that a word stands for; a word other than the mark stands for none. -/
def takeLiteralFor (word : Word) (next : Option String → Action) : Action :=
  if word = Word.literalMark then .takeLiteral next else next none

def print (args : List Word) : Action :=
  takeLiteralFor (firstArgument args) fun text? =>
    let text := text?.getD (firstArgument args).decimal
    .write .out (Text.encode (text ++ "\n")) (.give 0)

/-- Writes a text, or the one byte that is the low end of a number. -/
def putc (args : List Word) : Action :=
  takeLiteralFor (firstArgument args) fun text? =>
    let bytes := match text? with
      | some text => Text.encode text
      | none => [(firstArgument args).toUInt64.toUInt8]
    .write .out bytes (.give 0)

/-- One if there is a file or directory of the given name. -/
def fileExists (args : List Word) : Action :=
  takeLiteralFor (firstArgument args) fun
    | some path => .ask (.fileExists path) fun found => .give (.ofBool found)
    | none => .give 0

def source (args : List Word) : Action :=
  takeLiteralFor (firstArgument args) fun
    | some path => .evalFile path (Action.orFail fun _ => .give 0)
    | none => .fail (Error.argumentMismatch.withMessage "EXPECTED STRING")

/-- A number from zero up to and excluding the argument, zero for an argument that is not
positive. -/
def rand (args : List Word) : Action :=
  let bound := firstArgument args
  if bound ≤ 0 then .give 0 else .ask (.randomBelow bound) .give

def time (_ : List Word) : Action := .ask .secondsSinceEpoch .give

/-- The natives every machine starts with, by name and arity, in the order in which it
learns them. -/
def all : List (String × Nat × Native) :=
  [("print", 1, print), ("putc", 1, putc), ("exists", 1, fileExists), ("source", 1, source),
    ("rand", 1, rand), ("time", 0, time)]

end Scriptlet.Builtin
