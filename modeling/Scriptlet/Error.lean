import Scriptlet.Text.Place

/-!
Errors as scripts and hosts see them. An error has a kind, and may carry the line it was
found in, a message, and an excerpt of the text that was about to be read. Rendering puts
these parts in a fixed order and leaves out the absent ones.

What is wrong with the form of a script is a `Complaint`; its wording is decided here and
nowhere else.
-/

namespace Scriptlet

inductive ErrorKind where
  | outOfMemory
  | syntaxError
  | unknownSymbol
  | argumentMismatch
  | tooManyArguments
  | fileNotFound
  | scriptTooLarge
  | divisionByZero
  | noSuchInstance
  deriving DecidableEq, Repr

namespace ErrorKind

def all : List ErrorKind :=
  [outOfMemory, syntaxError, unknownSymbol, argumentMismatch, tooManyArguments, fileNotFound,
    scriptTooLarge, divisionByZero, noSuchInstance]

/-- The kind's number. It is the exit status of a script run that fails so. -/
def number : ErrorKind → Nat
  | outOfMemory => 1
  | syntaxError => 2
  | unknownSymbol => 3
  | argumentMismatch => 4
  | tooManyArguments => 5
  | fileNotFound => 6
  | scriptTooLarge => 7
  | divisionByZero => 8
  | noSuchInstance => 9

def code (k : ErrorKind) : Int := -(k.number : Int)

def title : ErrorKind → String
  | outOfMemory => "OUT OF MEMORY"
  | syntaxError => "SYNTAX ERROR"
  | unknownSymbol => "UNKNOWN SYMBOL"
  | argumentMismatch => "ARGUMENT MISMATCH"
  | tooManyArguments => "TOO MANY ARGUMENTS"
  | fileNotFound => "FILE NOT FOUND"
  | scriptTooLarge => "SCRIPT TOO LARGE"
  | divisionByZero => "DIVISION BY ZERO"
  | noSuchInstance => "NO SUCH INSTANCE"

end ErrorKind

inductive Complaint where
  | unexpectedCharacter
  | unterminatedBlock
  | unterminatedString
  | unknownOperator
  | expectedStatement
  | expectedEndOfStatement
  | expectedName
  | expectedEquals
  | expectedBody
  | expectedExpression
  | expectedFunction
  | expectedOpen
  | expectedClose
  | unexpectedElse
  deriving DecidableEq, Repr

def Complaint.wording : Complaint → String
  | unexpectedCharacter => "UNEXPECTED CHARACTER"
  | unterminatedBlock => "UNTERMINATED BLOCK"
  | unterminatedString => "UNTERMINATED STRING"
  | unknownOperator => "UNKNOWN OPERATOR"
  | expectedStatement => "EXPECTED STATEMENT"
  | expectedEndOfStatement => "EXPECTED END OF STATEMENT"
  | expectedName => "EXPECTED NAME"
  | expectedEquals => "EXPECTED ="
  | expectedBody => "EXPECTED BODY"
  | expectedExpression => "EXPECTED EXPRESSION"
  | expectedFunction => "EXPECTED FUNCTION"
  | expectedOpen => "EXPECTED ("
  | expectedClose => "EXPECTED )"
  | unexpectedElse => "UNEXPECTED ELSE"

/-- An error with what is known about it. An empty message is no message, and an empty
context is different from an absent one: it says that the place is known and nothing stands
there. -/
structure Error where
  kind : ErrorKind
  line : Option Nat := none
  message : String := ""
  context : Option String := none
  deriving DecidableEq, Repr

namespace Error

def ofKind (kind : ErrorKind) : Error := { kind }

def ofComplaint (c : Complaint) : Error := { kind := .syntaxError, message := c.wording }

def outOfMemory : Error := ofKind .outOfMemory

def unknownSymbol : Error := ofKind .unknownSymbol

def argumentMismatch : Error := ofKind .argumentMismatch

def tooManyArguments : Error := ofKind .tooManyArguments

def divisionByZero : Error := ofKind .divisionByZero

def noSuchInstance : Error := ofKind .noSuchInstance

def onLine (e : Error) (line : Option Nat) : Error := { e with line }

def withMessage (e : Error) (message : String) : Error := { e with message }

/-- The error with an excerpt of the text that was about to be read. -/
def before (e : Error) (rest : String) : Error := { e with context := some (Text.excerpt rest) }

def code (e : Error) : Int := e.kind.code

/-- The error in one line: its kind, then the line number, the message and the context as
far as they are known. -/
def render (e : Error) : String :=
  let line := match e.line with
    | some n => " IN LINE " ++ n.repr
    | none => ""
  let message := if e.message = "" then "" else "; " ++ e.message
  let context := match e.context with
    | some c => if c = "" then "" else " AT \"" ++ c ++ "\""
    | none => ""
  e.kind.title ++ line ++ message ++ context

end Error

end Scriptlet
