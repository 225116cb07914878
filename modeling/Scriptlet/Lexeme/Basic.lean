import Scriptlet.Text.Place
import Scriptlet.Word

/-!
Lexemes: what a script is made of before any name in it is looked up. A lexeme that stands
for a piece of the text says where that piece is; a block or a quotation says where its
inside is.

The characters of the language are bytes below 0x80. Every byte has one class, and the class
of the first byte of a lexeme decides how it is read.
-/

namespace Scriptlet

/-- A piece of a text, from `start` up to and excluding `stop`. -/
structure Span where
  start : Nat
  stop : Nat
  deriving DecidableEq, Repr

/-- The smallest part of a script that has a meaning of its own. -/
inductive Lexeme where
  | eof
  | newline
  | semicolon
  | comma
  | openParen
  | closeParen
  | number (value : Word)
  | name (place : Span)
  | operator (place : Span)
  | block (inside : Span)
  | quote (inside : Span)
  deriving DecidableEq, Repr

/-- How a quotation is read. In an argument list it may run over several lines; elsewhere it
has to end on the line it starts on. -/
inductive Quoting where
  | plain
  | argument
  deriving DecidableEq, Repr

/-! ### Classes of bytes -/

namespace Byte

open Text (lineFeed)

def carriageReturn : UInt8 := 0x0D
def quotationMark : UInt8 := 0x22
def hash : UInt8 := 0x23
def backslash : UInt8 := 0x5C
def openBrace : UInt8 := 0x7B
def closeBrace : UInt8 := 0x7D

/-- Space, tab and carriage return separate lexemes and mean nothing. -/
def isSpace (b : UInt8) : Bool := b == 0x20 || b == 0x09 || b == 0x0D

def isDigit (b : UInt8) : Bool := 0x30 ≤ b && b ≤ 0x39

def isLetter (b : UInt8) : Bool := (0x41 ≤ b && b ≤ 0x5A) || (0x61 ≤ b && b ≤ 0x7A)

def isNameByte (b : UInt8) : Bool := isLetter b || b == 0x2E || b == 0x3A || b == 0x5F

def isOperatorByte (b : UInt8) : Bool :=
  b == 0x2A || b == 0x2F || b == 0x2B || b == 0x2D || b == 0x26 || b == 0x7C || b == 0x5E ||
    b == 0x3C || b == 0x3E || b == 0x3D

def isHexDigit (b : UInt8) : Bool :=
  isDigit b || (0x41 ≤ b && b ≤ 0x46) || (0x61 ≤ b && b ≤ 0x66)

def isHexMark (b : UInt8) : Bool := b == 0x78 || b == 0x58

/-- The value of a digit, where letters of either case continue after nine. -/
def digitValue (b : UInt8) : Nat :=
  if b ≤ 0x39 then b.toNat - 0x30 else if b ≤ 0x5A then b.toNat - 0x37 else b.toNat - 0x57

inductive Class where
  | newline
  | semicolon
  | comma
  | openParen
  | closeParen
  | openBrace
  | quotationMark
  | digit
  | letter
  | operator
  | other
  deriving DecidableEq, Repr

def classOf (b : UInt8) : Class :=
  if b == lineFeed then .newline
  else if b == 0x3B then .semicolon
  else if b == 0x2C then .comma
  else if b == 0x28 then .openParen
  else if b == 0x29 then .closeParen
  else if b == openBrace then .openBrace
  else if b == quotationMark then .quotationMark
  else if isDigit b then .digit
  else if isLetter b then .letter
  else if isOperatorByte b then .operator
  else .other

/-! The first byte of a number, a name or an operator belongs to it. -/

theorem isDigit_of_classOf {b : UInt8} (h : classOf b = .digit) : isDigit b = true := by
  grind [classOf]

theorem isNameByte_of_classOf {b : UInt8} (h : classOf b = .letter) : isNameByte b = true := by
  grind [classOf, isNameByte]

theorem isOperatorByte_of_classOf {b : UInt8} (h : classOf b = .operator) :
    isOperatorByte b = true := by
  grind [classOf]

end Byte

end Scriptlet
