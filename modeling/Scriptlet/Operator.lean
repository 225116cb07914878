import Scriptlet.Error
import Scriptlet.Word

/-!
The fixed vocabulary: operators and keywords, with their spellings. An operator has a level,
from 1 for the tightest to `maxLevel` for the loosest, and a meaning on words.
-/

namespace Scriptlet

/-- A binary operator. Before an operand alone it is applied to zero and that operand. -/
inductive Operator where
  | multiply
  | divide
  | plus
  | minus
  | and
  | or
  | xor
  | shiftRight
  | shiftLeft
  | equal
  | notEqual
  | less
  | lessEqual
  | greater
  | greaterEqual
  deriving DecidableEq, Repr

namespace Operator

/-- Every operator, in the order in which a machine learns them. -/
def all : List Operator :=
  [multiply, divide, plus, minus, and, or, xor, shiftRight, shiftLeft, equal, notEqual, less,
    lessEqual, greater, greaterEqual]

def maxLevel : Nat := 4

/-- How tightly an operator binds; level 1 is the tightest. -/
def level : Operator → Nat
  | multiply | divide => 1
  | plus | minus => 2
  | and | or | xor | shiftRight | shiftLeft => 3
  | equal | notEqual | less | lessEqual | greater | greaterEqual => 4

def spelling : Operator → String
  | multiply => "*"
  | divide => "/"
  | plus => "+"
  | minus => "-"
  | and => "&"
  | or => "|"
  | xor => "^"
  | shiftRight => ">>"
  | shiftLeft => "<<"
  | equal => "="
  | notEqual => "<>"
  | less => "<"
  | lessEqual => "<="
  | greater => ">"
  | greaterEqual => ">="

/-- The value of an operator on two words. Arithmetic wraps, division truncates toward zero
and is refused for a zero divisor, a shift takes its count modulo 64, a right shift keeps
the sign, and a comparison gives one or zero. -/
def apply (op : Operator) (x y : Word) : Except Error Word :=
  match op with
  | multiply => .ok (x * y)
  | divide => if y = 0 then .error .divisionByZero else .ok (x / y)
  | plus => .ok (x + y)
  | minus => .ok (x - y)
  | and => .ok (x &&& y)
  | or => .ok (x ||| y)
  | xor => .ok (x ^^^ y)
  | shiftRight => .ok (x >>> y)
  | shiftLeft => .ok (x <<< y)
  | equal => .ok (.ofBool (x = y))
  | notEqual => .ok (.ofBool (x ≠ y))
  | less => .ok (.ofBool (x < y))
  | lessEqual => .ok (.ofBool (x ≤ y))
  | greater => .ok (.ofBool (x > y))
  | greaterEqual => .ok (.ofBool (x ≥ y))

end Operator

/-- A reserved word: the words that start a declaration, a branch, its alternative, a loop,
a function and a return. -/
inductive Keyword where
  | var
  | cond
  | otherwise
  | loop
  | func
  | leave
  deriving DecidableEq, Repr

namespace Keyword

/-- Every keyword, in the order in which a machine learns them. -/
def all : List Keyword := [var, cond, otherwise, loop, func, leave]

def spelling : Keyword → String
  | var => "var"
  | cond => "if"
  | otherwise => "else"
  | loop => "while"
  | func => "func"
  | leave => "return"

end Keyword

end Scriptlet
