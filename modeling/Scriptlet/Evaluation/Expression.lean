import Scriptlet.Evaluation.Call

/-!
Expressions. Operators of each level are taken from left to right, and their operands are
expressions of the next tighter level; what no operator stands in is an atom. An operator
where an atom is due takes all of the rest of the expression as its right operand, and zero
as its left one.
-/

namespace Scriptlet

open Eval

namespace Expression

def operatorOfLevel (level : Nat) : Eval (Option Operator) := do
  match ← tokenTag? with
  | some (.operator op) => return if op.level = level then some op else none
  | _ => return none

def group (r : Reentry) : Eval Word := do
  advance
  let value ← r.expression
  if (← token) = .closeParen then return value else complain .expectedClose

def symbolAtom (r : Reentry) (s : Symbol Native) : Eval Word := do
  match s.tag with
  | .var => do advance; return s.value
  | .native _ _ | .func _ => Call.inExpression r s
  | .operator op => do
    advance
    let value ← r.expression
    ofExcept (op.apply 0 value)
  | .keyword _ => complain .expectedExpression

/-- Evaluates an atom. A block or a quotation outside an argument list counts as zero. -/
def atom (r : Reentry) : Eval Word := do
  match ← token with
  | .number value => do advance; return value
  | .openParen => do
    let value ← withQuoting .plain (group r)
    advance
    return value
  | .text _ => do advance; return 0
  | .literal => do advance; return Word.literalMark
  | .name _ => fail .unknownSymbol
  | .symbol index => do
    let s ← symbolAt index
    symbolAtom r s
  | .eof | .separator | .comma | .closeParen => complain .expectedExpression

/-- Applies the operator that comes next to a value and an operand, if it is of the level. -/
def levelTurn (level : Nat) (operand : Eval Word) (value : Word) : Eval (Turn Word Word) := do
  match ← operatorOfLevel level with
  | some op => do
    advance
    let operand ← operand
    let value ← ofExcept (op.apply value operand)
    return .again value
  | none => return .finish value

/-- Evaluates an expression whose operators outside parentheses are of a level up to the
given one. -/
def upToLevel (r : Reentry) : (level : Nat) → Eval Word
  | 0 => atom r
  | level + 1 => do
    let first ← upToLevel r level
    r.loop (levelTurn (level + 1) (upToLevel r level)) first

theorem upToLevel_succ (r : Reentry) (level : Nat) :
    upToLevel r (level + 1) = (do
      let first ← upToLevel r level
      r.loop (levelTurn (level + 1) (upToLevel r level)) first) := rfl

end Expression

def Reentry.wholeExpression (r : Reentry) : Eval Word := Expression.upToLevel r Operator.maxLevel

end Scriptlet
