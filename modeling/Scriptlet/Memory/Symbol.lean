import Scriptlet.Memory.Slice
import Scriptlet.Operator

/-!
Symbols: what a name can stand for. Operators and keywords are symbols like any other, so
that all of a script's vocabulary is found in one table.

What a native function does is left open here (`ν`): the table only needs to keep it.
-/

namespace Scriptlet

def maxArguments : Nat := 3

/-- What kind of thing a symbol is. -/
inductive Tag (ν : Type) where
  | var
  | operator (op : Operator)
  | keyword (word : Keyword)
  | native (action : ν) (arity : Nat)
  | func (arity : Nat)
  deriving DecidableEq, Repr

namespace Tag

def arity? {ν : Type} : Tag ν → Option Nat
  | native _ arity => some arity
  | func arity => some arity
  | _ => none

def shape {ν : Type} : Tag ν → Tag Unit
  | var => var
  | operator op => operator op
  | keyword word => keyword word
  | native _ arity => native () arity
  | func arity => func arity

end Tag

/-- A name with what it stands for. The value of a function is the number of its routine. -/
structure Symbol (ν : Type) where
  name : Slice
  tag : Tag ν
  value : Word
  deriving DecidableEq, Repr

/-- A function written in a script: the names of its parameters, and its body. -/
structure Routine where
  params : List Slice
  body : Slice
  deriving DecidableEq, Repr

end Scriptlet
