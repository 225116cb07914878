import Scriptlet.Native.Builtin

/-!
Scripts as trees. A machine never builds a tree of what it reads; the trees here say which
scripts of the core language there are, and how each is written.

A tree is written in two steps. It is first laid out as a list of items, one for each lexeme, with
an item for each end of a line and with the inside of a block as a list of its own. The items are
then spelled out one after another. A blank stands before every item but the end of a line and the
brace that closes a block, which stands at the start of a line; so no two items run together,
whatever they are.

Names of variables and of functions are different names. The trees are over a predicate that says
which names are those of functions, so that this needs no condition on a tree.
-/

namespace Scriptlet.Tree

/-! ### Names -/

/-- Whether a text reads as one name: a letter first, then characters of names. -/
def isWord (text : String) : Bool :=
  match Text.encode text with
  | [] => false
  | b :: rest => Byte.isLetter b && rest.all Byte.isNameByte

/-- A text that reads as one name, a keyword included. -/
structure Spelled where
  text : String
  isWord : isWord text = true
  deriving DecidableEq

/-- The keywords and the names of the natives that a machine starts with. -/
def reserved : List String := Keyword.all.map Keyword.spelling ++ Builtin.all.map Prod.fst

structure Name extends Spelled where
  free : text ∉ reserved
  deriving DecidableEq

abbrev Variable (F : Name → Bool) := { x : Name // F x = false }

abbrev Function (F : Name → Bool) := { f : Name // F f = true }

/-! ### Trees -/

inductive Expr (F : Name → Bool) where
  | number (n : Nat)
  | var (x : Variable F)
  | unary (op : Operator) (operand : Expr F)
  | binary (op : Operator) (left right : Expr F)
  | call (f : Function F) (args : List (Expr F))

inductive Stmt (F : Name → Bool) where
  | declare (x : Variable F) (e : Expr F)
  | assign (x : Variable F) (e : Expr F)
  | branch (condition : Expr F) (body : List (Stmt F)) (alternative : Option (List (Stmt F)))
  | loop (condition : Expr F) (body : List (Stmt F)) (alternative : Option (List (Stmt F)))
  | define (f : Function F) (params : List (Variable F)) (few : params.length ≤ maxArguments)
      (body : List (Stmt F))
  | leave (e : Option (Expr F))
  | call (f : Function F) (args : List (Expr F))
  | print (e : Expr F)

/-! ### Items -/

inductive Item where
  | newline
  | comma
  | openParen
  | closeParen
  | number (n : Nat)
  | word (w : Spelled)
  | operator (op : Operator)
  | block (inside : List Item)

def Spelled.ofKeyword (word : Keyword) : Spelled :=
  ⟨word.spelling, by cases word <;> decide⟩

def Spelled.print : Spelled := ⟨"print", by decide⟩

namespace Item

def keyword (word : Keyword) : Item := .word (.ofKeyword word)

def name (x : Name) : Item := .word x.toSpelled

end Item

mutual

def Item.text : Item → String
  | .newline => "\n"
  | .comma => " ,"
  | .openParen => " ("
  | .closeParen => " )"
  | .number n => " " ++ n.repr
  | .word w => " " ++ w.text
  | .operator op => " " ++ op.spelling
  | .block inside => " \x7b" ++ spell inside ++ "\x7d"

def spell : List Item → String
  | [] => ""
  | item :: rest => item.text ++ spell rest

end

/-! ### Laying out -/

variable {F : Name → Bool}

/-- Whether an operator stands at the top of an expression. -/
def Expr.isCompound : Expr F → Bool
  | .unary _ _ => true
  | .binary _ _ _ => true
  | _ => false

/-- The layout of an operand: a compound one is put in parentheses. -/
def Expr.asOperand (e : Expr F) (items : List Item) : List Item :=
  if e.isCompound then .openParen :: items ++ [.closeParen] else items

mutual

def Expr.items : Expr F → List Item
  | .number n => [.number n]
  | .var x => [.name x.val]
  | .unary op e => .operator op :: e.asOperand e.items
  | .binary op l r => l.asOperand l.items ++ .operator op :: r.asOperand r.items
  | .call f args => .name f.val :: .openParen :: argumentItems args ++ [.closeParen]

def argumentItems : List (Expr F) → List Item
  | [] => []
  | e :: rest => e.items ++ furtherArguments rest

def furtherArguments : List (Expr F) → List Item
  | [] => []
  | e :: rest => .comma :: e.items ++ furtherArguments rest

end

def Expr.operand (e : Expr F) : List Item := e.asOperand e.items

def callItems (f : Function F) (args : List (Expr F)) : List Item :=
  .name f.val :: .openParen :: argumentItems args ++ [.closeParen]

theorem Expr.items_unary (op : Operator) (e : Expr F) :
    (Expr.unary op e).items = .operator op :: e.operand := by
  rw [Expr.items]
  rfl

theorem Expr.items_binary (op : Operator) (l r : Expr F) :
    (Expr.binary op l r).items = l.operand ++ .operator op :: r.operand := by
  rw [Expr.items]
  rfl

theorem Expr.items_call (f : Function F) (args : List (Expr F)) :
    (Expr.call f args).items = callItems f args := by
  rw [Expr.items]
  rfl

theorem Expr.operand_of_compound {e : Expr F} (h : e.isCompound = true) :
    e.operand = .openParen :: e.items ++ [.closeParen] := by
  rw [operand, asOperand, if_pos h]

theorem Expr.operand_of_simple {e : Expr F} (h : e.isCompound = false) : e.operand = e.items := by
  rw [operand, asOperand, if_neg (by simp [h])]

def furtherParameters : List (Variable F) → List Item
  | [] => []
  | x :: rest => .comma :: .name x.val :: furtherParameters rest

def parameterItems : List (Variable F) → List Item
  | [] => []
  | x :: rest => .name x.val :: furtherParameters rest

def returnedItems : Option (Expr F) → List Item
  | none => []
  | some e => e.items

mutual

/-- The layout of a statement, on one line but for the blocks in it. -/
def Stmt.items : Stmt F → List Item
  | .declare x e => .keyword .var :: .name x.val :: .operator .equal :: e.items
  | .assign x e => .name x.val :: .operator .equal :: e.items
  | .branch e body alternative =>
    .keyword .cond :: e.items ++ .block (.newline :: lines body) :: alternativeItems alternative
  | .loop e body alternative =>
    .keyword .loop :: e.items ++ .block (.newline :: lines body) :: alternativeItems alternative
  | .define f params _ body =>
    .keyword .func :: .name f.val :: .openParen :: parameterItems params ++
      [.closeParen, .block (.newline :: lines body)]
  | .leave e => .keyword .leave :: returnedItems e
  | .call f args => callItems f args
  | .print e => .word .print :: .openParen :: e.items ++ [.closeParen]

/-- The layout of statements, one a line. -/
def lines : List (Stmt F) → List Item
  | [] => []
  | s :: rest => s.items ++ .newline :: lines rest

def alternativeItems : Option (List (Stmt F)) → List Item
  | none => []
  | some body => [.keyword .otherwise, .block (.newline :: lines body)]

end

def scriptText (program : List (Stmt F)) : String := spell (lines program)

end Scriptlet.Tree
