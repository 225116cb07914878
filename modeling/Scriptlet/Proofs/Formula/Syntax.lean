import Scriptlet.Proofs.Tree.Spelling

/-!
Formulas: trees of numbers, variables and operators, and the grammar that says how they are written.

The grammar has a level for every level of operators, and below them the atoms. At each level
operators go from left to right, so the left operand of an operator may be of its own level and the
right one is of the next tighter level. An operator where an atom is due takes all of the rest, so a
formula that has such an operator at its end is open: nothing can follow it but the end of the
formula or a closing parenthesis. That is why the left operand of an operator is never open.

`Written` is the grammar. It leaves the choice of parentheses free, as far as they are needed;
`layout` writes only those that are needed.
-/

namespace Scriptlet

open Text (Bytes)

/-! ### Numerals -/

/-- Whether a text is made of one or more characters of one kind. -/
def isRun (accept : UInt8 → Bool) (text : String) : Bool :=
  !(Text.encode text).isEmpty && (Text.encode text).all accept

/-- A number as it is written. Either case may be used for the mark and for the digits of a
hexadecimal one. -/
inductive Numeral where
  | decimal (digits : String) (run : isRun Byte.isDigit digits = true)
  | hexadecimal (upper : Bool) (digits : String) (run : isRun Byte.isHexDigit digits = true)

namespace Numeral

def mark (upper : Bool) : String := if upper then "0X" else "0x"

def text : Numeral → String
  | decimal digits _ => digits
  | hexadecimal upper digits _ => mark upper ++ digits

def ofDigits (radix : Nat) (digits : Bytes) : Nat :=
  digits.foldl (fun n b => n * radix + Byte.digitValue b) 0

def value : Numeral → Nat
  | decimal digits _ => ofDigits 10 (Text.encode digits)
  | hexadecimal _ digits _ => ofDigits 16 (Text.encode digits)

end Numeral

/-! ### Formulas -/

inductive Formula where
  | number (n : Numeral)
  | var (x : Tree.Spelled)
  | unary (op : Operator) (operand : Formula)
  | binary (op : Operator) (left right : Formula)

inductive Sign where
  | openParen
  | closeParen
  | numeral (n : Numeral)
  | word (x : Tree.Spelled)
  | operator (op : Operator)

namespace Formula

open Operator (maxLevel)

def names : Formula → List Tree.Spelled
  | number _ => []
  | var x => [x]
  | unary _ e => e.names
  | binary _ l r => l.names ++ r.names

/-! ### The grammar -/

/-- The ways to write a formula at a level; `isOpen` tells whether an operator in the place of an
atom takes what comes at the end. -/
inductive Written : (level : Nat) → (isOpen : Bool) → Formula → List Sign → Prop where
  | number (n : Numeral) : Written 0 false (.number n) [.numeral n]
  | var (x : Tree.Spelled) : Written 0 false (.var x) [.word x]
  | group {isOpen : Bool} {e : Formula} {signs : List Sign} (inside : Written maxLevel isOpen e signs) :
      Written 0 false e (.openParen :: signs ++ [.closeParen])
  | unary {isOpen : Bool} {op : Operator} {e : Formula} {signs : List Sign}
      (rest : Written maxLevel isOpen e signs) : Written 0 true (.unary op e) (.operator op :: signs)
  | binary {level : Nat} {isOpen : Bool} {op : Operator} {l r : Formula} {before behind : List Sign}
      (level_eq : op.level = level + 1) (left : Written (level + 1) false l before)
      (right : Written level isOpen r behind) :
      Written (level + 1) isOpen (.binary op l r) (before ++ .operator op :: behind)
  | looser {level : Nat} {isOpen : Bool} {e : Formula} {signs : List Sign}
      (tighter : Written level isOpen e signs) : Written (level + 1) isOpen e signs

theorem Written.looser_le {level level' : Nat} {isOpen : Bool} {e : Formula} {signs : List Sign}
    (h : Written level isOpen e signs) (le : level ≤ level') : Written level' isOpen e signs := by
  induction le with
  | refl => exact h
  | step _ ih => exact ih.looser

theorem Written.length_pos {level : Nat} {isOpen : Bool} {e : Formula} {signs : List Sign}
    (h : Written level isOpen e signs) : 0 < signs.length := by
  induction h with
  | looser _ ih => exact ih
  | binary _ _ _ ih _ => exact Nat.lt_of_lt_of_le ih (by simp)
  | _ => simp

/-! ### Laying out -/

def grouped (signs : List Sign) : List Sign := .openParen :: signs ++ [.closeParen]

/-- Writes a formula as one of a level. It is closed at the end if that is asked for. -/
def layout : (level : Nat) → (closed : Bool) → Formula → List Sign
  | _, _, .number n => [.numeral n]
  | _, _, .var x => [.word x]
  | _, closed, .unary op e =>
    let signs := .operator op :: layout maxLevel false e
    if closed then grouped signs else signs
  | level, closed, .binary op l r =>
    if op.level ≤ level then
      layout op.level true l ++ .operator op :: layout (op.level - 1) closed r
    else grouped (layout op.level true l ++ .operator op :: layout (op.level - 1) false r)

theorem level_eq_succ (op : Operator) : op.level = op.level - 1 + 1 := by cases op <;> rfl

theorem level_le_maxLevel (op : Operator) : op.level ≤ maxLevel := by cases op <;> decide

/-- A layout is a way to write a formula. -/
theorem written_layout (e : Formula) (level : Nat) (closed : Bool) :
    ∃ isOpen, (closed = true → isOpen = false) ∧ Written level isOpen e (layout level closed e) := by
  induction e generalizing level closed with
  | number n => exact ⟨false, fun _ => rfl, (Written.number n).looser_le (Nat.zero_le _)⟩
  | var x => exact ⟨false, fun _ => rfl, (Written.var x).looser_le (Nat.zero_le _)⟩
  | unary op e ih =>
    obtain ⟨isOpen, -, rest⟩ := ih maxLevel false
    have written : Written 0 true (.unary op e) (.operator op :: layout maxLevel false e) :=
      .unary rest
    cases closed with
    | false => exact ⟨true, nofun, written.looser_le (Nat.zero_le _)⟩
    | true =>
      have inside := written.looser_le (Nat.zero_le maxLevel)
      exact ⟨false, fun _ => rfl, (Written.group inside).looser_le (Nat.zero_le _)⟩
  | binary op l r ihl ihr =>
    obtain ⟨isOpen, closedLeft, left⟩ := ihl op.level true
    rw [closedLeft rfl, level_eq_succ op] at left
    -- the operator stands at its own level, with or without parentheses around it
    have written : ∀ {c isOpen}, Written (op.level - 1) isOpen r (layout (op.level - 1) c r) →
        Written op.level isOpen (.binary op l r)
          (layout op.level true l ++ .operator op :: layout (op.level - 1) c r) := by
      intro c isOpen right
      have binary := Written.binary (level_eq_succ op) left right
      rwa [← level_eq_succ op] at binary
    unfold layout
    split
    · next le =>
      obtain ⟨isOpen, closedRight, right⟩ := ihr (op.level - 1) closed
      exact ⟨isOpen, closedRight, (written right).looser_le le⟩
    · obtain ⟨isOpen, -, right⟩ := ihr (op.level - 1) false
      have inside := (written right).looser_le (level_le_maxLevel op)
      exact ⟨false, fun _ => rfl, (Written.group inside).looser_le (Nat.zero_le _)⟩

end Formula

/-! ### Spelling -/

namespace Sign

def text : Sign → String
  | openParen => "("
  | closeParen => ")"
  | numeral n => n.text
  | word x => x.text
  | operator op => op.spelling

/-- Whether some bytes behind a sign are not read as part of it. -/
def Apart : Sign → Bytes → Prop
  | openParen, _ => True
  | closeParen, _ => True
  | _, bytes => Tree.Delimited bytes

end Sign

/-- Bytes that start with spelled signs and go on with `after`. Before every sign stands any number
of blanks, and behind it is something that it does not run on into. -/
inductive Spells (after : Bytes) : List Sign → Bytes → Prop where
  | nil : Spells after [] after
  | cons {sign : Sign} {signs : List Sign} {gap more : Bytes}
      (blank : ∀ b ∈ gap, Byte.isSpace b = true) (apart : sign.Apart more)
      (rest : Spells after signs more) :
      Spells after (sign :: signs) (gap ++ (Text.encode sign.text ++ more))

def spellSigns : List Sign → String
  | [] => ""
  | sign :: rest => " " ++ (sign.text ++ spellSigns rest)

/-- With a blank before each sign, no two run together. -/
theorem spells_spellSigns (signs : List Sign) {after : Bytes} (border : Tree.Delimited after) :
    Spells after signs (Text.encode (spellSigns signs) ++ after) := by
  have blank : ∀ b ∈ Text.encode " ", Byte.isSpace b = true := by
    intro b hb
    have space : b = 32 := List.mem_singleton.mp hb
    rw [space]
    rfl
  have delimited : ∀ signs, Tree.Delimited (Text.encode (spellSigns signs) ++ after) := by
    intro signs
    cases signs with
    | nil => exact border
    | cons sign rest =>
      rw [spellSigns, Text.encode_append]
      exact Tree.delimited_cons_iff.mpr rfl
  induction signs with
  | nil => exact .nil
  | cons sign rest ih =>
    have apart : sign.Apart (Text.encode (spellSigns rest) ++ after) := by
      cases sign with
      | openParen => trivial
      | closeParen => trivial
      | _ => exact delimited rest
    rw [spellSigns, Text.encode_append, Text.encode_append, List.append_assoc, List.append_assoc]
    exact .cons blank apart ih

end Scriptlet
