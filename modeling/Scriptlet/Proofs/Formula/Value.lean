import Mathlib.Algebra.Group.Int.Defs
import Mathlib.Algebra.Group.Nat.Defs
import Scriptlet.Proofs.Formula.Syntax

/-!
The values of formulas, on integers. Every result is brought into the range of a word by `wrap`,
division truncates toward zero, the count of a shift is taken modulo 64, and the bitwise operators
work on the two's complement pattern of their operands.

A formula has no value exactly if the divisor of some division in it has the value zero.
-/

namespace Scriptlet

/-- The integer in the range of a word that differs by a multiple of 2 ^ 64. -/
def wrap (n : Int) : Int := n.bmod (2 ^ 64)

/-- The two's complement pattern of an integer, as a number below 2 ^ 64. -/
def pattern (n : Int) : Nat := (n % 2 ^ 64).toNat

def shiftCount (n : Int) : Nat := (n % 64).toNat

def truth (p : Prop) [Decidable p] : Int := if p then 1 else 0

namespace Operator

/-- What an operator does to integers in the range of a word. -/
def meaning? (op : Operator) (x y : Int) : Option Int :=
  match op with
  | multiply => some (wrap (x * y))
  | divide => if y = 0 then none else some (wrap (x.tdiv y))
  | plus => some (wrap (x + y))
  | minus => some (wrap (x - y))
  | and => some (wrap (pattern x &&& pattern y : Nat))
  | or => some (wrap (pattern x ||| pattern y : Nat))
  | xor => some (wrap (pattern x ^^^ pattern y : Nat))
  | shiftRight => some (x / 2 ^ shiftCount y)
  | shiftLeft => some (wrap (x * 2 ^ shiftCount y))
  | equal => some (truth (x = y))
  | notEqual => some (truth (x ≠ y))
  | less => some (truth (x < y))
  | lessEqual => some (truth (x ≤ y))
  | greater => some (truth (x > y))
  | greaterEqual => some (truth (x ≥ y))

/-! ### Words -/

theorem toInt_ofBool {p : Prop} [Decidable p] : (Word.ofBool p).toInt = truth p := by
  by_cases h : p
  · simp only [h, decide_true, truth, if_true]
    rfl
  · simp only [h, decide_false, truth, if_false]
    rfl

theorem pattern_toInt (x : Word) : pattern x.toInt = x.toBitVec.toNat := by
  rw [pattern, ← Int64.toInt_toBitVec, BitVec.toInt_eq_toNat_bmod]
  have range := x.toBitVec.isLt
  rw [show (2 : Int) ^ 64 = ((2 ^ 64 : Nat) : Int) from rfl, Int.bmod_emod]
  omega

theorem toNat_smod (y : Word) : (y.toBitVec.smod 64).toNat = shiftCount y.toInt := by
  have value : (y.toBitVec.smod 64).toInt = y.toInt % 64 := by
    rw [BitVec.toInt_smod, Int64.toInt_toBitVec, Int.fmod_eq_emod_of_nonneg _ (by decide)]
    rfl
  have sign := BitVec.toInt_eq_toNat_cond (y.toBitVec.smod 64)
  have range := (y.toBitVec.smod 64).isLt
  rw [shiftCount]
  split at sign <;> omega

theorem toInt_shiftLeft (x y : Word) : (x <<< y).toInt = wrap (x.toInt * 2 ^ shiftCount y.toInt) := by
  rw [← Int64.toInt_toBitVec, Int64.toBitVec_shiftLeft, BitVec.shiftLeft_eq', BitVec.toInt_shiftLeft,
    toNat_smod, Nat.shiftLeft_eq, wrap, ← Int64.toInt_toBitVec x, BitVec.toInt_eq_toNat_bmod,
    Int.bmod_mul_bmod]
  push_cast
  rfl

theorem toInt_shiftRight (x y : Word) : (x >>> y).toInt = x.toInt / 2 ^ shiftCount y.toInt := by
  rw [← Int64.toInt_toBitVec, Int64.toBitVec_shiftRight, BitVec.sshiftRight', BitVec.toInt_sshiftRight,
    toNat_smod, Int.shiftRight_eq_div_pow, Int64.toInt_toBitVec]
  rfl

/-- What an operator gives on words, if it means `value?` on integers. -/
def Gives (result : Except Error Word) : (value? : Option Int) → Prop
  | some value => ∃ word, result = .ok word ∧ word.toInt = value
  | none => result = .error .divisionByZero

/-- On words an operator does what it means. -/
theorem gives_meaning? (op : Operator) (x y : Word) :
    Gives (op.apply x y) (op.meaning? x.toInt y.toInt) := by
  cases op with
  | multiply => exact ⟨_, rfl, Int64.toInt_mul x y⟩
  | plus => exact ⟨_, rfl, Int64.toInt_add x y⟩
  | minus => exact ⟨_, rfl, Int64.toInt_sub x y⟩
  | divide =>
    by_cases zero : y = 0
    · subst zero
      rfl
    · have zero' : y.toInt ≠ 0 := fun h => zero (Int64.toInt_inj.mp h)
      rw [meaning?, if_neg zero']
      exact ⟨x / y, if_neg zero, Int64.toInt_div x y⟩
  | and =>
    refine ⟨_, rfl, ?_⟩
    rw [← Int64.toInt_toBitVec, Int64.toBitVec_and, BitVec.toInt_and, pattern_toInt, pattern_toInt]
    rfl
  | or =>
    refine ⟨_, rfl, ?_⟩
    rw [← Int64.toInt_toBitVec, Int64.toBitVec_or, BitVec.toInt_or, pattern_toInt, pattern_toInt]
    rfl
  | xor =>
    refine ⟨_, rfl, ?_⟩
    rw [← Int64.toInt_toBitVec, Int64.toBitVec_xor, BitVec.toInt_xor, pattern_toInt, pattern_toInt]
    rfl
  | shiftRight => exact ⟨_, rfl, toInt_shiftRight x y⟩
  | shiftLeft => exact ⟨_, rfl, toInt_shiftLeft x y⟩
  | equal => exact ⟨_, rfl, by simp only [toInt_ofBool, Int64.toInt_inj]⟩
  | notEqual => exact ⟨_, rfl, by simp only [toInt_ofBool, ne_eq, Int64.toInt_inj]⟩
  | less => exact ⟨_, rfl, by simp only [toInt_ofBool, Int64.lt_iff_toInt_lt]⟩
  | lessEqual => exact ⟨_, rfl, by simp only [toInt_ofBool, Int64.le_iff_toInt_le]⟩
  | greater => exact ⟨_, rfl, by simp only [toInt_ofBool, gt_iff_lt, Int64.lt_iff_toInt_lt]⟩
  | greaterEqual => exact ⟨_, rfl, by simp only [toInt_ofBool, ge_iff_le, Int64.le_iff_toInt_le]⟩

end Operator

/-! ### Formulas -/

namespace Formula

variable {env : Tree.Spelled → Int}

/-- The value of a formula, if it has one. A number too large for a word is wrapped. -/
def value? (env : Tree.Spelled → Int) : Formula → Option Int
  | number n => some (wrap n.value)
  | var x => some (env x)
  | unary op e => (e.value? env).bind (op.meaning? 0)
  | binary op l r => (l.value? env).bind fun x => (r.value? env).bind (op.meaning? x)

/-- The divisors in a formula: what stands to the right of a division sign. -/
def divisors : Formula → List Formula
  | number _ => []
  | var _ => []
  | unary op e => if op = .divide then e :: e.divisors else e.divisors
  | binary op l r =>
    l.divisors ++ if op = .divide then r :: r.divisors else r.divisors

def DividesByZero (env : Tree.Spelled → Int) (e : Formula) : Prop :=
  ∃ d ∈ e.divisors, d.value? env = some 0

theorem meaning?_eq_none_iff {op : Operator} {x y : Int} :
    op.meaning? x y = none ↔ op = .divide ∧ y = 0 := by
  cases op <;> simp [Operator.meaning?]

/-- What an operator adds to the divisors of its right operand. -/
theorem dividesByZero_operand {op : Operator} {e : Formula} :
    (∃ d ∈ if op = .divide then e :: e.divisors else e.divisors, d.value? env = some 0) ↔
      (op = .divide ∧ e.value? env = some 0) ∨ e.DividesByZero env := by
  by_cases h : op = .divide <;> simp [h, DividesByZero]

/-- A formula lacks a value exactly if it divides by zero. -/
theorem value?_eq_none_iff (e : Formula) : e.value? env = none ↔ e.DividesByZero env := by
  induction e with
  | number n => simp [value?, DividesByZero, divisors]
  | var x => simp [value?, DividesByZero, divisors]
  | unary op e ih =>
    have operand : (Formula.unary op e).DividesByZero env ↔
        (op = .divide ∧ e.value? env = some 0) ∨ e.DividesByZero env := dividesByZero_operand
    rw [operand, ← ih, value?]
    cases e.value? env with
    | none => simp
    | some y => simp [meaning?_eq_none_iff]
  | binary op l r ihl ihr =>
    have operands : (Formula.binary op l r).DividesByZero env ↔ l.DividesByZero env ∨
        (op = .divide ∧ r.value? env = some 0) ∨ r.DividesByZero env := by
      rw [← dividesByZero_operand]
      simp only [DividesByZero, divisors, List.mem_append, or_and_right, exists_or]
    rw [operands, ← ihl, ← ihr, value?]
    cases l.value? env with
    | none => simp
    | some x =>
      cases r.value? env with
      | none => simp
      | some y => simp [meaning?_eq_none_iff]

end Formula

end Scriptlet
