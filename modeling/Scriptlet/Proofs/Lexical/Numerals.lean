import Mathlib.Data.Int.ModEq
import Mathlib.Data.List.Forall2
import Mathlib.Data.Nat.Digits.Defs
import Scriptlet.Proofs.Lexical.Reading

/-!
What numerals mean. A numeral may have any number of digits, a word has 64 bits, and while the digits are
read one after the other the word wraps around as often as it has to. It is the same as if the whole number
were taken modulo the size of a word at the end (`next_numeral`).

What a numeral is and what it denotes is said with the digits of natural numbers, so no word and nothing of
the reader is in it. A numeral ends where no longer one is found at the same place. To see that it is enough
to look at the next byte, except behind a lone zero, which may be the start of a hexadecimal numeral
(`longestNumeral_decimal_iff`, `longestNumeral_hexadecimal_iff`).
-/

namespace Scriptlet.Lexical

open Text (Bytes)

/-! ### Numerals -/

/-- A byte stands for a digit of a radix: it is the character of the digit, in lower or upper case. -/
def WritesDigit (radix : Nat) (b : UInt8) (digit : Nat) : Prop :=
  digit < radix ∧ (b = (Nat.digitChar digit).toUInt8 ∨ b = (Nat.digitChar digit).toUpper.toUInt8)

/-- How a numeral of a radix is spelled, and the digits that it is made of, the first one first. -/
inductive IsNumeral : (radix : Nat) → (digits : List Nat) → (spelled : Bytes) → Prop where
  | decimal {digits : List Nat} {run : Bytes} (nonempty : run ≠ [])
      (writes : List.Forall₂ (WritesDigit 10) run digits) : IsNumeral 10 digits run
  | hexadecimal {digits : List Nat} {mark : UInt8} {run : Bytes}
      (isMark : mark = 'x'.toUInt8 ∨ mark = 'X'.toUInt8) (nonempty : run ≠ [])
      (writes : List.Forall₂ (WritesDigit 16) run digits) : IsNumeral 16 digits ('0'.toUInt8 :: mark :: run)

/-- A numeral that is not extended by what stands behind it: no numeral at the same place is longer. -/
structure LongestNumeral (radix : Nat) (digits : List Nat) (spelled rest : Bytes) : Prop where
  numeral : IsNumeral radix digits spelled
  longest : ∀ {radix' digits' spelled' rest'}, spelled' ++ rest' = spelled ++ rest →
    IsNumeral radix' digits' spelled' → spelled'.length ≤ spelled.length

/-! ### Digits -/

theorem writesDigit_iff {radix : Nat} (small : radix ≤ 16) {b : UInt8} {digit : Nat} :
    WritesDigit radix b digit ↔
      Byte.isHexDigit b = true ∧ Byte.digitValue b = digit ∧ digit < radix := by
  have written : ∀ d < 16, ∀ b,
      b = (Nat.digitChar d).toUInt8 ∨ b = (Nat.digitChar d).toUpper.toUInt8 →
        Byte.isHexDigit b = true ∧ Byte.digitValue b = d := by
    simp only [forall_eq_or_imp, forall_eq]
    decide
  have read : ∀ n < 256, Byte.isHexDigit (UInt8.ofNat n) = true →
      UInt8.ofNat n = (Nat.digitChar (Byte.digitValue (UInt8.ofNat n))).toUInt8 ∨
        UInt8.ofNat n = (Nat.digitChar (Byte.digitValue (UInt8.ofNat n))).toUpper.toUInt8 := by
    decide +kernel
  constructor
  · rintro ⟨lt, char⟩
    obtain ⟨isHexDigit, value⟩ := written digit (by omega) b char
    exact ⟨isHexDigit, value, lt⟩
  · rintro ⟨isHexDigit, rfl, lt⟩
    refine ⟨lt, ?_⟩
    have char := read b.toNat b.toNat_lt
    rw [UInt8.ofNat_toNat] at char
    exact char isHexDigit

variable {digits : List Nat} {run rest : Bytes} {mark : UInt8}

/-- If the bytes that stand for digits of a radix are known, so is what a run of them is made of. -/
theorem forall₂_writesDigit_iff {radix : Nat} {accept : UInt8 → Bool}
    (writes : ∀ b digit, WritesDigit radix b digit ↔ accept b = true ∧ Byte.digitValue b = digit) :
    List.Forall₂ (WritesDigit radix) run digits ↔
      (∀ b ∈ run, accept b = true) ∧ run.map Byte.digitValue = digits := by
  have same : WritesDigit radix = fun b digit => accept b = true ∧ Byte.digitValue b = digit :=
    funext fun b => funext fun digit => propext (writes b digit)
  rw [same, List.forall₂_and_left, ← List.forall₂_map_left_iff, List.forall₂_eq_eq_eq]

theorem writesDecimal_iff : List.Forall₂ (WritesDigit 10) run digits ↔
    (∀ b ∈ run, Byte.isDigit b = true) ∧ run.map Byte.digitValue = digits := by
  have isDigit_iff : ∀ b, Byte.isDigit b = true ↔ Byte.isHexDigit b = true ∧ Byte.digitValue b < 10 := by
    grind [Byte.isDigit, Byte.isHexDigit, Byte.digitValue, UInt8.le_iff_toNat_le]
  refine forall₂_writesDigit_iff fun b digit => ?_
  rw [writesDigit_iff (by decide), isDigit_iff]
  grind

theorem writesHexadecimal_iff : List.Forall₂ (WritesDigit 16) run digits ↔
    (∀ b ∈ run, Byte.isHexDigit b = true) ∧ run.map Byte.digitValue = digits := by
  have lt : ∀ b, Byte.isHexDigit b = true → Byte.digitValue b < 16 := by
    grind [Byte.isDigit, Byte.isHexDigit, Byte.digitValue, UInt8.le_iff_toNat_le]
  refine forall₂_writesDigit_iff fun b digit => ?_
  rw [writesDigit_iff (by decide)]
  grind

theorem isHexMark_iff : Byte.isHexMark mark = true ↔ mark = 'x'.toUInt8 ∨ mark = 'X'.toUInt8 := by
  rw [Byte.isHexMark, Bool.or_eq_true, beq_iff_eq, beq_iff_eq]
  rfl

/-- Digits are folded into the number that they denote. -/
theorem ofDigits_eq (radix : Nat) (run : Bytes) :
    Numeral.ofDigits radix run = Nat.ofDigits radix (run.map Byte.digitValue).reverse := by
  rw [Numeral.ofDigits, List.foldl_eq_foldr_reverse, Nat.ofDigits_eq_foldr, ← List.map_reverse,
    List.foldr_map]
  simp [Nat.add_comm, Nat.mul_comm]

/-! ### Where a numeral ends -/

/-- A run that stops is as long as any other at the same place. -/
theorem length_le_of_stops {accept : UInt8 → Bool} {run' rest' : Bytes} (stops : Stops accept rest)
    (same : run' ++ rest' = run ++ rest) (inside : ∀ b ∈ run', accept b = true) :
    run'.length ≤ run.length := by
  rcases List.append_eq_append_iff.mp same with ⟨more, rfl, -⟩ | ⟨more, rfl, behind⟩
  · simp
  · cases more with
    | nil => simp
    | cons b more =>
      have refused := stops b (by rw [behind]; rfl)
      rw [inside b (by simp)] at refused
      cases refused

/-- A run that no run of its kind with one more byte can be in the place of stops. -/
theorem stops_of_longest {accept : UInt8 → Bool} (inside : ∀ b ∈ run, accept b = true)
    (longest : ∀ b more, rest = b :: more → ¬∀ c ∈ run ++ [b], accept c = true) : Stops accept rest := by
  intro b hb
  obtain ⟨more, behind⟩ := List.head?_eq_some_iff.mp hb
  refine Bool.eq_false_iff.mpr fun accepted => longest b more behind fun c hc => ?_
  rcases List.mem_append.mp hc with hc | hc
  · exact inside c hc
  · rwa [List.mem_singleton.mp hc]

/-- The mark of a hexadecimal numeral is no decimal digit, so only the zero before it is read as one. -/
theorem length_le_one {zero : UInt8} {more : Bytes} (same : run ++ rest = zero :: mark :: more)
    (isMark : mark = 'x'.toUInt8 ∨ mark = 'X'.toUInt8) (inside : ∀ b ∈ run, Byte.isDigit b = true) :
    run.length ≤ 1 := by
  match run, inside, same with
  | [], _, _ => simp
  | [_], _, _ => simp
  | _ :: _ :: _, inside, same =>
    cases same
    have refused := Byte.isHexMark_of_isDigit (inside mark (by simp))
    rw [isHexMark_iff.mpr isMark] at refused
    cases refused

theorem longestNumeral_decimal_iff (nonempty : run ≠ [])
    (writes : List.Forall₂ (WritesDigit 10) run digits) :
    LongestNumeral 10 digits run rest ↔ Stops Byte.isDigit rest ∧ ¬LeadsHex (run ++ rest) := by
  obtain ⟨inside, -⟩ := writesDecimal_iff.mp writes
  constructor
  · intro h
    refine ⟨stops_of_longest inside fun b more behind inside' => ?_, ?_⟩
    · have longest := h.longest (show run ++ [b] ++ more = run ++ rest by simp [behind])
        (.decimal (by simp) (writesDecimal_iff.mpr ⟨inside', rfl⟩))
      simp at longest
    · rintro ⟨mark, digit, more, bytes, isMark, isDigit⟩
      have longest := h.longest (show ['0'.toUInt8, mark, digit] ++ more = run ++ rest from bytes.symm)
        (.hexadecimal (isHexMark_iff.mp isMark) (by simp)
          (writesHexadecimal_iff.mpr ⟨by simpa using isDigit, rfl⟩))
      have short := length_le_one bytes (isHexMark_iff.mp isMark) inside
      exact absurd (longest.trans short) (by simp)
  · rintro ⟨stops, plain⟩
    refine ⟨.decimal nonempty writes, fun same other => ?_⟩
    cases other with
    | decimal _ writes' =>
      exact length_le_of_stops stops same (writesDecimal_iff.mp writes').1
    | @hexadecimal _ mark _ isMark nonempty' writes' =>
      obtain ⟨digit, more, rfl⟩ := List.exists_cons_of_ne_nil nonempty'
      have isDigit := (writesHexadecimal_iff.mp writes').1 digit (by simp)
      exact absurd ⟨mark, digit, _, same.symm, isHexMark_iff.mpr isMark, isDigit⟩ plain

theorem longestNumeral_hexadecimal_iff (isMark : mark = 'x'.toUInt8 ∨ mark = 'X'.toUInt8)
    (nonempty : run ≠ []) (writes : List.Forall₂ (WritesDigit 16) run digits) :
    LongestNumeral 16 digits ('0'.toUInt8 :: mark :: run) rest ↔ Stops Byte.isHexDigit rest := by
  obtain ⟨inside, -⟩ := writesHexadecimal_iff.mp writes
  constructor
  · intro h
    refine stops_of_longest inside fun b more behind inside' => ?_
    have longest := h.longest
      (show '0'.toUInt8 :: mark :: (run ++ [b]) ++ more = '0'.toUInt8 :: mark :: run ++ rest by simp [behind])
      (.hexadecimal isMark (by simp) (writesHexadecimal_iff.mpr ⟨inside', rfl⟩))
    simp at longest
  · intro stops
    refine ⟨.hexadecimal isMark nonempty writes, fun same other => ?_⟩
    cases other with
    | decimal _ writes' =>
      have short := length_le_one same isMark (writesDecimal_iff.mp writes').1
      exact short.trans (by simp)
    | hexadecimal _ _ writes' =>
      have behind := (List.cons.inj (List.cons.inj same).2).2
      have shorter := length_le_of_stops stops behind (writesHexadecimal_iff.mp writes').1
      exact Nat.succ_le_succ (Nat.succ_le_succ shorter)

/-- A numeral that is not extended is a lexeme, and the word in it is the whole number, wrapped around. -/
theorem LongestNumeral.spells {radix : Nat} {spelled : Bytes} (h : LongestNumeral radix digits spelled rest)
    (quoting : Quoting) (pos : Nat) :
    Spells quoting pos spelled rest (.number (Int64.ofNat (Nat.ofDigits radix digits.reverse))) := by
  cases h.numeral with
  | decimal nonempty writes =>
    obtain ⟨stops, plain⟩ := (longestNumeral_decimal_iff nonempty writes).mp h
    obtain ⟨inside, rfl⟩ := writesDecimal_iff.mp writes
    rw [← ofDigits_eq]
    exact .decimal nonempty inside stops plain
  | hexadecimal isMark nonempty writes =>
    have stops := (longestNumeral_hexadecimal_iff isMark nonempty writes).mp h
    obtain ⟨inside, rfl⟩ := writesHexadecimal_iff.mp writes
    rw [← ofDigits_eq]
    exact .hexadecimal (isHexMark_iff.mpr isMark) nonempty inside stops

/-! ### Reading -/

/-- One word is congruent to a number modulo the size of a word. -/
theorem toInt_modEq_iff {w : Word} {n : Nat} : w.toInt ≡ n [ZMOD 2 ^ 64] ↔ w = Int64.ofNat n := by
  have reduced : w = Int64.ofNat n ↔ (n : Int).bmod (2 ^ 64) = w.toInt := by
    rw [← Int64.ofInt_eq_iff_bmod_eq_toInt, Int64.ofInt_eq_ofNat, eq_comm]
  rw [reduced]
  constructor
  · intro same
    calc (n : Int).bmod (2 ^ 64)
      _ = ((n : Int) % (2 ^ 64 : Nat)).bmod (2 ^ 64) := (Int.emod_bmod _ _).symm
      _ = (w.toInt % (2 ^ 64 : Nat)).bmod (2 ^ 64) := congrArg (Int.bmod · _) same.symm
      _ = w.toInt.bmod (2 ^ 64) := Int.emod_bmod _ _
      _ = w.toInt := Int64.toInt_bmod w
  · intro same
    rw [← same]
    exact Int.bmod_emod

variable {radix : Nat} {spelled gap : Bytes}

theorem IsNumeral.exists_cons (h : IsNumeral radix digits spelled) :
    ∃ b tail, spelled = b :: tail ∧ Byte.isDigit b = true := by
  cases h with
  | decimal nonempty writes =>
    obtain ⟨b, tail, rfl⟩ := List.exists_cons_of_ne_nil nonempty
    exact ⟨b, tail, rfl, (writesDecimal_iff.mp writes).1 b List.mem_cons_self⟩
  | hexadecimal => exact ⟨_, _, rfl, rfl⟩

theorem Blank.longestBlank {b : UInt8} (h : Blank (b :: rest) gap) (starts : Byte.classOf b ≠ .other) :
    LongestBlank gap (b :: rest) := by
  rw [longestBlank_iff, h.blankLength_append, Scanner.blankLength_of_classOf starts, Nat.add_zero]

/-- A window in which there is something starts where it is said to. -/
theorem windowStart_eq {text : Array UInt8} {start stop : Nat} (h : window text start stop ≠ []) :
    windowStart text start stop = start := by
  have inside := List.length_pos_iff.mpr h
  simp only [window, List.length_drop, List.length_take, Array.length_toList] at inside
  simp only [windowStart]
  omega

/-- Numerals of any length have their value modulo the size of a word. Where a numeral comes next in a
window, be there blank material before it, and no longer one is at its place, a number is read. It is the
one word that is congruent to the number that the digits denote in their radix, and reading goes on right
behind the last digit. -/
theorem next_numeral (quoting : Quoting) {text : Array UInt8} {start stop : Nat}
    (bytes : window text start stop = gap ++ (spelled ++ rest)) (blank : Blank (spelled ++ rest) gap)
    (numeral : LongestNumeral radix digits spelled rest) :
    ∃ n : Word, (∀ w : Word, w.toInt ≡ (Nat.ofDigits radix digits.reverse : Nat) [ZMOD 2 ^ 64] ↔ w = n) ∧
      (Scanner.ofWindow text start stop).next quoting =
        (.ok (.number n), ⟨start + gap.length + spelled.length, rest⟩) := by
  obtain ⟨b, tail, leads, isDigit⟩ := numeral.numeral.exists_cons
  have starts : windowStart text start stop = start := windowStart_eq (by simp [bytes, leads])
  have longest : LongestBlank gap (spelled ++ rest) := by
    rw [leads, List.cons_append] at blank ⊢
    refine blank.longestBlank ?_
    rw [Byte.classOf_of_isDigit isDigit]
    decide
  refine ⟨Int64.ofNat (Nat.ofDigits radix digits.reverse), fun w => toInt_modEq_iff, ?_⟩
  rw [ofWindow_eq, starts, bytes]
  exact (numeral.spells quoting _).next longest

/-- Two numerals that no word is large enough for. The decimal one is one more than there are words and is
cut off by the end of the window; the hexadecimal one has seventeen digits, in both cases. -/
theorem next_numeral_wraps :
    let text := (Text.encode "x = 184467440737095516179").toArray
    let text' := (Text.encode "0XfFfFfFfFfFfFfFfFf+1").toArray
    LongestNumeral 10 [1, 8, 4, 4, 6, 7, 4, 4, 0, 7, 3, 7, 0, 9, 5, 5, 1, 6, 1, 7]
      (Text.encode "18446744073709551617") [] ∧
    LongestNumeral 16 (List.replicate 17 15) (Text.encode "0XfFfFfFfFfFfFfFfFf") (Text.encode "+1") ∧
    (Scanner.ofWindow text 3 24).next .plain = (.ok (.number 1), ⟨24, []⟩) ∧
    (Scanner.ofWindow text' 0 21).next .argument = (.ok (.number (-1)), ⟨19, Text.encode "+1"⟩) := by
  intro text text'
  have decimal : LongestNumeral 10 [1, 8, 4, 4, 6, 7, 4, 4, 0, 7, 3, 7, 0, 9, 5, 5, 1, 6, 1, 7]
      (Text.encode "18446744073709551617") [] := by
    refine (longestNumeral_decimal_iff (by decide)
      (writesDecimal_iff.mpr ⟨List.all_eq_true.mp (by decide), by decide⟩)).mpr ⟨nofun, ?_⟩
    rw [leadsHex_iff]
    decide
  have stops : Stops Byte.isHexDigit (Text.encode "+1") := by
    intro b hb
    obtain rfl : 0x2B = b := Option.some.inj hb
    decide
  have hexadecimal : LongestNumeral 16 (List.replicate 17 15) (Text.encode "0XfFfFfFfFfFfFfFfFf")
      (Text.encode "+1") :=
    (longestNumeral_hexadecimal_iff (by decide) (by decide)
      (writesHexadecimal_iff.mpr ⟨List.all_eq_true.mp (by decide), by decide⟩)).mpr stops
  have bytes : window text 3 24 = [0x20] ++ (Text.encode "18446744073709551617" ++ []) := by decide
  have bytes' : window text' 0 21 = [] ++ (Text.encode "0XfFfFfFfFfFfFfFfFf" ++ Text.encode "+1") := by
    decide
  refine ⟨decimal, hexadecimal, ?_, ?_⟩
  · obtain ⟨n, congruent, read⟩ := next_numeral .plain bytes (.space rfl .nil) decimal
    rw [read, ← (congruent 1).mp (by decide)]
    rfl
  · obtain ⟨n, congruent, read⟩ := next_numeral .argument bytes' .nil hexadecimal
    rw [read, ← (congruent (-1)).mp (by decide)]
    rfl

end Scriptlet.Lexical
