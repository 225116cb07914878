import Scriptlet.Proofs.Discipline

/-!
Reading stays in its window. A scanner never comes past the end of its window, and the pieces of
text that lexemes point out are inside. So the slices that tokens carry lie in the store that the
cursor reads.
-/

namespace Scriptlet

open Text (Bytes)

/-- The piece of text that a lexeme points out. -/
def Lexeme.place? : Lexeme → Option Span
  | .name place => some place
  | .operator place => some place
  | .block inside => some inside
  | .quote inside => some inside
  | _ => none

namespace Scanner

def limit (s : Scanner) : Nat := s.pos + s.rest.length

theorem limit_skip {s : Scanner} {n : Nat} (h : n ≤ s.rest.length) : (s.skip n).limit = s.limit := by
  simp only [limit, pos_skip, rest_skip, List.length_drop]
  omega

/-! ### Lengths -/

theorem blankLength_le (comment : Bool) (bytes : Bytes) : blankLength comment bytes ≤ bytes.length := by
  fun_induction blankLength comment bytes <;> simp_all

theorem blockLength?_lt {depth : Nat} {bytes : Bytes} {length : Nat}
    (h : blockLength? depth bytes = some length) : length < bytes.length := by
  fun_induction blockLength? depth bytes generalizing length with
  | case1 => cases h
  | case2 depth b rest _ ih =>
    obtain ⟨inner, hinner, rfl⟩ := Option.map_eq_some_iff.mp h
    have := ih hinner
    simp only [List.length_cons]
    omega
  | case3 b rest _ _ =>
    cases h
    simp
  | case4 b rest _ _ outer ih =>
    obtain ⟨inner, hinner, rfl⟩ := Option.map_eq_some_iff.mp h
    have := ih hinner
    simp only [List.length_cons]
    omega
  | case5 depth b rest _ _ ih =>
    obtain ⟨inner, hinner, rfl⟩ := Option.map_eq_some_iff.mp h
    have := ih hinner
    simp only [List.length_cons]
    omega

theorem length_takeWhile_le (accept : UInt8 → Bool) (bytes : Bytes) :
    (bytes.takeWhile accept).length ≤ bytes.length := (List.takeWhile_sublist _).length_le

/-! ### One lexeme -/

/-- A lexeme read from a scanner, with the scanner behind it, is inside the window. -/
structure Within (s : Scanner) (l : Lexeme) (after : Scanner) : Prop where
  limit : after.limit = s.limit
  place : ∀ {place}, l.place? = some place →
    place.start ≤ place.stop ∧ 0 < place.stop ∧ place.stop ≤ s.limit

theorem Within.of_no_place {s after : Scanner} {l : Lexeme} (hl : l.place? = none)
    (h : after.limit = s.limit) : Within s l after :=
  ⟨h, fun hplace => by rw [hl] at hplace; cases hplace⟩

theorem limit_readNumber (s : Scanner) : s.readNumber.2.limit = s.limit := by
  unfold readNumber
  split
  · next hex =>
    have long : 2 ≤ s.rest.length := by
      cases hs : s.rest with
      | nil => simp [hs, startsHex] at hex
      | cons zero tail =>
        cases tail with
        | nil => simp [hs, startsHex] at hex
        | cons mark tail => simp only [List.length_cons]; omega
    have digits := length_takeWhile_le Byte.isHexDigit (s.rest.drop 2)
    rw [List.length_drop] at digits
    exact limit_skip (by omega)
  · exact limit_skip (length_takeWhile_le _ _)

theorem place?_readNumber (s : Scanner) : s.readNumber.1.place? = none := by
  unfold readNumber
  split <;> rfl

theorem within_readRun {accept : UInt8 → Bool} {s : Scanner} {b : UInt8} {tail : Bytes}
    (hs : s.rest = b :: tail) (hb : accept b = true) {l : Lexeme}
    (hl : l.place? = some (s.readRun accept).1) : Within s l (s.readRun accept).2 := by
  have fits := length_takeWhile_le accept s.rest
  have some_byte : 0 < (s.rest.takeWhile accept).length := by simp [hs, hb]
  refine ⟨limit_skip fits, fun hplace => ?_⟩
  rw [hl] at hplace
  cases hplace
  simp only [readRun, limit]
  omega

theorem within_readBlock {s after : Scanner} {l : Lexeme} (h : s.readBlock = (.ok l, after)) :
    Within s l after := by
  unfold readBlock at h
  split at h
  · next length found =>
    cases h
    have fits := blockLength?_lt found
    rw [List.length_drop] at fits
    refine ⟨limit_skip (by omega), fun hplace => ?_⟩
    cases hplace
    simp only [limit]
    omega
  · cases h

theorem within_readQuote {quoting : Quoting} {s after : Scanner} {l : Lexeme} {b : UInt8}
    {tail : Bytes} (hs : s.rest = b :: tail) (h : s.readQuote quoting = (.ok l, after)) :
    Within s l after := by
  unfold readQuote at h
  simp only at h
  have inside : ((s.skip 1).rest).length + 1 = s.rest.length := by simp [hs]
  split at h
  · next c rest hrest =>
    have fits := congrArg List.length hrest
    simp only [rest_skip, List.length_drop, List.length_cons] at fits inside
    split at h
    · cases h
      constructor
      · simp only [limit, pos_skip, rest_skip, List.length_drop]
        omega
      · intro place hplace
        cases hplace
        simp only [limit, pos_skip, rest_skip]
        omega
    · cases h
  · cases h

theorem within_readLexeme {quoting : Quoting} {s after : Scanner} {l : Lexeme}
    (h : s.readLexeme quoting = (.ok l, after)) : Within s l after := by
  unfold readLexeme at h
  split at h
  · cases h
    exact .of_no_place rfl rfl
  · next b tail hs =>
    have one : (s.skip 1).limit = s.limit := limit_skip (by simp [hs])
    split at h <;> rename_i hclass
    iterate 5
      · cases h
        exact .of_no_place rfl one
    · exact within_readBlock h
    · exact within_readQuote hs h
    · cases h
      exact .of_no_place (place?_readNumber s) (limit_readNumber s)
    · cases h
      exact within_readRun hs (Byte.isNameByte_of_classOf hclass) rfl
    · cases h
      exact within_readRun hs (Byte.isOperatorByte_of_classOf hclass) rfl
    · cases h

/-- The next lexeme is inside the window. -/
theorem within_next {quoting : Quoting} {s after : Scanner} {l : Lexeme}
    (h : s.next quoting = (.ok l, after)) : Within s l after := by
  have skipped : s.skipBlank.limit = s.limit := limit_skip (blankLength_le false s.rest)
  have read := within_readLexeme (s := s.skipBlank) h
  exact ⟨read.limit.trans skipped, fun hplace => skipped ▸ read.place hplace⟩

theorem limit_ofWindow_le (text : Array UInt8) (start stop : Nat) :
    (ofWindow text start stop).limit ≤ text.size := by
  simp only [ofWindow, limit, Array.length_toList, Array.size_extract]
  omega

end Scanner

end Scriptlet
