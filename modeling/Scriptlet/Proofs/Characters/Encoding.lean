import Mathlib.Data.List.Basic
import Scriptlet.Text.Utf8

/-!
Texts as bytes. UTF-8 synchronises itself: a byte below 0x80 is a character of its own and no part of
another one. So bytes that are a text can be taken apart at every such byte, and both parts are texts
again (`IsText.apart`). And what is read of the bytes of a text is that text, without a replacement
(`decode_encode`).
-/

namespace Scriptlet.Text

theorem encode_ofList (cs : List Char) :
    encode (String.ofList cs) = cs.flatMap String.utf8EncodeChar := by
  simp [encode, List.utf8Encode]

/-- The bytes of a text are those of its characters. -/
theorem encode_eq (s : String) : encode s = s.toList.flatMap String.utf8EncodeChar := by
  rw [← encode_ofList, String.ofList_toList]

/-! ### Reading characters -/

theorem ofLead?_one : ∀ n < 128, Unfinished.ofLead? (UInt8.ofNat n) = some ⟨n, 0, 0x80, 0xBF⟩ := by
  decide +kernel

theorem ofLead?_two : ∀ n < 32, 2 ≤ n →
    Unfinished.ofLead? (UInt8.ofNat (n + 192)) = some ⟨n, 1, 0x80, 0xBF⟩ := by
  decide +kernel

theorem ofLead?_three : ∀ n < 16, Unfinished.ofLead? (UInt8.ofNat (n + 224)) =
    some ⟨n, 2, if n = 0 then 0xA0 else 0x80, if n = 13 then 0x9F else 0xBF⟩ := by
  decide +kernel

theorem ofLead?_four : ∀ n < 5, Unfinished.ofLead? (UInt8.ofNat (n + 240)) =
    some ⟨n, 3, if n = 0 then 0x90 else 0x80, if n = 4 then 0x8F else 0xBF⟩ := by
  decide +kernel

/-- A byte that brings six bits to a sequence lies in a range, if the bits do. -/
theorem inner_range (low t high : Nat) (le : low ≤ t) (le' : t ≤ high) (small : high < 64) :
    UInt8.ofNat (low + 128) ≤ UInt8.ofNat (t + 128) ∧
      UInt8.ofNat (t + 128) ≤ UInt8.ofNat (high + 128) := by
  simp only [UInt8.le_iff_toNat_le, UInt8.toNat_ofNat']
  omega

/-- With any six bits it lies in the range in which there may be any. -/
theorem inner_mod (n : Nat) :
    0x80 ≤ UInt8.ofNat (n % 64 + 128) ∧ UInt8.ofNat (n % 64 + 128) ≤ 0xBF :=
  inner_range 0 _ 63 (Nat.zero_le _) (by omega) (by decide)

theorem decodeFrom_lead {b : UInt8} {bits missing : Nat} {low high : UInt8}
    (lead : Unfinished.ofLead? b = some ⟨bits, missing + 1, low, high⟩) (rest : Bytes) :
    decodeFrom none (b :: rest) = decodeFrom (some ⟨bits, missing + 1, low, high⟩) rest := by
  have started : decodeByte none b = ([], some ⟨bits, missing + 1, low, high⟩) := by
    change startSequence b = _
    unfold startSequence
    rw [lead]
    rfl
  rw [decodeFrom, started]
  rfl

theorem decodeByte_inner {bits missing t : Nat} {low high : UInt8} (ht : t < 64)
    (range : low ≤ UInt8.ofNat (t + 128) ∧ UInt8.ofNat (t + 128) ≤ high) :
    decodeByte (some ⟨bits, missing, low, high⟩) (UInt8.ofNat (t + 128)) =
      Unfinished.settle ⟨bits * 64 + t, missing - 1, 0x80, 0xBF⟩ := by
  have six : (UInt8.ofNat (t + 128)).toNat - 0x80 = t := by
    rw [UInt8.toNat_ofNat']
    omega
  refine (if_pos range).trans ?_
  rw [six]

/-- A byte that is not the last of its sequence. -/
theorem decodeFrom_inner {bits missing t : Nat} {low high : UInt8} (ht : t < 64)
    (range : low ≤ UInt8.ofNat (t + 128) ∧ UInt8.ofNat (t + 128) ≤ high) (rest : Bytes) :
    decodeFrom (some ⟨bits, missing + 2, low, high⟩) (UInt8.ofNat (t + 128) :: rest) =
      decodeFrom (some ⟨bits * 64 + t, missing + 1, 0x80, 0xBF⟩) rest := by
  rw [decodeFrom, decodeByte_inner ht range]
  rfl

theorem decodeFrom_last {bits t : Nat} {low high : UInt8} (ht : t < 64)
    (range : low ≤ UInt8.ofNat (t + 128) ∧ UInt8.ofNat (t + 128) ≤ high) (rest : Bytes) :
    decodeFrom (some ⟨bits, 1, low, high⟩) (UInt8.ofNat (t + 128) :: rest) =
      Char.ofNat (bits * 64 + t) :: decodeFrom none rest := by
  rw [decodeFrom, decodeByte_inner ht range]
  rfl

/-- How a character is spelled: by one byte, or by a byte that leads and others that bring six bits each. -/
theorem utf8EncodeChar_eq (c : Char) : String.utf8EncodeChar c =
    if c.toNat ≤ 127 then [UInt8.ofNat c.toNat]
    else if c.toNat ≤ 2047 then
      [UInt8.ofNat (c.toNat / 64 % 32 + 192), UInt8.ofNat (c.toNat % 64 + 128)]
    else if c.toNat ≤ 65535 then
      [UInt8.ofNat (c.toNat / 4096 % 16 + 224), UInt8.ofNat (c.toNat / 64 % 64 + 128),
        UInt8.ofNat (c.toNat % 64 + 128)]
    else
      [UInt8.ofNat (c.toNat / 262144 % 8 + 240), UInt8.ofNat (c.toNat / 4096 % 64 + 128),
        UInt8.ofNat (c.toNat / 64 % 64 + 128), UInt8.ofNat (c.toNat % 64 + 128)] := rfl

/-- The bytes of a character are read as it, whatever follows. -/
theorem decodeFrom_char (c : Char) (rest : Bytes) :
    decodeFrom none (String.utf8EncodeChar c ++ rest) = c :: decodeFrom none rest := by
  have valid : c.toNat < 0xD800 ∨ 0xDFFF < c.toNat ∧ c.toNat < 0x110000 := c.valid
  have whole : ∀ n, n = c.toNat → Char.ofNat n = c := fun n h => h ▸ Char.ofNat_toNat c
  have six : ∀ n, n % 64 < 64 := fun n => Nat.mod_lt _ (by decide)
  rw [utf8EncodeChar_eq]
  generalize c.toNat = v at valid whole
  by_cases one : v ≤ 127
  · rw [if_pos one]
    have read : decodeByte none (UInt8.ofNat v) = ([Char.ofNat v], none) := by
      change startSequence _ = _
      unfold startSequence
      rw [ofLead?_one v (by omega)]
      rfl
    change (decodeByte none (UInt8.ofNat v)).1 ++ decodeFrom (decodeByte none (UInt8.ofNat v)).2 rest = _
    rw [read, whole v rfl]
    rfl
  · by_cases two : v ≤ 2047
    · rw [if_neg one, if_pos two]
      simp only [List.cons_append, List.nil_append]
      rw [decodeFrom_lead (ofLead?_two _ (by omega) (by omega)), decodeFrom_last (six _) (inner_mod _),
        whole _ (by omega)]
    · by_cases three : v ≤ 65535
      · rw [if_neg one, if_neg two, if_pos three]
        simp only [List.cons_append, List.nil_append]
        have range : (if v / 4096 % 16 = 0 then 0xA0 else 0x80) ≤ UInt8.ofNat (v / 64 % 64 + 128) ∧
            UInt8.ofNat (v / 64 % 64 + 128) ≤ if v / 4096 % 16 = 13 then 0x9F else 0xBF := by
          constructor
          · split
            · exact (inner_range 32 _ 63 (by omega) (by omega) (by decide)).1
            · exact (inner_mod _).1
          · split
            · exact (inner_range 0 _ 31 (by omega) (by omega) (by decide)).2
            · exact (inner_mod _).2
        rw [decodeFrom_lead (ofLead?_three _ (by omega)), decodeFrom_inner (six _) range,
          decodeFrom_last (six _) (inner_mod _), whole _ (by omega)]
      · rw [if_neg one, if_neg two, if_neg three]
        simp only [List.cons_append, List.nil_append]
        have range : (if v / 262144 % 8 = 0 then 0x90 else 0x80) ≤ UInt8.ofNat (v / 4096 % 64 + 128) ∧
            UInt8.ofNat (v / 4096 % 64 + 128) ≤ if v / 262144 % 8 = 4 then 0x8F else 0xBF := by
          constructor
          · split
            · exact (inner_range 16 _ 63 (by omega) (by omega) (by decide)).1
            · exact (inner_mod _).1
          · split
            · exact (inner_range 0 _ 15 (by omega) (by omega) (by decide)).2
            · exact (inner_mod _).2
        rw [decodeFrom_lead (ofLead?_four _ (by omega)), decodeFrom_inner (six _) range,
          decodeFrom_inner (six _) (inner_mod _), decodeFrom_last (six _) (inner_mod _), whole _ (by omega)]

/-- The bytes of a text are read as the text. -/
theorem decode_encode (s : String) : decode (encode s) = s := by
  have chars : ∀ cs : List Char, decodeFrom none (cs.flatMap String.utf8EncodeChar) = cs := fun cs => by
    induction cs with
    | nil => rfl
    | cons c cs ih => rw [List.flatMap_cons, decodeFrom_char, ih]
  rw [decode, encode_eq, chars, String.ofList_toList]

/-! ### Characters of one byte -/

def plainChar (b : UInt8) : Char := Char.ofNat b.toNat

theorem toNat_plainChar {b : UInt8} (plain : b < 0x80) : (plainChar b).toNat = b.toNat := by
  have small : b.toNat < 0x80 := plain
  have valid : b.toNat.isValidChar := .inl (by omega)
  rw [plainChar, Char.ofNat, dif_pos valid]
  rfl

theorem decodeByte_of_plain {b : UInt8} (plain : b < 0x80) :
    decodeByte none b = ([plainChar b], none) := by
  have lead : Unfinished.ofLead? b = some ⟨b.toNat, 0, 0x80, 0xBF⟩ := if_pos plain
  change startSequence b = _
  unfold startSequence
  rw [lead]
  rfl

/-- Bytes below 0x80 are characters by themselves. -/
theorem decodeFrom_append {bytes : Bytes} (plain : ∀ b ∈ bytes, b < 0x80) (more : Bytes) :
    decodeFrom none (bytes ++ more) = bytes.map plainChar ++ decodeFrom none more := by
  induction bytes with
  | nil => rfl
  | cons b bytes ih =>
    rw [List.forall_mem_cons] at plain
    change (decodeByte none b).1 ++ decodeFrom (decodeByte none b).2 (bytes ++ more) = _
    rw [decodeByte_of_plain plain.1]
    exact congrArg (plainChar b :: ·) (ih plain.2)

/-! ### Bytes that are a text -/

def IsText (bytes : Bytes) : Prop := ∃ s, encode s = bytes

theorem isText_encode (s : String) : IsText (encode s) := ⟨s, rfl⟩

theorem isText_nil : IsText [] := ⟨"", rfl⟩

theorem IsText.append {xs ys : Bytes} (hx : IsText xs) (hy : IsText ys) : IsText (xs ++ ys) := by
  obtain ⟨s, rfl⟩ := hx
  obtain ⟨t, rfl⟩ := hy
  exact ⟨s ++ t, encode_append s t⟩

theorem IsText.encode_decode {bytes : Bytes} (h : IsText bytes) : encode (decode bytes) = bytes := by
  obtain ⟨s, rfl⟩ := h
  rw [decode_encode]

theorem isText_char (c : Char) : IsText (String.utf8EncodeChar c) :=
  ⟨String.ofList [c], by rw [encode_ofList, List.flatMap_singleton]⟩

/-- A byte below 0x80 that is part of a character is the whole of it. -/
theorem utf8EncodeChar_of_plain {c : Char} {b : UInt8} (mem : b ∈ String.utf8EncodeChar c)
    (plain : b < 0x80) : String.utf8EncodeChar c = [b] := by
  have high : ∀ n, 128 ≤ n → n < 256 → b ≠ UInt8.ofNat n := by
    rintro n le lt rfl
    rw [UInt8.lt_iff_toNat_lt, UInt8.toNat_ofNat'] at plain
    change n % 256 < 128 at plain
    omega
  have valid : c.toNat < 0x110000 := by
    have range : c.toNat < 0xD800 ∨ 0xDFFF < c.toNat ∧ c.toNat < 0x110000 := c.valid
    omega
  rw [utf8EncodeChar_eq] at mem ⊢
  split
  · next one =>
    rw [if_pos one] at mem
    rw [List.mem_singleton.mp mem]
  · next one =>
    -- all bytes of a longer sequence are 0x80 at least
    rw [if_neg one] at mem
    split at mem
    · simp only [List.mem_cons, List.not_mem_nil, or_false] at mem
      rcases mem with h | h <;> exact absurd h (high _ (by omega) (by omega))
    · split at mem
      · simp only [List.mem_cons, List.not_mem_nil, or_false] at mem
        rcases mem with h | h | h <;> exact absurd h (high _ (by omega) (by omega))
      · simp only [List.mem_cons, List.not_mem_nil, or_false] at mem
        rcases mem with h | h | h | h <;> exact absurd h (high _ (by omega) (by omega))

theorem isText_of_plain {bytes : Bytes} (plain : ∀ b ∈ bytes, b < 0x80) : IsText bytes := by
  induction bytes with
  | nil => exact isText_nil
  | cons b bytes ih =>
    rw [List.forall_mem_cons] at plain
    have alone : String.utf8EncodeChar (plainChar b) = [b] := by
      have small : b.toNat < 0x80 := plain.1
      rw [utf8EncodeChar_eq, toNat_plainChar plain.1, if_pos (by omega), UInt8.ofNat_toNat]
    exact (alone ▸ isText_char (plainChar b) : IsText [b]).append (ih plain.2)

/-- A text can be taken apart at a byte below 0x80. -/
theorem IsText.apart {xs ys : Bytes} {b : UInt8} (h : IsText (xs ++ b :: ys)) (plain : b < 0x80) :
    IsText xs ∧ IsText ys := by
  have chars : ∀ (cs : List Char) (xs : Bytes), cs.flatMap String.utf8EncodeChar = xs ++ b :: ys →
      IsText xs ∧ IsText ys := by
    intro cs
    induction cs with
    | nil =>
      intro xs h
      cases xs <;> cases h
    | cons c cs ih =>
      intro xs h
      have others : IsText (cs.flatMap String.utf8EncodeChar) := ⟨String.ofList cs, encode_ofList cs⟩
      rw [List.flatMap_cons] at h
      rcases List.append_eq_append_iff.mp h with ⟨more, rfl, later⟩ | ⟨more, first, behind⟩
      · -- the byte is behind the first character
        obtain ⟨before, after⟩ := ih more later
        exact ⟨(isText_char c).append before, after⟩
      · cases more with
        | nil => exact ⟨List.append_nil xs ▸ first ▸ isText_char c, (ih [] behind.symm).2⟩
        | cons d more =>
          -- the byte is in the first character, and so it is that
          cases behind
          have alone := utf8EncodeChar_of_plain (first ▸ List.mem_append_right xs List.mem_cons_self) plain
          rw [first] at alone
          cases xs with
          | nil =>
            cases alone
            exact ⟨isText_nil, others⟩
          | cons x xs => cases xs <;> cases alone
  obtain ⟨s, same⟩ := h
  exact chars s.toList xs ((encode_eq s).symm.trans same)

end Scriptlet.Text
