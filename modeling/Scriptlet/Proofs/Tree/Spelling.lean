import Scriptlet.Lexeme.Scan
import Scriptlet.Proofs.Tree.Syntax

/-!
What is spelled is read back. Whatever items follow, the next lexeme of a spelled list of items is
that of its first item, and it ends where the rest is spelled. No item needs to know what comes
after it: behind every item stands a blank, a line feed or nothing.
-/

namespace Scriptlet

open Text (Bytes)

namespace Text

theorem encode_inj {s t : String} : encode s = encode t ↔ s = t := by
  constructor
  · intro h
    exact String.toByteArray_inj.mp (ByteArray.ext (Array.toList_inj.mp h))
  · rintro rfl
    rfl

end Text

/-! ### Classes -/

namespace Byte

theorem classOf_of_isLetter {b : UInt8} (h : isLetter b = true) : classOf b = .letter := by
  grind [classOf, isLetter, isDigit, openBrace, quotationMark, Text.lineFeed]

theorem classOf_of_isDigit {b : UInt8} (h : isDigit b = true) : classOf b = .digit := by
  grind [classOf, isDigit, openBrace, quotationMark, Text.lineFeed]

theorem isHexMark_of_isDigit {b : UInt8} (h : isDigit b = true) : isHexMark b = false := by
  grind [isDigit, isHexMark]

/-- Whether a byte can be part of a name, a number or an operator. -/
def isInner (b : UInt8) : Bool := isNameByte b || isDigit b || isOperatorByte b

theorem isInner_of_isNameByte {b : UInt8} (h : isNameByte b = true) : isInner b = true := by
  simp [isInner, h]

theorem isInner_of_isDigit {b : UInt8} (h : isDigit b = true) : isInner b = true := by
  simp [isInner, h]

theorem isInner_of_isOperatorByte {b : UInt8} (h : isOperatorByte b = true) : isInner b = true := by
  simp [isInner, h]

theorem isInner_of_isHexDigit {b : UInt8} (h : isHexDigit b = true) : isInner b = true := by
  grind [isInner, isHexDigit, isNameByte, isLetter]

theorem isInner_of_isHexMark {b : UInt8} (h : isHexMark b = true) : isInner b = true := by
  simp only [isHexMark, Bool.or_eq_true, beq_iff_eq] at h
  rcases h with rfl | rfl <;> rfl

/-- No brace is part of a name, a number or an operator. -/
theorem ne_brace {b : UInt8} (h : isInner b = true) : b ≠ openBrace ∧ b ≠ closeBrace := by
  constructor
  · rintro rfl
    exact absurd h (by decide)
  · rintro rfl
    exact absurd h (by decide)

theorem classOf_of_blank {b : UInt8} (h : isSpace b = true ∨ b = hash ∨ b = backslash) :
    classOf b = .other := by
  simp only [isSpace, Bool.or_eq_true, beq_iff_eq] at h
  rcases h with ((rfl | rfl) | rfl) | rfl | rfl <;> rfl

end Byte

namespace Scanner

theorem blankLength_of_classOf {b : UInt8} (h : Byte.classOf b ≠ .other) (rest : Bytes) :
    blankLength false (b :: rest) = 0 := by
  have space : Byte.isSpace b = false :=
    Bool.eq_false_iff.mpr fun hb => h (Byte.classOf_of_blank (.inl hb))
  have hash : b ≠ Byte.hash := fun hb => h (Byte.classOf_of_blank (.inr (.inl hb)))
  have backslash : b ≠ Byte.backslash := fun hb => h (Byte.classOf_of_blank (.inr (.inr hb)))
  simp [blankLength.eq_def, space, hash, backslash]

end Scanner

namespace Tree

/-! ### The bytes of an item -/

def bytesOf (items : List Item) : Bytes := Text.encode (spell items)

namespace Item

def blank : Item → Bytes
  | .newline => []
  | _ => [0x20]

def core : Item → Bytes
  | .newline => [Text.lineFeed]
  | .comma => [0x2C]
  | .openParen => [0x28]
  | .closeParen => [0x29]
  | .number n => Text.encode n.repr
  | .word w => Text.encode w.text
  | .operator op => Text.encode op.spelling
  | .block inside => Byte.openBrace :: bytesOf inside ++ [Byte.closeBrace]

def lexemeAt (pos : Nat) : Item → Lexeme
  | .newline => .newline
  | .comma => .comma
  | .openParen => .openParen
  | .closeParen => .closeParen
  | .number n => .number (Int64.ofNat n)
  | .word w => .name ⟨pos, pos + (Text.encode w.text).length⟩
  | .operator op => .operator ⟨pos, pos + (Text.encode op.spelling).length⟩
  | .block inside => .block ⟨pos + 1, pos + 1 + (bytesOf inside).length⟩

theorem blank_eq (item : Item) : item.blank = [] ∨ item.blank = [0x20] := by
  cases item with
  | newline => exact .inl rfl
  | _ => exact .inr rfl

theorem encode_text (item : Item) : Text.encode item.text = item.blank ++ item.core := by
  cases item with
  | newline => rfl
  | comma => rfl
  | openParen => rfl
  | closeParen => rfl
  | number n => simp only [text, Text.encode_append]; rfl
  | word w => simp only [text, Text.encode_append]; rfl
  | operator op => simp only [text, Text.encode_append]; rfl
  | block inside => simp only [text, Text.encode_append, List.append_assoc]; rfl

end Item

@[simp] theorem bytesOf_nil : bytesOf [] = [] := rfl

theorem bytesOf_cons (item : Item) (rest : List Item) :
    bytesOf (item :: rest) = item.blank ++ (item.core ++ bytesOf rest) := by
  rw [bytesOf, spell, Text.encode_append, item.encode_text, List.append_assoc]
  rfl

/-! ### What stands behind an item -/

/-- Nothing comes, or a byte that no name, number or operator goes on with. -/
def Delimited (bytes : Bytes) : Prop := ∀ b ∈ bytes.head?, Byte.isInner b = false

theorem delimited_nil : Delimited [] := by simp [Delimited]

@[simp] theorem delimited_cons_iff {b : UInt8} {tail : Bytes} :
    Delimited (b :: tail) ↔ Byte.isInner b = false := by simp [Delimited]

theorem delimited_bytesOf (items : List Item) : Delimited (bytesOf items) := by
  cases items with
  | nil => exact delimited_nil
  | cons item rest =>
    rw [bytesOf_cons]
    cases item with
    | newline => exact delimited_cons_iff.mpr rfl
    | _ => exact delimited_cons_iff.mpr rfl

/-- A run of accepted bytes ends where the delimiter is. -/
theorem takeWhile_run {accept : UInt8 → Bool} {run rest : Bytes} (hrun : ∀ b ∈ run, accept b = true)
    (hrest : Delimited rest) (inner : ∀ {b}, accept b = true → Byte.isInner b = true) :
    (run ++ rest).takeWhile accept = run := by
  have stops : rest.takeWhile accept = [] := by
    cases rest with
    | nil => rfl
    | cons b tail =>
      have refused : accept b = false := by
        refine Bool.eq_false_iff.mpr fun accepted => ?_
        exact absurd (inner accepted) (by simp [delimited_cons_iff.mp hrest])
      rw [List.takeWhile_cons, refused]
      rfl
  rw [List.takeWhile_append_of_pos hrun, stops, List.append_nil]

/-! ### Numerals -/

theorem encode_repr_of_lt {n : Nat} (h : n < 10) :
    ∃ b, Text.encode n.repr = [b] ∧ Byte.isDigit b = true ∧ Byte.digitValue b = n := by
  have digit : ∀ k : Fin 10, ∃ b, Text.encode k.val.repr = [b] ∧ Byte.isDigit b = true ∧
      Byte.digitValue b = k.val := by
    intro k
    refine ⟨UInt8.ofNat (0x30 + k.val), ?_⟩
    revert k
    decide
  exact digit ⟨n, h⟩

theorem isDigit_of_mem_repr {n : Nat} : ∀ b ∈ Text.encode n.repr, Byte.isDigit b = true := by
  induction n using Nat.strongRecOn with
  | ind n ih =>
    by_cases h : n < 10
    · obtain ⟨b, hb, digit, -⟩ := encode_repr_of_lt h
      rw [hb]
      simpa using digit
    · obtain ⟨b, hb, digit, -⟩ := encode_repr_of_lt (Nat.mod_lt n (by decide : 0 < 10))
      have shorter := ih (n / 10) (by omega)
      -- the last digit stands behind the numeral of a tenth
      rw [Nat.repr_eq_repr_append_repr (by omega), Text.encode_append, hb]
      intro c hc
      rcases List.mem_append.mp hc with hc | hc
      · exact shorter c hc
      · rw [List.mem_singleton.mp hc]
        exact digit

/-- A numeral denotes its number, as far as that fits into a word. -/
theorem numberValue_repr (n : Nat) :
    Scanner.numberValue 10 (Text.encode n.repr) = Int64.ofNat n := by
  induction n using Nat.strongRecOn with
  | ind n ih =>
    by_cases h : n < 10
    · obtain ⟨b, hb, -, value⟩ := encode_repr_of_lt h
      simp [hb, Scanner.numberValue, value]
    · obtain ⟨b, hb, -, value⟩ := encode_repr_of_lt (Nat.mod_lt n (by decide : 0 < 10))
      have shorter := ih (n / 10) (by omega)
      unfold Scanner.numberValue at shorter ⊢
      rw [Nat.repr_eq_repr_append_repr (by omega), Text.encode_append, hb, List.foldl_append, shorter]
      have split : Int64.ofNat n = Int64.ofNat (n / 10 * 10 + n % 10) := by
        rw [Nat.div_add_mod']
      rw [split, Int64.ofNat_add, Int64.ofNat_mul, List.foldl_cons, List.foldl_nil, value]
      rfl

theorem encode_repr_ne_nil (n : Nat) : Text.encode n.repr ≠ [] := by
  intro h
  have empty : n.repr = "" := Text.encode_inj.mp h
  exact Nat.repr_ne_empty empty

theorem startsHex_run {run rest : Bytes} (hrun : ∀ b ∈ run, Byte.isDigit b = true) (hne : run ≠ [])
    (hrest : Delimited rest) : Scanner.startsHex (run ++ rest) = false := by
  -- the mark would be a digit or a delimiter
  have unmarked : ∀ first second tail, run ++ rest = first :: second :: tail →
      Byte.isHexMark second = false := by
    intro first second tail h
    cases run with
    | nil => exact absurd rfl hne
    | cons b more =>
      cases more with
      | nil =>
        cases h
        refine Bool.eq_false_iff.mpr fun mark => ?_
        exact absurd (Byte.isInner_of_isHexMark mark) (by simp [delimited_cons_iff.mp hrest])
      | cons c more =>
        cases h
        exact Byte.isHexMark_of_isDigit (hrun second (by simp))
  cases hb : run ++ rest with
  | nil => rfl
  | cons zero tail =>
    match tail with
    | [] => rfl
    | [mark] => rfl
    | mark :: digit :: more => simp [Scanner.startsHex, unmarked _ _ _ hb]

/-! ### Words and operators -/

/-- The first byte of a word is a letter, and all are characters of names. -/
theorem Spelled.bytes (w : Spelled) : ∃ b rest, Text.encode w.text = b :: rest ∧
    Byte.isLetter b = true ∧ ∀ c ∈ Text.encode w.text, Byte.isNameByte c = true := by
  have shape := w.isWord
  unfold Tree.isWord at shape
  split at shape
  · cases shape
  · next b rest hw =>
    obtain ⟨letter, others⟩ := Bool.and_eq_true_iff.mp shape
    refine ⟨b, rest, hw, letter, ?_⟩
    rw [hw]
    intro c hc
    rcases List.mem_cons.mp hc with rfl | hc
    · simp [Byte.isNameByte, letter]
    · exact List.all_eq_true.mp others c hc

theorem spelling_bytes (op : Operator) : ∃ b rest, Text.encode op.spelling = b :: rest ∧
    Byte.classOf b = .operator ∧ ∀ c ∈ Text.encode op.spelling, Byte.isOperatorByte c = true := by
  cases op <;> exact ⟨_, _, rfl, by decide, List.all_eq_true.mp (by decide)⟩

/-! ### Blocks -/

def Balanced (bytes : Bytes) : Prop :=
  ∀ depth rest, Scanner.blockLength? depth (bytes ++ rest) =
    (Scanner.blockLength? depth rest).map (· + bytes.length)

theorem Balanced.append {bytes bytes' : Bytes} (h : Balanced bytes) (h' : Balanced bytes') :
    Balanced (bytes ++ bytes') := by
  intro depth rest
  rw [List.append_assoc, h, h', Option.map_map, List.length_append]
  congr 1
  funext n
  simp only [Function.comp_apply]
  omega

theorem balanced_nil : Balanced [] := by
  intro depth rest
  cases h : Scanner.blockLength? depth rest <;> simp [h]

theorem balanced_of_plain {bytes : Bytes}
    (h : ∀ b ∈ bytes, b ≠ Byte.openBrace ∧ b ≠ Byte.closeBrace) : Balanced bytes := by
  induction bytes with
  | nil => exact balanced_nil
  | cons b bytes ih =>
    intro depth rest
    obtain ⟨notOpen, notClose⟩ := h b List.mem_cons_self
    have others := ih (fun c hc => h c (List.mem_cons_of_mem _ hc)) depth rest
    simp only [List.cons_append, Scanner.blockLength?, beq_eq_false_iff_ne.mpr notOpen,
      beq_eq_false_iff_ne.mpr notClose, others, Option.map_map]
    rfl

/-- A block in braces is balanced if its inside is. -/
theorem Balanced.block {bytes : Bytes} (h : Balanced bytes) :
    Balanced (Byte.openBrace :: bytes ++ [Byte.closeBrace]) := by
  intro depth rest
  have close : (Byte.closeBrace == Byte.openBrace) = false := rfl
  rw [List.cons_append, List.cons_append, Scanner.blockLength?.eq_def]
  simp only [beq_self_eq_true, if_true]
  rw [List.append_assoc, h, List.singleton_append, Scanner.blockLength?.eq_def]
  simp only [close, Bool.false_eq_true, if_false, beq_self_eq_true, if_true, Option.map_map]
  congr 1
  funext n
  simp only [Function.comp_apply, List.length_cons, List.length_append, List.length_nil]
  omega

theorem balanced_singleton {b : UInt8} (h : b ≠ Byte.openBrace ∧ b ≠ Byte.closeBrace) :
    Balanced [b] := by
  refine balanced_of_plain fun c hc => ?_
  rw [List.mem_singleton.mp hc]
  exact h

theorem balanced_blank (item : Item) : Balanced item.blank := by
  rcases item.blank_eq with h | h
  · rw [h]
    exact balanced_nil
  · rw [h]
    exact balanced_singleton (by decide)

mutual

theorem balanced_core : (item : Item) → Balanced item.core
  | .newline => balanced_singleton (by decide)
  | .comma => balanced_singleton (by decide)
  | .openParen => balanced_singleton (by decide)
  | .closeParen => balanced_singleton (by decide)
  | .number _ => balanced_of_plain fun b hb =>
    Byte.ne_brace (Byte.isInner_of_isDigit (isDigit_of_mem_repr b hb))
  | .word w => balanced_of_plain fun b hb => by
    obtain ⟨-, -, -, -, names⟩ := w.bytes
    exact Byte.ne_brace (Byte.isInner_of_isNameByte (names b hb))
  | .operator op => balanced_of_plain fun b hb => by
    obtain ⟨-, -, -, -, operators⟩ := spelling_bytes op
    exact Byte.ne_brace (Byte.isInner_of_isOperatorByte (operators b hb))
  | .block inside => (balanced_bytesOf inside).block

/-- Spelled items are balanced, so a block ends at the brace that closes it. -/
theorem balanced_bytesOf : (items : List Item) → Balanced (bytesOf items)
  | [] => balanced_nil
  | item :: rest => by
    rw [bytesOf_cons]
    exact (balanced_blank item).append ((balanced_core item).append (balanced_bytesOf rest))

end

/-! ### Reading an item -/

namespace Item

def startClass : Item → Byte.Class
  | .newline => .newline
  | .comma => .comma
  | .openParen => .openParen
  | .closeParen => .closeParen
  | .number _ => .digit
  | .word _ => .letter
  | .operator _ => .operator
  | .block _ => .openBrace

theorem core_eq_cons (item : Item) :
    ∃ b rest, item.core = b :: rest ∧ Byte.classOf b = item.startClass := by
  cases item with
  | newline => exact ⟨_, _, rfl, by decide⟩
  | comma => exact ⟨_, _, rfl, by decide⟩
  | openParen => exact ⟨_, _, rfl, by decide⟩
  | closeParen => exact ⟨_, _, rfl, by decide⟩
  | number n =>
    obtain ⟨b, rest, hn⟩ := List.exists_cons_of_ne_nil (encode_repr_ne_nil n)
    have digit := isDigit_of_mem_repr b (hn ▸ List.mem_cons_self)
    exact ⟨b, rest, hn, Byte.classOf_of_isDigit digit⟩
  | word w =>
    obtain ⟨b, rest, hw, letter, -⟩ := w.bytes
    exact ⟨b, rest, hw, Byte.classOf_of_isLetter letter⟩
  | operator op =>
    obtain ⟨b, rest, hop, class_, -⟩ := spelling_bytes op
    exact ⟨b, rest, hop, class_⟩
  | block inside => exact ⟨_, _, rfl, rfl⟩

theorem startClass_ne_other (item : Item) : item.startClass ≠ .other := by
  cases item <;> exact Byte.Class.noConfusion

/-- Behind its blank, an item reads as its lexeme. -/
theorem readLexeme_core (quoting : Quoting) (pos : Nat) (item : Item) {rest : Bytes}
    (hrest : Delimited rest) :
    Scanner.readLexeme quoting ⟨pos, item.core ++ rest⟩ =
      (.ok (item.lexemeAt pos), ⟨pos + item.core.length, rest⟩) := by
  obtain ⟨b, tail, hcore, hclass⟩ := item.core_eq_cons
  have starts : ∀ {s : Scanner}, s.rest = item.core ++ rest → s.rest = b :: (tail ++ rest) :=
    fun h => by rw [h, hcore, List.cons_append]
  have skipped : ∀ n, n = item.core.length →
      Scanner.skip ⟨pos, item.core ++ rest⟩ n = ⟨pos + item.core.length, rest⟩ := by
    rintro n rfl
    simp [Scanner.skip]
  -- the class of the first byte decides what is read, so there is one case for each kind of item
  unfold Scanner.readLexeme
  rw [starts rfl]
  simp only [hclass]
  cases item with
  | newline => exact Prod.ext rfl (skipped 1 rfl)
  | comma => exact Prod.ext rfl (skipped 1 rfl)
  | openParen => exact Prod.ext rfl (skipped 1 rfl)
  | closeParen => exact Prod.ext rfl (skipped 1 rfl)
  | number n =>
    have digits := takeWhile_run (isDigit_of_mem_repr (n := n)) hrest Byte.isInner_of_isDigit
    have plain := startsHex_run (isDigit_of_mem_repr (n := n)) (encode_repr_ne_nil n) hrest
    simp only [startClass, core, Scanner.readNumber, plain, digits, numberValue_repr]
    exact Prod.ext rfl (skipped _ rfl)
  | word w =>
    obtain ⟨-, -, -, -, names⟩ := w.bytes
    have run := takeWhile_run names hrest Byte.isInner_of_isNameByte
    simp only [startClass, core, Scanner.readRun, run]
    exact Prod.ext rfl (skipped _ rfl)
  | operator op =>
    obtain ⟨-, -, -, -, operators⟩ := spelling_bytes op
    have run := takeWhile_run operators hrest Byte.isInner_of_isOperatorByte
    simp only [startClass, core, Scanner.readRun, run]
    exact Prod.ext rfl (skipped _ rfl)
  | block inside =>
    have found : Scanner.blockLength? 0 (bytesOf inside ++ Byte.closeBrace :: rest) =
        some (bytesOf inside).length := by
      rw [balanced_bytesOf inside]
      simp [Scanner.blockLength?, show (Byte.closeBrace == Byte.openBrace) = false from rfl]
    have behind : (core (.block inside) ++ rest).drop 1 =
        bytesOf inside ++ Byte.closeBrace :: rest := by simp [core]
    simp only [startClass, Scanner.readBlock, behind, found]
    exact Prod.ext rfl (skipped _ (by simp [core]))

end Item

/-- The next lexeme of spelled items is that of the first item. -/
theorem next_bytesOf_cons (quoting : Quoting) (pos : Nat) (item : Item) (rest : List Item) :
    Scanner.next quoting ⟨pos, bytesOf (item :: rest)⟩ =
      (.ok (item.lexemeAt (pos + item.blank.length)),
        ⟨pos + item.blank.length + item.core.length, bytesOf rest⟩) := by
  obtain ⟨b, tail, hcore, hclass⟩ := item.core_eq_cons
  have stops : Scanner.blankLength false (item.core ++ bytesOf rest) = 0 := by
    rw [hcore, List.cons_append]
    exact Scanner.blankLength_of_classOf (hclass ▸ item.startClass_ne_other) _
  have blank : Scanner.blankLength false (bytesOf (item :: rest)) = item.blank.length := by
    rw [bytesOf_cons]
    rcases item.blank_eq with h | h
    · rw [h]
      exact stops
    · rw [h, List.singleton_append, Scanner.blankLength.eq_def]
      simp [Byte.isSpace, stops]
  have skipped : Scanner.skipBlank ⟨pos, bytesOf (item :: rest)⟩ =
      ⟨pos + item.blank.length, item.core ++ bytesOf rest⟩ := by
    rw [Scanner.skipBlank, blank, bytesOf_cons]
    simp [Scanner.skip]
  rw [Scanner.next, skipped, item.readLexeme_core quoting _ (delimited_bytesOf rest)]

end Tree

end Scriptlet
