import Scriptlet.Proofs.Formula.Reading
import Scriptlet.Proofs.Lexical.Grammar
import Scriptlet.Proofs.Twin.Lexing

/-!
Reading accepts exactly the grammar. Measuring blank material finds the longest blank
(`longestBlank_iff`). What is spelled is read (`Spells.readLexeme`), and what is read was spelled
(`spells_of_readLexeme`). So reading all lexemes of a text finds a split of it if there is one, and
since reading is a function, there is one at most.

That each piece goes as far as it can is what makes the first direction work: the measuring
functions stop at the first byte that does not fit, and the grammar says which byte that is.
-/

namespace Scriptlet.Lexical

open Text (Bytes lineFeed)
open Scanner (blankLength blockLength?)

/-! ### Runs -/

theorem takeWhile_stops {accept : UInt8 → Bool} {run rest : Bytes}
    (inside : ∀ b ∈ run, accept b = true) (stops : Stops accept rest) :
    (run ++ rest).takeWhile accept = run := by
  have none : rest.takeWhile accept = [] := by
    cases rest with
    | nil => rfl
    | cons b tail => simp [stops b rfl]
  rw [List.takeWhile_append_of_pos inside, none, List.append_nil]

theorem stops_dropWhile (accept : UInt8 → Bool) (bytes : Bytes) :
    Stops accept (bytes.dropWhile accept) := by
  intro b hb
  have refused := List.head?_dropWhile_not accept bytes
  rw [Option.mem_def.mp hb] at refused
  exact refused

/-! ### Blank material -/

/-- Where a comment ends, it makes no difference that there was one. -/
theorem blankLength_of_stops {tail : Bytes} (ends : Stops (· != lineFeed) tail) :
    blankLength true tail = blankLength false tail := by
  cases tail with
  | nil => rfl
  | cons b tail =>
    have isLineFeed : b = lineFeed := by simpa using ends b rfl
    rw [Scanner.blankLength.eq_def, Scanner.blankLength.eq_def]
    simp [isLineFeed]

theorem blankLength_comment {words tail : Bytes} (oneLine : lineFeed ∉ words)
    (ends : Stops (· != lineFeed) tail) :
    blankLength true (words ++ tail) = words.length + blankLength false tail := by
  induction words with
  | nil => simp [blankLength_of_stops ends]
  | cons b words ih =>
    have notFeed : b ≠ lineFeed := fun h => oneLine (h ▸ List.mem_cons_self)
    have others := ih fun h => oneLine (List.mem_cons_of_mem _ h)
    rw [List.cons_append, Scanner.blankLength.eq_def]
    simp [notFeed, others]
    omega

theorem Blank.blankLength_append {run rest : Bytes} (h : Blank rest run) :
    blankLength false (run ++ rest) = run.length + blankLength false rest := by
  have backslash : Byte.isSpace Byte.backslash = false ∧ Byte.backslash ≠ Byte.hash := by decide
  induction h with
  | nil => simp
  | space isSpace _ ih =>
    rw [List.cons_append, Scanner.blankLength.eq_def]
    simp [isSpace, ih, Nat.add_right_comm]
  | continued _ ih =>
    rw [List.cons_append, List.cons_append, Scanner.blankLength.eq_def]
    simp [backslash, ih, Nat.add_right_comm]
  | continuedReturn _ ih =>
    have notFeed : Byte.carriageReturn ≠ lineFeed := by decide
    rw [List.cons_append, List.cons_append, List.cons_append, Scanner.blankLength.eq_def]
    simp [backslash, notFeed, ih, Nat.add_right_comm]
  | @comment words run oneLine ends _ ih =>
    have hash : Byte.isSpace Byte.hash = false := rfl
    rw [List.cons_append, List.append_assoc, Scanner.blankLength.eq_def]
    simp [hash, blankLength_comment oneLine ends, ih]
    omega

theorem length_le_blankLength {run rest : Bytes} (h : Blank rest run) :
    run.length ≤ blankLength false (run ++ rest) := by
  rw [h.blankLength_append]
  exact Nat.le_add_right _ _

theorem Blank.lengthen {rest run : Bytes} {b : UInt8} (h : Blank rest (Byte.hash :: run))
    (hb : b ≠ lineFeed) : Blank rest (Byte.hash :: b :: run) := by
  generalize e : Byte.hash :: run = whole at h
  cases h with
  | nil => cases e
  | space isSpace =>
    cases e
    exact absurd isSpace (by decide)
  | continued => exact absurd (List.cons.inj e).1 (by decide)
  | continuedReturn => exact absurd (List.cons.inj e).1 (by decide)
  | @comment words inner oneLine ends more =>
    obtain ⟨-, rfl⟩ := List.cons.inj e
    refine @Blank.comment rest (b :: words) inner ?_ ends more
    simpa [hb.symm] using oneLine

theorem blank_comment (bytes : Bytes) :
    Blank (bytes.drop (blankLength true bytes))
      (Byte.hash :: bytes.take (blankLength true bytes)) := by
  induction bytes with
  | nil => exact @Blank.comment [] [] [] List.not_mem_nil (by simp [Stops]) .nil
  | cons b rest ih =>
    by_cases feed : b = lineFeed
    · subst feed
      have ends : blankLength true (lineFeed :: rest) = 0 := by
        have other : Byte.isSpace lineFeed = false ∧ lineFeed ≠ Byte.hash ∧
          lineFeed ≠ Byte.backslash := by decide
        rw [Scanner.blankLength.eq_def]
        simp [other]
      rw [ends]
      exact @Blank.comment (lineFeed :: rest) [] [] List.not_mem_nil (by simp [Stops]) .nil
    · have one_more : blankLength true (b :: rest) = blankLength true rest + 1 := by
        rw [Scanner.blankLength.eq_def]
        simp [feed]
      rw [one_more]
      exact ih.lengthen feed

theorem blank_blankLength {comment : Bool} (bytes : Bytes) (h : comment = false) :
    Blank (bytes.drop (blankLength comment bytes)) (bytes.take (blankLength comment bytes)) := by
  fun_induction blankLength comment bytes with
  | case1 => exact .nil
  | case2 _ _ _ inComment => simp [h] at inComment
  | case3 _ b rest _ isSpace ih => exact .space isSpace (ih rfl)
  | case4 _ b rest _ _ isHash =>
    cases eq_of_beq isHash
    exact blank_comment rest
  | case5 _ b _ _ _ isBackslash c rest isFeed ih =>
    cases eq_of_beq isBackslash
    cases eq_of_beq isFeed
    exact .continued (ih rfl)
  | case6 _ b _ _ _ isBackslash c _ isReturn d rest isFeed ih =>
    cases eq_of_beq isBackslash
    cases eq_of_beq isReturn
    cases eq_of_beq isFeed
    exact .continuedReturn (ih rfl)
  | _ => exact .nil

theorem longestBlank_iff {run rest : Bytes} :
    LongestBlank run rest ↔ blankLength false (run ++ rest) = run.length := by
  constructor
  · intro h
    have most := h.longest (List.take_append_drop _ _) (blank_blankLength (run ++ rest) rfl)
    rw [List.length_take, min_eq_left (Scanner.blankLength_le false _)] at most
    exact Nat.le_antisymm most (length_le_blankLength h.blank)
  · intro h
    refine ⟨?_, fun same blank => ?_⟩
    · simpa [h] using blank_blankLength (run ++ rest) rfl
    · rw [← h, ← same]
      exact length_le_blankLength blank

/-! ### Blocks -/

@[simp] theorem depthAfter?_nil (depth : Nat) : depthAfter? depth [] = some depth := rfl

theorem depthAfter?_cons {depth inner : Nat} {b : UInt8} (rest : Bytes)
    (h : countBrace? depth b = some inner) :
    depthAfter? depth (b :: rest) = depthAfter? inner rest := by
  simp [depthAfter?, h]

/-- Inside a block a byte ends it or leaves a brace open. -/
theorem blockLength?_cons (depth : Nat) (b : UInt8) (rest : Bytes) :
    countBrace? (depth + 1) b = some 0 ∧ blockLength? depth (b :: rest) = some 0 ∨
      ∃ inner, countBrace? (depth + 1) b = some (inner + 1) ∧
        blockLength? depth (b :: rest) = (blockLength? inner rest).map (· + 1) := by
  rw [Scanner.blockLength?.eq_def]
  by_cases isOpen : b = Byte.openBrace
  · exact .inr ⟨depth + 1, by simp [countBrace?, isOpen], by simp [isOpen]⟩
  by_cases isClose : b = Byte.closeBrace
  · have notOpen : Byte.closeBrace ≠ Byte.openBrace := by decide
    cases depth with
    | zero => exact .inl (by simp [countBrace?, isClose, notOpen])
    | succ outer => exact .inr ⟨outer, by simp [countBrace?, isClose, notOpen]⟩
  · exact .inr ⟨depth, by simp [countBrace?, isOpen, isClose]⟩

/-- Some brace is open behind every one of the first `length` bytes, or less. -/
def StaysOpen (depth : Nat) (bytes : Bytes) (length : Nat) : Prop :=
  ∀ n ≤ length, ∃ inner, depthAfter? depth (bytes.take n) = some (inner + 1)

theorem StaysOpen.cons {depth inner : Nat} {b : UInt8} {rest : Bytes} {length : Nat}
    (count : countBrace? (depth + 1) b = some (inner + 1))
    (h : StaysOpen (inner + 1) rest length) : StaysOpen (depth + 1) (b :: rest) (length + 1) := by
  intro n hn
  cases n with
  | zero => exact ⟨depth, rfl⟩
  | succ n =>
    rw [List.take_succ_cons, depthAfter?_cons _ count]
    exact h n (by omega)

theorem closes_of_blockLength? {depth : Nat} {bytes : Bytes} {length : Nat}
    (h : blockLength? depth bytes = some length) :
    StaysOpen (depth + 1) bytes length ∧
      depthAfter? (depth + 1) (bytes.take (length + 1)) = some 0 := by
  induction bytes generalizing depth length with
  | nil => cases h
  | cons b rest ih =>
    obtain ⟨count, ends⟩ | ⟨inner, count, goes_on⟩ := blockLength?_cons depth b rest
    · cases ends.symm.trans h
      refine ⟨fun n hn => ⟨depth, ?_⟩, depthAfter?_cons _ count⟩
      rw [Nat.le_zero.mp hn]
      rfl
    · obtain ⟨length, found, rfl⟩ := Option.map_eq_some_iff.mp (goes_on.symm.trans h)
      obtain ⟨staysOpen, closed⟩ := ih found
      refine ⟨staysOpen.cons count, ?_⟩
      rw [List.take_succ_cons, depthAfter?_cons _ count]
      exact closed

theorem staysOpen_of_blockLength?_eq_none {depth : Nat} {bytes : Bytes}
    (h : blockLength? depth bytes = none) : StaysOpen (depth + 1) bytes bytes.length := by
  induction bytes generalizing depth with
  | nil => exact fun n _ => ⟨depth, by simp⟩
  | cons b rest ih =>
    obtain ⟨-, ends⟩ | ⟨inner, count, goes_on⟩ := blockLength?_cons depth b rest
    · cases ends.symm.trans h
    · exact (ih (Option.map_eq_none_iff.mp (goes_on.symm.trans h))).cons count

theorem depthAfter?_openBrace (bytes : Bytes) :
    depthAfter? 0 (Byte.openBrace :: bytes) = depthAfter? 1 bytes := depthAfter?_cons bytes rfl

theorem IsBlock.exists_cons {spelled : Bytes} (h : IsBlock spelled) :
    ∃ tail, spelled = Byte.openBrace :: tail ∧ 0 < tail.length := by
  cases spelled with
  | nil => cases h.opens
  | cons b tail =>
    cases Option.some.inj h.opens
    refine ⟨tail, rfl, List.length_pos_iff.mpr ?_⟩
    rintro rfl
    cases h.closes

theorem IsBlock.exists_concat {spelled : Bytes} (h : IsBlock spelled) :
    ∃ inside, spelled = Byte.openBrace :: (inside ++ [Byte.closeBrace]) := by
  obtain ⟨tail, rfl, nonempty⟩ := h.exists_cons
  obtain ⟨inside, last, rfl⟩ :=
    List.eq_nil_or_concat tail |>.resolve_left (List.length_pos_iff.mp nonempty)
  refine ⟨inside, ?_⟩
  have still_open := h.first (inside.length + 1) (Nat.succ_pos _) (by simp)
  have closes := h.closes
  rw [List.concat_eq_append] at still_open closes ⊢
  simp only [List.take_succ_cons, List.take_left] at still_open
  rw [← List.cons_append, depthAfter?, List.foldlM_append] at closes
  obtain ⟨depth, before_last, closed⟩ := Option.bind_eq_some_iff.mp closes
  have positive : depth ≠ 0 := by
    rintro rfl
    exact still_open before_last
  simp only [List.foldlM_cons, List.foldlM_nil, bind_pure] at closed
  have isClose : last = Byte.closeBrace := by
    unfold countBrace? at closed
    split at closed
    · cases closed
    · split at closed
      · simp_all
      · cases closed
        exact absurd rfl positive
  rw [isClose]

theorem IsBlock.blockLength? {tail : Bytes} (h : IsBlock (Byte.openBrace :: tail)) (rest : Bytes) :
    Scanner.blockLength? 0 (tail ++ rest) = some (tail.length - 1) := by
  have closes := h.closes
  rw [depthAfter?_openBrace] at closes
  cases measured : Scanner.blockLength? 0 (tail ++ rest) with
  | none =>
    obtain ⟨inner, isOpen⟩ := staysOpen_of_blockLength?_eq_none measured tail.length (by simp)
    rw [List.take_left, closes] at isOpen
    cases isOpen
  | some length =>
    obtain ⟨staysOpen, closed⟩ := closes_of_blockLength? measured
    rcases Nat.lt_trichotomy (length + 1) tail.length with shorter | same | longer
    · refine absurd ?_ (h.first (length + 2) (by omega) (Nat.succ_lt_succ shorter))
      rw [List.take_succ_cons, depthAfter?_openBrace, ← closed,
        List.take_append_of_le_length (by omega)]
    · rw [← same, Nat.add_sub_cancel]
    · obtain ⟨inner, isOpen⟩ := staysOpen tail.length (by omega)
      rw [List.take_left, closes] at isOpen
      cases isOpen

/-- What is measured is a block. -/
theorem isBlock_of_blockLength? {tail : Bytes} {length : Nat}
    (h : blockLength? 0 tail = some length) :
    IsBlock (Byte.openBrace :: tail.take (length + 1)) where
  opens := rfl
  closes := by
    rw [depthAfter?_openBrace]
    exact (closes_of_blockLength? h).2
  first n positive short := by
    obtain ⟨n, rfl⟩ := Nat.exists_eq_succ_of_ne_zero positive.ne'
    rw [List.length_cons, List.length_take] at short
    obtain ⟨inner, isOpen⟩ := (closes_of_blockLength? h).1 n (by omega)
    rw [Nat.succ_eq_add_one, List.take_succ_cons, depthAfter?_openBrace, List.take_take,
      min_eq_left (by omega), isOpen]
    simp

/-! ### Lexemes -/

theorem leadsHex_iff {bytes : Bytes} : LeadsHex bytes ↔ Scanner.startsHex bytes = true := by
  constructor
  · rintro ⟨mark, digit, more, rfl, isMark, isDigit⟩
    simp [Scanner.startsHex, isMark, isDigit]
  · intro h
    unfold Scanner.startsHex at h
    split at h
    · next zero mark digit more =>
      simp only [Bool.and_eq_true, beq_iff_eq] at h
      obtain ⟨⟨rfl, isMark⟩, isDigit⟩ := h
      exact ⟨mark, digit, more, rfl, isMark, isDigit⟩
    · cases h

theorem classOf_of_isOperatorByte {b : UInt8} (h : Byte.isOperatorByte b = true) :
    Byte.classOf b = .operator := by
  simp only [Byte.isOperatorByte, Bool.or_eq_true, beq_iff_eq] at h
  rcases h with ((((((((rfl | rfl) | rfl) | rfl) | rfl) | rfl) | rfl) | rfl) | rfl) | rfl <;> rfl

theorem isQuotable_iff {quoting : Quoting} {b : UInt8} :
    Scanner.isQuotable quoting b = true ↔
      b ≠ Byte.quotationMark ∧ (quoting = .plain → b ≠ lineFeed) := by
  cases quoting <;> simp [Scanner.isQuotable]

variable {quoting : Quoting} {pos : Nat} {spelled rest : Bytes} {l : Lexeme}

theorem readRun_stops {accept : UInt8 → Bool} {run rest : Bytes} (pos : Nat)
    (inside : ∀ b ∈ run, accept b = true) (stops : Stops accept rest) :
    Scanner.readRun accept ⟨pos, run ++ rest⟩ =
      (⟨pos, pos + run.length⟩, ⟨pos + run.length, rest⟩) := by
  simp only [Scanner.readRun, takeWhile_stops inside stops, Scanner.skip, List.drop_left]

theorem readNumber_hexadecimal {mark : UInt8} {digits rest : Bytes} (pos : Nat)
    (isMark : Byte.isHexMark mark = true) (nonempty : digits ≠ [])
    (inside : ∀ c ∈ digits, Byte.isHexDigit c = true) (stops : Stops Byte.isHexDigit rest) :
    Scanner.readNumber ⟨pos, 0x30 :: mark :: digits ++ rest⟩ =
      (.number (Int64.ofNat (Numeral.ofDigits 16 digits)),
        ⟨pos + (0x30 :: mark :: digits).length, rest⟩) := by
  have hex : Scanner.startsHex (0x30 :: mark :: digits ++ rest) = true := by
    obtain ⟨d, digits, rfl⟩ := List.exists_cons_of_ne_nil nonempty
    exact leadsHex_iff.mp ⟨mark, d, digits ++ rest, rfl, isMark, inside d List.mem_cons_self⟩
  have run : ((0x30 :: mark :: digits ++ rest).drop 2).takeWhile Byte.isHexDigit = digits :=
    takeWhile_stops inside stops
  simp only [Scanner.readNumber, hex, if_true, run, ← numberValue_eq]
  simp [Scanner.skip]

theorem readNumber_decimal {digits rest : Bytes} (pos : Nat)
    (inside : ∀ c ∈ digits, Byte.isDigit c = true) (stops : Stops Byte.isDigit rest)
    (plain : ¬LeadsHex (digits ++ rest)) :
    Scanner.readNumber ⟨pos, digits ++ rest⟩ =
      (.number (Int64.ofNat (Numeral.ofDigits 10 digits)), ⟨pos + digits.length, rest⟩) := by
  have notHex : Scanner.startsHex (digits ++ rest) = false :=
    Bool.eq_false_iff.mpr fun hex => plain (leadsHex_iff.mpr hex)
  simp only [Scanner.readNumber, notHex, takeWhile_stops inside stops, ← numberValue_eq]
  simp [Scanner.skip]

theorem readBlock_isBlock {spelled rest : Bytes} (pos : Nat) (h : IsBlock spelled) :
    Scanner.readBlock ⟨pos, spelled ++ rest⟩ =
      (.ok (.block ⟨pos + 1, pos + spelled.length - 1⟩), ⟨pos + spelled.length, rest⟩) := by
  obtain ⟨tail, rfl, nonempty⟩ := h.exists_cons
  have length := h.blockLength? rest
  have stop : pos + 1 + (tail.length - 1) = pos + (tail.length + 1) - 1 := by omega
  have behind : tail.length - 1 + 2 = tail.length + 1 := by omega
  simp [Scanner.readBlock, length, Scanner.skip, stop, behind]

theorem readQuote_closed {inside rest : Bytes} (pos : Nat)
    (unquoted : Byte.quotationMark ∉ inside) (oneLine : quoting = .plain → lineFeed ∉ inside) :
    Scanner.readQuote quoting
        ⟨pos, Byte.quotationMark :: (inside ++ [Byte.quotationMark]) ++ rest⟩ =
      (.ok (.quote ⟨pos + 1, pos + 1 + inside.length⟩),
        ⟨pos + (Byte.quotationMark :: (inside ++ [Byte.quotationMark])).length, rest⟩) := by
  have quotable : ∀ b ∈ inside, Scanner.isQuotable quoting b = true := by
    intro b hb
    refine isQuotable_iff.mpr ⟨?_, ?_⟩
    · rintro rfl
      exact unquoted hb
    · rintro plain rfl
      exact oneLine plain hb
  have closes : Stops (Scanner.isQuotable quoting) (Byte.quotationMark :: rest) := by
    simp [Stops, Scanner.isQuotable]
  have run := takeWhile_stops quotable closes
  simp [Scanner.readQuote, Scanner.skip, run]
  omega

/-- What is spelled is read. -/
theorem Spells.readLexeme (h : Spells quoting pos spelled rest l) :
    Scanner.readLexeme quoting ⟨pos, spelled ++ rest⟩ =
      (.ok l, ⟨pos + spelled.length, rest⟩) := by
  unfold Scanner.readLexeme
  cases h with
  | newline | semicolon | comma | openParen | closeParen => rfl
  | @name b run _ lead inside longest =>
    have inside : ∀ c ∈ b :: run, Byte.isNameByte c = true := by
      intro c hc
      rcases List.mem_cons.mp hc with rfl | hc
      · exact Byte.isNameByte_of_classOf (Byte.classOf_of_isLetter lead)
      · exact inside c hc
    have read := readRun_stops pos inside longest
    simp only [List.cons_append] at read ⊢
    simp only [Byte.classOf_of_isLetter lead, read]
  | @operator run _ nonempty inside longest =>
    obtain ⟨b, run, rfl⟩ := List.exists_cons_of_ne_nil nonempty
    have read := readRun_stops pos inside longest
    simp only [List.cons_append] at read ⊢
    simp only [classOf_of_isOperatorByte (inside b List.mem_cons_self), read]
  | hexadecimal isMark nonempty inside longest =>
    have read := readNumber_hexadecimal pos isMark nonempty inside longest
    simp only [List.cons_append] at read ⊢
    simp only [show Byte.classOf 0x30 = .digit from rfl, read]
  | @decimal digits _ nonempty inside longest plain =>
    have read := readNumber_decimal pos inside longest plain
    obtain ⟨b, digits, rfl⟩ := List.exists_cons_of_ne_nil nonempty
    simp only [List.cons_append] at read ⊢
    simp only [Byte.classOf_of_isDigit (inside b List.mem_cons_self), read]
  | block isBlock =>
    obtain ⟨tail, rfl, -⟩ := isBlock.exists_cons
    exact readBlock_isBlock pos isBlock
  | quote unquoted oneLine => exact readQuote_closed pos unquoted oneLine

def onlyByte? : Byte.Class → Option UInt8
  | .newline => some lineFeed
  | .semicolon => some 0x3B
  | .comma => some 0x2C
  | .openParen => some 0x28
  | .closeParen => some 0x29
  | .openBrace => some Byte.openBrace
  | .quotationMark => some Byte.quotationMark
  | _ => none

theorem eq_of_onlyByte? {b c : UInt8} (h : onlyByte? (Byte.classOf b) = some c) : b = c := by
  cases hb : Byte.classOf b <;> rw [hb] at h <;> grind [Byte.classOf, onlyByte?]

theorem isLetter_of_classOf {b : UInt8} (h : Byte.classOf b = .letter) :
    Byte.isLetter b = true := by
  grind [Byte.classOf]

theorem exists_run (accept : UInt8 → Bool) {b : UInt8} (tail : Bytes) (hb : accept b = true) :
    ∃ run rest, b :: tail = b :: run ++ rest ∧ (∀ c ∈ b :: run, accept c = true) ∧
      Stops accept rest := by
  refine ⟨tail.takeWhile accept, tail.dropWhile accept, ?_, ?_, stops_dropWhile accept tail⟩
  · rw [List.cons_append, List.takeWhile_append_dropWhile]
  · intro c hc
    rcases List.mem_cons.mp hc with rfl | hc
    · exact hb
    · exact List.all_eq_true.mp List.all_takeWhile c hc

theorem exists_spells_number (quoting : Quoting) (pos : Nat) {b : UInt8} (tail : Bytes)
    (hb : Byte.isDigit b = true) :
    ∃ spelled rest l, b :: tail = spelled ++ rest ∧ Spells quoting pos spelled rest l := by
  by_cases hex : LeadsHex (b :: tail)
  · obtain ⟨mark, digit, more, bytes, isMark, isDigit⟩ := hex
    obtain ⟨run, rest, digits, inside, stops⟩ := exists_run Byte.isHexDigit more isDigit
    exact ⟨0x30 :: mark :: digit :: run, rest, _, by rw [bytes, digits]; rfl,
      .hexadecimal isMark (List.cons_ne_nil _ _) inside stops⟩
  · obtain ⟨run, rest, digits, inside, stops⟩ := exists_run Byte.isDigit tail hb
    exact ⟨b :: run, rest, _, digits,
      .decimal (List.cons_ne_nil _ _) inside stops (by rwa [← digits])⟩

theorem exists_spells_block {tail : Bytes} {after : Scanner}
    (h : Scanner.readBlock ⟨pos, Byte.openBrace :: tail⟩ = (.ok l, after)) :
    ∃ spelled rest l', Byte.openBrace :: tail = spelled ++ rest ∧
      Spells quoting pos spelled rest l' := by
  unfold Scanner.readBlock at h
  split at h
  · next length found =>
    refine ⟨Byte.openBrace :: tail.take (length + 1), tail.drop (length + 1), _, ?_,
      .block (isBlock_of_blockLength? found)⟩
    rw [List.cons_append, List.take_append_drop]
  · cases h

theorem exists_spells_quote {tail : Bytes} {after : Scanner}
    (h : Scanner.readQuote quoting ⟨pos, Byte.quotationMark :: tail⟩ = (.ok l, after)) :
    ∃ spelled rest l', Byte.quotationMark :: tail = spelled ++ rest ∧
      Spells quoting pos spelled rest l' := by
  unfold Scanner.readQuote at h
  simp only at h
  split at h
  · next b more ahead =>
    split at h
    · next isMark =>
      cases eq_of_beq isMark
      refine ⟨Byte.quotationMark ::
        (tail.takeWhile (Scanner.isQuotable quoting) ++ [Byte.quotationMark]), more, _, ?_,
        .quote (fun inside => ?_) (fun plain inside => ?_)⟩
      · have run := List.prefix_iff_eq_append.mp
          (List.takeWhile_prefix (Scanner.isQuotable quoting) (l := tail))
        have closed : tail.drop (tail.takeWhile (Scanner.isQuotable quoting)).length =
            Byte.quotationMark :: more := ahead
        rw [closed] at run
        simp [run]
      · exact (isQuotable_iff.mp (List.all_eq_true.mp List.all_takeWhile _ inside)).1 rfl
      · exact (isQuotable_iff.mp (List.all_eq_true.mp List.all_takeWhile _ inside)).2 plain rfl
    · cases h
  · cases h

/-- A text that a lexeme can be read from starts with one that is spelled there. -/
theorem exists_spells {b : UInt8} {tail : Bytes} {after : Scanner}
    (h : Scanner.readLexeme quoting ⟨pos, b :: tail⟩ = (.ok l, after)) :
    ∃ spelled rest l', b :: tail = spelled ++ rest ∧ Spells quoting pos spelled rest l' := by
  unfold Scanner.readLexeme at h
  simp only at h
  split at h <;> rename_i hclass
  · cases eq_of_onlyByte? (congrArg onlyByte? hclass)
    exact ⟨[lineFeed], tail, _, rfl, .newline⟩
  · cases eq_of_onlyByte? (congrArg onlyByte? hclass)
    exact ⟨[0x3B], tail, _, rfl, .semicolon⟩
  · cases eq_of_onlyByte? (congrArg onlyByte? hclass)
    exact ⟨[0x2C], tail, _, rfl, .comma⟩
  · cases eq_of_onlyByte? (congrArg onlyByte? hclass)
    exact ⟨[0x28], tail, _, rfl, .openParen⟩
  · cases eq_of_onlyByte? (congrArg onlyByte? hclass)
    exact ⟨[0x29], tail, _, rfl, .closeParen⟩
  · cases eq_of_onlyByte? (congrArg onlyByte? hclass)
    exact exists_spells_block h
  · cases eq_of_onlyByte? (congrArg onlyByte? hclass)
    exact exists_spells_quote h
  · exact exists_spells_number quoting pos tail (Byte.isDigit_of_classOf hclass)
  · obtain ⟨run, rest, bytes, inside, stops⟩ :=
      exists_run Byte.isNameByte tail (Byte.isNameByte_of_classOf hclass)
    exact ⟨b :: run, rest, _, bytes, .name (isLetter_of_classOf hclass)
      (fun c hc => inside c (List.mem_cons_of_mem _ hc)) stops⟩
  · obtain ⟨run, rest, bytes, inside, stops⟩ :=
      exists_run Byte.isOperatorByte tail (Byte.isOperatorByte_of_classOf hclass)
    exact ⟨b :: run, rest, _, bytes, .operator (List.cons_ne_nil _ _) inside stops⟩
  · cases h

theorem Spells.ne_eof (h : Spells quoting pos spelled rest l) : l ≠ .eof := by
  rintro rfl
  cases h

/-- What is read was spelled. -/
theorem spells_of_readLexeme {s after : Scanner} (h : s.readLexeme quoting = (.ok l, after))
    (hl : l ≠ .eof) :
    ∃ spelled, s.rest = spelled ++ after.rest ∧ after.pos = s.pos + spelled.length ∧
      Spells quoting s.pos spelled after.rest l := by
  obtain ⟨pos, bytes⟩ := s
  cases bytes with
  | nil =>
    cases h
    exact absurd rfl hl
  | cons b tail =>
    obtain ⟨spelled, rest, l', bytes, spells⟩ := exists_spells h
    rw [bytes] at h
    cases spells.readLexeme.symm.trans h
    exact ⟨spelled, bytes, rfl, spells⟩

/-! ### Texts -/

/-- A lexeme with the blank before it is what is read next. -/
theorem Spells.next {run : Bytes} (blank : LongestBlank run (spelled ++ rest))
    (h : Spells quoting (pos + run.length) spelled rest l) :
    Scanner.next quoting ⟨pos, run ++ (spelled ++ rest)⟩ =
      (.ok l, ⟨pos + run.length + spelled.length, rest⟩) := by
  rw [← h.readLexeme]
  simp [Scanner.next, Scanner.skipBlank, Scanner.skip, longestBlank_iff.mp blank]

/-- Where only blank is left, the end is read next. -/
theorem LongestBlank.next {run : Bytes} (h : LongestBlank run []) :
    Scanner.next quoting ⟨pos, run⟩ = (.ok .eof, ⟨pos + run.length, []⟩) := by
  have length := longestBlank_iff.mp h
  rw [List.append_nil] at length
  simp [Scanner.next, Scanner.skipBlank, Scanner.skip, length, Scanner.readLexeme]

theorem exists_longestBlank (s : Scanner) :
    ∃ run, s.rest = run ++ s.skipBlank.rest ∧ s.skipBlank.pos = s.pos + run.length ∧
      LongestBlank run s.skipBlank.rest := by
  have length : (s.rest.take (blankLength false s.rest)).length = blankLength false s.rest := by
    rw [List.length_take, min_eq_left (Scanner.blankLength_le false _)]
  refine ⟨s.rest.take (blankLength false s.rest), ?_, ?_, longestBlank_iff.mpr ?_⟩
  · exact (List.take_append_drop _ _).symm
  · rw [length]
    rfl
  · rw [length, Scanner.skipBlank, Scanner.rest_skip, List.take_append_drop]

variable {bytes : Bytes} {pieces pieces' : List Piece} {last last' : Bytes}

/-- Every lexeme of a split is read. -/
theorem Splits.lexemes (h : Splits quoting pos bytes pieces last) :
    Scanner.lexemes quoting ⟨pos, bytes⟩ = .ok (pieces.map Piece.lexeme) := by
  induction h with
  | last blank =>
    rw [Scanner.lexemes.eq_def]
    split
    · next read => cases blank.next.symm.trans read
    · next read =>
      cases blank.next.symm.trans read
      rfl
  | cons blank spells _ ih =>
    rw [Scanner.lexemes.eq_def]
    split
    · next read => cases (spells.next blank).symm.trans read
    · next read =>
      cases (spells.next blank).symm.trans read
      simp [spells.ne_eof, ih]

/-- A text whose lexemes can be read splits into them. -/
theorem exists_splits {s : Scanner} {ls : List Lexeme} (h : s.lexemes quoting = .ok ls) :
    ∃ pieces last, Splits quoting s.pos s.rest pieces last ∧ pieces.map Piece.lexeme = ls := by
  fun_induction Scanner.lexemes quoting s generalizing ls with
  | case1 => cases h
  | case2 s after read =>
    cases h
    obtain ⟨run, bytes, -, blank⟩ := exists_longestBlank s
    have done := Scanner.rest_of_readLexeme_eof read
    rw [done, List.append_nil] at bytes
    rw [done] at blank
    refine ⟨[], run, ?_, rfl⟩
    rw [bytes]
    exact .last blank
  | case3 s l after read hl shorter more _ ih =>
    cases h
    obtain ⟨run, bytes, start, blank⟩ := exists_longestBlank s
    obtain ⟨spelled, bytes', stop, spells⟩ := spells_of_readLexeme read hl
    obtain ⟨pieces, last, splits, lexemes⟩ := ih ‹_›
    rw [start] at stop spells
    rw [bytes'] at bytes blank
    rw [stop] at splits
    refine ⟨⟨run, spelled, l⟩ :: pieces, last, ?_, by rw [List.map_cons, lexemes]⟩
    rw [bytes]
    exact .cons blank spells splits
  | case4 => cases h

theorem LongestBlank.not_spells {run run' : Bytes} (h : LongestBlank run [])
    (blank : LongestBlank run' (spelled ++ rest))
    (spells : Spells quoting (pos + run'.length) spelled rest l) :
    run ≠ run' ++ (spelled ++ rest) := by
  rintro rfl
  have read := h.next.symm.trans (spells.next blank)
  exact spells.ne_eof (Except.ok.inj (Prod.mk.inj read).1).symm

/-- There is one way to split a text at most. -/
theorem Splits.unique (h : Splits quoting pos bytes pieces last)
    (h' : Splits quoting pos bytes pieces' last') : pieces = pieces' ∧ last = last' := by
  induction h generalizing pieces' last' with
  | @last pos run blank =>
    generalize same : run = bytes at h'
    cases h' with
    | last => exact ⟨rfl, rfl⟩
    | cons blank' spells' => exact absurd same (blank.not_spells blank' spells')
  | @cons pos run spelled rest l pieces last blank spells _ ih =>
    generalize same : run ++ (spelled ++ rest) = bytes at h'
    cases h' with
    | last blank' => exact absurd same.symm (blank'.not_spells blank spells)
    | @cons _ run' spelled' rest' l' pieces' last' blank' spells' more' =>
      have lengths : run.length = run'.length := by
        rw [← longestBlank_iff.mp blank, ← longestBlank_iff.mp blank', same]
      obtain ⟨rfl, behind⟩ := List.append_inj same lengths
      -- both lexemes are what is read there
      have read := spells.readLexeme
      rw [behind, spells'.readLexeme] at read
      obtain ⟨lexeme, after⟩ := Prod.mk.inj read
      cases Except.ok.inj lexeme
      cases (Scanner.mk.inj after).2
      cases List.append_cancel_right behind
      obtain ⟨rfl, rfl⟩ := ih more'
      exact ⟨rfl, rfl⟩

/-! ### Places -/

/-- A place is that of the inside of a piece whose spelling starts at `pos`. -/
structure Piece.Inside (p : Piece) (pos : Nat) (place : Span) : Prop where
  room : 2 * p.margin ≤ p.spelled.length
  start : place.start = pos + p.margin
  stop : place.stop = place.start + (p.spelled.length - 2 * p.margin)

theorem Spells.inside (h : Spells quoting pos spelled rest l) {place : Span}
    (hplace : l.place? = some place) (blank : Bytes) :
    Piece.Inside ⟨blank, spelled, l⟩ pos place := by
  cases h with
  | newline | semicolon | comma | openParen | closeParen | hexadecimal | decimal => cases hplace
  | name | operator =>
    cases hplace
    exact ⟨Nat.zero_le _, rfl, rfl⟩
  | block isBlock =>
    cases hplace
    obtain ⟨tail, rfl, nonempty⟩ := isBlock.exists_cons
    refine ⟨Nat.succ_le_succ nonempty, rfl, ?_⟩
    simp only [Piece.margin, List.length_cons]
    omega
  | quote =>
    cases hplace
    refine ⟨?_, rfl, ?_⟩ <;> simp [Piece.margin]

theorem Splits.inside {before after : List Piece} {piece : Piece} {place : Span}
    (h : Splits quoting pos bytes (before ++ piece :: after) last)
    (hplace : piece.lexeme.place? = some place) :
    piece.Inside (pos + ((before.flatMap Piece.bytes).length + piece.blank.length)) place := by
  generalize split_ : before ++ piece :: after = pieces at h
  induction h generalizing before with
  | last => simp at split_
  | @cons pos run spelled rest l pieces last _ spells _ ih =>
    cases before with
    | nil =>
      cases split_
      simpa using spells.inside hplace run
    | cons first before =>
      cases split_
      have inside := ih rfl
      rw [List.flatMap_cons, List.length_append]
      simp only [Piece.bytes, List.length_append] at inside ⊢
      convert inside using 1
      omega

/-- The inside of a piece is found where it is. -/
theorem Piece.take_drop_inner {p : Piece} (room : 2 * p.margin ≤ p.spelled.length)
    (before after : Bytes) :
    ((before ++ (p.bytes ++ after)).drop (before.length + p.blank.length + p.margin)).take
      (p.spelled.length - 2 * p.margin) = p.inner := by
  rw [← List.drop_drop, ← List.drop_drop, List.drop_left, Piece.bytes, List.append_assoc,
    List.drop_left, List.drop_append_of_le_length (by omega),
    List.take_append_of_le_length (by simp; omega), Piece.inner]

def window (text : Array UInt8) (start stop : Nat) : Bytes := (text.toList.take stop).drop start

def windowStart (text : Array UInt8) (start stop : Nat) : Nat := min start (min stop text.size)

theorem ofWindow_eq (text : Array UInt8) (start stop : Nat) :
    Scanner.ofWindow text start stop = ⟨windowStart text start stop, window text start stop⟩ := by
  refine congrArg (Scanner.mk _) ?_
  apply List.ext_getElem?
  intro i
  simp only [window, Array.toList_extract, List.extract_eq_take_drop, List.getElem?_take,
    List.getElem?_drop, Array.getElem?_toList]
  grind

theorem extract_window (text : Array UInt8) (start stop : Nat) {skipped length : Nat}
    (h : skipped + length ≤ (window text start stop).length) :
    (text.extract (windowStart text start stop + skipped)
        (windowStart text start stop + skipped + length)).toList =
      ((window text start stop).drop skipped).take length := by
  apply List.ext_getElem?
  intro i
  simp only [window, windowStart, List.length_drop, List.length_take, Array.length_toList] at h ⊢
  simp only [Array.toList_extract, List.extract_eq_take_drop, List.getElem?_take,
    List.getElem?_drop, Array.getElem?_toList]
  grind

theorem ofWindow_congr {text text' : Array UInt8} {start stop : Nat}
    (same : ∀ i < stop, text'[i]? = text[i]?) :
    Scanner.ofWindow text' start stop = Scanner.ofWindow text start stop := by
  have bytes : text'.toList.take stop = text.toList.take stop := by
    apply List.ext_getElem?
    intro i
    simp only [List.getElem?_take, Array.getElem?_toList]
    split
    · exact same i ‹_›
    · rfl
  have sizes := congrArg List.length bytes
  simp only [List.length_take, Array.length_toList] at sizes
  rw [ofWindow_eq, ofWindow_eq, window, window, bytes, windowStart, windowStart, sizes]

/-! ### Exactness -/

/-- Every lexeme but the end takes the scanner further on, and not out of its window. -/
theorem next_advances {s after : Scanner} (h : s.next quoting = (.ok l, after)) (hl : l ≠ .eof) :
    s.pos < after.pos ∧ after.limit = s.limit := by
  have limit := (Scanner.within_next h).limit
  have shorter := Scanner.length_rest_next_lt h hl
  refine ⟨?_, limit⟩
  simp only [Scanner.limit] at limit
  omega

/-- While a block is read, no brace is closed that was not opened. -/
theorem depthAfter?_readBlock {s : Scanner} (h : s.rest.head? = some Byte.openBrace) {n : Nat}
    (hn : n ≤ s.readBlock.2.pos - s.pos) : depthAfter? 0 (s.rest.take n) ≠ none := by
  obtain ⟨pos, bytes⟩ := s
  cases bytes with
  | nil => cases h
  | cons b tail =>
    cases Option.some.inj h
    cases n with
    | zero => simp
    | succ n =>
      rw [List.take_succ_cons, depthAfter?_openBrace]
      unfold Scanner.readBlock at hn
      simp only [List.drop_succ_cons, List.drop_zero] at hn
      split at hn
      · next length found =>
        obtain ⟨staysOpen, closed⟩ := closes_of_blockLength? found
        simp only [Scanner.pos_skip] at hn
        rcases Nat.lt_or_ge length n with longer | within
        · rw [show n = length + 1 by omega, closed]
          simp
        · obtain ⟨inner, isOpen⟩ := staysOpen n within
          simp [isOpen]
      · next never =>
        simp only [Scanner.pos_skip, List.length_cons] at hn
        obtain ⟨inner, isOpen⟩ := staysOpen_of_blockLength?_eq_none never n (by omega)
        simp [isOpen]

/-- Reading accepts exactly the grammar and loses nothing. The lexemes of a window are read to its
end if and only if the window splits into them, and it splits in one way at most. Every place that a
lexeme tells is where its spelling stands in the text. Every lexeme takes the scanner further on
within its window, what the text has at or behind the end of the window plays no part, and the
count of open braces of a block is never taken below zero. -/
theorem lexemes_exact (text : Array UInt8) (start stop : Nat) (quoting : Quoting) :
    let first := windowStart text start stop
    let bytes := window text start stop
    (∀ ls, (Scanner.ofWindow text start stop).lexemes quoting = .ok ls ↔
      ∃ pieces last, Splits quoting first bytes pieces last ∧ pieces.map Piece.lexeme = ls) ∧
    (∀ pieces last pieces' last', Splits quoting first bytes pieces last →
      Splits quoting first bytes pieces' last' → pieces = pieces' ∧ last = last') ∧
    (∀ pieces last, Splits quoting first bytes pieces last →
      bytes = pieces.flatMap Piece.bytes ++ last ∧
      ∀ before piece after place, pieces = before ++ piece :: after →
        piece.lexeme.place? = some place →
        place.start =
          first + ((before.flatMap Piece.bytes).length + piece.blank.length + piece.margin) ∧
        (text.extract place.start place.stop).toList = piece.inner) ∧
    (∀ (s : Scanner) l after, s.next quoting = (.ok l, after) → l ≠ .eof →
      s.pos < after.pos ∧ after.limit = s.limit) ∧
    (∀ text' : Array UInt8, (∀ i < stop, text'[i]? = text[i]?) →
      (Scanner.ofWindow text' start stop).lexemes quoting =
        (Scanner.ofWindow text start stop).lexemes quoting) ∧
    (∀ s : Scanner, s.rest.head? = some Byte.openBrace → ∀ n ≤ s.readBlock.2.pos - s.pos,
      depthAfter? 0 (s.rest.take n) ≠ none) := by
  intro first bytes
  refine ⟨fun ls => ⟨fun read => ?_, ?_⟩, fun _ _ _ _ h h' => h.unique h', ?_,
    fun _ _ _ => next_advances, fun text' same => by rw [ofWindow_congr same],
    fun _ h _ => depthAfter?_readBlock h⟩
  · rw [ofWindow_eq] at read
    exact exists_splits read
  · rintro ⟨pieces, last, splits, rfl⟩
    rw [ofWindow_eq]
    exact splits.lexemes
  · intro pieces last splits
    refine ⟨splits.bytes_eq, ?_⟩
    rintro before piece after place rfl hplace
    obtain ⟨room, begins, ends⟩ := splits.inside hplace
    have whole : bytes = before.flatMap Piece.bytes ++
        (piece.bytes ++ (after.flatMap Piece.bytes ++ last)) := by
      simpa using splits.bytes_eq
    have fits : (before.flatMap Piece.bytes).length + piece.blank.length + piece.margin +
        (piece.spelled.length - 2 * piece.margin) ≤ bytes.length := by
      rw [whole]
      simp only [Piece.bytes, List.length_append]
      omega
    rw [Nat.add_assoc] at begins
    refine ⟨begins, ?_⟩
    rw [ends, begins, extract_window text start stop fits]
    change (bytes.drop _).take _ = _
    rw [whole]
    exact Piece.take_drop_inner room _ _

end Scriptlet.Lexical
