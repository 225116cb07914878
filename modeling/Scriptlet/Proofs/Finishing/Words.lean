import Scriptlet.Proofs.Lexical.Reading

/-!
Words of a text. A name goes as far as it can, so whether reading can come upon a given name is
settled by the text alone: the name has to stand there as a word of its own. Bodies of blocks and
quotations, bodies inside these, and the pieces between a place of reading and the end of a body have no
other words than the whole text, because none of their ends cuts a name in two.

There is one trap. The digits of a hexadecimal number may be letters, and a name can follow such a
number at once.
-/

namespace Scriptlet.Lexical

open Text (Bytes lineFeed)

/-- A name can begin behind these bytes: there are none, or they end with a byte that is in no name, or
with a hexadecimal number. -/
inductive Opens : Bytes → Prop where
  | nil : Opens []
  | byte {before : Bytes} {b : UInt8} (other : Byte.isNameByte b = false) : Opens (before ++ [b])
  | number {before digits : Bytes} {mark : UInt8} (isMark : Byte.isHexMark mark = true)
      (nonempty : digits ≠ []) (inside : ∀ c ∈ digits, Byte.isHexDigit c = true) :
      Opens (before ++ 0x30 :: mark :: digits)

/-- A word stands in a text: a name can begin before it, and none goes on behind it. -/
def HasWord (text word : Bytes) : Prop :=
  ∃ before after, text = before ++ (word ++ after) ∧ Opens before ∧ Stops Byte.isNameByte after

/-- Whether a name can begin behind some bytes can be told from their end. -/
theorem opens_iff {before : Bytes} :
    Opens before ↔ before = [] ∨ (∃ b ∈ before.getLast?, Byte.isNameByte b = false) ∨
      ∃ k < before.length, Scanner.startsHex (before.drop k) = true ∧
        (before.drop (k + 2)).all Byte.isHexDigit = true := by
  constructor
  · rintro (_ | ⟨other⟩ | @⟨init, digits, mark, isMark, nonempty, inside⟩)
    · exact .inl rfl
    · exact .inr (.inl ⟨_, by simp, other⟩)
    · refine .inr (.inr ⟨init.length, by simp, ?_, ?_⟩)
      · obtain ⟨digit, more, rfl⟩ := List.exists_cons_of_ne_nil nonempty
        rw [List.drop_left]
        exact leadsHex_iff.mp ⟨mark, digit, more, rfl, isMark, inside digit (List.mem_cons_self ..)⟩
      · rw [← List.drop_drop, List.drop_left]
        exact List.all_eq_true.mpr inside
  · rintro (rfl | ⟨b, last, other⟩ | ⟨k, inside, hex, digits⟩)
    · exact .nil
    · obtain ⟨init, rfl⟩ := List.getLast?_eq_some_iff.mp last
      exact .byte other
    · obtain ⟨mark, digit, more, split, isMark, -⟩ := leadsHex_iff.mpr hex
      rw [← List.drop_drop, split] at digits
      rw [← List.take_append_drop k before, split]
      exact .number isMark (List.cons_ne_nil _ _) (List.all_eq_true.mp digits)

instance (before : Bytes) : Decidable (Opens before) := decidable_of_iff _ opens_iff.symm

instance (accept : UInt8 → Bool) (rest : Bytes) : Decidable (Stops accept rest) :=
  inferInstanceAs (Decidable (∀ b ∈ rest.head?, accept b = false))

theorem hasWord_iff {text word : Bytes} :
    HasWord text word ↔ ∃ n < text.length + 1, Opens (text.take n) ∧ word <+: text.drop n ∧
      Stops Byte.isNameByte (text.drop (n + word.length)) := by
  constructor
  · rintro ⟨before, after, rfl, opens, stops⟩
    refine ⟨before.length, Nat.lt_succ_of_le (List.prefix_append _ _).length_le, ?_, ?_, ?_⟩
    · rwa [List.take_left]
    · rw [List.drop_left]
      exact List.prefix_append _ _
    · rwa [← List.drop_drop, List.drop_left, List.drop_left]
  · rintro ⟨n, -, opens, ⟨after, split⟩, stops⟩
    refine ⟨text.take n, after, ?_, opens, ?_⟩
    · rw [split, List.take_append_drop]
    · rwa [← List.drop_drop, ← split, List.drop_left] at stops

instance (text word : Bytes) : Decidable (HasWord text word) := decidable_of_iff _ hasWord_iff.symm

/-- A longer name is another word; a name right behind a hexadecimal number is a word. -/
example : ¬HasWord (Text.encode "meanwhile") (Text.encode "while") ∧
    HasWord (Text.encode "0xafwhile") (Text.encode "while") := by
  decide +kernel

/-- A piece of a text, with what stands before and behind it, where neither end cuts a name in two. -/
structure Whole (text before piece behind : Bytes) : Prop where
  text_eq : text = before ++ (piece ++ behind)
  opens : Opens before ∨ Stops Byte.isNameByte piece
  stops : Stops Byte.isNameByte behind

theorem whole_self (text : Bytes) : Whole text [] text [] := ⟨by simp, .inl .nil, by simp [Stops]⟩

theorem isNameByte_of_isOperatorByte {b : UInt8} (h : Byte.isOperatorByte b = true) :
    Byte.isNameByte b = false := by
  simp only [Byte.isOperatorByte, Bool.or_eq_true, beq_iff_eq] at h
  rcases h with ((((((((rfl | rfl) | rfl) | rfl) | rfl) | rfl) | rfl) | rfl) | rfl) | rfl <;> rfl

/-! ### The ends of blanks and lexemes -/

/-- Blank material does not end inside a name. -/
theorem Blank.opens {rest run : Bytes} (h : Blank rest run) (before : Bytes) :
    run = [] ∨ Opens (before ++ run) ∨ Stops Byte.isNameByte rest := by
  induction h generalizing before with
  | nil => exact .inl rfl
  | @space b run isSpace more ih =>
    have other : Byte.isNameByte b = false := by grind [Byte.isSpace, Byte.isNameByte, Byte.isLetter]
    rcases ih (before ++ [b]) with rfl | opens | stops
    · exact .inr (.inl (.byte other))
    · exact .inr (.inl (by simpa using opens))
    · exact .inr (.inr stops)
  | @continued run more ih =>
    rcases ih (before ++ [Byte.backslash, lineFeed]) with rfl | opens | stops
    · exact .inr (.inl (by simpa using (.byte rfl : Opens (before ++ [Byte.backslash] ++ [lineFeed]))))
    · exact .inr (.inl (by simpa using opens))
    · exact .inr (.inr stops)
  | @continuedReturn run more ih =>
    rcases ih (before ++ [Byte.backslash, Byte.carriageReturn, lineFeed]) with rfl | opens | stops
    · exact .inr (.inl (by
        simpa using (.byte rfl : Opens (before ++ [Byte.backslash, Byte.carriageReturn] ++ [lineFeed]))))
    · exact .inr (.inl (by simpa using opens))
    · exact .inr (.inr stops)
  | @comment words run oneLine ends more ih =>
    rcases ih (before ++ Byte.hash :: words) with rfl | opens | stops
    · -- the comment goes on to the end of its line, and no name begins with a line feed
      refine .inr (.inr fun b hb => ?_)
      have isFeed := ends b hb
      simp only [bne_eq_false_iff_eq] at isFeed
      rw [isFeed]
      rfl
    · exact .inr (.inl (by simpa using opens))
    · exact .inr (.inr stops)

/-- Bytes of a kind that no name has do not end inside a name. -/
theorem opens_run {accept : UInt8 → Bool} (other : ∀ b, accept b = true → Byte.isNameByte b = false)
    {run : Bytes} (nonempty : run ≠ []) (inside : ∀ c ∈ run, accept c = true) (before : Bytes) :
    Opens (before ++ run) := by
  obtain ⟨init, last, rfl⟩ := List.eq_nil_or_concat run |>.resolve_left nonempty
  rw [List.concat_eq_append, ← List.append_assoc]
  exact .byte (other last (inside last (by simp)))

variable {quoting : Quoting} {pos : Nat} {spelled rest : Bytes} {l : Lexeme}

/-- A lexeme does not end inside a name. -/
theorem Spells.opens (h : Spells quoting pos spelled rest l) (before : Bytes) :
    Opens (before ++ spelled) ∨ Stops Byte.isNameByte rest := by
  cases h with
  | newline | semicolon | comma | openParen | closeParen => exact .inl (.byte rfl)
  | name lead inside longest => exact .inr longest
  | operator nonempty inside longest =>
    exact .inl (opens_run (fun _ => isNameByte_of_isOperatorByte) nonempty inside before)
  | hexadecimal isMark nonempty inside longest => exact .inl (.number isMark nonempty inside)
  | decimal nonempty inside longest plain =>
    refine .inl (opens_run (fun b hb => ?_) nonempty inside before)
    grind [Byte.isDigit, Byte.isNameByte, Byte.isLetter]
  | block isBlock =>
    obtain ⟨inside, rfl⟩ := isBlock.exists_concat
    exact .inl (by simpa using (.byte rfl : Opens (before ++ Byte.openBrace :: inside ++ [Byte.closeBrace])))
  | @quote inside =>
    exact .inl (by simpa using
      (.byte rfl : Opens (before ++ Byte.quotationMark :: inside ++ [Byte.quotationMark])))

/-! ### Pieces of a text -/

variable {text before behind : Bytes}

theorem Whole.blank {run : Bytes} (h : Whole text before (run ++ rest) behind) (blank : Blank rest run) :
    Whole text (before ++ run) rest behind := by
  refine ⟨by simpa using h.text_eq, ?_, h.stops⟩
  rcases blank.opens before with rfl | opens | stops
  · simpa using h.opens
  · exact .inl opens
  · exact .inr stops

theorem Whole.lexeme (h : Whole text before (spelled ++ rest) behind)
    (spells : Spells quoting pos spelled rest l) : Whole text (before ++ spelled) rest behind :=
  ⟨by simpa using h.text_eq, spells.opens before, h.stops⟩

/-- A name that is read is a word of the text. -/
theorem Whole.hasWord (h : Whole text before (spelled ++ rest) behind) {place : Span}
    (spells : Spells quoting pos spelled rest (.name place)) : HasWord text spelled := by
  cases spells with
  | @name b run _ lead inside longest =>
    have begins : Opens before := by
      refine h.opens.resolve_right fun stops => ?_
      have none := stops b rfl
      rw [Byte.isNameByte_of_classOf (Byte.classOf_of_isLetter lead)] at none
      cases none
    refine ⟨before, rest ++ behind, by simpa using h.text_eq, begins, ?_⟩
    cases rest with
    | nil => exact h.stops
    | cons c rest => exact longest

/-- The inside of brackets, if neither of them is in a name. -/
theorem Whole.inside {inside : Bytes} {b c : UInt8} (hb : Byte.isNameByte b = false)
    (hc : Byte.isNameByte c = false) (h : Whole text before (b :: (inside ++ [c]) ++ rest) behind) :
    Whole text (before ++ [b]) inside (c :: (rest ++ behind)) := by
  refine ⟨by simpa using h.text_eq, .inl (.byte hb), fun d hd => ?_⟩
  cases hd
  exact hc

/-! ### Places of reading and bodies -/

/-- A scanner stands at a place of a text. -/
def Stands (text : Bytes) (s : Scanner) : Prop :=
  ∃ before behind, before.length = s.pos ∧ Whole text before s.rest behind

/-- A span of a text marks out a piece. -/
def Marks (text : Bytes) (place : Span) (piece : Bytes) : Prop :=
  ∃ before behind, text = before ++ (piece ++ behind) ∧
    place = ⟨before.length, before.length + piece.length⟩

/-- What a slice marks out is what it reads as. -/
theorem Marks.bytesIn {store : Array UInt8} {place : Span} {piece : Bytes}
    (h : Marks store.toList place piece) (source : Source) :
    (Slice.ofSpan source place).bytesIn store = piece := by
  obtain ⟨before, behind, text, rfl⟩ := h
  have array : store = (before ++ (piece ++ behind)).toArray := by
    apply Array.ext'
    rw [text]
  rw [array]
  simp [Slice.ofSpan, Slice.bytesIn, Slice.stop, List.extract_eq_take_drop]

/-- So many bytes from an offset on are a body of a text. -/
def IsBody (text : Bytes) (start length : Nat) : Prop :=
  ∃ before piece behind, before.length = start ∧ piece.length = length ∧
    Whole text before piece behind

theorem isBody_self (text : Bytes) : IsBody text 0 text.length :=
  ⟨[], text, [], rfl, rfl, whole_self text⟩

theorem IsBody.stands {store : Array UInt8} {start length : Nat}
    (h : IsBody store.toList start length) :
    Stands store.toList (Scanner.ofWindow store start (start + length)) ∧
      (Scanner.ofWindow store start (start + length)).rest.length = length := by
  obtain ⟨before, piece, behind, rfl, rfl, whole⟩ := h
  have size := congrArg List.length whole.text_eq
  simp only [List.length_append, Array.length_toList] at size
  have window_eq : window store before.length (before.length + piece.length) = piece := by
    simp [window, whole.text_eq, List.take_append]
  have start_eq : windowStart store before.length (before.length + piece.length) = before.length := by
    unfold windowStart
    omega
  rw [ofWindow_eq, window_eq, start_eq]
  exact ⟨⟨before, behind, rfl, whole⟩, rfl⟩

/-- What a lexeme of a text, read by a scanner, tells about the text. -/
structure Tells (text : Bytes) (s : Scanner) (l : Lexeme) (after : Scanner) : Prop where
  stands : Stands text after
  eof : l = .eof → after.rest = []
  shorter : l ≠ .eof → after.rest.length < s.rest.length
  name : ∀ {place}, l = .name place → ∃ word, Marks text place word ∧ HasWord text word
  operator : ∀ {place}, l = .operator place →
    ∃ b run, Marks text place (b :: run) ∧ Byte.isOperatorByte b = true
  body : ∀ {place}, l = .block place ∨ l = .quote place →
    IsBody text place.start (place.stop - place.start) ∧
      place.stop - place.start + 2 ≤ s.rest.length

/-- The inside of a block or a quotation is a body. -/
theorem Whole.isBody (h : Whole text before (spelled ++ rest) behind)
    (spells : Spells quoting before.length spelled rest l) {place : Span}
    (bracket : l = .block place ∨ l = .quote place) :
    IsBody text place.start (place.stop - place.start) ∧
      place.stop - place.start + 2 = spelled.length := by
  rcases bracket with rfl | rfl
  · cases spells with
    | block isBlock =>
      obtain ⟨inside, rfl⟩ := isBlock.exists_concat
      have length : before.length + (Byte.openBrace :: (inside ++ [Byte.closeBrace])).length - 1 -
          (before.length + 1) = inside.length := by
        simp only [List.length_cons, List.length_append, List.length_nil]
        omega
      rw [length]
      exact ⟨⟨_, inside, _, by simp, rfl, h.inside rfl rfl⟩, by simp⟩
  · cases spells with
    | @quote inside _ unquoted oneLine =>
      rw [Nat.add_sub_cancel_left]
      exact ⟨⟨_, inside, _, by simp, rfl, h.inside rfl rfl⟩, by simp⟩

theorem Stands.next {s after : Scanner} (h : Stands text s) (read : s.next quoting = (.ok l, after)) :
    Tells text s l after := by
  obtain ⟨before, behind, start, whole⟩ := h
  obtain ⟨run, split, pos, blank⟩ := exists_longestBlank s
  rw [split] at whole
  have behind_blank := whole.blank blank.blank
  have start' : (before ++ run).length = s.skipBlank.pos := by simp [start, pos]
  by_cases hl : l = .eof
  · subst hl
    have none := Scanner.rest_of_readLexeme_eof read
    have stay : after = s.skipBlank := by
      simp only [Scanner.next, Scanner.readLexeme, none] at read
      cases read
      rfl
    rw [stay]
    refine ⟨⟨_, behind, start', behind_blank⟩, fun _ => none, fun h => absurd rfl h, ?_, ?_, ?_⟩
    · intro place named
      cases named
    · intro place is_operator
      cases is_operator
    · rintro place (is_block | is_quote)
      · cases is_block
      · cases is_quote
  · obtain ⟨spelled, split', pos', spells⟩ := spells_of_readLexeme read hl
    rw [split'] at behind_blank
    rw [← start'] at spells pos'
    have room : spelled.length ≤ s.rest.length := by
      rw [split, split']
      simp
      omega
    have marks : Marks text ⟨(before ++ run).length, (before ++ run).length + spelled.length⟩ spelled :=
      ⟨before ++ run, after.rest ++ behind, by simpa using behind_blank.text_eq, rfl⟩
    refine ⟨⟨before ++ run ++ spelled, behind, ?_, behind_blank.lexeme spells⟩,
      fun eof => absurd eof hl, fun _ => Scanner.length_rest_next_lt read hl, ?_, ?_, ?_⟩
    · rw [pos', List.length_append]
    · rintro place rfl
      have word := behind_blank.hasWord spells
      cases spells with
      | name lead inside longest => exact ⟨_, marks, word⟩
    · rintro place rfl
      cases spells with
      | operator nonempty inside longest =>
        obtain ⟨b, tail, rfl⟩ := List.exists_cons_of_ne_nil nonempty
        exact ⟨b, tail, marks, inside b (List.mem_cons_self ..)⟩
    · intro place bracket
      obtain ⟨body, length⟩ := behind_blank.isBody spells bracket
      exact ⟨body, length ▸ room⟩

end Scriptlet.Lexical
