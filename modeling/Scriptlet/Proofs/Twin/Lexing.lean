import Scriptlet.Proofs.Window

/-!
The same text in two places. What a scanner reads depends on the bytes before it and not on where
they are, so two scanners with the same rest read the same lexemes, at the same distance from where
they started (`Scanner.next_shift`).

A text may also go on in one place and end in the other. If it goes on with a byte that ends every
run, such as a line feed, a blank or a parenthesis, the lexemes up to the end of the shorter text are
those of the longer one, and where the one ends, the other has the byte to read (`Scanner.next_extend`,
`Scanner.next_extend_end`). This holds as long as the shorter text can be read at all: a block or a
quotation that is cut short, or a backslash that stands last, is a complaint there and may be something
else in the longer one. And where the shorter text ends in a comment, only a line feed is outside it.
-/

namespace Scriptlet

open Text (Bytes lineFeed)

def Span.shift (k : Nat) (p : Span) : Span := ⟨k + p.start, k + p.stop⟩

@[simp] theorem Span.shift_zero (p : Span) : p.shift 0 = p := by simp [Span.shift]

/-- The same lexeme in a text that lies `k` bytes further on. -/
def Lexeme.shift (k : Nat) : Lexeme → Lexeme
  | .name place => .name (place.shift k)
  | .operator place => .operator (place.shift k)
  | .block inside => .block (inside.shift k)
  | .quote inside => .quote (inside.shift k)
  | other => other

@[simp] theorem Lexeme.shift_zero (l : Lexeme) : l.shift 0 = l := by
  cases l <;> simp [Lexeme.shift]

structure Byte.Delimits (d : UInt8) : Prop where
  name : isNameByte d = false
  operator : isOperatorByte d = false
  digit : isDigit d = false
  hexMark : isHexMark d = false
  hexDigit : isHexDigit d = false

theorem Byte.delimits_lineFeed : Byte.Delimits lineFeed := ⟨rfl, rfl, rfl, rfl, rfl⟩

namespace Scanner

theorem two_le_of_startsHex {bytes : Bytes} (h : startsHex bytes = true) : 2 ≤ bytes.length := by
  match bytes with
  | [] => cases h
  | [_] => cases h
  | _ :: _ :: _ => simp only [List.length_cons]; omega

/-! ### Another place -/

def shift (k : Nat) (s : Scanner) : Scanner := ⟨k + s.pos, s.rest⟩

@[simp] theorem rest_shift (k : Nat) (s : Scanner) : (s.shift k).rest = s.rest := rfl

@[simp] theorem pos_shift (k : Nat) (s : Scanner) : (s.shift k).pos = k + s.pos := rfl

theorem skip_shift (k n : Nat) (s : Scanner) : (s.shift k).skip n = (s.skip n).shift k := by
  simp [skip, shift, Nat.add_assoc]

theorem readNumber_shift (k : Nat) (s : Scanner) :
    (s.shift k).readNumber = (s.readNumber.1.shift k, s.readNumber.2.shift k) := by
  unfold readNumber
  rw [rest_shift]
  split <;> simp only [skip_shift] <;> rfl

theorem readRun_shift (accept : UInt8 → Bool) (k : Nat) (s : Scanner) :
    (s.shift k).readRun accept = ((s.readRun accept).1.shift k, (s.readRun accept).2.shift k) := by
  unfold readRun
  simp only [rest_shift, pos_shift, skip_shift, Span.shift, Nat.add_assoc]

theorem readBlock_shift (k : Nat) (s : Scanner) :
    (s.shift k).readBlock = (s.readBlock.1.map (Lexeme.shift k), s.readBlock.2.shift k) := by
  unfold readBlock
  rw [rest_shift]
  split <;> simp only [skip_shift, pos_shift, Except.map, Lexeme.shift, Span.shift, Nat.add_assoc]

theorem readQuote_shift (quoting : Quoting) (k : Nat) (s : Scanner) :
    (s.shift k).readQuote quoting =
      ((s.readQuote quoting).1.map (Lexeme.shift k), (s.readQuote quoting).2.shift k) := by
  unfold readQuote
  simp only [skip_shift, rest_shift, pos_shift]
  split
  · split <;> simp only [Except.map, Lexeme.shift, Span.shift]
  · rfl

theorem readLexeme_shift (quoting : Quoting) (k : Nat) (s : Scanner) :
    (s.shift k).readLexeme quoting =
      ((s.readLexeme quoting).1.map (Lexeme.shift k), (s.readLexeme quoting).2.shift k) := by
  unfold readLexeme
  rw [rest_shift]
  split
  · rfl
  · split <;> simp only [skip_shift, readBlock_shift, readQuote_shift, readNumber_shift,
      readRun_shift, Except.map, Lexeme.shift]

/-- The next lexeme of the same text in another place. -/
theorem next_shift (quoting : Quoting) (k : Nat) (s : Scanner) :
    (s.shift k).next quoting =
      ((s.next quoting).1.map (Lexeme.shift k), (s.next quoting).2.shift k) := by
  unfold next skipBlank
  rw [rest_shift, skip_shift, readLexeme_shift]

/-! ### Further on -/

/-- The second scanner is in the window of the first, at the same place or behind it. -/
def Further (s after : Scanner) : Prop := ∃ n ≤ s.rest.length, after = s.skip n

theorem Further.refl (s : Scanner) : s.Further s := ⟨0, Nat.zero_le _, rfl⟩

theorem Further.trans {s t u : Scanner} (h : s.Further t) (k : t.Further u) : s.Further u := by
  obtain ⟨n, hn, rfl⟩ := h
  obtain ⟨n', hn', rfl⟩ := k
  rw [rest_skip, List.length_drop] at hn'
  exact ⟨n + n', by omega, by simp [skip, Nat.add_assoc]⟩

theorem further_readNumber (s : Scanner) : s.Further s.readNumber.2 := by
  unfold readNumber
  split
  · next hex =>
    have long : 2 ≤ s.rest.length := two_le_of_startsHex hex
    have fits := length_takeWhile_le Byte.isHexDigit (s.rest.drop 2)
    rw [List.length_drop] at fits
    exact ⟨_, by omega, rfl⟩
  · exact ⟨_, length_takeWhile_le _ _, rfl⟩

theorem further_readBlock (s : Scanner) : s.Further s.readBlock.2 := by
  unfold readBlock
  split
  · next length found =>
    have fits := blockLength?_lt found
    rw [List.length_drop] at fits
    exact ⟨length + 2, by omega, rfl⟩
  · exact ⟨s.rest.length, Nat.le_refl _, rfl⟩

theorem further_readQuote (quoting : Quoting) {s : Scanner} (hs : s.rest ≠ []) :
    s.Further (s.readQuote quoting).2 := by
  have one : s.Further (s.skip 1) := ⟨1, List.length_pos_iff.mpr hs, rfl⟩
  have inside : (s.skip 1).Further _ := ⟨_, length_takeWhile_le (isQuotable quoting) _, rfl⟩
  unfold readQuote
  dsimp only
  split
  · next b rest hrest =>
    split
    · exact (one.trans inside).trans ⟨1, by rw [hrest]; simp, rfl⟩
    · exact one.trans inside
  · exact one.trans inside

theorem further_snd_readLexeme (quoting : Quoting) (s : Scanner) :
    s.Further (s.readLexeme quoting).2 := by
  unfold readLexeme
  split
  · exact .refl s
  · next b rest hs =>
    have one : s.Further (s.skip 1) := ⟨1, by simp [hs], rfl⟩
    split
    iterate 5
      · exact one
    · exact further_readBlock s
    · exact further_readQuote quoting (by simp [hs])
    · exact further_readNumber s
    · exact ⟨_, length_takeWhile_le _ _, rfl⟩
    · exact ⟨_, length_takeWhile_le _ _, rfl⟩
    · exact .refl s

theorem further_readLexeme {quoting : Quoting} {s after : Scanner} {l : Lexeme}
    (h : s.readLexeme quoting = (.ok l, after)) : s.Further after := by
  have further := further_snd_readLexeme quoting s
  rwa [h] at further

/-- Reading stays in the window, behind a complaint too. -/
theorem further_snd_next (quoting : Quoting) (s : Scanner) : s.Further (s.next quoting).2 :=
  Further.trans ⟨_, blankLength_le false s.rest, rfl⟩ (further_snd_readLexeme quoting s.skipBlank)

theorem further_next {quoting : Quoting} {s after : Scanner} {l : Lexeme}
    (h : s.next quoting = (.ok l, after)) : s.Further after := by
  have further := further_snd_next quoting s
  rwa [h] at further

/-! ### A text that goes on -/

/-- The scanner of a text that goes on behind the end. -/
def extend (s : Scanner) (tail : Bytes) : Scanner := ⟨s.pos, s.rest ++ tail⟩

variable {s after : Scanner} {l : Lexeme} {quoting : Quoting} {d : UInt8} {more : Bytes}

@[simp] theorem rest_extend (s : Scanner) (tail : Bytes) : (s.extend tail).rest = s.rest ++ tail := rfl

@[simp] theorem pos_extend (s : Scanner) (tail : Bytes) : (s.extend tail).pos = s.pos := rfl

theorem skip_extend {n : Nat} (h : n ≤ s.rest.length) (tail : Bytes) :
    (s.extend tail).skip n = (s.skip n).extend tail := by
  simp only [skip, extend, List.drop_append_of_le_length h]

/-- A byte ends every run that it does not belong to. -/
theorem takeWhile_append_of_neg {accept : UInt8 → Bool} (h : accept d = false) (bytes more : Bytes) :
    (bytes ++ d :: more).takeWhile accept = bytes.takeWhile accept := by
  rw [List.takeWhile_append]
  split
  · next whole =>
    rw [List.takeWhile_cons_of_neg (by simp [h]), List.append_nil]
    exact ((List.takeWhile_prefix accept).eq_of_length whole).symm
  · rfl

/-- Where a run ends inside, it does not matter what comes behind. -/
theorem takeWhile_append_of_stop {accept : UInt8 → Bool} {bytes : Bytes} {b : UInt8} {rest : Bytes}
    (h : bytes.drop (bytes.takeWhile accept).length = b :: rest) (tail : Bytes) :
    (bytes ++ tail).takeWhile accept = bytes.takeWhile accept := by
  rw [List.takeWhile_append, if_neg]
  intro whole
  rw [whole, List.drop_length] at h
  cases h

theorem startsHex_append (hd : Byte.Delimits d) (bytes more : Bytes) :
    startsHex (bytes ++ d :: more) = startsHex bytes := by
  match bytes with
  | [] => match more with
    | [] => rfl
    | [_] => rfl
    | mark :: digit :: _ =>
      change (d == 0x30 && Byte.isHexMark mark && Byte.isHexDigit digit) = false
      have zero : (d == 0x30) = false := by
        have digit := hd.digit
        grind [Byte.isDigit]
      rw [zero]
      rfl
  | [zero] => match more with
    | [] => rfl
    | c :: _ =>
      change (zero == 0x30 && Byte.isHexMark d && Byte.isHexDigit c) = false
      simp [hd.hexMark]
  | [zero, mark] =>
    change (zero == 0x30 && Byte.isHexMark mark && Byte.isHexDigit d) = false
    simp [hd.hexDigit]
  | _ :: _ :: _ :: _ => rfl

/-- A backslash that stands last is not blank, and with a line feed behind it, it is. In all other
cases blanks end where they ended, if they end before the last byte or a line feed comes next. -/
theorem blankLength_append {comment : Bool} {bytes : Bytes}
    (h : (bytes.drop (blankLength comment bytes)).head? ≠ some Byte.backslash ∨
      d ≠ lineFeed ∧ d ≠ Byte.carriageReturn)
    (stop : d = lineFeed ∨ blankLength comment bytes < bytes.length) (more : Bytes) :
    blankLength comment (bytes ++ d :: more) = blankLength comment bytes := by
  fun_induction blankLength comment bytes with
  | case1 comment =>
    rcases stop with rfl | inside
    · rw [List.nil_append, blankLength.eq_def]
      cases comment <;> rfl
    · cases inside
  | case2 comment b rest inside ih =>
    rw [List.cons_append, blankLength.eq_def]
    simp only [inside, if_true]
    rw [ih (by simpa using h) (by simpa using stop)]
  | case3 comment b rest outside space ih =>
    rw [List.cons_append, blankLength.eq_def]
    simp only [outside, space, if_true, if_false, Bool.false_eq_true]
    rw [ih (by simpa using h) (by simpa using stop)]
  | case4 comment b rest outside space hash ih =>
    rw [List.cons_append, blankLength.eq_def]
    simp only [outside, space, hash, if_true, if_false, Bool.false_eq_true]
    rw [ih (by simpa using h) (by simpa using stop)]
  | case5 comment b outside space hash backslash c rest' feed ih =>
    rw [List.cons_append, blankLength.eq_def]
    simp only [outside, space, hash, backslash, List.cons_append, feed, if_true, if_false,
      Bool.false_eq_true]
    rw [ih (by simpa using h) (by simpa using stop)]
  | case6 comment b outside space hash backslash c feed ret d rest'' feed' ih =>
    rw [List.cons_append, blankLength.eq_def]
    simp only [outside, space, hash, backslash, List.cons_append, feed, ret, feed', if_true, if_false,
      Bool.false_eq_true]
    rw [ih (by simpa using h) (by simpa using stop)]
  | case7 comment b outside space hash backslash c feed ret e rest'' feed' =>
    rw [List.cons_append, blankLength.eq_def]
    simp only [outside, space, hash, backslash, List.cons_append, feed, ret, feed', if_true, if_false,
      Bool.false_eq_true]
  | case8 comment b outside space hash backslash c feed ret =>
    have other : (d == lineFeed) = false := by simp_all
    rw [List.cons_append, blankLength.eq_def]
    simp only [outside, space, hash, backslash, List.cons_append, List.nil_append, feed, ret, other,
      if_true, if_false, Bool.false_eq_true]
  | case9 comment b outside space hash backslash c rest' feed ret =>
    rw [List.cons_append, blankLength.eq_def]
    simp only [outside, space, hash, backslash, List.cons_append, feed, ret, if_true, if_false,
      Bool.false_eq_true]
  | case10 comment b outside space hash backslash =>
    have other : (d == lineFeed) = false ∧ (d == Byte.carriageReturn) = false := by simp_all
    rw [List.cons_append, blankLength.eq_def]
    simp only [outside, space, hash, backslash, List.nil_append, other, if_true, if_false,
      Bool.false_eq_true]
  | case11 comment b rest outside space hash backslash =>
    rw [List.cons_append, blankLength.eq_def]
    simp only [outside, space, hash, backslash, if_false, Bool.false_eq_true]

theorem blockLength?_append {depth : Nat} {bytes : Bytes} {length : Nat}
    (h : blockLength? depth bytes = some length) (tail : Bytes) :
    blockLength? depth (bytes ++ tail) = some length := by
  fun_induction blockLength? depth bytes generalizing length with
  | case1 => cases h
  | case2 depth b rest opens ih =>
    obtain ⟨inner, hinner, rfl⟩ := Option.map_eq_some_iff.mp h
    rw [List.cons_append, blockLength?.eq_def]
    simp only [opens, if_true, ih hinner, Option.map_some]
  | case3 b rest opens closes =>
    rw [List.cons_append, blockLength?, if_neg opens, if_pos closes]
    exact h
  | case4 b rest opens closes outer ih =>
    obtain ⟨inner, hinner, rfl⟩ := Option.map_eq_some_iff.mp h
    rw [List.cons_append, blockLength?, if_neg opens, if_pos closes]
    exact Option.map_eq_some_iff.mpr ⟨inner, ih hinner, rfl⟩
  | case5 depth b rest opens closes ih =>
    obtain ⟨inner, hinner, rfl⟩ := Option.map_eq_some_iff.mp h
    rw [List.cons_append, blockLength?.eq_def]
    simp only [opens, closes, if_false, Bool.false_eq_true, ih hinner, Option.map_some]

theorem readNumber_extend (hd : Byte.Delimits d) (s : Scanner) (more : Bytes) :
    (s.extend (d :: more)).readNumber = (s.readNumber.1, s.readNumber.2.extend (d :: more)) := by
  unfold readNumber
  rw [rest_extend, startsHex_append hd]
  split
  · next hex =>
    have long : 2 ≤ s.rest.length := two_le_of_startsHex hex
    have fits := length_takeWhile_le Byte.isHexDigit (s.rest.drop 2)
    rw [List.length_drop] at fits
    rw [List.drop_append_of_le_length long, takeWhile_append_of_neg hd.hexDigit]
    dsimp only
    rw [skip_extend (by omega)]
  · rw [takeWhile_append_of_neg hd.digit]
    dsimp only
    rw [skip_extend (length_takeWhile_le _ _)]

theorem readRun_extend {accept : UInt8 → Bool} (h : accept d = false) (s : Scanner) (more : Bytes) :
    (s.extend (d :: more)).readRun accept =
      ((s.readRun accept).1, (s.readRun accept).2.extend (d :: more)) := by
  unfold readRun
  rw [rest_extend, takeWhile_append_of_neg h, pos_extend]
  dsimp only
  rw [skip_extend (length_takeWhile_le _ _)]

theorem readBlock_extend {b : UInt8} {rest : Bytes} (hs : s.rest = b :: rest)
    (h : s.readBlock = (.ok l, after)) (tail : Bytes) :
    (s.extend tail).readBlock = (.ok l, after.extend tail) := by
  unfold readBlock at h ⊢
  rw [rest_extend, List.drop_append_of_le_length (by simp [hs])]
  split at h
  · next length found =>
    have fits := blockLength?_lt found
    rw [List.length_drop] at fits
    cases h
    rw [blockLength?_append found]
    dsimp only
    rw [skip_extend (by omega), pos_extend]
  · cases h

theorem readQuote_extend {b : UInt8} {rest : Bytes} (hs : s.rest = b :: rest)
    (h : s.readQuote quoting = (.ok l, after)) (tail : Bytes) :
    (s.extend tail).readQuote quoting = (.ok l, after.extend tail) := by
  have one : 1 ≤ s.rest.length := by simp [hs]
  unfold readQuote at h ⊢
  simp only [skip_extend one] at h ⊢
  generalize s.skip 1 = inside at h ⊢
  split at h
  · next c rest' hrest =>
    rw [rest_skip] at hrest
    split at h
    · next mark =>
      cases h
      have fits := congrArg List.length hrest
      rw [List.length_drop, List.length_cons] at fits
      simp only [rest_extend, takeWhile_append_of_stop hrest, pos_extend]
      rw [skip_extend (by omega), rest_extend, rest_skip, hrest, List.cons_append]
      dsimp only
      rw [if_pos mark, skip_extend (by rw [rest_skip, List.length_drop]; omega)]
      rfl
    · cases h
  · cases h

theorem readLexeme_extend (hd : Byte.Delimits d) (h : s.readLexeme quoting = (.ok l, after))
    (hl : l ≠ .eof) (more : Bytes) :
    (s.extend (d :: more)).readLexeme quoting = (.ok l, after.extend (d :: more)) := by
  unfold readLexeme at h ⊢
  split at h
  · cases h
    exact absurd rfl hl
  · next b rest hs =>
    have one : 1 ≤ s.rest.length := by simp [hs]
    rw [rest_extend, hs, List.cons_append]
    dsimp only
    split at h <;> rename_i hclass
    iterate 5
      · cases h
        rw [skip_extend one]
    · exact readBlock_extend hs h _
    · exact readQuote_extend hs h _
    · rw [readNumber_extend hd]
      generalize s.readNumber = read at h ⊢
      cases h
      rfl
    · rw [readRun_extend hd.name]
      generalize s.readRun Byte.isNameByte = read at h ⊢
      cases h
      rfl
    · rw [readRun_extend hd.operator]
      generalize s.readRun Byte.isOperatorByte = read at h ⊢
      cases h
      rfl
    · cases h

/-- A scanner that reads on does not stand before a backslash. -/
theorem head?_ne_backslash (h : s.readLexeme quoting = (.ok l, after)) :
    s.rest.head? ≠ some Byte.backslash := by
  intro head
  obtain ⟨rest, hs⟩ := List.head?_eq_some_iff.mp head
  unfold readLexeme at h
  rw [hs] at h
  cases h

theorem skipBlank_extend (h : s.next quoting = (.ok l, after)) (stop : d = lineFeed ∨ s.skipBlank.rest ≠ [])
    (more : Bytes) : (s.extend (d :: more)).skipBlank = s.skipBlank.extend (d :: more) := by
  have inside : d = lineFeed ∨ blankLength false s.rest < s.rest.length := by
    refine stop.imp_right fun some => Nat.lt_of_not_le fun all => some ?_
    exact List.drop_eq_nil_of_le all
  have blank := blankLength_append (.inl (head?_ne_backslash (s := s.skipBlank) h)) inside more
  unfold skipBlank
  rw [rest_extend, blank, skip_extend (blankLength_le false s.rest)]

/-- A lexeme before the end is the same where the text goes on with a byte that ends every run. -/
theorem next_extend (hd : Byte.Delimits d) (h : s.next quoting = (.ok l, after)) (hl : l ≠ .eof)
    (more : Bytes) : (s.extend (d :: more)).next quoting = (.ok l, after.extend (d :: more)) := by
  have some : s.skipBlank.rest ≠ [] := fun none => hl <| by
    have ended := h
    unfold next readLexeme at ended
    rw [none] at ended
    cases ended
    rfl
  unfold next at h ⊢
  rw [skipBlank_extend h (.inr some), readLexeme_extend hd h hl]

theorem readNumber_ne_eof (s : Scanner) : s.readNumber.1 ≠ .eof := by
  unfold readNumber
  split <;> exact fun h => by cases h

theorem rest_of_readLexeme_eof (h : s.readLexeme quoting = (.ok .eof, after)) : s.rest = [] := by
  unfold readLexeme at h
  split at h
  · assumption
  · split at h
    iterate 5 cases h
    · unfold readBlock at h
      split at h <;> cases h
    · unfold readQuote at h
      dsimp only at h
      split at h
      · split at h <;> cases h
      · cases h
    · exact absurd (Except.ok.inj (congrArg Prod.fst h)) (readNumber_ne_eof s)
    iterate 3 cases h

/-- Where one text ends, the other is read from what it goes on with. -/
theorem next_extend_end (h : s.next quoting = (.ok .eof, after)) (stop : d = lineFeed ∨ s.rest = [])
    (more : Bytes) :
    (s.extend (d :: more)).next quoting = (⟨s.limit, d :: more⟩ : Scanner).next quoting := by
  rcases stop with rfl | ended
  · have nothing : s.skipBlank.rest = [] := rest_of_readLexeme_eof h
    have limit : s.skipBlank.pos = s.limit := by
      have skipped : s.skipBlank.limit = s.limit := limit_skip (blankLength_le false s.rest)
      rw [← skipped, Scanner.limit, nothing]
      rfl
    have skipped : (s.extend (lineFeed :: more)).skipBlank = ⟨s.limit, lineFeed :: more⟩ := by
      rw [skipBlank_extend h (.inl rfl), extend, nothing, limit, List.nil_append]
    have stays : (⟨s.limit, lineFeed :: more⟩ : Scanner).skipBlank = ⟨s.limit, lineFeed :: more⟩ := by
      rw [skipBlank, blankLength.eq_def]
      rfl
    unfold next
    rw [skipped, stays]
  · simp only [extend, limit, ended, List.nil_append, List.length_nil, Nat.add_zero]

theorem next_extend_eof (h : s.next quoting = (.ok .eof, after)) (more : Bytes) :
    (s.extend (lineFeed :: more)).next quoting = (.ok .newline, ⟨s.limit + 1, more⟩) := by
  rw [next_extend_end h (.inl rfl), next, skipBlank, blankLength.eq_def]
  rfl

/-! ### Ways of reading quotations -/

/-- Of two runs, the one that stops at a byte where both stop is the other. -/
theorem takeWhile_eq_of_stop {accept accept' : UInt8 → Bool} {bytes tail : Text.Bytes} {b : UInt8}
    (wider : ∀ b, accept b = true → accept' b = true) (stop : accept' b = false)
    (h : bytes.drop (bytes.takeWhile accept).length = b :: tail) :
    bytes.takeWhile accept' = bytes.takeWhile accept := by
  induction bytes with
  | nil => rfl
  | cons c bytes ih =>
    cases hc : accept c with
    | true =>
      rw [List.takeWhile_cons, if_pos hc] at h
      rw [List.takeWhile_cons, List.takeWhile_cons, if_pos hc, if_pos (wider c hc), ih h]
    | false =>
      rw [List.takeWhile_cons, hc] at h
      cases h
      rw [List.takeWhile_cons_of_neg (by simp [stop]), List.takeWhile_cons_of_neg (by simp [hc])]

theorem readQuote_argument {s after : Scanner} {l : Lexeme}
    (h : s.readQuote .plain = (.ok l, after)) : s.readQuote .argument = (.ok l, after) := by
  unfold readQuote at h ⊢
  dsimp only at h ⊢
  split at h
  · next b tail hrest =>
    split at h
    · next hb =>
      have stop : isQuotable .argument b = false := by simpa [isQuotable] using hb
      have wider : ∀ b, isQuotable .plain b = true → isQuotable .argument b = true := by
        intro b hb
        simp only [isQuotable, Bool.and_eq_true] at hb ⊢
        exact ⟨hb.1, rfl⟩
      rw [takeWhile_eq_of_stop wider stop hrest, hrest]
      dsimp only
      rw [if_pos hb]
      exact h
    · cases h
  · cases h

/-- A quotation that ends on its line is read the same in an argument list. -/
theorem next_argument {quoting : Quoting} {s after : Scanner} {l : Lexeme}
    (h : s.next quoting = (.ok l, after)) : s.next .argument = (.ok l, after) := by
  cases quoting with
  | argument => exact h
  | plain =>
    unfold next readLexeme at h ⊢
    split at h
    · exact h
    · next b tail hs =>
      cases hclass : Byte.classOf b with
      | quotationMark =>
        rw [hclass] at h
        exact readQuote_argument h
      | _ =>
        rw [hclass] at h
        exact h

end Scanner

end Scriptlet
