import Scriptlet.Proofs.Characters.Encoding
import Scriptlet.Proofs.Lexical.Windows

/-!
Where reading cuts a text. All that the language gives a meaning is written in bytes below 0x80, and in
UTF-8 such a byte is a character of its own. So wherever reading comes to stand, the byte behind it or the
one before it is such a byte, or there is none: the cut is between two characters (`IsText.cut`).

A body is a window on the bytes of the text that it stands in, and what is read in it has its places in that
text. The text may be long, and it may consist of many pieces that were copied one after the other. As long as
the window starts and ends between two characters, all that is read in it does, and a body in it is such a
window again (`BodyIn.framed`).
-/

namespace Scriptlet

open Text (Bytes encode lineFeed IsText isText_encode isText_nil isText_of_plain)

namespace Text

/-- A position between two characters of a text. -/
def IsBoundary (bytes : Bytes) (position : Nat) : Prop :=
  ∃ before after, bytes = encode before ++ encode after ∧ (encode before).length = position

theorem isBoundary_append {xs ys : Bytes} (hx : IsText xs) (hy : IsText ys) :
    IsBoundary (xs ++ ys) xs.length := by
  obtain ⟨before, rfl⟩ := hx
  obtain ⟨after, rfl⟩ := hy
  exact ⟨before, after, rfl, rfl⟩

/-- The bytes are part of a text, and may start and end inside of a character. -/
def IsPiece (bytes : Bytes) : Prop := ∃ front back, IsText (front ++ (bytes ++ back))

theorem IsPiece.drop {bytes : Bytes} (h : IsPiece bytes) (n : Nat) : IsPiece (bytes.drop n) := by
  obtain ⟨front, back, text⟩ := h
  refine ⟨front ++ bytes.take n, back, ?_⟩
  rwa [List.append_assoc, ← List.append_assoc (bytes.take n), List.take_append_drop]

/-- What stands in it between two bytes below 0x80 is a text. -/
theorem IsPiece.between {before inside behind : Bytes} {b c : UInt8}
    (h : IsPiece (before ++ b :: (inside ++ c :: behind))) (plain : b < 0x80) (plain' : c < 0x80) :
    IsText inside := by
  obtain ⟨front, back, text⟩ := h
  have opened : IsText ((front ++ before) ++ b :: (inside ++ c :: (behind ++ back))) := by simpa using text
  exact ((opened.apart plain).2.apart plain').1

/-- Some bytes and those behind them meet at a byte below 0x80, or there are none on one side. -/
inductive Parted : Bytes → Bytes → Prop where
  | start (ys : Bytes) : Parted [] ys
  | stop (xs : Bytes) : Parted xs []
  | behind {b : UInt8} (xs ys : Bytes) (plain : b < 0x80) : Parted (xs ++ [b]) ys
  | before {b : UInt8} (xs ys : Bytes) (plain : b < 0x80) : Parted xs (b :: ys)

theorem IsText.cut {xs ys : Bytes} (h : IsText (xs ++ ys)) (parted : Parted xs ys) :
    IsText xs ∧ IsText ys := by
  have single : ∀ {b : UInt8}, b < 0x80 → IsText [b] := fun plain =>
    isText_of_plain fun _ hb => List.mem_singleton.mp hb ▸ plain
  cases parted with
  | start => exact ⟨isText_nil, h⟩
  | stop => exact ⟨List.append_nil xs ▸ h, isText_nil⟩
  | behind xs ys plain =>
    rw [List.append_assoc] at h
    obtain ⟨front, back⟩ := h.apart plain
    exact ⟨front.append (single plain), back⟩
  | before xs ys plain =>
    obtain ⟨front, back⟩ := h.apart plain
    exact ⟨front, (single plain).append back⟩

theorem parted_of_plain {run : Bytes} (plain : ∀ b ∈ run, b < 0x80) (rest : Bytes) : Parted run rest := by
  obtain rfl | ⟨front, last, rfl⟩ := List.eq_nil_or_concat run
  · exact .start rest
  · rw [List.concat_eq_append] at plain ⊢
    exact .behind front rest (plain last (by simp))

/-- More bytes in front make no difference, unless there was none. -/
theorem Parted.append {xs ys : Bytes} (front : Bytes) (alone : xs = [] → Parted front ys)
    (h : Parted xs ys) : Parted (front ++ xs) ys := by
  cases h with
  | start ys =>
    rw [List.append_nil]
    exact alone rfl
  | stop xs => exact .stop _
  | behind xs ys plain => exact List.append_assoc front xs _ ▸ .behind (front ++ xs) ys plain
  | before xs ys plain => exact .before _ ys plain

end Text

open Text (IsBoundary IsPiece isBoundary_append Parted parted_of_plain)

/-! ### What is read -/

namespace Lexical

variable {quoting : Quoting} {pos : Nat} {run spelled rest : Bytes} {l : Lexeme}

theorem plain_of_isSpace {b : UInt8} (h : Byte.isSpace b = true) : b < 0x80 := by
  grind [Byte.isSpace]

theorem plain_of_isNameByte {b : UInt8} (h : Byte.isNameByte b = true) : b < 0x80 := by
  grind [Byte.isNameByte, Byte.isLetter]

theorem plain_of_name {b : UInt8} {run : Bytes} (lead : Byte.isLetter b = true)
    (inside : ∀ c ∈ run, Byte.isNameByte c = true) : ∀ c ∈ b :: run, c < 0x80 :=
  List.forall_mem_cons.mpr ⟨plain_of_isNameByte (by simp [Byte.isNameByte, lead]),
    fun c hc => plain_of_isNameByte (inside c hc)⟩

theorem plain_of_isOperatorByte {b : UInt8} (h : Byte.isOperatorByte b = true) : b < 0x80 := by
  grind [Byte.isOperatorByte]

theorem plain_of_isHexDigit {b : UInt8} (h : Byte.isHexDigit b = true) : b < 0x80 := by
  grind [Byte.isHexDigit, Byte.isDigit]

/-- A comment may end with any character, but then a line feed comes behind it, or nothing. -/
theorem Blank.parted (h : Blank rest run) : Parted run rest := by
  have onward : ∀ {run : Bytes} (front : Bytes) {b : UInt8}, b < 0x80 → Parted run rest →
      Parted (front ++ b :: run) rest := by
    intro run front b plain more
    rw [List.append_cons]
    exact more.append _ fun _ => .behind front rest plain
  induction h with
  | nil => exact .start rest
  | space isSpace _ ih => exact onward [] (plain_of_isSpace isSpace) ih
  | continued _ ih => exact onward [Byte.backslash] (by decide) ih
  | continuedReturn _ ih => exact onward [Byte.backslash, Byte.carriageReturn] (by decide) ih
  | @comment words run _ ends _ ih =>
    refine ih.append (Byte.hash :: words) ?_
    rintro rfl
    cases rest with
    | nil => exact .stop _
    | cons b rest =>
      have isFeed : b = lineFeed := by simpa using ends b rfl
      exact .before _ rest (isFeed ▸ by decide)

/-- The piece of text that a lexeme points out, in its spelling: all of it, in bytes below 0x80, or what
stands between two such bytes. -/
theorem Spells.around (h : Spells quoting pos spelled rest l) {place : Span} (hplace : l.place? = some place) :
    place = ⟨pos, pos + spelled.length⟩ ∧ (∀ b ∈ spelled, b < 0x80) ∨
      ∃ b inside c, spelled = b :: (inside ++ [c]) ∧ place = ⟨pos + 1, pos + 1 + inside.length⟩ ∧
        b < 0x80 ∧ c < 0x80 := by
  cases h with
  | newline | semicolon | comma | openParen | closeParen | hexadecimal | decimal => cases hplace
  | name lead inside longest =>
    cases hplace
    exact .inl ⟨rfl, plain_of_name lead inside⟩
  | operator nonempty inside longest =>
    cases hplace
    exact .inl ⟨rfl, fun c hc => plain_of_isOperatorByte (inside c hc)⟩
  | block isBlock =>
    obtain ⟨inside, rfl⟩ := isBlock.exists_concat
    cases hplace
    refine .inr ⟨_, inside, _, rfl, ?_, by decide, by decide⟩
    simp only [List.length_cons, List.length_append, List.length_nil, Span.mk.injEq, true_and]
    omega
  | @quote inside =>
    cases hplace
    exact .inr ⟨_, inside, _, rfl, rfl, by decide, by decide⟩

/-- The last byte of a lexeme is below 0x80. -/
theorem Spells.parted (h : Spells quoting pos spelled rest l) : Parted spelled rest := by
  cases h with
  | newline | semicolon | comma | openParen | closeParen => exact .behind [] rest (by decide)
  | name lead inside longest =>
    exact parted_of_plain (plain_of_name lead inside) rest
  | operator nonempty inside longest =>
    exact parted_of_plain (fun c hc => plain_of_isOperatorByte (inside c hc)) rest
  | hexadecimal isMark nonempty inside longest =>
    exact .append [_, _] (fun none => absurd none nonempty)
      (parted_of_plain (fun c hc => plain_of_isHexDigit (inside c hc)) rest)
  | decimal nonempty inside longest plain =>
    refine parted_of_plain (fun c hc => plain_of_isHexDigit ?_) rest
    simp [Byte.isHexDigit, inside c hc]
  | block isBlock =>
    obtain ⟨inside, rfl⟩ := isBlock.exists_concat
    exact .behind (Byte.openBrace :: inside) rest (by decide)
  | @quote inside => exact .behind (Byte.quotationMark :: inside) rest (by decide)

end Lexical

namespace Scanner

open Lexical (exists_longestBlank spells_of_readLexeme)

variable {s t u : Scanner}

/-- From one scanner to the other, characters are passed as a whole, and what is left is a text. -/
def Passes (s t : Scanner) : Prop :=
  ∃ run, s.rest = run ++ t.rest ∧ t.pos = s.pos + run.length ∧ IsText run ∧ IsText t.rest

theorem Passes.isText (h : s.Passes t) : IsText t.rest := by
  obtain ⟨-, -, -, -, left⟩ := h
  exact left

theorem Passes.refl (h : IsText s.rest) : s.Passes s := ⟨[], rfl, rfl, isText_nil, h⟩

theorem Passes.trans (h : s.Passes t) (k : t.Passes u) : s.Passes u := by
  obtain ⟨run, bytes, pos, text, -⟩ := h
  obtain ⟨run', bytes', pos', text', left⟩ := k
  refine ⟨run ++ run', ?_, ?_, text.append text', left⟩
  · rw [bytes, bytes', List.append_assoc]
  · rw [pos', pos, List.length_append, Nat.add_assoc]

theorem Passes.of_parted {run : Bytes} (h : IsText s.rest) (bytes : s.rest = run ++ t.rest)
    (pos : t.pos = s.pos + run.length) (parted : Parted run t.rest) : s.Passes t :=
  ⟨run, bytes, pos, (bytes ▸ h).cut parted⟩

theorem passes_skipBlank (h : IsText s.rest) : s.Passes s.skipBlank := by
  obtain ⟨run, bytes, pos, longest⟩ := exists_longestBlank s
  exact .of_parted h bytes pos longest.blank.parted

/-- A quotation that is not closed is read up to a line feed, or to the end. -/
theorem rest_of_unclosedQuote {quoting : Quoting} {c : Complaint} {after : Scanner}
    (h : s.readQuote quoting = (.error c, after)) :
    after.rest = [] ∨ ∃ more, after.rest = lineFeed :: more := by
  unfold readQuote at h
  dsimp only at h
  split at h
  · next b more behind =>
    split at h
    · cases h
    · next other =>
      cases h
      have parts := List.takeWhile_append_dropWhile (p := isQuotable quoting) (l := s.rest.drop 1)
      have left : (s.rest.drop 1).dropWhile (isQuotable quoting) = b :: more := by
        rw [← behind]
        exact (congrArg (List.drop _) parts ▸ List.drop_left).symm
      have refused : isQuotable quoting b = false :=
        Lexical.stops_dropWhile (isQuotable quoting) (s.rest.drop 1) b (by rw [left]; rfl)
      have isFeed : b = lineFeed := by
        simp only [isQuotable, Bool.and_eq_false_iff, bne_eq_false_iff_eq, Bool.or_eq_false_iff] at refused
        exact (refused.resolve_left fun mark => other (beq_iff_eq.mpr mark)).2
      exact .inr ⟨more, behind.trans (congrArg (· :: more) isFeed)⟩
  · next behind =>
    cases h
    exact .inl behind

/-- Where there is a complaint, reading stays, or comes to a line feed or to the end. -/
theorem rest_of_complaint {quoting : Quoting} {c : Complaint} {after : Scanner}
    (h : s.readLexeme quoting = (.error c, after)) :
    after = s ∨ after.rest = [] ∨ ∃ more, after.rest = lineFeed :: more := by
  unfold readLexeme at h
  split at h
  · cases h
  · split at h
    iterate 5
      · cases h
    · unfold readBlock at h
      split at h
      · cases h
      · cases h
        exact .inr (.inl List.drop_length)
    · exact .inr (rest_of_unclosedQuote h)
    iterate 3
      · cases h
    · cases h
      exact .inl rfl

/-- Reading a lexeme comes to a cut, also where it comes to a complaint. -/
theorem parted_readLexeme {quoting : Quoting} {run : Bytes}
    (bytes : s.rest = run ++ (s.readLexeme quoting).2.rest) : Parted run (s.readLexeme quoting).2.rest := by
  have stay : s.rest = run ++ s.rest → run = [] := fun h => List.self_eq_append_left.mp h
  cases read : s.readLexeme quoting with
  | mk result after =>
    rw [read] at bytes
    change s.rest = run ++ after.rest at bytes
    change Parted run after.rest
    cases result with
    | ok l =>
      by_cases ends : l = .eof
      · rw [rest_of_readLexeme_eof (ends ▸ read)] at bytes
        obtain ⟨rfl, -⟩ := List.append_eq_nil_iff.mp bytes.symm
        exact .start _
      · obtain ⟨spelled, bytes', -, spells⟩ := spells_of_readLexeme read ends
        obtain rfl := List.append_cancel_right (bytes.symm.trans bytes')
        exact spells.parted
    | error c =>
      rcases rest_of_complaint read with rfl | ends | ⟨more, feed⟩
      · rw [stay bytes]
        exact .start _
      · rw [ends]
        exact .stop _
      · rw [feed]
        exact .before _ _ (by decide)

/-- Reading on passes whole characters. -/
theorem passes_next (h : IsText s.rest) (quoting : Quoting) : s.Passes (s.next quoting).2 := by
  refine (passes_skipBlank h).trans ?_
  obtain ⟨n, fits, reached⟩ := further_snd_readLexeme quoting s.skipBlank
  have bytes : s.skipBlank.rest = s.skipBlank.rest.take n ++ (s.skipBlank.readLexeme quoting).2.rest := by
    rw [reached]
    exact (List.take_append_drop n _).symm
  refine .of_parted (passes_skipBlank h).isText bytes ?_ (parted_readLexeme bytes)
  change (s.skipBlank.readLexeme quoting).2.pos = _
  rw [reached, List.length_take_of_le fits]
  rfl

theorem passes_readOn (h : IsText s.rest) (modes : List Quoting) : s.Passes (s.readOn modes) := by
  induction modes generalizing s with
  | nil => exact .refl h
  | cons quoting more ih => exact (passes_next h quoting).trans (ih (passes_next h quoting).isText)

/-- The piece of text that a lexeme points out starts and ends at a cut. -/
theorem passes_place {quoting : Quoting} {l : Lexeme} {after : Scanner} {place : Span} (h : IsText s.rest)
    (read : s.next quoting = (.ok l, after)) (hplace : l.place? = some place) :
    ∃ first last, s.Passes first ∧ first.Passes last ∧ first.pos = place.start ∧ last.pos = place.stop := by
  have ends : l ≠ .eof := by
    rintro rfl
    cases hplace
  have blank := passes_skipBlank h
  obtain ⟨spelled, bytes, pos, spells⟩ := spells_of_readLexeme read ends
  rcases spells.around hplace with ⟨rfl, plain⟩ | ⟨b, inside, c, rfl, rfl, plain, plain'⟩
  · exact ⟨s.skipBlank, after, blank, .of_parted blank.isText bytes pos (parted_of_plain plain _), rfl, pos⟩
  · have first : s.skipBlank.Passes ⟨s.skipBlank.pos + 1, inside ++ c :: after.rest⟩ :=
      .of_parted blank.isText (bytes.trans (by simp)) rfl (.behind [] _ plain)
    exact ⟨_, ⟨_, c :: after.rest⟩, blank.trans first, .of_parted first.isText rfl rfl (.before _ _ plain'),
      rfl, rfl⟩

/-! ### Bodies -/

/-- What a scanner has left stands in some bytes where it is, with a text before it and one behind it. -/
def StandsIn (s : Scanner) (bytes : Bytes) : Prop :=
  ∃ front back, bytes = front ++ (s.rest ++ back) ∧ front.length = s.pos ∧ IsText front ∧ IsText s.rest ∧
    IsText back

theorem StandsIn.isText {bytes : Bytes} (h : s.StandsIn bytes) : IsText s.rest := by
  obtain ⟨-, -, -, -, -, left, -⟩ := h
  exact left

theorem StandsIn.passes {bytes : Bytes} (h : s.StandsIn bytes) (k : s.Passes t) : t.StandsIn bytes := by
  obtain ⟨front, back, rfl, pos, before, -, behind⟩ := h
  obtain ⟨run, rest, pos', text, left⟩ := k
  refine ⟨front ++ run, back, ?_, ?_, before.append text, left, behind⟩
  · rw [rest, List.append_assoc, List.append_assoc]
  · rw [List.length_append, pos, pos']

theorem StandsIn.isBoundary {bytes : Bytes} (h : s.StandsIn bytes) : IsBoundary bytes s.pos := by
  obtain ⟨front, back, rfl, pos, before, left, behind⟩ := h
  exact pos ▸ isBoundary_append before (left.append behind)

end Scanner

/-- The window from `start` to `stop` on a store holds a script, or a body of one: the inside of a block or of
a quotation, however deep, and whether it is where the script is or was copied behind other texts. -/
inductive BodyIn : (store : Array UInt8) → (start stop : Nat) → Prop where
  | script (text : String) : BodyIn (encode text).toArray 0 (encode text).length
  | nested {store : Array UInt8} {start stop : Nat} (outer : BodyIn store start stop) (modes : List Quoting)
    (quoting : Quoting) {l : Lexeme} {after : Scanner} {inside : Span}
    (read : ((Scanner.ofWindow store start stop).readOn modes).next quoting = (.ok l, after))
    (body : l = .block inside ∨ l = .quote inside) : BodyIn store inside.start inside.stop
  | copied {store : Array UInt8} {start stop : Nat} (original : BodyIn store start stop)
    (before behind : String) :
    BodyIn ((encode before).toArray ++ store.extract start stop ++ (encode behind).toArray)
      (encode before).length ((encode before).length + (stop - start))

/-- What a window shows is a text, with a text before it and one behind it. -/
def Framed (store : Array UInt8) (start stop : Nat) : Prop :=
  ∃ front body back, store.toList = front ++ (body ++ back) ∧ front.length = start ∧
    stop = start + body.length ∧ IsText front ∧ IsText body ∧ IsText back

theorem Framed.standsIn {store : Array UInt8} {start stop : Nat} (h : Framed store start stop) :
    (Scanner.ofWindow store start stop).StandsIn store.toList := by
  obtain ⟨front, body, back, bytes, rfl, rfl, before, inside, behind⟩ := h
  have window : Lexical.window store front.length (front.length + body.length) = body := by
    rw [Lexical.window, bytes, ← List.append_assoc, ← List.length_append, List.take_left, List.drop_left]
  have start : Lexical.windowStart store front.length (front.length + body.length) = front.length := by
    have size := congrArg List.length bytes
    simp only [Array.length_toList, List.length_append] at size
    rw [Lexical.windowStart]
    omega
  rw [Lexical.ofWindow_eq, window, start]
  exact ⟨front, back, bytes, rfl, before, inside, behind⟩

theorem Scanner.StandsIn.framed {store : Array UInt8} {first last : Scanner}
    (h : first.StandsIn store.toList) (k : first.Passes last) : Framed store first.pos last.pos := by
  obtain ⟨front, back, bytes, pos, before, -, behind⟩ := h
  obtain ⟨run, rest, pos', text, left⟩ := k
  refine ⟨front, run, last.rest ++ back, ?_, pos, pos', before, text, left.append behind⟩
  rw [bytes, rest, List.append_assoc]

theorem Framed.readOn {store : Array UInt8} {start stop : Nat} (h : Framed store start stop)
    (modes : List Quoting) :
    ((Scanner.ofWindow store start stop).readOn modes).StandsIn store.toList :=
  h.standsIn.passes (Scanner.passes_readOn h.standsIn.isText modes)

/-- The piece that a lexeme of a framed window points out is framed. -/
theorem Framed.place {store : Array UInt8} {start stop : Nat} (h : Framed store start stop)
    {modes : List Quoting} {quoting : Quoting} {l : Lexeme} {after : Scanner} {place : Span}
    (read : ((Scanner.ofWindow store start stop).readOn modes).next quoting = (.ok l, after))
    (hplace : l.place? = some place) : Framed store place.start place.stop := by
  have stands := h.readOn modes
  obtain ⟨first, last, toFirst, toLast, start, stop⟩ := Scanner.passes_place stands.isText read hplace
  rw [← start, ← stop]
  exact (stands.passes toFirst).framed toLast

theorem framed_script (text : String) : Framed (encode text).toArray 0 (encode text).length :=
  ⟨[], encode text, [], by simp, rfl, (Nat.zero_add _).symm, isText_nil, isText_encode text, isText_nil⟩

theorem Framed.copied {store : Array UInt8} {start stop : Nat} (h : Framed store start stop)
    (before behind : String) :
    Framed ((encode before).toArray ++ store.extract start stop ++ (encode behind).toArray)
      (encode before).length ((encode before).length + (stop - start)) := by
  obtain ⟨front, body, back, bytes, rfl, rfl, -, inside, -⟩ := h
  have copy : (store.extract front.length (front.length + body.length)).toList = body := by
    rw [Array.toList_extract, List.extract_eq_take_drop, bytes, List.drop_left, Nat.add_sub_cancel_left,
      List.take_left]
  refine ⟨encode before, body, encode behind, ?_, rfl, ?_, isText_encode before, inside, isText_encode behind⟩
  · rw [Array.toList_append, Array.toList_append, copy, List.append_assoc]
  · rw [Nat.add_sub_cancel_left]

/-- A body starts and ends between two characters, wherever it is. -/
theorem BodyIn.framed {store : Array UInt8} {start stop : Nat} (h : BodyIn store start stop) :
    Framed store start stop := by
  induction h with
  | script text => exact framed_script text
  | nested _ modes quoting read body ih =>
    refine ih.place read ?_
    rcases body with rfl | rfl <;> rfl
  | copied _ before behind ih => exact ih.copied before behind

/-- Wherever reading comes to in a body is between two characters, and so are the ends of the piece that a
lexeme points out. -/
theorem BodyIn.isBoundary {store : Array UInt8} {start stop : Nat} (h : BodyIn store start stop)
    (modes : List Quoting) (quoting : Quoting) :
    IsBoundary store.toList (((Scanner.ofWindow store start stop).readOn modes).next quoting).2.pos ∧
    ∀ l after place, ((Scanner.ofWindow store start stop).readOn modes).next quoting = (.ok l, after) →
      l.place? = some place → IsBoundary store.toList place.start ∧ IsBoundary store.toList place.stop := by
  have stands := h.framed.readOn modes
  refine ⟨(stands.passes (Scanner.passes_next stands.isText quoting)).isBoundary,
    fun l after place read hplace => ?_⟩
  obtain ⟨first, last, toFirst, toLast, start, stop⟩ := Scanner.passes_place stands.isText read hplace
  have atFirst := stands.passes toFirst
  exact ⟨start ▸ atFirst.isBoundary, stop ▸ (atFirst.passes toLast).isBoundary⟩

end Scriptlet
