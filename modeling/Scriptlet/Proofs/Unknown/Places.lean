import Scriptlet.Proofs.Characters.Encoding
import Scriptlet.Proofs.Reach
import Scriptlet.Proofs.Unknown.Evaluation

/-!
What an error for an unknown name tells of the place of the name. The line is that of the mark, and the
excerpt is of what stands in the body from the mark on. Taking the excerpt drops the blanks before the
name, but it drops no line continuation. So the error points at the name if the name is on the line where
reading went on; behind a continued line it points at the backslash instead.
-/

namespace Scriptlet

open Eval
open Text (Bytes lineFeed)

/-! ### Excerpts of bytes -/

namespace Text

theorem isBlank_plainChar {b : UInt8} (plain : b < 0x80) :
    isBlank (plainChar b) = true ↔ (0x09 ≤ b.toNat ∧ b.toNat ≤ 0x0D) ∨ b.toNat = 0x20 := by
  have small : b.toNat < 0x80 := plain
  simp only [isBlank, blankRanges, toNat_plainChar plain, List.any_cons, List.any_nil, Bool.or_false,
    Bool.or_eq_true, Bool.and_eq_true, decide_eq_true_eq]
  omega

theorem ne_newline_of_isBlank {c : Char} (solid : isBlank c = false) : c ≠ '\n' := by
  rintro rfl
  exact absurd solid (by decide)

variable {gap word rest line : List Char}

theorem trimEnd_append (solid : ∀ c ∈ word, isBlank c = false) :
    trimEnd (word ++ rest) = word ++ trimEnd rest := by
  have whole : word.reverse.dropWhile isBlank = word.reverse := by
    cases same : word.reverse with
    | nil => rfl
    | cons c cs =>
      have member : c ∈ word := List.mem_reverse.mp (same ▸ List.mem_cons_self)
      exact List.dropWhile_cons_of_neg (by rw [solid c member]; decide)
  unfold trimEnd
  rw [List.reverse_append, List.dropWhile_append, whole]
  split
  · next empty => simp [List.isEmpty_iff.mp empty]
  · simp

/-- Blanks before a word are left out, and the word is kept. -/
theorem firstLine_append (blank : ∀ c ∈ gap, isBlank c = true) (solid : ∀ c ∈ word, isBlank c = false)
    (some_word : word ≠ []) :
    firstLine (gap ++ (word ++ rest)) = word ++ trimEnd (rest.takeWhile (· ≠ '\n')) := by
  have started : trimStart (gap ++ (word ++ rest)) = word ++ rest := by
    unfold trimStart
    rw [List.dropWhile_append_of_pos blank]
    cases word with
    | nil => exact absurd rfl some_word
    | cons c word => exact List.dropWhile_cons_of_neg (by rw [solid c List.mem_cons_self]; decide)
  have taken : (word ++ rest).takeWhile (· ≠ '\n') = word ++ rest.takeWhile (· ≠ '\n') :=
    List.takeWhile_append_of_pos fun c member => decide_eq_true (ne_newline_of_isBlank (solid c member))
  rw [firstLine, started, taken, trimEnd_append solid]

/-- As much of the start of a line is left as an excerpt can hold. -/
theorem take_prefix_clip (starts : word <+: line) : word.take excerptLimit <+: clip line := by
  unfold clip
  split
  · exact (starts.take excerptLimit).trans (List.prefix_append _ _)
  · exact (List.take_prefix _ _).trans starts

end Text

/-! ### Names and gaps as characters -/

theorem toNat_of_isNameByte {b : UInt8} (h : Byte.isNameByte b = true) :
    0x2E ≤ b.toNat ∧ b.toNat ≤ 0x7A := by
  simp only [Byte.isNameByte, Byte.isLetter, Bool.or_eq_true, Bool.and_eq_true, decide_eq_true_eq,
    beq_iff_eq, UInt8.le_iff_toNat_le, ← UInt8.toNat_inj, UInt8.toNat_ofNat] at h
  omega

theorem toNat_of_isSpace {b : UInt8} (h : Byte.isSpace b = true) :
    b.toNat = 0x20 ∨ b.toNat = 0x09 ∨ b.toNat = 0x0D := by
  simp only [Byte.isSpace, Bool.or_eq_true, beq_iff_eq, ← UInt8.toNat_inj, UInt8.toNat_ofNat] at h
  omega

theorem plain_of_isSpace {b : UInt8} (h : Byte.isSpace b = true) :
    b < 0x80 ∧ Text.isBlank (Text.plainChar b) = true := by
  have code := toNat_of_isSpace h
  have plain : b < 0x80 := UInt8.lt_iff_toNat_lt.mpr (show b.toNat < 0x80 by omega)
  exact ⟨plain, (Text.isBlank_plainChar plain).mpr (by omega)⟩

theorem plain_of_isNameByte {b : UInt8} (h : Byte.isNameByte b = true) :
    b < 0x80 ∧ Text.isBlank (Text.plainChar b) = false := by
  have code := toNat_of_isNameByte h
  have plain : b < 0x80 := UInt8.lt_iff_toNat_lt.mpr (show b.toNat < 0x80 by omega)
  refine ⟨plain, Bool.eq_false_iff.mpr fun blank => ?_⟩
  have codes := (Text.isBlank_plainChar plain).mp blank
  omega

namespace IsGap

variable {gap : Bytes}

/-- Only a line continuation brings a line feed into a gap. -/
theorem spaces (h : IsGap gap) (one : lineFeed ∉ gap) : ∀ b ∈ gap, Byte.isSpace b = true := by
  induction h with
  | nil => intro b member; cases member
  | space isSpace _ ih =>
    rw [List.mem_cons, not_or] at one
    exact List.forall_mem_cons.mpr ⟨isSpace, ih one.2⟩
  | continued => exact absurd (List.mem_cons_of_mem _ List.mem_cons_self) one
  | continuedReturn =>
    exact absurd (List.mem_cons_of_mem _ (List.mem_cons_of_mem _ List.mem_cons_self)) one

/-- Up to the end of its first line there are spaces and the backslash. -/
theorem firstLine (h : IsGap gap) (more : lineFeed ∈ gap) : ∃ spaces ending behind,
    gap = spaces ++ Byte.backslash :: (ending ++ lineFeed :: behind) ∧
      (∀ b ∈ spaces, Byte.isSpace b = true) ∧ (ending = [] ∨ ending = [Byte.carriageReturn]) := by
  induction h with
  | nil => cases more
  | @space b gap isSpace _ ih =>
    have feed : lineFeed ≠ b := by
      rintro rfl
      exact absurd isSpace (by decide)
    obtain ⟨spaces, ending, behind, rfl, blank, ends⟩ := ih ((List.mem_cons.mp more).resolve_left feed)
    exact ⟨b :: spaces, ending, behind, rfl, List.forall_mem_cons.mpr ⟨isSpace, blank⟩, ends⟩
  | @continued gap => exact ⟨[], [], gap, rfl, by simp, .inl rfl⟩
  | @continuedReturn gap => exact ⟨[], [Byte.carriageReturn], gap, rfl, by simp, .inr rfl⟩

end IsGap

variable {gap spelled more : Bytes}

theorem plainChars_of_spaces (spaces : ∀ b ∈ gap, Byte.isSpace b = true) :
    (∀ b ∈ gap, b < 0x80) ∧ ∀ c ∈ gap.map Text.plainChar, Text.isBlank c = true :=
  ⟨fun b member => (plain_of_isSpace (spaces b member)).1,
    List.forall_mem_map.mpr fun b member => (plain_of_isSpace (spaces b member)).2⟩

/-- What starts with a name, be there spaces before it, has an excerpt that starts with the name. -/
theorem excerpt_of_spaces (spaces : ∀ b ∈ gap, Byte.isSpace b = true) (isName : IsName spelled) :
    (Text.decode spelled).toList.take Text.excerptLimit <+:
      (Text.excerpt (Text.decode (gap ++ (spelled ++ more)))).toList := by
  have plain : ∀ b ∈ spelled, b < 0x80 := fun b member =>
    (plain_of_isNameByte (isName.inside b member)).1
  have solid : ∀ c ∈ spelled.map Text.plainChar, Text.isBlank c = false :=
    List.forall_mem_map.mpr fun b member => (plain_of_isNameByte (isName.inside b member)).2
  have some_word : spelled.map Text.plainChar ≠ [] := fun none =>
    isName.ne_nil (List.map_eq_nil_iff.mp none)
  obtain ⟨gapPlain, blank⟩ := plainChars_of_spaces spaces
  have name : Text.decodeFrom none spelled = spelled.map Text.plainChar := by
    have alone := Text.decodeFrom_append plain []
    rwa [List.append_nil, show Text.decodeFrom none [] = [] from rfl, List.append_nil] at alone
  simp only [Text.excerpt, Text.decode, String.toList_ofList]
  rw [name, Text.decodeFrom_append gapPlain, Text.decodeFrom_append plain,
    Text.firstLine_append blank solid some_word]
  exact Text.take_prefix_clip (List.prefix_append _ _)

/-- Before a continued line, all that an excerpt takes is the backslash. -/
theorem excerpt_of_continued (isGap : IsGap gap) (continued : lineFeed ∈ gap) :
    Text.excerpt (Text.decode (gap ++ more)) = "\\" := by
  obtain ⟨spaces, ending, behind, rfl, blank, ends⟩ := isGap.firstLine continued
  obtain ⟨gapPlain, blank⟩ := plainChars_of_spaces blank
  have plain : ∀ b ∈ Byte.backslash :: (ending ++ [lineFeed]), b < 0x80 := by
    have feed : ∀ b ∈ [lineFeed], b < 0x80 := List.forall_mem_singleton.mpr (by decide)
    rcases ends with rfl | rfl
    · exact List.forall_mem_cons.mpr ⟨by decide, feed⟩
    · exact List.forall_mem_cons.mpr ⟨by decide, List.forall_mem_cons.mpr ⟨by decide, feed⟩⟩
  have bytes : spaces ++ Byte.backslash :: (ending ++ lineFeed :: behind) ++ more =
      spaces ++ (Byte.backslash :: (ending ++ [lineFeed]) ++ (behind ++ more)) := by simp
  -- a carriage return before the line feed is blank, so nothing of the rest of the line is left
  have ended : ∀ rest, Text.trimEnd
      (((ending ++ [lineFeed]).map Text.plainChar ++ rest).takeWhile (· ≠ '\n')) = [] := by
    rcases ends with rfl | rfl <;> exact fun _ => rfl
  have line : ∀ rest, Text.firstLine (spaces.map Text.plainChar ++
      (['\\'] ++ ((ending ++ [lineFeed]).map Text.plainChar ++ rest))) = ['\\'] := fun rest => by
    have solid : ∀ c ∈ ['\\'], Text.isBlank c = false := List.forall_mem_singleton.mpr rfl
    rw [Text.firstLine_append blank solid (by simp), ended, List.append_nil]
  simp only [Text.excerpt, Text.decode, String.toList_ofList]
  rw [bytes, Text.decodeFrom_append gapPlain, Text.decodeFrom_append plain]
  exact congrArg (fun line => String.ofList (Text.clip line)) (line _)

/-! ### Where errors are located -/

/-- An error that is located in a text has the line of the mark, and an excerpt from the mark on. -/
theorem Machine.locate_unknownSymbol {n : Machine} {slot : Nat} {bytes : Bytes}
    (source : n.cursor.source = .text slot) (held : n.texts.text? slot = some bytes.toArray)
    (mark : n.cursor.mark ≤ n.cursor.stop) (stop : n.cursor.stop ≤ bytes.length) :
    n.locate .unknownSymbol =
      { kind := .unknownSymbol, line := some (Text.lineNumber bytes n.cursor.mark)
        context := some (Text.excerpt (Text.decode
          ((bytes.drop n.cursor.mark).take (n.cursor.stop - n.cursor.mark)))) } := by
  have store : n.store (.text slot) = bytes.toArray := congrArg (·.getD #[]) held
  have rest : Slice.bytesIn ⟨.text slot, n.cursor.mark, n.cursor.stop - n.cursor.mark⟩ bytes.toArray =
      (bytes.drop n.cursor.mark).take (n.cursor.stop - n.cursor.mark) := by
    have whole : n.cursor.mark + (n.cursor.stop - n.cursor.mark) ≤ bytes.length := by omega
    unfold Slice.bytesIn Slice.stop
    rw [if_pos (by simpa using whole), Array.toList_extract, List.extract_eq_take_drop,
      Nat.add_sub_cancel_left]
  unfold Machine.locate
  simp only [source, store, Nat.min_eq_left mark, rest]
  rfl

/-- An error points at a name that starts somewhere in a text: it has the line of the place, and an excerpt
that starts with the name, or with as much of it as an excerpt can hold. -/
structure Error.PointsAt (error : Error) (text : Bytes) (start : Nat) (spelled : Bytes) : Prop where
  line : error.line = some (Text.lineNumber text start)
  context : ∃ context, error.context = some context ∧
    (Text.decode spelled).toList.take Text.excerptLimit <+: context.toList

/-- Every line feed on the way is another line. -/
theorem Text.lineNumber_append (before gap rest : Bytes) :
    Text.lineNumber (before ++ (gap ++ rest)) (before.length + gap.length) =
      Text.lineNumber (before ++ (gap ++ rest)) before.length + gap.count lineFeed := by
  have whole : (before ++ (gap ++ rest)).take (before.length + gap.length) = before ++ gap := by
    rw [← List.append_assoc, List.take_left' (by simp)]
  have part : (before ++ (gap ++ rest)).take before.length = before := List.take_left' rfl
  unfold Text.lineNumber
  rw [whole, part, List.count_append]
  omega

/-- Spaces between the mark and the name do no harm, a continued line does. -/
theorem Error.pointsAt_iff {before after : Bytes} {error : Error} (isGap : IsGap gap)
    (isName : IsName spelled)
    (line : error.line = some (Text.lineNumber (before ++ (gap ++ (spelled ++ after))) before.length))
    (context : error.context = some (Text.excerpt (Text.decode (gap ++ (spelled ++ more))))) :
    error.PointsAt (before ++ (gap ++ (spelled ++ after))) (before.length + gap.length) spelled ↔
      lineFeed ∉ gap := by
  have lines := Text.lineNumber_append before gap (spelled ++ after)
  constructor
  · intro points continued
    have same := Option.some.inj (points.line.symm.trans line)
    have feeds : 0 < gap.count lineFeed := List.count_pos_iff.mpr continued
    omega
  · intro one
    rw [List.count_eq_zero.mpr one, Nat.add_zero] at lines
    exact ⟨lines ▸ line, _, context, excerpt_of_spaces (isGap.spaces one) isName⟩

/-- Where a name was met in a text, there are a gap and the name in the text, and an error tells the line
where the gap starts and an excerpt from there on. -/
theorem Met.placed {m n : Machine} {bytes : Bytes} {name : Slice} (met : Met (m.opened bytes) name n)
    (source : n.cursor.source = (m.bodyOf bytes).source) (stop : n.cursor.stop ≤ bytes.length) :
    ∃ before gap spelled after more, bytes = before ++ (gap ++ (spelled ++ after)) ∧
      before.length = n.cursor.mark ∧ IsGap gap ∧ IsName spelled ∧
      name = ⟨(m.bodyOf bytes).source, before.length + gap.length, spelled.length⟩ ∧
      n.locate .unknownSymbol =
        { kind := .unknownSymbol, line := some (Text.lineNumber bytes before.length)
          context := some (Text.excerpt (Text.decode (gap ++ (spelled ++ more)))) } := by
  obtain ⟨gap, spelled, place⟩ := met.anchored.named name met.token
  obtain ⟨isGap, isName, nameSource, start, length, read, inside⟩ := place
  have held : n.texts.text? (m.texts.retain bytes.toArray).1 = some bytes.toArray := by
    refine met.stores.texts ?_
    change (m.texts.retain bytes.toArray).2.text? _ = _
    rw [Texts.text?_retain, if_pos rfl]
  have store : n.store n.cursor.source = bytes.toArray := by
    rw [source]
    exact congrArg (·.getD #[]) held
  rw [store] at read
  -- reading does not go past the end of the body, so the excerpt is of the gap and the name as well
  have piece : gap ++ spelled <+: (bytes.drop n.cursor.mark).take (n.cursor.stop - n.cursor.mark) := by
    refine List.prefix_take_iff.mpr ⟨read, ?_⟩
    rw [List.length_append]
    omega
  obtain ⟨after, behind⟩ := read
  obtain ⟨more, rest⟩ := piece
  have before : (bytes.take n.cursor.mark).length = n.cursor.mark := List.length_take_of_le (by omega)
  refine ⟨bytes.take n.cursor.mark, gap, spelled, after, more, ?_, before, isGap, isName, ?_, ?_⟩
  · rw [← List.append_assoc gap, behind]
    exact (List.take_append_drop _ _).symm
  · obtain ⟨_, _, _⟩ := name
    simp only at nameSource start length
    rw [nameSource, start, length, source, before]
  · rw [Machine.locate_unknownSymbol source held (by omega) stop, ← rest, before, List.append_assoc]

/-- What errors tell of unknown names. A text is evaluated that is not copied, and the evaluation fails as
the evaluator, in the text or in a piece of it, reaches a name that stands for nothing. Then the error
points at the name exactly if no line continuation stands between the name and the place where reading
went on, which is behind the lexeme before, or at the start of the body. Otherwise the error tells the line
where reading went on, and of the text there only the backslash. -/
theorem unknown_name_pointed_at {world : World} {fuel : Nat} {text : String} {m m' n : Machine}
    {error : Error} {told trail : List Event} {name : Slice}
    (failed : evalText world fuel text false true m = .failed error m')
    (reached : (Traced.text (.ofFuel world fuel) text false true).events m =
      told ++ ⟨.unresolved name, n⟩ :: trail) (passed : PassedOn error trail)
    (source : n.cursor.source = (m.bodyOf (Text.encode text)).source)
    (stop : n.cursor.stop ≤ (Text.encode text).length) :
    error.kind = .unknownSymbol ∧ ∃ before gap spelled after,
      Text.encode text = before ++ (gap ++ (spelled ++ after)) ∧ before.length = n.cursor.mark ∧
      IsGap gap ∧ IsName spelled ∧
      name = ⟨(m.bodyOf (Text.encode text)).source, before.length + gap.length, spelled.length⟩ ∧
      (error.PointsAt (Text.encode text) name.start spelled ↔ lineFeed ∉ gap) ∧
      (lineFeed ∈ gap → error.line = some (Text.lineNumber (Text.encode text) before.length) ∧
        Text.lineNumber (Text.encode text) before.length + gap.count lineFeed =
          Text.lineNumber (Text.encode text) name.start ∧
        error.context = some "\\") := by
  obtain ⟨rfl, met⟩ := blamed failed reached passed
  obtain ⟨before, gap, spelled, after, more, whole, mark, isGap, isName, rfl, located⟩ :=
    met.placed source stop
  rw [located]
  refine ⟨rfl, before, gap, spelled, after, whole, mark, isGap, isName, rfl, ?_,
    fun continued => ⟨rfl, ?_, ?_⟩⟩
  · rw [whole]
    exact Error.pointsAt_iff isGap isName rfl rfl
  · rw [whole]
    exact (Text.lineNumber_append before gap (spelled ++ after)).symm
  · exact congrArg some (excerpt_of_continued isGap continued)

/-! ### Names in two texts -/

/-- The error of an evaluation whose account ends with a name, with the name and where it was read. -/
def Outcome.unknown? {α : Type} (o : Outcome α) (events : List Event) : Option (Error × Slice × Cursor) :=
  match o, events.getLast? with
  | .failed error _, some ⟨.unresolved name, n⟩ => some (error, name, n.cursor)
  | _, _ => none

theorem Outcome.unknown?_eq_some {α : Type} {o : Outcome α} {events : List Event}
    {found : Error × Slice × Cursor} (h : o.unknown? events = some found) :
    ∃ m told n, o = .failed found.1 m ∧ events = told ++ [⟨.unresolved found.2.1, n⟩] ∧
      n.cursor = found.2.2 := by
  unfold Outcome.unknown? at h
  split at h
  · next error m name n last =>
    cases h
    obtain ⟨told, rfl⟩ := List.getLast?_eq_some_iff.mp last
    exact ⟨m, told, n, rfl, rfl, rfl⟩
  · cases h

theorem take_drop_of_append {text before gap rest : Bytes} (h : text = before ++ (gap ++ rest)) {i k : Nat}
    (start : before.length = i) (length : gap.length = k) : gap = (text.drop i).take k := by
  rw [h, List.drop_left' start, List.take_left' length]

def callingText : String := "func f(n) \x7b\n  return n + \t gone\n\x7d\nprint 1 + f(2)"

/-- A name that stands for nothing is reached on line two of the text, in a function that is called on line
four. The error points at it. -/
theorem unknown_name_pointed_at_of_callingText :
    ∃ start error m' told name n, Machine.new {} = .ok start ∧
      evalText (fun _ _ => none) 20 callingText false true start = .failed error m' ∧
      (Traced.text (.ofFuel (fun _ _ => none) 20) callingText false true).events start =
        told ++ ⟨.unresolved name, n⟩ :: [] ∧ PassedOn error [] ∧
      n.cursor.source = (start.bodyOf (Text.encode callingText)).source ∧
      n.cursor.stop ≤ (Text.encode callingText).length ∧
      Text.lineNumber (Text.encode callingText) name.start = 2 ∧
      error.PointsAt (Text.encode callingText) name.start (Text.encode "gone") := by
  have ran : ((Machine.new {}).toOption.map fun start =>
      ((evalText (fun _ _ => none) 20 callingText false true start).unknown?
        ((Traced.text (.ofFuel (fun _ _ => none) 20) callingText false true).events start)).map
          fun found => decide (found.2.1 = ⟨(start.bodyOf (Text.encode callingText)).source, 27, 4⟩ ∧
            found.2.2.source = (start.bodyOf (Text.encode callingText)).source ∧ found.2.2.mark = 24 ∧
            found.2.2.stop = 32)) = some (some true) := by
    decide +kernel
  obtain ⟨start, made, computed⟩ := Machine.exists_new ran
  obtain ⟨⟨error, name, cursor⟩, found, places⟩ := Option.map_eq_some_iff.mp computed
  obtain ⟨isName, source, mark, stop⟩ := of_decide_eq_true places
  obtain ⟨m', told, n, failed, reached, rfl⟩ := Outcome.unknown?_eq_some found
  dsimp only at isName source mark stop failed reached
  subst isName
  have passed : PassedOn error [] := fun e member => by cases member
  have inside : n.cursor.stop ≤ (Text.encode callingText).length := by
    rw [stop]
    decide
  obtain ⟨-, before, gap, spelled, after, whole, start_gap, -, -, place, points, -⟩ :=
    unknown_name_pointed_at failed reached passed source inside
  obtain ⟨-, begins, length⟩ := Slice.mk.inj place
  have isGap : gap = _ := take_drop_of_append whole (start_gap.trans mark) (k := 3) (by omega)
  have behind : Text.encode callingText = (before ++ gap) ++ (spelled ++ after) := by simpa using whole
  have isGone : spelled = _ := take_drop_of_append behind (i := 27) (by simpa using begins.symm) length.symm
  subst isGap isGone
  have line : Text.lineNumber (Text.encode callingText) 27 = 2 := by decide
  exact ⟨start, error, m', told, _, n, made, failed, reached, passed, source, inside, line,
    points.mpr (by decide)⟩

def continuingText : String := "print \\\nfoo"

/-- The name is on line two, and the error tells line one and the backslash there. -/
theorem unknown_name_missed_of_continuingText :
    ∃ start error m' told name n, Machine.new {} = .ok start ∧
      evalText (fun _ _ => none) 20 continuingText false true start = .failed error m' ∧
      (Traced.text (.ofFuel (fun _ _ => none) 20) continuingText false true).events start =
        told ++ ⟨.unresolved name, n⟩ :: [] ∧ PassedOn error [] ∧
      n.cursor.source = (start.bodyOf (Text.encode continuingText)).source ∧
      n.cursor.stop ≤ (Text.encode continuingText).length ∧
      name = ⟨n.cursor.source, (Text.encode "print \\\n").length, (Text.encode "foo").length⟩ ∧
      Text.lineNumber (Text.encode continuingText) name.start = 2 ∧
      error.line = some 1 ∧ error.context = some "\\" ∧
      ¬error.PointsAt (Text.encode continuingText) name.start (Text.encode "foo") := by
  have ran : ((Machine.new {}).toOption.map fun start =>
      ((evalText (fun _ _ => none) 20 continuingText false true start).unknown?
        ((Traced.text (.ofFuel (fun _ _ => none) 20) continuingText false true).events start)).map
          fun found => decide (found.2.1 = ⟨(start.bodyOf (Text.encode continuingText)).source, 8, 3⟩ ∧
            found.2.2.source = (start.bodyOf (Text.encode continuingText)).source ∧ found.2.2.stop = 11 ∧
            found.1.line = some 1 ∧ found.1.context = some "\\")) = some (some true) := by
    decide +kernel
  obtain ⟨start, made, computed⟩ := Machine.exists_new ran
  obtain ⟨⟨error, name, cursor⟩, found, places⟩ := Option.map_eq_some_iff.mp computed
  obtain ⟨isName, source, stop, line, context⟩ := of_decide_eq_true places
  obtain ⟨m', told, n, failed, reached, rfl⟩ := Outcome.unknown?_eq_some found
  dsimp only at isName source stop line context failed reached
  subst isName
  have inside : n.cursor.stop ≤ (Text.encode continuingText).length := by
    rw [stop]
    decide
  have passed : PassedOn error [] := fun e member => by cases member
  have second : Text.lineNumber (Text.encode continuingText) 8 = 2 := by decide
  refine ⟨start, error, m', told, _, n, made, failed, reached, passed, source, inside, ?_, second, line,
    context, fun points => ?_⟩
  · rw [source]
    rfl
  · have same := points.line.symm.trans line
    rw [second] at same
    cases same

end Scriptlet
