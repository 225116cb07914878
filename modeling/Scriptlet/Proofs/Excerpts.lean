import Mathlib.Data.List.DropRight
import Scriptlet.Error

/-!
What errors quote. An excerpt is taken from what was about to be read, and it is shown in the middle of a
line of its own. So whatever the text is, it is one line, it is short, and no blank is in front of it.

An excerpt is made in two steps. The first line of the text that has more than blanks in it is found and
trimmed (`firstLine_eq`); the search drops blanks of all kinds, line endings among them, and never looks at
lines, so this is proved by induction on the lines. Then the line is clipped. A clipped line is longer than
the limit again, by the dots. What makes it a fixed point is that clipping it once more cuts off just these
dots and puts them back (`clip_clip`).
-/

namespace Scriptlet.Text

/-! ### Lines -/

/-- The lines of a text. A line ends with a line feed, or with a carriage return and a line feed; what is
behind the last ending is a line too. -/
def lines : List Char → List (List Char)
  | [] => [[]]
  | '\n' :: rest => [] :: lines rest
  | '\r' :: '\n' :: rest => [] :: lines rest
  | c :: rest => (lines rest).modifyHead (c :: ·)

def isFilled (line : List Char) : Bool := line.any (!isBlank ·)

/-- The first line of a text in which there is more than blanks, trimmed. It is empty if there is none. -/
def firstFilledLine (s : List Char) : List Char := trim (((lines s).find? isFilled).getD [])

theorem lines_cons {c : Char} {rest : List Char} (noFeed : c ≠ '\n')
    (noEnding : c = '\r' → rest.head? ≠ some '\n') :
    lines (c :: rest) = (lines rest).modifyHead (c :: ·) := by
  refine lines.eq_4 c rest noFeed ?_
  rintro more rfl rfl
  exact noEnding rfl rfl

variable {line rest s : List Char}

theorem lines_of_oneLine (oneLine : '\n' ∉ line) : lines line = [line] := by
  induction line with
  | nil => rfl
  | cons c line ih =>
    rw [List.mem_cons, not_or] at oneLine
    rw [lines_cons (Ne.symm oneLine.1) fun _ feed => oneLine.2 (List.mem_of_mem_head? feed), ih oneLine.2]
    rfl

/-- What stands before a line feed is the first line, but for a carriage return at its end. -/
theorem lines_append (oneLine : '\n' ∉ line) (rest : List Char) :
    ∃ first, (line = first ∨ line = first ++ ['\r']) ∧ lines (line ++ '\n' :: rest) = first :: lines rest := by
  induction line with
  | nil => exact ⟨[], .inl rfl, rfl⟩
  | cons c line ih =>
    rw [List.mem_cons, not_or] at oneLine
    by_cases ending : c = '\r' ∧ line = []
    · obtain ⟨rfl, rfl⟩ := ending
      exact ⟨[], .inr rfl, rfl⟩
    · obtain ⟨first, same, split⟩ := ih oneLine.2
      refine ⟨c :: first, ?_, ?_⟩
      · rcases same with rfl | rfl
        · exact .inl rfl
        · exact .inr rfl
      · rw [List.cons_append, lines_cons (Ne.symm oneLine.1), split]
        · rfl
        · rintro rfl feed
          cases line with
          | nil => exact ending ⟨rfl, rfl⟩
          | cons d line => exact oneLine.2 (Option.some.inj feed ▸ List.mem_cons_self)

/-! ### Trimming -/

theorem blank_of_isFilled (empty : isFilled line = false) : ∀ c ∈ line, isBlank c = true := by
  simpa [isFilled] using empty

theorem trimStart_append_of_blank (blank : ∀ c ∈ line, isBlank c = true) (rest : List Char) :
    trimStart (line ++ rest) = trimStart rest := List.dropWhile_append_of_pos blank

theorem trim_of_blank (blank : ∀ c ∈ line, isBlank c = true) : trim line = [] := by
  have started := trimStart_append_of_blank blank []
  rw [List.append_nil] at started
  rw [trim, started]
  rfl

/-- In a line that is filled, trimming from the front does not come to the end. -/
theorem trimStart_append_of_filled (filled : isFilled line = true) (rest : List Char) :
    trimStart (line ++ rest) = trimStart line ++ rest := by
  have left : (line.dropWhile isBlank).isEmpty = false := by
    refine Bool.eq_false_iff.mpr fun none => ?_
    have blank := List.dropWhile_eq_nil_iff.mp (List.isEmpty_iff.mp none)
    obtain ⟨c, member, solid⟩ := List.any_eq_true.mp filled
    rw [blank c member] at solid
    cases solid
  rw [trimStart, List.dropWhile_append, left]
  rfl

theorem trimEnd_concat_of_blank {c : Char} (blank : isBlank c = true) (line : List Char) :
    trimEnd (line ++ [c]) = trimEnd line := List.rdropWhile_concat_pos isBlank line c blank

theorem trim_concat_of_blank {c : Char} (blank : isBlank c = true) : trim (line ++ [c]) = trim line := by
  cases filled : isFilled line with
  | false =>
    have blanks := blank_of_isFilled filled
    rw [trim_of_blank blanks, trim_of_blank]
    exact List.forall_mem_append.mpr ⟨blanks, List.forall_mem_singleton.mpr blank⟩
  | true => rw [trim, trimStart_append_of_filled filled, trimEnd_concat_of_blank blank, trim]

/-! ### The first line -/

/-- The first line of a text is the one that is looked for, or it is blank and passed over. -/
theorem firstFilledLine_append (oneLine : '\n' ∉ line) (rest : List Char) :
    firstFilledLine (line ++ '\n' :: rest) =
      if isFilled line = true then trim line else firstFilledLine rest := by
  obtain ⟨first, same, split⟩ := lines_append oneLine rest
  have alike : isFilled line = isFilled first ∧ trim line = trim first := by
    rcases same with rfl | rfl
    · exact ⟨rfl, rfl⟩
    · have blank : isBlank '\r' = true := by decide
      exact ⟨by simp [isFilled, blank], trim_concat_of_blank blank⟩
  rw [firstFilledLine, split, List.find?_cons, alike.1, alike.2]
  cases isFilled first <;> rfl

theorem firstFilledLine_of_oneLine (oneLine : '\n' ∉ line) : firstFilledLine line = trim line := by
  rw [firstFilledLine, lines_of_oneLine oneLine]
  cases filled : isFilled line with
  | false => rw [List.find?_singleton, filled, trim_of_blank (blank_of_isFilled filled)]; rfl
  | true => rw [List.find?_singleton, filled]; rfl

/-- A line without a line feed is taken whole, less the blanks in front. -/
theorem takeWhile_trimStart (oneLine : '\n' ∉ line) (rest : List Char)
    (ends : rest.takeWhile (· ≠ '\n') = []) :
    (trimStart line ++ rest).takeWhile (· ≠ '\n') = trimStart line := by
  rw [List.takeWhile_append_of_pos, ends, List.append_nil]
  intro c member
  exact decide_eq_true fun feed => oneLine (feed ▸ (List.dropWhile_suffix _).mem member)

theorem firstLine_append_newline (oneLine : '\n' ∉ line) (rest : List Char) :
    firstLine (line ++ '\n' :: rest) = if isFilled line = true then trim line else firstLine rest := by
  cases filled : isFilled line with
  | false =>
    have feed : trimStart ('\n' :: rest) = trimStart rest := rfl
    rw [firstLine, trimStart_append_of_blank (blank_of_isFilled filled), feed]
    rfl
  | true =>
    rw [firstLine, trimStart_append_of_filled filled, takeWhile_trimStart oneLine _ (by simp)]
    rfl

theorem firstLine_of_oneLine (oneLine : '\n' ∉ line) : firstLine line = trim line := by
  have whole := takeWhile_trimStart oneLine [] rfl
  rw [List.append_nil] at whole
  rw [firstLine, whole, trim]

/-- The line that is quoted is the first one with more than blanks in it. -/
theorem firstLine_eq (s : List Char) : firstLine s = firstFilledLine s := by
  induction length : s.length using Nat.strongRecOn generalizing s with
  | ind n ih =>
    by_cases more : '\n' ∈ s
    · obtain ⟨line, rest, rfl, oneLine⟩ := List.eq_append_cons_of_mem more
      have behind : firstLine rest = firstFilledLine rest := by
        refine ih rest.length ?_ rest rfl
        rw [← length, List.length_append, List.length_cons]
        omega
      rw [firstLine_append_newline oneLine, firstFilledLine_append oneLine, behind]
    · rw [firstLine_of_oneLine more, firstFilledLine_of_oneLine more]

/-! ### Excerpts -/

/-- One line without blanks at its ends, as it is quoted. -/
structure TrimmedLine (line : List Char) : Prop where
  oneLine : '\n' ∉ line
  started : trimStart line = line
  ended : trimEnd line = line

/-- Nothing is trimmed from the front if no blank is there. -/
theorem trimStart_eq_self_iff : trimStart s = s ↔ ∀ c ∈ s.head?, isBlank c = false := by
  rw [trimStart, List.dropWhile_eq_self_iff]
  cases s <;> simp

theorem isPrefix_trimEnd (s : List Char) : trimEnd s <+: s := List.rdropWhile_prefix isBlank s

theorem trimStart_of_prefix {start : List Char} (isPrefix : start <+: s) (started : trimStart s = s) :
    trimStart start = start := by
  rw [trimStart_eq_self_iff] at started ⊢
  obtain ⟨more, rfl⟩ := isPrefix
  cases start with
  | nil => exact fun c none => by cases none
  | cons => exact started

theorem trimmedLine_firstLine (s : List Char) : TrimmedLine (firstLine s) where
  oneLine member := by
    have taken := (isPrefix_trimEnd _).subset member
    exact absurd (List.mem_takeWhile_imp taken) (by decide)
  started := trimStart_of_prefix ((isPrefix_trimEnd _).trans (List.takeWhile_prefix _))
    (List.dropWhile_idempotent isBlank s)
  ended := List.rdropWhile_idempotent isBlank _

/-- Clipping leaves a line trimmed: it starts as before, and it ends with a dot, whatever it was cut
behind. -/
theorem TrimmedLine.clip (h : TrimmedLine line) : TrimmedLine (clip line) := by
  unfold Text.clip
  split
  · next long =>
    refine ⟨?_, ?_, ?_⟩
    · intro member
      rcases List.mem_append.mp member with taken | dots
      · exact h.oneLine (List.mem_of_mem_take taken)
      · exact absurd dots (by decide)
    · have solid := trimStart_eq_self_iff.mp h.started
      rw [trimStart_eq_self_iff]
      cases line with
      | nil => cases long
      | cons => exact solid
    · rw [show ['.', '.', '.'] = ['.', '.'] ++ ['.'] from rfl, ← List.append_assoc]
      exact List.rdropWhile_concat_neg isBlank _ '.' (by decide)
  · exact h

theorem TrimmedLine.firstLine_eq_self (h : TrimmedLine line) : firstLine line = line := by
  rw [firstLine_of_oneLine h.oneLine, trim, h.started, h.ended]

theorem length_clip_le (line : List Char) : (Text.clip line).length ≤ excerptLimit + 3 := by
  unfold Text.clip
  split
  · simp only [List.length_append, List.length_take, List.length_cons, List.length_nil]
    omega
  · omega

/-- Clipping a clipped line cuts off its dots and puts them back. -/
theorem clip_clip (line : List Char) : Text.clip (Text.clip line) = Text.clip line := by
  by_cases long : excerptLimit < line.length
  · have length : (line.take excerptLimit).length = excerptLimit := List.length_take_of_le long.le
    have clipped : Text.clip line = line.take excerptLimit ++ ['.', '.', '.'] := if_pos long
    have again : excerptLimit < (line.take excerptLimit ++ ['.', '.', '.']).length := by
      simp [length]
    rw [clipped, Text.clip, if_pos again, List.take_left' length]
  · have kept : Text.clip line = line := if_neg long
    rw [kept, kept]

theorem toList_excerpt (s : String) : (excerpt s).toList = Text.clip (firstFilledLine s.toList) := by
  rw [excerpt, String.toList_ofList, firstLine_eq]

/-- Two blank lines are passed over, and then an ideographic space. -/
example : excerpt "\r\n \t\n\u3000x = 1 \r\nprint x" = "x = 1" := by decide

theorem trimmedLine_excerpt (s : String) : TrimmedLine (excerpt s).toList := by
  rw [excerpt, String.toList_ofList]
  exact (trimmedLine_firstLine _).clip

/-- An excerpt of an excerpt is the excerpt. -/
theorem excerpt_excerpt (s : String) : excerpt (excerpt s) = excerpt s := by
  have kept := (trimmedLine_excerpt s).firstLine_eq_self
  rw [excerpt, kept, toList_excerpt, clip_clip, ← toList_excerpt, String.ofList_toList]

end Scriptlet.Text

namespace Scriptlet

/-- The contexts of errors are short, one-line and stable. Whatever the error and the text are, the context
that the error gets has no line feed in it and no blank in front, and it has 43 characters at most. It is
the first line of the text with more than blanks in it, trimmed, if that has no more than 40 characters;
otherwise it is the first 40 characters of that line and three dots. Nothing else of the error changes. And
a context that is quoted again, for any error, stays as it is. -/
theorem Error.before_context (e : Error) (text : String) :
    let line := Text.firstFilledLine text.toList
    ∃ context : String, e.before text = { e with context := some context } ∧
      '\n' ∉ context.toList ∧ (∀ c ∈ context.toList.head?, Text.isBlank c = false) ∧
      context.length ≤ 43 ∧
      (line.length ≤ 40 ∧ context.toList = line ∨
        40 < line.length ∧ context.toList = line.take 40 ++ "...".toList) ∧
      ∀ e' : Error, e'.before context = { e' with context := some context } := by
  intro line
  have trimmed := Text.trimmedLine_excerpt text
  refine ⟨Text.excerpt text, rfl, trimmed.oneLine, Text.trimStart_eq_self_iff.mp trimmed.started, ?_, ?_,
    fun e' => ?_⟩
  · rw [← String.length_toList, Text.toList_excerpt]
    exact Text.length_clip_le _
  · rw [Text.toList_excerpt]
    by_cases long : 40 < line.length
    · exact .inr ⟨long, if_pos long⟩
    · exact .inl ⟨Nat.le_of_not_lt long, if_neg long⟩
  · rw [Error.before, Text.excerpt_excerpt]

end Scriptlet
