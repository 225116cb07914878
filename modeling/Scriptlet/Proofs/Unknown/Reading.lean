import Scriptlet.Proofs.Lexical.Reading
import Scriptlet.Proofs.Trace.Beside
import Scriptlet.Proofs.Trace.Grounded

/-!
Where a name was read. The mark of the cursor stays where reading began, and from there to the name stands
blank material. A machine whose token is a name is anchored if that is so: if the store has, from the mark
on, a blank and the name, both inside the body. Whatever comes back to the place of reading leaves the
machine anchored; reading on anchors it, whatever the token was before.
-/

namespace Scriptlet

open Eval
open Text (Bytes lineFeed)

/-! ### Blank material before a name -/

/-- A letter and bytes that may follow one in a name. -/
structure IsName (spelled : Bytes) : Prop where
  lead : ∃ b ∈ spelled.head?, Byte.isLetter b = true
  inside : ∀ b ∈ spelled, Byte.isNameByte b = true

/-- What may stand between the lexeme before and a name: spaces and line continuations. -/
inductive IsGap : Bytes → Prop where
  | nil : IsGap []
  | space {b : UInt8} {gap : Bytes} (isSpace : Byte.isSpace b = true) (more : IsGap gap) :
      IsGap (b :: gap)
  | continued {gap : Bytes} (more : IsGap gap) : IsGap (Byte.backslash :: lineFeed :: gap)
  | continuedReturn {gap : Bytes} (more : IsGap gap) :
      IsGap (Byte.backslash :: Byte.carriageReturn :: lineFeed :: gap)

theorem IsName.ne_nil {spelled : Bytes} (h : IsName spelled) : spelled ≠ [] := by
  obtain ⟨b, first, -⟩ := h.lead
  rintro rfl
  cases first

/-- There is no comment before a name, since a comment goes on to the end of its line. -/
theorem Lexical.Blank.isGap {rest run : Bytes} (h : Blank rest run) {b : UInt8} (first : b ∈ rest.head?)
    (letter : Byte.isLetter b = true) : IsGap run := by
  induction h with
  | nil => exact .nil
  | space isSpace _ ih => exact .space isSpace ih
  | continued _ ih => exact .continued ih
  | continuedReturn _ ih => exact .continuedReturn ih
  | @comment words run oneLine ends more ih =>
    -- behind the comment comes a line feed, which neither a blank nor a name starts with
    have feed : ∀ c ∈ (run ++ rest).head?, c = lineFeed := fun c hc => by simpa using ends c hc
    cases run with
    | nil =>
      have isFeed := feed b first
      rw [isFeed] at letter
      exact absurd letter (by decide)
    | cons c run =>
      have isFeed : c = lineFeed := feed c rfl
      subst isFeed
      cases more with
      | space isSpace => exact absurd isSpace (by decide)

/-! ### The place of a name -/

/-- From the mark on there are a gap and a name in the body, and the slice is that of the name. -/
structure NameAt (m : Machine) (name : Slice) (gap spelled : Bytes) : Prop where
  isGap : IsGap gap
  isName : IsName spelled
  source : name.source = m.cursor.source
  start : name.start = m.cursor.mark + gap.length
  length : name.length = spelled.length
  read : gap ++ spelled <+: (m.store m.cursor.source).toList.drop m.cursor.mark
  inside : m.cursor.mark + (gap.length + spelled.length) ≤ m.cursor.stop

/-- What is left to read is in the body, and is what the store has there. -/
structure Attentive (m : Machine) : Prop where
  faithful : Faithful m
  inside : m.cursor.scanner.limit ≤ m.cursor.stop

/-- If the token is a name, it was read in the body, from the mark on. -/
structure Anchored (m : Machine) : Prop extends Attentive m where
  named : ∀ name, m.token = .name name → ∃ gap spelled, NameAt m name gap spelled

variable {m m' : Machine}

theorem Attentive.stores (h : Attentive m) (k : Stores m m') (hc : m'.cursor = m.cursor) :
    Attentive m' := by
  refine ⟨?_, hc ▸ h.inside⟩
  unfold Faithful
  rw [hc]
  exact h.faithful.trans (List.IsPrefix.drop (k.store_prefix m.cursor.source) _)

/-- What comes back to the place of reading leaves the machine anchored. -/
theorem Anchored.stores (h : Anchored m) (k : Stores m m') (hc : m'.cursor = m.cursor)
    (ht : m'.token = m.token) : Anchored m' := by
  refine ⟨h.toAttentive.stores k hc, fun name token => ?_⟩
  obtain ⟨gap, spelled, at_name⟩ := h.named name (ht ▸ token)
  obtain ⟨isGap, isName, source, start, length, read, inside⟩ := at_name
  refine ⟨gap, spelled, isGap, isName, hc ▸ source, hc ▸ start, length, ?_, hc ▸ inside⟩
  rw [hc]
  exact read.trans (List.IsPrefix.drop (k.store_prefix m.cursor.source) _)

/-- The body that is entered is there to be read. -/
theorem attentive_cursorAt (m : Machine) (body : Slice) (duplicate : Bool) :
    Attentive { m with cursor := m.cursorAt body, quoting := .plain, duplicate } := by
  refine ⟨faithful_cursorAt m body duplicate, ?_⟩
  change min body.start (min body.stop (m.store body.source).size) +
    ((m.store body.source).extract _ _).toList.length ≤ body.stop
  rw [Array.length_toList, Array.size_extract]
  omega

/-- A name that is read is where the gap before it ends. -/
theorem nameAt_of_next {quoting : Quoting} {m n : Machine} {place : Span} (attentive : Attentive m)
    (read : m.cursor.scanner.next quoting = (.ok (.name place), n.cursor.scanner))
    (source : n.cursor.source = m.cursor.source) (stop : n.cursor.stop = m.cursor.stop)
    (mark : n.cursor.mark = m.cursor.scanner.pos)
    (store : n.store m.cursor.source = m.store m.cursor.source) :
    ∃ gap spelled, NameAt n (.ofSpan m.cursor.source place) gap spelled := by
  obtain ⟨gap, rest, pos, blank⟩ := Lexical.exists_longestBlank m.cursor.scanner
  obtain ⟨spelled, behind, -, spells⟩ :=
    Lexical.spells_of_readLexeme (s := m.cursor.scanner.skipBlank) read (by intro h; cases h)
  -- gap and name are in the window, and the window is what the store has there
  have window := attentive.inside
  unfold Scanner.limit at window
  rw [rest, behind] at window
  simp only [List.length_append] at window
  have faithful := attentive.faithful
  unfold Faithful at faithful
  rw [rest, behind, ← List.append_assoc] at faithful
  cases spells with
  | @name b run _ lead inside longest =>
    have isName : IsName (b :: run) := by
      refine ⟨⟨b, rfl, lead⟩, fun c hc => ?_⟩
      rcases List.mem_cons.mp hc with rfl | hc
      · simp [Byte.isNameByte, lead]
      · exact inside c hc
    have isGap := blank.blank.isGap (b := b) (by rw [behind]; rfl) lead
    refine ⟨gap, b :: run, isGap, isName, source.symm, ?_, ?_, ?_, ?_⟩
    · rw [mark]
      exact pos
    · simp [Slice.ofSpan]
    · rw [source, mark, store]
      exact (List.prefix_append _ _).trans faithful
    · rw [mark, stop]
      omega

/-- Reading on anchors the machine. -/
theorem anchored_of_advanceBy {raw : Bool} (h : Attentive m) (done : advanceBy raw m = .done () m') :
    Anchored m' := by
  obtain ⟨lexeme, after, token, literals, read, resolved, rfl⟩ := advanceBy_eq_done done
  have limit := (Scanner.within_next read).limit
  have attentive : Attentive { m.readTo after with token, literals } :=
    ⟨h.faithful.further (Scanner.further_next read), Nat.le_trans (Nat.le_of_eq limit) h.inside⟩
  refine ⟨attentive, fun name isName => ?_⟩
  change token = .name name at isName
  subst isName
  cases lexeme with
  | name place =>
    have slice : name = .ofSpan m.cursor.source place := by
      simp only [resolve] at resolved
      split at resolved
      · cases resolved
        rfl
      · split at resolved <;> cases resolved
        rfl
    rw [slice]
    exact nameAt_of_next h read rfl rfl rfl rfl
  | operator place =>
    simp only [resolve] at resolved
    split at resolved <;> cases resolved
  | quote inside =>
    simp only [resolve] at resolved
    split at resolved <;> cases resolved
  | _ => cases resolved

end Scriptlet
