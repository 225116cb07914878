import Scriptlet.Proofs.Characters.Boundaries
import Scriptlet.Proofs.Trace.Beside
import Scriptlet.Proofs.Trace.Quotes

/-!
A memory of texts. Scripts are texts, and what is copied of them are names and bodies, which are texts too.
So all that the machine can read from is text at every moment, and the copies that are kept stand one behind
the other as a text of their own (`Machine.Lettered`).

A routine may outlive the script that it was defined in, and then read whatever text is in that slot. Its body
need not start between two characters then. But a quotation in it stands between two marks, and these are
characters by themselves, so what is between them is a text all the same (`Scanner.isText_bytesOf`).
-/

namespace Scriptlet

open Eval
open Text (Bytes IsText IsPiece isText_nil isText_of_plain)

/-! ### What a lexeme points out -/

namespace Scanner

variable {s t : Scanner}

theorem bytesOf_append {front inside back : Bytes} (bytes : s.rest = front ++ (inside ++ back)) :
    s.bytesOf ⟨s.pos + front.length, s.pos + front.length + inside.length⟩ = inside := by
  rw [bytesOf, bytes, Nat.add_sub_cancel_left, Nat.add_sub_cancel_left, List.drop_left, List.take_left]

/-- What a lexeme points out is in the window, and it is a text even if the window cuts through characters. -/
theorem exists_place {quoting : Quoting} {l : Lexeme} {after : Scanner} {place : Span}
    (h : IsPiece s.rest) (read : s.next quoting = (.ok l, after)) (hplace : l.place? = some place) :
    ∃ front inside back, s.rest = front ++ (inside ++ back) ∧
      place = ⟨s.pos + front.length, s.pos + front.length + inside.length⟩ ∧ IsText inside := by
  have ends : l ≠ .eof := by
    rintro rfl
    cases hplace
  obtain ⟨run, blank, start, -⟩ := Lexical.exists_longestBlank s
  obtain ⟨spelled, bytes, -, spells⟩ := Lexical.spells_of_readLexeme read ends
  rw [bytes] at blank
  rw [start] at spells
  rcases spells.around hplace with ⟨rfl, plain⟩ | ⟨b, inside, c, rfl, rfl, plain, plain'⟩
  · exact ⟨run, spelled, after.rest, blank, rfl, isText_of_plain plain⟩
  · refine ⟨run ++ [b], inside, c :: after.rest, by simpa using blank, ?_, ?_⟩
    · rw [List.length_append, ← Nat.add_assoc]
      rfl
    · have piece : IsPiece (run ++ b :: (inside ++ c :: after.rest)) := by simpa [blank] using h
      exact piece.between plain plain'

theorem isText_bytesOf {quoting : Quoting} {l : Lexeme} {after : Scanner} {place : Span}
    (h : IsPiece s.rest) (read : s.next quoting = (.ok l, after)) (hplace : l.place? = some place) :
    IsText (s.bytesOf place) := by
  obtain ⟨front, inside, back, bytes, rfl, text⟩ := exists_place h read hplace
  rwa [bytesOf_append bytes]

theorem Further.isPiece (h : s.Further t) (piece : IsPiece s.rest) : IsPiece t.rest := by
  obtain ⟨n, -, rfl⟩ := h
  exact piece.drop n

theorem Path.isText {after : Scanner} {list : List Lexeme} (h : s.Path list after) (piece : IsPiece s.rest)
    {inside : Span} (hmem : .quote inside ∈ list) : IsText (s.bytesOf inside) := by
  induction h with
  | nil s => cases hmem
  | @cons s next after l rest read path ih =>
    rcases List.mem_cons.mp hmem with rfl | hmem
    · exact isText_bytesOf piece read rfl
    · have further := further_next read
      rw [← bytesOf_further further (path.pos_le hmem)]
      exact ih (further.isPiece piece) hmem

end Scanner

/-! ### What the machine reads from -/

/-- The bytes are in the memory of the machine, and not in the slice itself. -/
def Source.InMemory : Source → Prop
  | .fixed _ => False
  | .durable => True
  | .text _ => True

/-- All that the machine can read from is text. -/
structure Machine.Lettered (m : Machine) : Prop where
  durable : IsText m.arena.durable.toList
  texts : ∀ {slot text}, m.texts.text? slot = some text → IsText text.toList
  routines : ∀ {i : Nat} {routine}, m.arena.routines[i]? = some routine → routine.body.source.InMemory

namespace Machine.Lettered

variable {m : Machine} (h : m.Lettered)

include h

theorem store {source : Source} (memory : source.InMemory) : IsText (m.store source).toList := by
  cases source with
  | fixed bytes => cases memory
  | durable => exact h.durable
  | text slot =>
    change IsText (m.texts.get slot).toList
    unfold Texts.get
    cases held : m.texts.text? slot with
    | none => exact isText_nil
    | some text => exact h.texts held

theorem congr {m' : Machine} (durable : m'.arena.durable = m.arena.durable)
    (routines : m'.arena.routines = m.arena.routines) (texts : m'.texts = m.texts) : m'.Lettered :=
  ⟨durable ▸ h.durable, fun held => h.texts (texts ▸ held), fun found => h.routines (routines ▸ found)⟩

theorem sameStores {m' : Machine} (k : SameStores m m') : m'.Lettered := h.congr k.durable k.routines k.texts

theorem addBytes {bytes : Bytes} {slice : Slice} {arena : Arena Native} (text : IsText bytes)
    (granted : m.arena.addBytes bytes = some (slice, arena)) : (m.withArena arena).Lettered := by
  obtain ⟨-, -, rfl⟩ := Arena.addBytes_eq_some granted
  refine ⟨?_, h.texts, h.routines⟩
  change IsText (m.arena.durable ++ bytes.toArray).toList
  rw [Array.toList_append]
  exact h.durable.append text

theorem addRoutine {routine : Routine} {number : Nat} {arena : Arena Native}
    (memory : routine.body.source.InMemory) (granted : m.arena.addRoutine routine = some (number, arena)) :
    (m.withArena arena).Lettered := by
  obtain ⟨-, -, rfl⟩ := Arena.addRoutine_eq_some granted
  refine ⟨h.durable, h.texts, fun {i routine'} found => ?_⟩
  change (m.arena.routines.push routine)[i]? = some routine' at found
  rw [Array.getElem?_push] at found
  split at found
  · cases found
    exact memory
  · exact h.routines found

theorem retain {bytes : Bytes} (text : IsText bytes) :
    (m.withTexts (m.texts.retain bytes.toArray).2).Lettered := by
  refine ⟨h.durable, fun {slot text'} held => ?_, h.routines⟩
  change (m.texts.retain bytes.toArray).2.text? slot = some text' at held
  rw [Texts.text?_retain] at held
  split at held
  · cases held
    exact text
  · exact h.texts held

theorem release (slot : Nat) : (m.withTexts (m.texts.release slot)).Lettered := by
  refine ⟨h.durable, fun {i text} held => ?_, h.routines⟩
  change (m.texts.release slot).text? i = some text at held
  rw [Texts.text?_release] at held
  split at held
  · cases held
  · exact h.texts held

end Machine.Lettered

/-- A new machine has no texts. -/
theorem lettered_new {options : Options} {m : Machine} (made : Machine.new options = .ok m) : m.Lettered := by
  obtain ⟨arena, texts, -⟩ := Machine.new_eq_ok made
  refine ⟨?_, fun {slot text} held => ?_, fun {i routine} found => ?_⟩
  · rw [arena]
    exact isText_nil
  · rw [texts] at held
    cases held
  · rw [arena] at found
    cases found

/-! ### Reading a text -/

/-- What is left to read is in a text. -/
structure Legible (m : Machine) : Prop where
  lettered : m.Lettered
  faithful : Faithful m
  source : m.cursor.source.InMemory

/-- The store of a slice has a text where the slice is. -/
def Machine.HasText (m : Machine) (slice : Slice) : Prop :=
  ∃ bytes, IsText bytes ∧ bytes.length = slice.length ∧
    bytes <+: (m.store slice.source).toList.drop slice.start

/-- What is left to read is in a text, and the token was read in one. -/
structure Scanned (m : Machine) : Prop extends Legible m where
  token : ∀ {slice}, m.token.slice? = some slice → slice.source.InMemory ∧ m.HasText slice

theorem Legible.isPiece {m : Machine} (h : Legible m) : IsPiece m.cursor.scanner.rest := by
  obtain ⟨tail, rest⟩ := h.faithful
  refine ⟨(m.store m.cursor.source).toList.take m.cursor.scanner.pos, tail, ?_⟩
  rw [rest, List.take_append_drop]
  exact h.lettered.store h.source

theorem Machine.HasText.isText {m : Machine} {slice : Slice} (h : m.HasText slice) :
    IsText (m.bytes slice) := by
  obtain ⟨bytes, text, length, there⟩ := h
  change IsText (Slice.bytesIn slice (m.store slice.source))
  unfold Slice.bytesIn
  split
  · rw [Array.toList_extract, List.extract_eq_take_drop, Slice.stop, Nat.add_sub_cancel_left, ← length,
      ← List.prefix_iff_eq_take.mp there]
    exact text
  · exact isText_nil

theorem Machine.HasText.stores {m m' : Machine} {slice : Slice} (h : m.HasText slice) (k : Stores m m') :
    m'.HasText slice := by
  obtain ⟨bytes, text, length, there⟩ := h
  exact ⟨bytes, text, length, there.trans (List.IsPrefix.drop (k.store_prefix slice.source) _)⟩

theorem Legible.stores {m m' : Machine} (h : Legible m) (k : Stores m m') (lettered : m'.Lettered)
    (cursor : m'.cursor = m.cursor) : Legible m' := by
  refine ⟨lettered, ?_, cursor ▸ h.source⟩
  unfold Faithful
  rw [cursor]
  exact h.faithful.trans (List.IsPrefix.drop (k.store_prefix m.cursor.source) _)

theorem Scanned.aside {m m' : Machine} (h : Scanned m) (k : Aside m m') (lettered : m'.Lettered) :
    Scanned m' := by
  refine ⟨h.toLegible.stores k.toStores lettered k.cursor, fun {slice} hslice => ?_⟩
  obtain ⟨memory, there⟩ := h.token (k.token ▸ hslice)
  exact ⟨memory, there.stores k.toStores⟩

theorem Scanned.beside {m m' : Machine} (h : Scanned m) (k : Beside m m') : Scanned m' :=
  h.aside k.aside (h.lettered.sameStores k.toSameStores)

/-- A token that is read is read in the text. -/
theorem scanned_of_advanceBy {raw : Bool} {m m' : Machine} (h : Legible m)
    (done : advanceBy raw m = .done () m') : Scanned m' := by
  obtain ⟨lexeme, after, token, literals, read, resolved, rfl⟩ := advanceBy_eq_done done
  refine ⟨⟨h.lettered.congr rfl rfl rfl, faithful_of_advanceBy h.faithful done, h.source⟩,
    fun {slice} hslice => ?_⟩
  obtain ⟨place, hplace, rfl⟩ := resolve_slice resolved hslice
  obtain ⟨front, inside, back, bytes, rfl, text⟩ := Scanner.exists_place h.isPiece read hplace
  refine ⟨h.source, inside, text, (Nat.add_sub_cancel_left _ _).symm, ?_⟩
  have there := List.IsPrefix.drop h.faithful front.length
  rw [bytes, List.drop_left, List.drop_drop] at there
  exact (List.prefix_append inside back).trans there

end Scriptlet
