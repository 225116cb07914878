import Scriptlet.Proofs.Twin.Reading
import Scriptlet.Proofs.Written.Functions

/-!
Names and bodies that are kept. Reading on as a definition does, and keeping what was read, leaves the
machine in the text that it reads (`Machine.ReadsIn`) and changes nothing but the durable bytes
(`Proceeds`). A slice that is kept reads as what stands in a place of that text, whether it was copied or
not (`Machine.Recalls`), and what a copy takes is known beforehand (`Machine.charge`).
-/

namespace Scriptlet

open Eval

/-! ### The text that is read -/

/-- The machine reads statements, and what is left to read is further on in a text. -/
structure Machine.ReadsIn (m : Machine) (text : Scanner) : Prop where
  plain : m.quoting = .plain
  faithful : Faithful m
  further : text.Further m.cursor.scanner

/-- The slice is held, and reads as what stands in a place of the text. -/
structure Machine.Recalls (m : Machine) (text : Scanner) (slice : Slice) (place : Span) : Prop where
  held : m.memory.Holds slice
  bytes : m.bytes slice = text.bytesOf place

variable {m n : Machine} {text : Scanner} {slice : Slice} {place : Span}

theorem Machine.Recalls.grows (h : m.Recalls text slice place) (g : Grows m n) : n.Recalls text slice place :=
  ⟨g.holds h.held, (g.bytes h.held).trans h.bytes⟩

theorem Machine.Recalls.forall₂_grows {slices : List Slice} {places : List Span}
    (h : List.Forall₂ (m.Recalls text) slices places) (g : Grows m n) :
    List.Forall₂ (n.Recalls text) slices places := h.imp fun _ _ recalls => recalls.grows g

theorem Machine.Recalls.map_bytes {slices : List Slice} {places : List Span}
    (h : List.Forall₂ (m.Recalls text) slices places) : slices.map m.bytes = places.map text.bytesOf := by
  induction h with
  | nil => rfl
  | cons recalls _ ih => rw [List.map_cons, List.map_cons, recalls.bytes, ih]

/-- What is in a store, and not before its first byte, is held. -/
theorem Memory.holds_of_inside {x : Memory} (positive : 0 < slice.stop)
    (inside : slice.stop ≤ (x.store slice.source).size) : x.Holds slice := by
  unfold Memory.Holds
  cases source : slice.source with
  | fixed bytes => trivial
  | durable =>
    rw [source] at inside
    exact inside
  | text slot =>
    rw [source] at inside
    change slice.stop ≤ (x.texts.get slot).size at inside
    change (x.texts.text? slot).isSome = true
    cases there : x.texts.text? slot with
    | some bytes => rfl
    | none =>
      rw [Texts.get, there] at inside
      exact absurd inside (Nat.not_le.mpr positive)

/-- A window that is not empty is in its store. -/
theorem Faithful.limit_le (h : Faithful m) (nonempty : m.cursor.scanner.rest ≠ []) :
    m.cursor.scanner.limit ≤ (m.store m.cursor.source).size := by
  have length := h.length_le
  have positive := List.length_pos_iff.mpr nonempty
  rw [List.length_drop, Array.length_toList] at length
  unfold Scanner.limit
  omega

/-- A place that was read in the text is held, and reads as what stands there. -/
theorem Machine.ReadsIn.recalls (h : m.ReadsIn text) {l : Lexeme} {after : Scanner}
    (read : m.cursor.scanner.next .plain = (.ok l, after)) (hplace : l.place? = some place) :
    m.Recalls text (.ofSpan m.cursor.source place) place := by
  obtain ⟨behind, ordered, inside⟩ := Scanner.place_next read hplace
  have bytes := h.faithful.bytes behind ordered inside
  refine ⟨?_, bytes.trans (Scanner.bytesOf_further h.further behind)⟩
  have nonempty : m.cursor.scanner.rest ≠ [] := fun empty => by
    cases (next_nil .plain empty).symm.trans read
    cases hplace
  have stop : (Slice.ofSpan m.cursor.source place).stop = place.stop := Nat.add_sub_cancel' ordered
  refine Memory.holds_of_inside (stop ▸ ((Scanner.within_next read).place hplace).2.1) ?_
  rw [stop]
  exact Nat.le_trans inside (h.faithful.limit_le nonempty)

/-! ### What reading and keeping change -/

/-- Something was read and kept: the durable bytes have become more, and the table and the routines are as
before. -/
structure Proceeds (m n : Machine) : Prop where
  grows : Grows m n
  symbols : n.arena.symbols = m.arena.symbols
  routines : n.arena.routines = m.arena.routines
  budget : Memory.Budgeted m.arena → Memory.Budgeted n.arena
  source : n.cursor.source = m.cursor.source
  quoting : n.quoting = m.quoting
  duplicate : n.duplicate = m.duplicate
  faithful : Faithful m → Faithful n
  further : m.cursor.scanner.Further n.cursor.scanner

theorem proceeds_track : Track Proceeds where
  refl _ := ⟨.refl _, rfl, rfl, id, rfl, rfl, rfl, id, .refl _⟩
  trans h k := ⟨h.grows.trans k.grows, k.symbols.trans h.symbols, k.routines.trans h.routines,
    k.budget ∘ h.budget, k.source.trans h.source, k.quoting.trans h.quoting,
    k.duplicate.trans h.duplicate, k.faithful ∘ h.faithful, h.further.trans k.further⟩

theorem proceeds_advanceBy (raw : Bool) : Keeps Proceeds (advanceBy raw) := by
  intro m
  have faithful := fun h : Faithful m => h.advanceBy raw
  have further := advanceBy_further raw m
  obtain ⟨cursor, token, literals, machine, source, -⟩ := advanceBy_machine raw m
  rw [machine] at faithful further ⊢
  exact ⟨.of_eq rfl rfl rfl rfl, rfl, rfl, id, source, rfl, rfl, faithful, further⟩

theorem proceeds_naming : NamingDiscipline Proceeds where
  toTrack := proceeds_track
  advanceBy := proceeds_advanceBy
  addBytes {m bytes slice arena} granted := by
    have grows : Grows m (m.withArena arena) := Memory.Grows.addBytes granted
    have budget := fun h : Memory.Budgeted m.arena => h.addBytes granted
    obtain ⟨-, -, rfl⟩ := Arena.addBytes_eq_some granted
    exact ⟨grows, rfl, rfl, budget, rfl, rfl, rfl, fun h => h.grows grows rfl, .refl _⟩

theorem Proceeds.readsIn (k : Proceeds m n) (h : m.ReadsIn text) : n.ReadsIn text :=
  ⟨k.quoting.trans h.plain, k.faithful h.faithful, h.further.trans k.further⟩

theorem Proceeds.copies (k : Proceeds m n) : n.copies = m.copies := by
  unfold Machine.copies
  rw [k.source, k.duplicate]

/-! ### What is kept -/

/-- What it takes to keep what stands in some places of the text. -/
def Machine.charge (m : Machine) (text : Scanner) (places : List Span) : Nat :=
  if m.copies then places.foldr (fun place taken => wordAligned (text.bytesOf place).length + taken) 0 else 0

@[simp] theorem Machine.charge_nil (m : Machine) (text : Scanner) : m.charge text [] = 0 := by
  simp [Machine.charge]

theorem Machine.charge_cons (m : Machine) (text : Scanner) (place : Span) (places : List Span) :
    m.charge text (place :: places) = m.charge text [place] + m.charge text places := by
  unfold Machine.charge
  split <;> simp

theorem Machine.charge_append (m : Machine) (text : Scanner) (xs ys : List Span) :
    m.charge text (xs ++ ys) = m.charge text xs + m.charge text ys := by
  induction xs with
  | nil => rw [List.nil_append, charge_nil, Nat.zero_add]
  | cons x xs ih => rw [List.cons_append, charge_cons, ih, charge_cons m text x xs, Nat.add_assoc]

theorem Proceeds.charge (k : Proceeds m n) (text : Scanner) (places : List Span) :
    n.charge text places = m.charge text places := by
  unfold Machine.charge
  rw [k.copies]

theorem Memory.bytes_addBytes {x : Memory} {bytes : Text.Bytes} {arena : Arena Native}
    (granted : x.arena.addBytes bytes = some (slice, arena)) :
    Memory.bytes ⟨arena, x.texts⟩ slice = bytes := by
  rw [Memory.bytes_eq false, Memory.sight_addBytes false granted]
  rfl

/-- What is kept for good is taken from what was free. -/
theorem Arena.free_reserved (a : Arena Native) {taken : Nat} (room : taken ≤ a.free)
    {durable : Array UInt8} {routines : Array Routine} :
    ({ a with reserved := a.reserved + taken, durable, routines } : Arena Native).free + taken = a.free := by
  unfold Arena.free Arena.highEnd Arena.lowEnd at room ⊢
  dsimp only
  omega

/-- What is kept reads as it did, and has taken what it takes; only if there is less than that, it is
refused. -/
theorem keep_of_recalls (h : m.Recalls text slice place) (source : slice.source = m.cursor.source) :
    (∃ kept n, keep slice m = .done kept n ∧ n.Recalls text kept place ∧ n.cursor = m.cursor ∧
      n.token = m.token ∧ n.arena.free + m.charge text [place] = m.arena.free) ∨
      keep slice m = .failed .outOfMemory m ∧ m.arena.free < m.charge text [place] := by
  have run : keep slice m = if m.copies then allocate (·.addBytes (m.bytes slice)) m
      else .done slice m := by
    unfold keep Machine.copies
    rw [← source]
    cases slice.source <;> rfl
  have charge : m.charge text [place] = if m.copies then wordAligned (m.bytes slice).length else 0 := by
    rw [Machine.charge, h.bytes]
    rfl
  rw [run, charge]
  cases m.copies with
  | false => exact .inl ⟨slice, m, rfl, h, rfl, rfl, rfl⟩
  | true =>
    rw [if_pos rfl, if_pos rfl]
    by_cases room : wordAligned (m.bytes slice).length ≤ m.arena.free
    · have granted := Arena.addBytes_of_room room
      refine .inl ⟨_, _, allocate_of_some granted, ⟨?_, ?_⟩, rfl, rfl, ?_⟩
      · exact (Memory.holds_addBytes (a := m.memory) granted).2
      · exact (Memory.bytes_addBytes (x := m.memory) granted).trans h.bytes
      · exact Arena.free_reserved m.arena room
    · have full := Nat.not_le.mp room
      exact .inr ⟨allocate_of_none (Arena.addBytes_of_full full), full⟩

end Scriptlet
