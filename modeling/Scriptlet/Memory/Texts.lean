import Scriptlet.Memory.Slice

/-!
Script texts by slot. A text is kept as long as slices may point into it. A released slot is
free, the lowest free slot is taken for the next text, and free slots at the end are
forgotten.
-/

namespace Scriptlet

/-- The script texts a machine holds; a free slot holds none. -/
structure Texts where
  slots : Array (Option (Array UInt8)) := #[]
  deriving DecidableEq, Repr

namespace Texts

def text? (t : Texts) (slot : Nat) : Option (Array UInt8) := t.slots[slot]?.join

def get (t : Texts) (slot : Nat) : Array UInt8 := (t.text? slot).getD #[]

/-- Puts a text into the lowest free slot and gives that slot. -/
def retain (t : Texts) (text : Array UInt8) : Nat × Texts :=
  match t.slots.findIdx? Option.isNone with
  | some slot => (slot, ⟨t.slots.setIfInBounds slot (some text)⟩)
  | none => (t.slots.size, ⟨t.slots.push (some text)⟩)

def release (t : Texts) (slot : Nat) : Texts :=
  ⟨(t.slots.setIfInBounds slot none).popWhile Option.isNone⟩

/-! ### What the slots hold afterwards -/

/-- Forgetting free slots at the end changes no text. -/
theorem getElem?_join_popWhile (slots : Array (Option (Array UInt8))) (i : Nat) :
    (slots.popWhile Option.isNone)[i]?.join = slots[i]?.join := by
  fun_induction Array.popWhile Option.isNone slots with
  | case1 slots hpos hfree ih =>
    have last : slots[slots.size - 1]? = some none := by
      rw [Array.getElem?_eq_getElem (by omega), Option.isNone_iff_eq_none.mp hfree]
    rw [ih, Array.getElem?_pop]
    by_cases hi : i < slots.size - 1
    · simp [hi]
    · by_cases hlast : i = slots.size - 1
      · simp [hlast, last]
      · simp [hi, show slots.size ≤ i by omega]
  | case2 slots hpos hfree => rfl
  | case3 slots hpos => rfl

theorem text?_retain_slot (t : Texts) (text : Array UInt8) : t.text? (t.retain text).1 = none := by
  unfold retain text?
  split
  · next slot found =>
    obtain ⟨inside, isFree, -⟩ := Array.findIdx?_eq_some_iff_getElem.mp found
    simp [inside, Option.isNone_iff_eq_none.mp isFree]
  · simp

/-- A text is found in the slot it was put into, and the other slots are as before. -/
theorem text?_retain (t : Texts) (text : Array UInt8) (i : Nat) :
    (t.retain text).2.text? i = if i = (t.retain text).1 then some text else t.text? i := by
  unfold retain text?
  split
  · next slot found =>
    obtain ⟨inside, -⟩ := Array.findIdx?_eq_some_iff_getElem.mp found
    by_cases h : i = slot
    · simp [h, inside]
    · simp [h, Ne.symm h]
  · by_cases h : i = t.slots.size
    · simp [h]
    · simp [h, Array.getElem?_push]

/-- A slot is free after its release, and the other slots are as before. -/
theorem text?_release (t : Texts) (slot i : Nat) :
    (t.release slot).text? i = if i = slot then none else t.text? i := by
  unfold release text?
  rw [getElem?_join_popWhile, Array.getElem?_setIfInBounds]
  by_cases h : i = slot
  · subst h
    split
    · split <;> simp
    · exact absurd rfl ‹_›
  · simp [h, Ne.symm h]

end Texts

end Scriptlet
