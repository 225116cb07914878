import Scriptlet.Lexeme.Basic

/-!
Slices: names and bodies by position. A slice owns no bytes; it says in which store they are
and where. Whether a slice still denotes the bytes it was made for depends on what happens
to that store, so a slice is read only together with the stores of a machine.
-/

namespace Scriptlet

/-- A store of bytes: bytes that never change, the durable bytes of the arena, or the script
text in a slot. -/
inductive Source where
  | fixed (bytes : Array UInt8)
  | durable
  | text (slot : Nat)
  deriving DecidableEq, Repr

/-- The `length` bytes of a store from offset `start` on. -/
structure Slice where
  source : Source
  start : Nat
  length : Nat
  deriving DecidableEq, Repr

namespace Slice

def stop (s : Slice) : Nat := s.start + s.length

def empty : Slice := ⟨.durable, 0, 0⟩

def ofBytes (bytes : Array UInt8) : Slice := ⟨.fixed bytes, 0, bytes.size⟩

def ofString (text : String) : Slice := ofBytes text.toByteArray.data

def ofSpan (source : Source) (span : Span) : Slice := ⟨source, span.start, span.stop - span.start⟩

/-- The bytes of a slice, given those of its store. A slice that reaches past the end of the
store is empty. -/
def bytesIn (s : Slice) (store : Array UInt8) : Text.Bytes :=
  if s.stop ≤ store.size then (store.extract s.start s.stop).toList else []

/-! ### Comparing without copying -/

/-- Whether the `length` bytes of a store from `start` on are the given ones. -/
def matchesAt (store : Array UInt8) : (start length : Nat) → Text.Bytes → Bool
  | _, 0, [] => true
  | start, length + 1, b :: rest =>
    store[start]? == some b && matchesAt store (start + 1) length rest
  | _, _, _ => false

/-- Whether a slice denotes the given bytes, given those of its store. -/
def denotes (s : Slice) (store : Array UInt8) (bytes : Text.Bytes) : Bool :=
  if s.stop ≤ store.size then matchesAt store s.start s.length bytes else bytes.isEmpty

theorem matchesAt_iff {store : Array UInt8} {start length : Nat} {bytes : Text.Bytes}
    (h : start + length ≤ store.size) :
    matchesAt store start length bytes = true ↔
      (store.extract start (start + length)).toList = bytes := by
  induction length generalizing start bytes with
  | zero => cases bytes <;> simp [matchesAt]
  | succ length ih =>
    have inside : start < store.size := by omega
    have first : (store.extract start (start + (length + 1))).toList =
        store[start] :: (store.extract (start + 1) (start + 1 + length)).toList := by
      have hdrop := List.drop_eq_getElem_cons (l := store.toList) (by simpa using inside)
      have hlength : start + (length + 1) - start = length + 1 := by omega
      have hlength' : start + 1 + length - (start + 1) = length := by omega
      rw [Array.toList_extract, Array.toList_extract, List.extract_eq_take_drop,
        List.extract_eq_take_drop, hlength, hlength', hdrop, List.take_succ_cons,
        Array.getElem_toList]
    rw [first]
    cases bytes with
    | nil => simp [matchesAt]
    | cons b rest =>
      rw [matchesAt, Bool.and_eq_true, ih (by omega), List.cons.injEq, beq_iff_eq,
        Array.getElem?_eq_getElem inside, Option.some.injEq]

/-- Comparing gives the same answer as reading the slice. -/
theorem denotes_iff (s : Slice) (store : Array UInt8) (bytes : Text.Bytes) :
    s.denotes store bytes = true ↔ s.bytesIn store = bytes := by
  unfold denotes bytesIn
  split
  · exact matchesAt_iff ‹_›
  · cases bytes <;> simp

end Slice

end Scriptlet
