import Scriptlet.Memory.Symbol

/-!
The arena: everything that a machine's memory budget pays for. The budget is a number of
bytes. Symbols are charged to its low end, the stack and what is kept for good to its high
end, and an allocation is refused when the two ends would cross. So the arena is a budget,
not an address space: its contents are kept as they are, and only their charges are counted.

A refused allocation gives `none`, and the caller still has the arena it had.
-/

namespace Scriptlet

def wordSize : Nat := 8

/-- The charge for a symbol: four words. -/
def symbolSize : Nat := 4 * wordSize

/-- The charge for a routine: a count, and three words for each parameter name and for the
body. -/
def routineSize : Nat := wordSize * (1 + 3 * (maxArguments + 1))

/-- The least multiple of the word size that is not below `length`. -/
def wordAligned (length : Nat) : Nat := (length + wordSize - 1) / wordSize * wordSize

/-- Memory under a budget of `size` bytes. `reserved` counts what is kept for good; the
durable bytes and the routines are part of that. -/
structure Arena (ν : Type) where
  size : Nat
  symbols : Array (Symbol ν) := #[]
  stack : Array Word := #[]
  durable : Array UInt8 := #[]
  routines : Array Routine := #[]
  reserved : Nat := 0

namespace Arena

variable {ν : Type}

def ofSize (size : Nat) : Arena ν := { size }

/-! ### The two ends -/

def lowEnd (a : Arena ν) : Nat := a.symbols.size * symbolSize

/-- The start of what everything else is charged. -/
def highEnd (a : Arena ν) : Nat := a.size - a.stack.size * wordSize - a.reserved

def free (a : Arena ν) : Nat := a.highEnd - a.lowEnd

def depth (a : Arena ν) : Nat := a.stack.size

/-! ### Symbols -/

def addSymbol (a : Arena ν) (name : Slice) (tag : Tag ν) (value : Word) : Option (Nat × Arena ν) :=
  if symbolSize ≤ a.free then
    some (a.symbols.size, { a with symbols := a.symbols.push ⟨name, tag, value⟩ })
  else none

def modifySymbol (a : Arena ν) (index : Nat) (f : Symbol ν → Symbol ν) : Arena ν :=
  { a with symbols := a.symbols.modify index f }

def setValue (a : Arena ν) (index : Nat) (value : Word) : Arena ν :=
  a.modifySymbol index fun s => { s with value }

def rollback (a : Arena ν) (count : Nat) : Arena ν :=
  { a with symbols := a.symbols.take count }

/-! ### The stack -/

def push (a : Arena ν) (word : Word) : Option (Arena ν) :=
  if wordSize ≤ a.free then some { a with stack := a.stack.push word } else none

/-- Pops a word. An empty stack yields zero. -/
def pop (a : Arena ν) : Word × Arena ν :=
  (a.stack.back?.getD 0, { a with stack := a.stack.pop })

def unwind (a : Arena ν) (depth : Nat) : Arena ν :=
  { a with stack := a.stack.take depth }

/-! ### What is kept for good -/

/-- Sets aside `length` bytes for good, in whole words, and gives the new high end. -/
def reserve (a : Arena ν) (length : Nat) : Option (Nat × Arena ν) :=
  if wordAligned length ≤ a.free then
    let after := { a with reserved := a.reserved + wordAligned length }
    some (after.highEnd, after)
  else none

/-- Keeps a copy of some bytes for good. -/
def addBytes (a : Arena ν) (bytes : Text.Bytes) : Option (Slice × Arena ν) :=
  match a.reserve bytes.length with
  | some (_, a) =>
    some (⟨.durable, a.durable.size, bytes.length⟩,
      { a with durable := a.durable ++ bytes.toArray })
  | none => none

def addRoutine (a : Arena ν) (routine : Routine) : Option (Nat × Arena ν) :=
  match a.reserve routineSize with
  | some (_, a) => some (a.routines.size, { a with routines := a.routines.push routine })
  | none => none

/-! ### What a granted allocation does -/

theorem addSymbol_eq_some {a a' : Arena ν} {name : Slice} {tag : Tag ν} {value : Word} {index : Nat}
    (h : a.addSymbol name tag value = some (index, a')) :
    symbolSize ≤ a.free ∧ index = a.symbols.size ∧
      a' = { a with symbols := a.symbols.push ⟨name, tag, value⟩ } := by
  unfold addSymbol at h
  split at h
  · next room =>
    cases h
    exact ⟨room, rfl, rfl⟩
  · cases h

theorem push_eq_some {a a' : Arena ν} {word : Word} (h : a.push word = some a') :
    wordSize ≤ a.free ∧ a' = { a with stack := a.stack.push word } := by
  unfold push at h
  split at h
  · next room =>
    cases h
    exact ⟨room, rfl⟩
  · cases h

theorem reserve_eq_some {a a' : Arena ν} {length stop : Nat} (h : a.reserve length = some (stop, a')) :
    wordAligned length ≤ a.free ∧ a' = { a with reserved := a.reserved + wordAligned length } ∧
      stop = a'.highEnd := by
  unfold reserve at h
  split at h
  · next room =>
    cases h
    exact ⟨room, rfl, rfl⟩
  · cases h

theorem addBytes_eq_some {a a' : Arena ν} {bytes : Text.Bytes} {slice : Slice}
    (h : a.addBytes bytes = some (slice, a')) :
    wordAligned bytes.length ≤ a.free ∧ slice = ⟨.durable, a.durable.size, bytes.length⟩ ∧
      a' = { a with
        reserved := a.reserved + wordAligned bytes.length
        durable := a.durable ++ bytes.toArray } := by
  unfold addBytes at h
  split at h
  · next stop after reserved =>
    obtain ⟨room, rfl, -⟩ := reserve_eq_some reserved
    cases h
    exact ⟨room, rfl, rfl⟩
  · cases h

theorem addRoutine_eq_some {a a' : Arena ν} {routine : Routine} {number : Nat}
    (h : a.addRoutine routine = some (number, a')) :
    wordAligned routineSize ≤ a.free ∧ number = a.routines.size ∧
      a' = { a with
        reserved := a.reserved + wordAligned routineSize
        routines := a.routines.push routine } := by
  unfold addRoutine at h
  split at h
  · next stop after reserved =>
    obtain ⟨room, rfl, -⟩ := reserve_eq_some reserved
    cases h
    exact ⟨room, rfl, rfl⟩
  · cases h

/-! ### What is granted, and what is refused -/

theorem addSymbol_of_room {a : Arena ν} {name : Slice} {tag : Tag ν} {value : Word}
    (room : symbolSize ≤ a.free) : a.addSymbol name tag value =
      some (a.symbols.size, { a with symbols := a.symbols.push ⟨name, tag, value⟩ }) := if_pos room

theorem addSymbol_of_full {a : Arena ν} {name : Slice} {tag : Tag ν} {value : Word}
    (full : a.free < symbolSize) : a.addSymbol name tag value = none := if_neg (Nat.not_le.mpr full)

theorem push_of_full {a : Arena ν} {word : Word} (full : a.free < wordSize) : a.push word = none :=
  if_neg (Nat.not_le.mpr full)

theorem addBytes_of_room {a : Arena ν} {bytes : Text.Bytes}
    (room : wordAligned bytes.length ≤ a.free) : a.addBytes bytes =
      some (⟨.durable, a.durable.size, bytes.length⟩,
        { a with
          reserved := a.reserved + wordAligned bytes.length
          durable := a.durable ++ bytes.toArray }) := by
  simp only [addBytes, reserve, if_pos room]

theorem addBytes_of_full {a : Arena ν} {bytes : Text.Bytes}
    (full : a.free < wordAligned bytes.length) : a.addBytes bytes = none := by
  simp only [addBytes, reserve, if_neg (Nat.not_le.mpr full)]

theorem free_push_symbol (a : Arena ν) (s : Symbol ν) :
    ({ a with symbols := a.symbols.push s } : Arena ν).free = a.free - symbolSize := by
  simp only [free, highEnd, lowEnd, Array.size_push, Nat.succ_mul, Nat.sub_sub, Nat.add_assoc]

end Arena

end Scriptlet
