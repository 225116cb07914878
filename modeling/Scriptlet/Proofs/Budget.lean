import Scriptlet.Machine.Outcome

/-!
The budget is kept. Whatever is asked of an arena and in whatever order, its two ends never cross, so
none of the differences that its figures are made of is cut off at zero; and what it counts as kept
for good covers the durable bytes and the routines.

An arena is changed by operations of two kinds. A `Request` asks for memory and has a price; it is
granted if the free bytes cover the price, and then they are less by exactly that. All other
operations give memory back or leave the figures alone. `Solvent` is what every operation keeps, and
a run of operations is an induction over them.
-/

namespace Scriptlet.Arena

open Eval

/-! ### Requests -/

/-- What can be asked for: a symbol, a stack word, bytes kept for good, with contents or without, or
a routine. -/
inductive Request where
  | symbol (name : Slice) (tag : Tag Native) (value : Word)
  | word (w : Word)
  | space (length : Nat)
  | bytes (contents : Text.Bytes)
  | routine (r : Routine)

namespace Request

abbrev Answer : Request → Type
  | .symbol _ _ _ => Nat
  | .word _ => Unit
  | .space _ => Nat
  | .bytes _ => Slice
  | .routine _ => Nat

def grant? : (request : Request) → Arena Native → Option (request.Answer × Arena Native)
  | .symbol name tag value, a => a.addSymbol name tag value
  | .word w, a => (a.push w).map ((), ·)
  | .space length, a => a.reserve length
  | .bytes contents, a => a.addBytes contents
  | .routine r, a => a.addRoutine r

def price : Request → Nat
  | .symbol _ _ _ => symbolSize
  | .word _ => wordSize
  | .space length => wordAligned length
  | .bytes contents => wordAligned contents.length
  | .routine _ => routineSize

end Request

/-! ### Solvency -/

theorem wordSize_dvd_wordAligned (length : Nat) : wordSize ∣ wordAligned length :=
  Nat.dvd_mul_left _ _

theorem le_wordAligned (length : Nat) : length ≤ wordAligned length := by
  unfold wordAligned wordSize
  omega

theorem wordAligned_routineSize : wordAligned routineSize = routineSize := rfl

/-- The charges of an arena are covered by its size, and what is kept for good by what was reserved
for it. -/
structure Solvent (a : Arena Native) : Prop where
  covered : a.lowEnd + wordSize * a.depth + a.reserved ≤ a.size
  aligned : wordSize ∣ a.reserved
  kept : a.durable.size + routineSize * a.routines.size ≤ a.reserved

namespace Solvent

variable {a b : Arena Native}

/-- The high end is as far from the size as the stack and what is reserved take. -/
theorem highEnd_add (h : a.Solvent) : a.highEnd + wordSize * a.depth + a.reserved = a.size := by
  have covered := h.covered
  rw [highEnd, depth, Nat.mul_comm a.stack.size]
  rw [depth] at covered
  omega

/-- The free bytes are what all charges together leave of the size. -/
theorem free_add (h : a.Solvent) :
    a.free + a.lowEnd + wordSize * a.depth + a.reserved = a.size := by
  have covered := h.covered
  have high := h.highEnd_add
  rw [free]
  omega

/-- Between two arenas of one size, the free bytes differ by what the charges differ by. -/
theorem free_sub (h : a.Solvent) (k : b.Solvent) (size : b.size = a.size) {price : Nat}
    (charges : b.lowEnd + wordSize * b.depth + b.reserved =
      a.lowEnd + wordSize * a.depth + a.reserved + price) : b.free + price = a.free := by
  have before := h.free_add
  have after := k.free_add
  omega

theorem of_le (h : a.Solvent) (size : b.size = a.size) (low : b.lowEnd ≤ a.lowEnd)
    (depth : b.depth ≤ a.depth) (reserved : b.reserved = a.reserved)
    (durable : b.durable = a.durable) (routines : b.routines = a.routines) : b.Solvent where
  covered := by
    have covered := h.covered
    have stack := Nat.mul_le_mul_left wordSize depth
    rw [size, reserved]
    omega
  aligned := reserved ▸ h.aligned
  kept := by
    rw [durable, routines, reserved]
    exact h.kept

/-- A step that takes its price from the free bytes, and keeps no more for good than it reserves. -/
theorem of_price (h : a.Solvent) {price : Nat} (more : Nat) (room : price ≤ a.free)
    (size : b.size = a.size)
    (charges : b.lowEnd + wordSize * b.depth + b.reserved =
      a.lowEnd + wordSize * a.depth + a.reserved + price)
    (reserved : b.reserved = a.reserved + more) (aligned : wordSize ∣ more)
    (kept : b.durable.size + routineSize * b.routines.size ≤
      a.durable.size + routineSize * a.routines.size + more) : b.Solvent where
  covered := by
    have := h.free_add
    omega
  aligned := reserved ▸ Nat.dvd_add h.aligned aligned
  kept := by
    have := h.kept
    omega

end Solvent

/-! ### One request -/

/-- What becomes of a granted request: it had room, and the arena has its price less. -/
structure Paid (a b : Arena Native) (price : Nat) : Prop where
  room : price ≤ a.free
  size : b.size = a.size
  solvent : b.Solvent
  free : b.free + price = a.free

theorem Solvent.paid {a b : Arena Native} (h : a.Solvent) {price : Nat} (more : Nat)
    (room : price ≤ a.free) (size : b.size = a.size)
    (charges : b.lowEnd + wordSize * b.depth + b.reserved =
      a.lowEnd + wordSize * a.depth + a.reserved + price)
    (reserved : b.reserved = a.reserved + more) (aligned : wordSize ∣ more)
    (kept : b.durable.size + routineSize * b.routines.size ≤
      a.durable.size + routineSize * a.routines.size + more) : a.Paid b price :=
  have solvent := h.of_price more room size charges reserved aligned kept
  ⟨room, size, solvent, h.free_sub solvent size charges⟩

theorem Solvent.paid_of_grant? {a b : Arena Native} (h : a.Solvent) {request : Request}
    {answer : request.Answer} (granted : request.grant? a = some (answer, b)) :
    a.Paid b request.price := by
  cases request with
  | symbol name tag value =>
    obtain ⟨room, -, rfl⟩ := addSymbol_eq_some granted
    refine h.paid 0 room rfl ?_ rfl (Nat.dvd_zero _) (Nat.le_refl _)
    simp only [lowEnd, depth, Array.size_push, Nat.add_mul, Nat.one_mul, Request.price]
    omega
  | word word =>
    obtain ⟨after, pushed, same⟩ := Option.map_eq_some_iff.mp granted
    cases same
    obtain ⟨room, rfl⟩ := push_eq_some pushed
    refine h.paid 0 room rfl ?_ rfl (Nat.dvd_zero _) (Nat.le_refl _)
    simp only [lowEnd, depth, Array.size_push, Nat.mul_add, Nat.mul_one, Request.price]
    omega
  | space length =>
    obtain ⟨room, rfl, -⟩ := reserve_eq_some granted
    exact h.paid _ room rfl (Nat.add_assoc _ _ _).symm rfl (wordSize_dvd_wordAligned length)
      (Nat.le_add_right _ _)
  | bytes bytes =>
    obtain ⟨room, -, rfl⟩ := addBytes_eq_some granted
    refine h.paid _ room rfl (Nat.add_assoc _ _ _).symm rfl (wordSize_dvd_wordAligned _) ?_
    have enough := le_wordAligned bytes.length
    simp only [Array.size_append, List.size_toArray]
    omega
  | routine routine =>
    obtain ⟨room, -, rfl⟩ := addRoutine_eq_some granted
    rw [wordAligned_routineSize] at room
    refine h.paid _ room rfl (Nat.add_assoc _ _ _).symm rfl (wordSize_dvd_wordAligned _) ?_
    simp only [Array.size_push, Nat.mul_add, Nat.mul_one, wordAligned_routineSize]
    omega

theorem grant?_of_le {a : Arena Native} {request : Request} (room : request.price ≤ a.free) :
    ∃ answer b, request.grant? a = some (answer, b) := by
  cases request with
  | symbol name tag value => exact ⟨_, _, if_pos room⟩
  | word word => exact ⟨(), _, congrArg (Option.map _) (if_pos room)⟩
  | space length => exact ⟨_, _, if_pos room⟩
  | bytes bytes =>
    have reserved : a.reserve bytes.length = some (_, _) := if_pos room
    simp only [Request.grant?, addBytes, reserved]
    exact ⟨_, _, rfl⟩
  | routine routine =>
    rw [Request.price, ← wordAligned_routineSize] at room
    have reserved : a.reserve routineSize = some (_, _) := if_pos room
    simp only [Request.grant?, addRoutine, reserved]
    exact ⟨_, _, rfl⟩

/-! ### Runs of operations -/

inductive Operation where
  | request (r : Request)
  | modifySymbol (index : Nat) (f : Symbol Native → Symbol Native)
  | rollback (count : Nat)
  | pop
  | unwind (depth : Nat)

/-- The arena after an operation. A request that is refused leaves the arena there was. -/
def Operation.after : Operation → Arena Native → Arena Native
  | .request r, a => ((r.grant? a).map Prod.snd).getD a
  | .modifySymbol index f, a => a.modifySymbol index f
  | .rollback count, a => a.rollback count
  | .pop, a => a.pop.2
  | .unwind depth, a => a.unwind depth

def after (operations : List Operation) (a : Arena Native) : Arena Native :=
  operations.foldl (fun a operation => operation.after a) a

theorem Solvent.step {a : Arena Native} (h : a.Solvent) (operation : Operation) :
    (operation.after a).Solvent ∧ (operation.after a).size = a.size := by
  cases operation with
  | request request =>
    change (((request.grant? a).map Prod.snd).getD a).Solvent ∧
      (((request.grant? a).map Prod.snd).getD a).size = a.size
    cases granted : request.grant? a with
    | none => exact ⟨h, rfl⟩
    | some grant =>
      have paid := h.paid_of_grant? granted
      exact ⟨paid.solvent, paid.size⟩
  | modifySymbol index f =>
    refine ⟨h.of_le rfl (Nat.le_of_eq ?_) (Nat.le_refl _) rfl rfl rfl, rfl⟩
    exact congrArg (· * symbolSize) (Array.size_modify ..)
  | rollback count =>
    refine ⟨h.of_le rfl (Nat.mul_le_mul_right _ ?_) (Nat.le_refl _) rfl rfl rfl, rfl⟩
    simp only [Operation.after, Arena.rollback, Array.take_eq_extract, Array.size_extract]
    omega
  | pop =>
    refine ⟨h.of_le rfl (Nat.le_refl _) ?_ rfl rfl rfl, rfl⟩
    simp [Operation.after, Arena.pop, depth]
  | unwind depth =>
    refine ⟨h.of_le rfl (Nat.le_refl _) ?_ rfl rfl rfl, rfl⟩
    simp only [Operation.after, Arena.unwind, Arena.depth, Array.take_eq_extract, Array.size_extract]
    omega

theorem Solvent.after {a : Arena Native} (h : a.Solvent) (operations : List Operation) :
    (Arena.after operations a).Solvent ∧ (Arena.after operations a).size = a.size := by
  induction operations generalizing a with
  | nil => exact ⟨h, rfl⟩
  | cons operation rest ih =>
    obtain ⟨solvent, size⟩ := h.step operation
    obtain ⟨last, same⟩ := ih solvent
    exact ⟨last, same.trans size⟩

theorem solvent_ofSize (size : Nat) : (Arena.ofSize size : Arena Native).Solvent :=
  ⟨Nat.zero_le _, Nat.dvd_zero _, Nat.le_refl _⟩

/-- How an arena treats a request: it grants what the free bytes cover and nothing else, a grant
costs the price, and a refusal is a failure for want of memory that changes nothing. -/
structure Honours (a : Arena Native) (request : Request) : Prop where
  granted_iff : (request.grant? a).isSome ↔ request.price ≤ a.free
  paid : ∀ {answer b}, request.grant? a = some (answer, b) → b.free + request.price = a.free
  done : request.price ≤ a.free → ∀ m : Machine, ∃ answer b, request.grant? a = some (answer, b) ∧
    allocate request.grant? { m with arena := a } =
      .done answer (Machine.withArena { m with arena := a } b)
  refused : a.free < request.price → ∀ m : Machine,
    allocate request.grant? { m with arena := a } = .failed .outOfMemory { m with arena := a }

theorem Solvent.honours {a : Arena Native} (h : a.Solvent) (request : Request) :
    a.Honours request where
  granted_iff := by
    constructor
    · intro granted
      obtain ⟨grant, granted⟩ := Option.isSome_iff_exists.mp granted
      exact (h.paid_of_grant? granted).room
    · intro room
      obtain ⟨answer, b, granted⟩ := grant?_of_le room
      simp [granted]
  paid granted := (h.paid_of_grant? granted).free
  done room m := by
    obtain ⟨answer, b, granted⟩ := grant?_of_le room
    refine ⟨answer, b, granted, ?_⟩
    simp only [allocate, granted]
  refused short m := by
    have refused : request.grant? a = none := by
      cases granted : request.grant? a with
      | none => rfl
      | some grant => exact absurd (h.paid_of_grant? granted).room (Nat.not_le_of_lt short)
    simp only [allocate, refused]

/-- The budget is kept. After any operations on a new arena the two ends are in order and within the
size, and so are the charges that the ends are computed from. What is reserved is a whole number of
words, and covers the durable bytes and the routines. Every request is honoured. -/
theorem after_within_budget (size : Nat) (operations : List Operation) :
    let a := after operations (Arena.ofSize size)
    a.size = size ∧ a.lowEnd ≤ a.highEnd ∧ a.highEnd ≤ a.size ∧
      a.depth * wordSize + a.reserved ≤ a.size ∧
      wordSize ∣ a.size - wordSize * a.depth - a.highEnd ∧
      a.durable.size + routineSize * a.routines.size ≤ a.size - wordSize * a.depth - a.highEnd ∧
      ∀ request, a.Honours request := by
  intro a
  obtain ⟨solvent, same⟩ := (solvent_ofSize size).after operations
  have high : a.highEnd + wordSize * a.depth + a.reserved = a.size := solvent.highEnd_add
  have covered : a.lowEnd + wordSize * a.depth + a.reserved ≤ a.size := solvent.covered
  have reserved : a.size - wordSize * a.depth - a.highEnd = a.reserved := by omega
  rw [reserved, Nat.mul_comm a.depth]
  refine ⟨same, by omega, by omega, by omega, solvent.aligned, solvent.kept, solvent.honours⟩

end Scriptlet.Arena
