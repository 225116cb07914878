import Scriptlet.Proofs.Tandem.Steps
import Scriptlet.Proofs.Twin.Memories

/-!
Two machines side by side. They are level (`Core`) if nothing tells them apart but where their slices
are, what they have written to the error stream, and, in lenient company, how much room they have.
A script, a text or a native that is run on level machines does the same on both and leaves them level.
`Paired` says so of two outcomes: both are done or both fail, with errors that are the same up to
lines. An error may be excused on one side, and then nothing is said of the other: in lenient company
memory may run out on either side.

Nothing is said of computations that are stopped, except that they are stopped for the same reason.
-/

namespace Scriptlet

open Eval

variable {α β σ : Type} {strict : Bool} {m m' n n' : Machine}

/-! ### Level machines -/

/-- Machines that nothing tells apart but where their slices are. -/
structure Core (strict : Bool) (m m' : Machine) : Prop where
  name : m'.name = m.name
  options : m'.options = m.options
  quoting : m'.quoting = m.quoting
  result : m'.result = m.result
  literals : m'.literals = m.literals
  asked : m'.asked = m.asked
  out : m'.written .out = m.written .out
  stack : m'.arena.stack = m.arena.stack
  room : strict = true → m'.arena.size = m.arena.size ∧ m'.arena.reserved = m.arena.reserved
  table : Memory.TableAlike strict m.memory m'.memory
  sound : m.Sound true
  sound' : m'.Sound true

namespace Core

variable (h : Core strict m m')

include h

theorem size_symbols : m'.arena.symbols.size = m.arena.symbols.size := h.table.size

theorem index? (name : Text.Bytes) : m'.index? name = m.index? name := h.table.index? name

/-- With the same room, the same is left of it. -/
theorem free (hstrict : strict = true) : m'.arena.free = m.arena.free := by
  obtain ⟨size, reserved⟩ := h.room hstrict
  simp only [Arena.free, Arena.highEnd, Arena.lowEnd, size, reserved, h.stack, h.size_symbols]

theorem view (hstrict : strict = true) : m'.view = m.view := by
  obtain ⟨size, reserved⟩ := h.room hstrict
  simp only [Machine.view, h.name, h.options, h.result, Arena.highEnd, Arena.lowEnd, Arena.depth, size,
    reserved, h.stack, h.size_symbols, h.table.symbolList]

/-! Where the machines read, and how deep they are in evaluations, is nobody's business. -/

theorem place (cursor cursor' : Cursor) (token token' : Token) (duplicate duplicate' : Bool)
    (depth depth' : Nat) :
    Core strict { m with cursor, token, duplicate, depth }
      { m' with cursor := cursor', token := token', duplicate := duplicate', depth := depth' } :=
  { h with sound := ⟨h.sound.intact, h.sound.told⟩, sound' := ⟨h.sound'.intact, h.sound'.told⟩ }

theorem withQuoting (quoting : Quoting) : Core strict { m with quoting } { m' with quoting } :=
  { h with
    quoting := rfl
    sound := ⟨h.sound.intact, h.sound.told⟩
    sound' := ⟨h.sound'.intact, h.sound'.told⟩ }

theorem withLiterals (literals : Literals) : Core strict { m with literals } { m' with literals } :=
  { h with
    literals := rfl
    sound := ⟨h.sound.intact, h.sound.told⟩
    sound' := ⟨h.sound'.intact, h.sound'.told⟩ }

theorem withResult (result : Word) : Core strict { m with result } { m' with result } :=
  { h with
    result := rfl
    sound := ⟨h.sound.intact, h.sound.told⟩
    sound' := ⟨h.sound'.intact, h.sound'.told⟩ }

theorem withAsked (asked : Nat) : Core strict { m with asked } { m' with asked } :=
  { h with
    asked := rfl
    sound := ⟨h.sound.intact, h.sound.told⟩
    sound' := ⟨h.sound'.intact, h.sound'.told⟩ }

theorem note : Core strict m.note m'.note := { h with sound := h.sound.note, sound' := h.sound'.note }

/-- What a machine writes to the output is seen, and what it writes to the error stream is not. -/
theorem write (stream : Stream) {bytes bytes' : Text.Bytes} (same : stream = .out → bytes' = bytes) :
    Core strict (m.write stream bytes) (m'.write stream bytes') := by
  have out : (m'.write stream bytes').written .out = (m.write stream bytes).written .out := by
    have written := h.out
    simp only [Machine.written, Machine.write, Array.toList_push, List.filter_append,
      List.flatMap_append] at written ⊢
    rw [written]
    cases stream with
    | out => rw [same rfl]
    | err => rfl
  exact { h with out, sound := ⟨h.sound.intact, h.sound.told⟩, sound' := ⟨h.sound'.intact, h.sound'.told⟩ }

theorem withArena {arena arena' : Arena Native} (stack : arena'.stack = arena.stack)
    (room : strict = true → arena'.size = arena.size ∧ arena'.reserved = arena.reserved)
    (table : Memory.TableAlike strict ⟨arena, m.texts⟩ ⟨arena', m'.texts⟩)
    (sound : (m.withArena arena).Sound true) (sound' : (m'.withArena arena').Sound true) :
    Core strict (m.withArena arena) (m'.withArena arena') :=
  { h with stack, room, table, sound, sound' }

theorem withStack (stack : Array Word) :
    Core strict (m.withArena { m.arena with stack }) (m'.withArena { m'.arena with stack }) := by
  have g : Grows m (m.withArena { m.arena with stack }) := Memory.Grows.of_eq rfl rfl rfl rfl
  have g' : Grows m' (m'.withArena { m'.arena with stack }) := Memory.Grows.of_eq rfl rfl rfl rfl
  exact h.withArena rfl h.room
    (h.table.grows h.sound.intact h.sound'.intact g g' rfl rfl h.table.routines)
    (h.sound.withArena_grows (h.sound.intact.stack stack) g)
    (h.sound'.withArena_grows (h.sound'.intact.stack stack) g')

theorem rollback (count : Nat) :
    Core strict (m.withArena (m.arena.rollback count)) (m'.withArena (m'.arena.rollback count)) :=
  h.withArena h.stack h.room (h.table.rollback count) (h.sound.rollback count) (h.sound'.rollback count)

/-- Both tables get a symbol more, of the same index. -/
theorem addSymbol {name name' : Slice} {tag tag' : Tag Native} {value value' : Word}
    {index index' : Nat} {arena arena' : Arena Native}
    (granted : m.arena.addSymbol name tag value = some (index, arena))
    (granted' : m'.arena.addSymbol name' tag' value' = some (index', arena'))
    (alike : Memory.SymbolAlike strict m.memory m'.memory ⟨name, tag, value⟩ ⟨name', tag', value'⟩)
    (sound : (m.withArena arena).Sound true) (sound' : (m'.withArena arena').Sound true) :
    index' = index ∧ Core strict (m.withArena arena) (m'.withArena arena') := by
  obtain ⟨index_eq, table⟩ :=
    h.table.addSymbol h.sound.intact h.sound'.intact granted granted' alike
  refine ⟨index_eq, h.withArena ?_ ?_ table sound sound'⟩
  all_goals
    obtain ⟨-, -, rfl⟩ := Arena.addSymbol_eq_some granted
    obtain ⟨-, -, rfl⟩ := Arena.addSymbol_eq_some granted'
  · exact h.stack
  · exact h.room

end Core

/-! ### Steps that are not seen -/

/-- A machine after a step that changes nothing there is to see but, perhaps, how much room there is. -/
structure Quiet (strict : Bool) (m n : Machine) : Prop where
  name : n.name = m.name
  options : n.options = m.options
  quoting : n.quoting = m.quoting
  result : n.result = m.result
  literals : n.literals = m.literals
  asked : n.asked = m.asked
  out : n.written .out = m.written .out
  stack : n.arena.stack = m.arena.stack
  size : n.arena.size = m.arena.size
  symbols : n.arena.symbols = m.arena.symbols
  sights : ∀ {i : Nat} {s}, m.arena.symbols[i]? = some s →
    n.memory.sights strict s = m.memory.sights strict s
  sound : n.Sound true

theorem Quiet.refl (sound : m.Sound true) : Quiet strict m m :=
  ⟨rfl, rfl, rfl, rfl, rfl, rfl, rfl, rfl, rfl, rfl, fun _ => rfl, sound⟩

/-- The steps of the two machines need not be the same ones. -/
theorem Core.quiet (h : Core strict m m') (q : Quiet strict m n) (q' : Quiet strict m' n')
    (routines : n'.arena.routines.size = n.arena.routines.size)
    (reserved : strict = true → n'.arena.reserved = n.arena.reserved) : Core strict n n' where
  name := by rw [q.name, q'.name, h.name]
  options := by rw [q.options, q'.options, h.options]
  quoting := by rw [q.quoting, q'.quoting, h.quoting]
  result := by rw [q.result, q'.result, h.result]
  literals := by rw [q.literals, q'.literals, h.literals]
  asked := by rw [q.asked, q'.asked, h.asked]
  out := by rw [q.out, q'.out, h.out]
  stack := by rw [q.stack, q'.stack, h.stack]
  room hstrict := ⟨by rw [q.size, q'.size, (h.room hstrict).1], reserved hstrict⟩
  table := h.table.of_sights q.symbols q'.symbols routines q.sights q'.sights
  sound := q.sound
  sound' := q'.sound

theorem quiet_addBytes {bytes : Text.Bytes} {slice : Slice} {arena : Arena Native}
    (sound : m.Sound true) (granted : m.arena.addBytes bytes = some (slice, arena)) :
    Quiet strict m (m.withArena arena) := by
  have g : Grows m (m.withArena arena) := Memory.Grows.addBytes granted
  have after := sound.withArena_grows (sound.intact.addBytes granted) g
  have sights : ∀ {i : Nat} {s}, m.arena.symbols[i]? = some s →
      (m.withArena arena).memory.sights strict s = m.memory.sights strict s := fun found =>
    sound.intact.sights g found (.refl _)
  obtain ⟨-, -, rfl⟩ := Arena.addBytes_eq_some granted
  exact ⟨rfl, rfl, rfl, rfl, rfl, rfl, rfl, rfl, rfl, rfl, sights, after⟩

theorem quiet_addRoutine {routine : Routine} {number : Nat} {arena : Arena Native}
    (sound : m.Sound true) (granted : m.arena.addRoutine routine = some (number, arena))
    (tidy : m.memory.Tidy routine) : Quiet strict m (m.withArena arena) := by
  have g : Grows m (m.withArena arena) := Memory.Grows.addRoutine granted
  have after := sound.withArena_grows (sound.intact.addRoutine granted tidy) g
  have sights : ∀ {i : Nat} {s}, m.arena.symbols[i]? = some s →
      (m.withArena arena).memory.sights strict s = m.memory.sights strict s := fun found =>
    sound.intact.sights g found (.refl _)
  obtain ⟨-, -, rfl⟩ := Arena.addRoutine_eq_some granted
  exact ⟨rfl, rfl, rfl, rfl, rfl, rfl, rfl, rfl, rfl, rfl, sights, after⟩

theorem quiet_retain (sound : m.Sound true) (text : Array UInt8) :
    Quiet strict m (m.withTexts (m.texts.retain text).2) := by
  have reached : Reached true .durable m (m.withTexts (m.texts.retain text).2) :=
    reached_retain sound text
  exact ⟨rfl, rfl, rfl, rfl, rfl, rfl, rfl, rfl, rfl, rfl,
    fun found => sound.intact.sights reached.grows found (.refl _), reached.sound⟩

theorem quiet_release {slot : Nat} (sound : (m.withTexts (m.texts.release slot)).Sound true) :
    Quiet strict m (m.withTexts (m.texts.release slot)) :=
  ⟨rfl, rfl, rfl, rfl, rfl, rfl, rfl, rfl, rfl, rfl,
    fun found => sound.intact.sights_release (x := m.memory) found, sound⟩

/-! ### Outcomes side by side -/

/-- Two outcomes. If both are done, they are related by `D`; if both fail, with errors that are the same
up to lines, the machines are related by `F`. A failure that is excused on its side settles the matter. -/
inductive Paired (left right : Error → Prop) (D : α → α → Machine → Machine → Prop)
    (F : Machine → Machine → Prop) : Outcome α → Outcome α → Prop where
  | done {a a' : α} {n n' : Machine} (h : D a a' n n') : Paired left right D F (.done a n) (.done a' n')
  | failed {e e' : Error} {n n' : Machine} (he : e.Alike e') (h : F n n') :
    Paired left right D F (.failed e n) (.failed e' n')
  | stopped {why : Stop} {n n' : Machine} : Paired left right D F (.stopped why n) (.stopped why n')
  | excused {e : Error} {n : Machine} {o' : Outcome α} (he : left e) :
    Paired left right D F (.failed e n) o'
  | excused' {e : Error} {n' : Machine} {o : Outcome α} (he : right e) :
    Paired left right D F o (.failed e n')

namespace Paired

variable {left right : Error → Prop} {D : Post α}
  {E : β → β → Machine → Machine → Prop} {F G : Machine → Machine → Prop} {o o' : Outcome α}

theorem imp {left' right' : Error → Prop} {D' : Post α}
    (h : Paired left right D F o o') (hleft : ∀ e, left e → left' e) (hright : ∀ e, right e → right' e)
    (hD : ∀ {a a' n n'}, o = .done a n → o' = .done a' n' → D a a' n n' → D' a a' n n')
    (hF : ∀ {e e' n n'}, o = .failed e n → o' = .failed e' n' → F n n' → G n n') :
    Paired left' right' D' G o o' := by
  cases h with
  | done h => exact .done (hD rfl rfl h)
  | failed he h => exact .failed he (hF rfl rfl h)
  | stopped => exact .stopped
  | excused he => exact .excused (hleft _ he)
  | excused' he => exact .excused' (hright _ he)

theorem bind {x x' : Eval α} {f f' : α → Eval β} (h : Paired left right D F (x m) (x' m'))
    (next : ∀ {a a' n n'}, D a a' n n' → Paired left right E F (f a n) (f' a' n')) :
    Paired left right E F ((x >>= f) m) ((x' >>= f') m') := by
  rw [bind_apply, bind_apply]
  generalize x m = o at h
  generalize x' m' = o' at h
  cases h with
  | done h => exact next h
  | failed he h => exact .failed he h
  | stopped => exact .stopped
  | excused he => exact .excused he
  | excused' he => exact .excused' he

/-- Loops that go round side by side, under an invariant. -/
theorem loop {turn turn' : σ → Eval (Turn σ α)} {I : σ → Machine → Machine → Prop}
    (hturn : ∀ {s n n'}, I s n n' → Paired left right (Turns I D) F (turn s n) (turn' s n'))
    (passes : Nat) {s : σ} (hI : I s m m') :
    Paired left right D F (Eval.loop turn passes s m) (Eval.loop turn' passes s m') := by
  induction passes generalizing s m m' with
  | zero => exact .stopped
  | succ passes ih =>
    have step := hturn hI
    unfold Eval.loop
    generalize turn s m = o at step ⊢
    generalize turn' s m' = o' at step ⊢
    cases step with
    | done h =>
      cases h with
      | again hI => exact ih hI
      | finish h => exact .done h
    | failed he h => exact .failed he h
    | stopped => exact .stopped
    | excused he => exact .excused he
    | excused' he =>
      exact .excused' he

theorem adjust {D' : Post α} {g g' : Machine → Machine}
    (h : Paired left right D F o o')
    (hD : ∀ {a a' n n'}, o = .done a n → o' = .done a' n' → D a a' n n' → D' a a' (g n) (g' n'))
    (hF : ∀ {e e' n n'}, o = .failed e n → o' = .failed e' n' → F n n' → G (g n) (g' n')) :
    Paired left right D' G (o.adjust g) (o'.adjust g') := by
  cases h with
  | done h => exact .done (hD rfl rfl h)
  | failed he h => exact .failed he (hF rfl rfl h)
  | stopped => exact .stopped
  | excused he => exact .excused he
  | excused' he =>
    exact .excused' he

theorem adjustUndone {g g' : Machine → Machine} (h : Paired left right D F o o')
    (hF : ∀ {n n'}, F n n' → F (g n) (g' n')) :
    Paired left right D F (o.adjustUndone g) (o'.adjustUndone g') := by
  cases h with
  | done h => exact .done h
  | failed he h => exact .failed he (hF h)
  | stopped => exact .stopped
  | excused he => exact .excused he
  | excused' he =>
    exact .excused' he

/-- Where the left side is done and there is no excuse on the right, the right side is done too. -/
theorem of_done {a : α} {n : Machine} (h : Paired left right D F (.done a n) o')
    (none : ∀ e, ¬ right e) : ∃ a' n', o' = .done a' n' ∧ D a a' n n' := by
  cases h with
  | done h => exact ⟨_, _, rfl, h⟩
  | excused' he => exact absurd he (none _)

end Paired

/-! ### Memory that may run out -/

/-- In lenient company, memory may run out on one side. -/
def Scarce (strict : Bool) (e : Error) : Prop := strict = false ∧ e.kind = .outOfMemory

/-- An allocation on both sides. With the same room, it is granted on both or refused on both. -/
theorem paired_allocate {left right : Error → Prop} {D : Post α}
    {F : Machine → Machine → Prop} {f f' : Arena Native → Option (α × Arena Native)}
    (hleft : ∀ e, Scarce strict e → left e) (hright : ∀ e, Scarce strict e → right e)
    (together : strict = true → ((f m.arena).isSome ↔ (f' m'.arena).isSome)) (hF : F m m')
    (hD : ∀ {a a' arena arena'}, f m.arena = some (a, arena) → f' m'.arena = some (a', arena') →
      D a a' (m.withArena arena) (m'.withArena arena')) :
    Paired left right D F (allocate f m) (allocate f' m') := by
  unfold allocate
  have refused : strict = false → Scarce strict .outOfMemory := fun h => ⟨h, rfl⟩
  cases granted : f m.arena with
  | some given =>
    cases granted' : f' m'.arena with
    | some given' => exact .done (hD granted granted')
    | none =>
      cases strict with
      | true => simp [granted, granted'] at together
      | false => exact .excused' (hright _ (refused rfl))
  | none =>
    cases granted' : f' m'.arena with
    | some given' =>
      cases strict with
      | true => simp [granted, granted'] at together
      | false => exact .excused (hleft _ (refused rfl))
    | none => exact .failed (.refl _) hF

namespace Arena

variable {ν : Type} (a : Arena ν)

theorem isSome_addSymbol (name : Slice) (tag : Tag ν) (value : Word) :
    (a.addSymbol name tag value).isSome ↔ symbolSize ≤ a.free := by
  unfold addSymbol
  split <;> simp [*]

theorem isSome_push (word : Word) : (a.push word).isSome ↔ wordSize ≤ a.free := by
  unfold push
  split <;> simp [*]

theorem isSome_addBytes (bytes : Text.Bytes) :
    (a.addBytes bytes).isSome ↔ wordAligned bytes.length ≤ a.free := by
  unfold addBytes reserve
  split <;> simp_all

theorem isSome_addRoutine (routine : Routine) :
    (a.addRoutine routine).isSome ↔ wordAligned routineSize ≤ a.free := by
  unfold addRoutine reserve
  split <;> simp_all

end Arena

/-! ### Level machines stay level -/

/-- What a computation outside scripts does on level machines: it comes to the same, and leaves the
machines level. -/
def Concur (strict : Bool) (o o' : Outcome α) : Prop :=
  Paired (Scarce strict) (Scarce strict) (Equally (Core strict)) (Core strict) o o'

namespace Concur

theorem bind {x x' : Eval α} {f f' : α → Eval β} (h : Concur strict (x m) (x' m'))
    (next : ∀ {a n n'}, Core strict n n' → Concur strict (f a n) (f' a n')) :
    Concur strict ((x >>= f) m) ((x' >>= f') m') := by
  refine Paired.bind h fun {a a' n n'} ⟨same, core⟩ => ?_
  subst same
  exact next core

/-- What is put back on both sides leaves level machines level. -/
theorem adjust {g g' : Machine → Machine} {o o' : Outcome α} (h : Concur strict o o')
    (hg : ∀ {n n'}, o.machine = n → o'.machine = n' → Core strict n n' → Core strict (g n) (g' n')) :
    Concur strict (o.adjust g) (o'.adjust g') :=
  Paired.adjust h (fun ho ho' ⟨same, core⟩ => ⟨same, hg (by rw [ho]; rfl) (by rw [ho']; rfl) core⟩)
    fun ho ho' core => hg (by rw [ho]; rfl) (by rw [ho']; rfl) core

/-- What follows an attempt. In lenient company a failure for want of memory has to go on. -/
theorem attempt {x x' : Eval α} {f f' : Except Error α → Eval β} (h : Concur strict (x m) (x' m'))
    (ok : ∀ {a n n'}, Core strict n n' → Concur strict (f (.ok a) n) (f' (.ok a) n'))
    (error : ∀ {e e' n n'}, e.Alike e' → Core strict n n' →
      Concur strict (f (.error e) n) (f' (.error e') n'))
    (scarce : ∀ {e n}, Scarce strict e → f (.error e) n = .failed e n)
    (scarce' : ∀ {e n}, Scarce strict e → f' (.error e) n = .failed e n) :
    Concur strict ((Eval.attempt x >>= f) m) ((Eval.attempt x' >>= f') m') := by
  rw [bind_apply, bind_apply]
  unfold Eval.attempt
  generalize x m = o at h
  generalize x' m' = o' at h
  cases h with
  | done h =>
    obtain ⟨rfl, core⟩ := h
    exact ok core
  | failed he core => exact error he core
  | stopped => exact .stopped
  | @excused e n o' he =>
    change Concur strict (f (.error e) n) _
    rw [scarce he]
    exact .excused he
  | @excused' e n' o he =>
    change Concur strict _ (f' (.error e) n')
    rw [scarce' he]
    exact .excused' he

end Concur

end Scriptlet
