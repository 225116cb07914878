import Scriptlet.Proofs.Moved.Staying

/-!
The steps of the evaluator on two machines that read the same piece of text. What a definition keeps of the
text is moved, unless it is copied. A loop goes back to the same place on both sides.

Together these steps are what it takes to go through a script side by side (`Relocation.definitions`).
-/

namespace Scriptlet

open Eval

variable {α : Type} {μ : Manner} {m m' n n' : Machine}

theorem naming_grows : NamingDiscipline Grows :=
  ⟨grows_track, expanding_grows.advanceBy, expanding_grows.addBytes⟩

theorem cursor_track : Track fun m n => n.cursor = m.cursor := ⟨fun _ => rfl, fun h k => k.trans h⟩

theorem cursor_allocate (f : Arena Native → Option (α × Arena Native)) :
    Keeps (fun m n => n.cursor = m.cursor) (allocate f) := cursor_track.allocate fun _ => rfl

namespace Relocation

variable {ρ : Relocation}

/-! ### Values -/

theorem follow_push (word : Word) (h : ρ.Abreast μ m m') :
    ρ.Follow μ (fun _ _ n n' => ρ.Abreast μ n n') (push word m) (push word m') := by
  unfold push allocate
  dsimp only
  rw [h.moved.arena, push_arena]
  cases granted : m.arena.push word with
  | none => exact .failed h.fell
  | some arena =>
    obtain ⟨-, rfl⟩ := Arena.push_eq_some granted
    have pushed := h.withStack (m.arena.stack.push word)
    rw [h.moved.arena] at pushed
    exact .done pushed

theorem Abreast.setValue {index : Nat} {s : Symbol Native} (h : ρ.Abreast μ m m')
    (found : m.arena.symbols[index]? = some s) (hvar : s.tag = .var) (value : Word) :
    ρ.Abreast μ (m.withArena (m.arena.setValue index value))
      (m'.withArena (m'.arena.setValue index value)) := by
  have moved := h.moved.withArena (h.moved.settled.setValue found hvar value)
  rw [← setValue_arena, ← h.moved.arena] at moved
  exact ⟨moved, h.place⟩

/-! ### Definitions -/

/-- What is kept is moved, or copied on both sides. -/
theorem follow_keep (fits : ρ.Fits) (h : ρ.Standing μ m m') {slice slice' : Slice}
    (carried : ρ.Carried slice slice') :
    ρ.Follow μ (fun kept kept' n n' => ρ.Standing μ n n' ∧ ρ.Carried kept kept') (keep slice m)
      (keep slice' m') := by
  obtain ⟨rfl, inside⟩ := carried
  have here : ρ.Follow μ (fun kept kept' n n' => ρ.Standing μ n n' ∧ ρ.Carried kept kept') (.done slice m)
      (.done (ρ.slice slice) m') := .done ⟨h, rfl, inside⟩
  unfold keep
  rw [source_slice]
  cases slice.source with
  | fixed bytes => exact here
  | durable => exact here
  | text slot =>
    dsimp only
    rw [h.moved.duplicate]
    split
    · unfold allocate
      dsimp only
      rw [h.moved.bytes fits (inside.le ρ fits.high), h.moved.arena, addBytes_arena]
      cases granted : m.arena.addBytes (m.bytes slice) with
      | none => exact .failed h.fell
      | some given =>
        obtain ⟨kept, arena⟩ := given
        have moved := h.moved.withArena (h.moved.settled.addBytes granted)
        have durable : kept.source ≠ .text ρ.slot := by
          obtain ⟨-, rfl, -⟩ := Arena.addBytes_eq_some granted
          exact nofun
        exact .done ⟨⟨moved, h.cursors⟩, (ρ.slice_of_ne durable).symm, ρ.within_of_ne durable⟩
    · exact here

theorem movable_of_granted (settled : ρ.Settled m) {routine : Routine} {number : Nat}
    {arena : Arena Native} (granted : m.arena.addRoutine routine = some (number, arena))
    (params : ∀ param ∈ routine.params, ρ.Inside param) (body : ρ.Inside routine.body) :
    Word.index? (Int64.ofNat number) = some number ∧ arena.routines[number]? = some routine ∧
      ρ.Movable number routine := by
  have index := index?_addRoutine granted (settled.budget.addRoutine granted)
  have base := settled.base
  obtain ⟨-, rfl, rfl⟩ := Arena.addRoutine_eq_some granted
  exact ⟨index, Array.getElem?_push_size, ⟨fun older => absurd older (Nat.not_lt_of_le base), params, body⟩⟩

theorem stay_addFunction (h : ρ.Moved m m') {name : Slice} (named : ρ.Inside name) (routine : Routine)
    (params : ∀ param ∈ routine.params, ρ.Inside param) (body : ρ.Inside routine.body) (arity : Nat) :
    ρ.Stay
      ((do
        let number ← allocate (·.addRoutine routine)
        allocate (·.addSymbol name (.func arity) (Int64.ofNat number)) : Eval Nat) m)
      ((do
        let number ← allocate (·.addRoutine (ρ.routine routine))
        allocate (·.addSymbol (ρ.slice name) (.func arity) (Int64.ofNat number)) : Eval Nat) m') := by
  have added := addRoutine_arena h.settled.base routine
  rw [bind_apply, bind_apply]
  unfold allocate
  dsimp only
  rw [h.arena, added]
  cases granted : m.arena.addRoutine routine with
  | none => exact .failed h
  | some given =>
    obtain ⟨number, arena⟩ := given
    obtain ⟨index, found, movable⟩ := movable_of_granted h.settled granted params body
    exact stay_addSymbol (h.withArena (h.settled.addRoutine granted))
      ⟨named, fun _ => ⟨number, routine, index, found, movable⟩, nofun⟩

/-- What is defined leaves the machines where they were reading. -/
theorem Stay.standing {o o' : Outcome α} (stay : ρ.Stay o o') (h : ρ.Standing μ m m')
    (still : o.machine.cursor = m.cursor) (still' : o'.machine.cursor = m'.cursor) :
    ρ.Follow μ (Equally (ρ.Standing μ)) o o' := by
  have there : ∀ {k k'}, k.cursor = m.cursor → k'.cursor = m'.cursor → ρ.Moved k k' → ρ.Standing μ k k' :=
    fun hc hc' moved => ⟨moved, by rw [hc, hc']; exact h.cursors⟩
  cases stay with
  | done stay => exact .done ⟨stay.1, there still still' stay.2⟩
  | failed stay => exact .failed (there still still' stay).fell
  | stopped => exact .stopped
  | apart h => exact h.elim

/-- A new variable, of the same index on both sides. -/
theorem follow_addVariable (h : ρ.Standing μ m m') {name name' : Slice} (carried : ρ.Carried name name') :
    ρ.Follow μ (fun index index' n n' => index' = index ∧ n.arena.symbols[index]? = some ⟨name, .var, 0⟩ ∧
      ρ.Standing μ n n') (allocate (·.addSymbol name .var 0) m) (allocate (·.addSymbol name' .var 0) m') := by
  obtain ⟨rfl, named⟩ := carried
  have added : ρ.Stay (allocate (·.addSymbol name .var 0) m)
      (allocate (·.addSymbol (ρ.slice name) .var 0) m') := stay_addSymbol h.moved ⟨named, nofun, nofun⟩
  refine Follow.imp (Follow.knowing (added.standing h (cursor_allocate _ m) (cursor_allocate _ m')))
    fun {index index' n n'} ⟨added, same, standing⟩ => ⟨same, ?_, standing⟩
  obtain ⟨arena, granted, rfl⟩ := allocate_eq_done added
  obtain ⟨-, rfl, rfl⟩ := Arena.addSymbol_eq_some granted
  exact Array.getElem?_push_size

theorem carried_all {slices slices' : List Slice} (h : List.Forall₂ ρ.Carried slices slices') :
    slices' = slices.map ρ.slice ∧ ∀ slice ∈ slices, ρ.Inside slice := by
  induction h with
  | nil => exact ⟨rfl, by simp⟩
  | cons carried _ ih =>
    obtain ⟨rfl, inside⟩ := carried
    obtain ⟨rfl, others⟩ := ih
    exact ⟨rfl, List.forall_mem_cons.mpr ⟨inside, others⟩⟩

/-- A new function, whose routine has moved with the text it was defined in. -/
theorem follow_addFunction (h : ρ.Standing μ m m') {name name' : Slice} (named : ρ.Carried name name')
    {routine routine' : Routine}
    (carried : List.Forall₂ ρ.Carried (routine.body :: routine.params) (routine'.body :: routine'.params))
    (arity : Nat) :
    ρ.Follow μ (fun _ _ n n' => ρ.Standing μ n n')
      ((do
        let number ← allocate (·.addRoutine routine)
        allocate (·.addSymbol name (.func arity) (Int64.ofNat number)) : Eval Nat) m)
      ((do
        let number ← allocate (·.addRoutine routine')
        allocate (·.addSymbol name' (.func arity) (Int64.ofNat number)) : Eval Nat) m') := by
  obtain ⟨same, inside⟩ := carried_all carried
  obtain ⟨body, params⟩ := List.cons.inj same
  have moved : routine' = ρ.routine routine := by
    obtain ⟨params', body'⟩ := routine'
    cases body
    cases params
    rfl
  obtain ⟨rfl, named⟩ := named
  subst moved
  obtain ⟨inBody, inParams⟩ := List.forall_mem_cons.mp inside
  have still : ∀ routine name, Keeps (fun m n => n.cursor = m.cursor) (do
      let number ← allocate (·.addRoutine routine)
      allocate (·.addSymbol name (.func arity) (Int64.ofNat number)) : Eval Nat) := fun _ _ =>
    cursor_track.bind (cursor_allocate _) fun _ => cursor_allocate _
  exact Follow.imp ((stay_addFunction h.moved named routine inParams inBody arity).standing h
    (still _ _ m) (still _ _ m')) And.right

/-! ### Every step -/

theorem grows_addFunction (name : Slice) (routine : Routine) (arity : Nat) :
    Keeps Grows (do
      let number ← allocate (·.addRoutine routine)
      allocate (·.addSymbol name (.func arity) (Int64.ofNat number)) : Eval Nat) :=
  grows_track.bind (grows_track.allocate fun granted => .addRoutine granted) fun _ =>
    grows_track.allocate fun granted => .addSymbol granted

/-- Machines that follow a piece take every step together. -/
theorem definitions (fits : ρ.Fits) (μ : Manner) : (ρ.tandem μ).Definitions where
  trans h k := ⟨grows_track.trans h.1 k.1, grows_track.trans h.2 k.2⟩
  grows h := h
  done since holds := .done ⟨since, holds⟩
  since since h := Follow.imp h fun ⟨later, q⟩ =>
    ⟨⟨grows_track.trans since.1 later.1, grows_track.trans since.2 later.2⟩, q⟩
  bindFrom h onward next := Follow.bind h onward fun ⟨since, q⟩ => next since q
  loop {_ _ I _ m m' _ _} onward hturn passes _ since hI := by
    refine Follow.loop (I := fun i n n' => (Grows m n ∧ Grows m' n') ∧ I i n n') onward
      (fun ⟨since, hI⟩ => ?_) passes ⟨since, hI⟩
    refine Follow.imp (hturn since hI) fun ⟨later, turns⟩ => ?_
    cases turns with
    | again hI => exact .again ⟨later, hI⟩
    | finish holds => exact .finish ⟨later, holds⟩
  begun _ := ⟨grows_track.refl _, grows_track.refl _⟩
  failed e h := .failed h.fell
  tokens h := h.counterpart
  symbols h := h.symbols
  literals h := h.moved.literals
  advanceBy raw h other := Follow.tandem (follow_advance fits raw h other) (expanding_grows.advanceBy raw _)
    (expanding_grows.advanceBy raw _)
  withQuoting quoting _ _ h hx := Follow.withQuoting quoting h (hx (h.withQuoting quoting))
  unwinding h hx := Follow.unwinding h.moved hx
  push word h := Follow.tandem (follow_push word h) (grows_track.push (fun m => expanding_grows.stack m _) _)
    (grows_track.push (fun m => expanding_grows.stack m _) _)
  withResult result h := ⟨⟨grows_track.refl _, grows_track.refl _⟩, h.withResult result⟩
  setValue {m m' index s} value h found hvar := by
    have found' : m'.arena.symbols[index]? = some (ρ.symbol s) := by
      rw [h.moved.symbols, found]
      rfl
    exact ⟨⟨(Memory.Grows.refl m.memory).setValue found hvar value,
      (Memory.Grows.refl m'.memory).setValue found' hvar value⟩, h.setValue found hvar value⟩
  not_level h := h.not_level
  refused h kind := fun _ _ => .apart (.refused kind h.outside)
  astray h onward := fun _ _ => .apart (h.advancing (onward.resolve_left h.not_level))
  stands level h other := h.standing level other
  standing _ := ⟨grows_track.refl _, grows_track.refl _⟩
  readOn raw h := Follow.tandem (follow_advanceBy fits raw h) (expanding_grows.advanceBy raw _)
    (expanding_grows.advanceBy raw _)
  rewind h since abreast := ⟨since, abreast.moved.place _ _ _ _, h.cursors⟩
  kept h _ := h
  held h _ := h
  takes level h ht ht' := (h.slices level ht ht').2
  keep level h ht ht' := by
    obtain ⟨standing, carried⟩ := h.slices level ht ht'
    exact Follow.tandem (follow_keep fits standing carried) (naming_grows.keep _ _) (naming_grows.keep _ _)
  addVariable h carried := Follow.tandem (follow_addVariable h carried)
    (grows_track.allocate (fun granted => .addSymbol granted) _)
    (grows_track.allocate (fun granted => .addSymbol granted) _)
  addFunction _ _ arity h named carried := Follow.tandem (follow_addFunction h named carried arity)
    (grows_addFunction _ _ _ _) (grows_addFunction _ _ _ _)

end Relocation

end Scriptlet
