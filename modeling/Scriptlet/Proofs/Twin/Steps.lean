import Scriptlet.Proofs.Tandem.Steps
import Scriptlet.Proofs.Twin.Outer

/-!
The steps of the evaluator on two machines that read the same. Names and bodies that a definition keeps may
be copied on one side and not on the other, and look the same all the same.

The machines are abreast at the seam too, where the first text has ended: it is only what comes between
statements that tells the end from a separator. So this comparison is level, and it bears out all that it
takes to go through a script side by side (`Terms.definitions`).
-/

namespace Scriptlet

open Eval

variable {α β ι : Type} {σ : Terms} {m m' n n' k k' : Machine}

/-- Two machines that read the same, as they are compared. -/
def Terms.tandem (σ : Terms) : Tandem where
  Rel := Agree σ
  Abreast := Abreast σ
  Standing := Standing σ
  Since := Since
  Kept := KeptAlike σ
  Held := HeldAlike σ
  AtClose _ := False
  Level := True

/-! ### Parts of the machine -/

theorem Alongside.since_of_memory (h : Alongside σ m m') (hmemory : n.memory = m.memory)
    (hmemory' : n'.memory = m'.memory) (hhistory : n.history = m.history)
    (hhistory' : n'.history = m'.history) (hc : n.cursor = m.cursor) (hc' : n'.cursor = m'.cursor)
    (ht : n.token = m.token) (ht' : n'.token = m'.token) (hd : n.duplicate = m.duplicate)
    (hd' : n'.duplicate = m'.duplicate) : Since m m' n n' :=
  ⟨after_of_memory h.sound h.placed hmemory hhistory hc ht hd,
    after_of_memory h.sound' h.placed' hmemory' hhistory' hc' ht' hd'⟩

namespace Abreast

variable (h : Abreast σ m m')

include h

theorem withLiterals (literals : Literals) :
    Since m m' { m with literals } { m' with literals } ∧
      Abreast σ { m with literals } { m' with literals } := by
  have since : Since m m' { m with literals } { m' with literals } :=
    h.since_of_memory rfl rfl rfl rfl rfl rfl rfl rfl rfl rfl
  exact ⟨since, h.next (h.toCore.withLiterals literals) since rfl rfl rfl rfl⟩

theorem withQuoting (quoting : Quoting) :
    Since m m' { m with quoting } { m' with quoting } ∧
      Abreast σ { m with quoting } { m' with quoting } := by
  have since : Since m m' { m with quoting } { m' with quoting } :=
    h.since_of_memory rfl rfl rfl rfl rfl rfl rfl rfl rfl rfl
  exact ⟨since, h.next (h.toCore.withQuoting quoting) since rfl rfl rfl rfl⟩

theorem withResult (result : Word) :
    Since m m' { m with result } { m' with result } ∧ Abreast σ { m with result } { m' with result } := by
  have since : Since m m' { m with result } { m' with result } :=
    h.since_of_memory rfl rfl rfl rfl rfl rfl rfl rfl rfl rfl
  exact ⟨since, h.next (h.toCore.withResult result) since rfl rfl rfl rfl⟩

theorem withStack (stack : Array Word) :
    Since m m' (m.withArena { m.arena with stack }) (m'.withArena { m'.arena with stack }) ∧
      Abreast σ (m.withArena { m.arena with stack }) (m'.withArena { m'.arena with stack }) := by
  have core := h.toCore.withStack stack
  have moved : ∀ {m : Machine}, Placed m → (m.withArena { m.arena with stack }).Sound true →
      After true m (m.withArena { m.arena with stack }) := fun {m} placed sound => by
    have g : Grows m (m.withArena { m.arena with stack }) := Memory.Grows.of_eq rfl rfl rfl rfl
    exact ⟨.of_size g sound (Nat.le_refl _), placed.grows g rfl rfl, rfl, rfl⟩
  have since : Since m m' (m.withArena { m.arena with stack }) (m'.withArena { m'.arena with stack }) :=
    ⟨moved h.placed core.sound, moved h.placed' core.sound'⟩
  exact ⟨since, h.next core since rfl rfl rfl rfl⟩

end Abreast

theorem Fell.withLiterals (h : Fell σ m m') (literals : Literals) :
    Fell σ { m with literals } { m' with literals } := ⟨h.toCore.withLiterals literals, h.spot⟩

theorem Fell.withQuoting (h : Fell σ m m') (quoting : Quoting) :
    Fell σ { m with quoting } { m' with quoting } := ⟨h.toCore.withQuoting quoting, h.spot⟩

theorem Fell.withStack (h : Fell σ m m') (stack : Array Word) :
    Fell σ (m.withArena { m.arena with stack }) (m'.withArena { m'.arena with stack }) :=
  ⟨h.toCore.withStack stack, h.spot⟩

/-! ### Combinators -/

namespace Agree

variable {Q Q' : Post α} {T : α → Token → Prop} {x x' : Eval α}

/-- What is put back after a part of a script. -/
theorem adjust {o o' : Outcome α} {g g' : Machine → Machine} (h : Agree σ Q m m' o o')
    (hQ : ∀ {a a' n n'}, Q a a' n n' → Since n n' (g n) (g' n') ∧ Q' a a' (g n) (g' n'))
    (hF : ∀ {n n'}, Fell σ n n' → Fell σ (g n) (g' n')) :
    Agree σ Q' m m' (o.adjust g) (o'.adjust g') :=
  Paired.adjust h (fun _ _ ⟨since, q⟩ => ⟨since.trans (hQ q).1, (hQ q).2⟩) fun _ _ fell => hF fell

/-- A part of a script that starts on machines a step further. -/
theorem since {o o' : Outcome α} (since : Since m m' n n') (h : Agree σ Q n n' o o') :
    Agree σ Q m m' o o' :=
  Paired.imp h (fun _ he => he) (fun _ he => he) (fun _ _ ⟨later, q⟩ => ⟨since.trans later, q⟩)
    fun _ _ fell => fell

/-- A loop, under an invariant. The turns are followed from where the loop began. -/
theorem loopFrom {turn turn' : ι → Eval (Turn ι α)} {I : ι → Machine → Machine → Prop}
    (hturn : ∀ {i n n'}, Since m m' n n' → I i n n' →
      Agree σ (Turns I Q) m m' (turn i n) (turn' i n')) (passes : Nat) {i : ι} (h : Since m m' m m')
    (hI : I i m m') : Agree σ Q m m' (Eval.loop turn passes i m) (Eval.loop turn' passes i m') := by
  refine Paired.loop (I := fun i n n' => Since m m' n n' ∧ I i n n') (fun {i n n'} ⟨since, hI⟩ => ?_)
    passes ⟨h, hI⟩
  refine Paired.imp (hturn since hI) (fun _ he => he) (fun _ he => he) (fun _ _ ⟨later, turns⟩ => ?_)
    fun _ _ fell => fell
  cases turns with
  | again hI => exact .again ⟨later, hI⟩
  | finish q => exact .finish ⟨later, q⟩

theorem withQuoting (quoting : Quoting) (h : Abreast σ m m')
    (hx : Agree σ (σ.tandem.At T) { m with quoting } { m' with quoting } (x { m with quoting })
      (x' { m' with quoting })) :
    Agree σ (σ.tandem.At T) m m' (Eval.withQuoting quoting x m) (Eval.withQuoting quoting x' m') := by
  have begun := since (h.withQuoting quoting).1 hx
  unfold Eval.withQuoting Eval.restoring
  dsimp only
  rw [h.quoting]
  exact adjust begun (fun ⟨same, token, abreast⟩ =>
    ⟨(abreast.withQuoting m.quoting).1, same, token, (abreast.withQuoting m.quoting).2⟩)
    fun fell => fell.withQuoting m.quoting

theorem unwinding (core : Core σ.strict m m') (hx : Agree σ Q m m' (x m) (x' m')) :
    Agree σ Q m m' (Eval.unwinding x m) (Eval.unwinding x' m') := by
  unfold Eval.unwinding
  dsimp only
  refine Paired.adjustUndone hx fun {n n'} fell => ?_
  have unwound := (fell.withStack (n.arena.stack.take m.arena.depth)).withLiterals
    (n.literals.truncate m.literals.size)
  rw [Arena.unwind_of_stack core.stack fell.stack, fell.literals, core.literals]
  exact unwound

end Agree

/-! ### Values and definitions -/

theorem agree_push (word : Word) (h : Abreast σ m m') :
    Agree σ σ.tandem.OnBoth m m' (push word m) (push word m') := by
  refine Agree.allocate h.fell (fun hstrict => ?_) fun {_ _ arena arena'} granted granted' => ?_
  · rw [Option.isSome_map, Option.isSome_map, Arena.isSome_push, Arena.isSome_push, h.free hstrict]
  · obtain ⟨pushed, hpushed, hgiven⟩ := Option.map_eq_some_iff.mp granted
    obtain ⟨pushed', hpushed', hgiven'⟩ := Option.map_eq_some_iff.mp granted'
    cases hgiven
    cases hgiven'
    obtain ⟨-, rfl⟩ := Arena.push_eq_some hpushed
    obtain ⟨-, rfl⟩ := Arena.push_eq_some hpushed'
    rw [h.stack]
    have next := h.withStack (m.arena.stack.push word)
    exact next

theorem after_setValue {index : Nat} {s : Symbol Native} (sound : m.Sound true) (placed : Placed m)
    (found : m.arena.symbols[index]? = some s) (hvar : s.tag = .var) (value : Word) :
    After true m (m.withArena (m.arena.setValue index value)) := by
  have g : Grows m (m.withArena (m.arena.setValue index value)) :=
    (Memory.Grows.refl m.memory).setValue found hvar value
  have after := sound.withArena_grows (sound.intact.setValue found hvar value) g
  exact ⟨.of_size g after (Nat.le_of_eq (Array.size_modify ..)), placed.grows g rfl rfl, rfl, rfl⟩

theorem Abreast.setValue {index : Nat} {s : Symbol Native} (h : Abreast σ m m')
    (found : m.arena.symbols[index]? = some s) (hvar : s.tag = .var) (value : Word) :
    Since m m' (m.withArena (m.arena.setValue index value)) (m'.withArena (m'.arena.setValue index value)) ∧
      Abreast σ (m.withArena (m.arena.setValue index value))
        (m'.withArena (m'.arena.setValue index value)) := by
  obtain ⟨s', found', alike⟩ := h.table.partner (i := index) found
  have hvar' : s'.tag = .var := (alike.tag.eq (by simp [hvar])).trans hvar
  have since : Since m m' _ _ :=
    ⟨after_setValue h.sound h.placed found hvar value, after_setValue h.sound' h.placed' found' hvar' value⟩
  have core : Core σ.strict (m.withArena (m.arena.setValue index value))
      (m'.withArena (m'.arena.setValue index value)) :=
    h.toCore.withArena h.stack h.room (h.table.setValue found hvar value) since.after.sound since.after'.sound
  exact ⟨since, h.next core since rfl rfl rfl rfl⟩

/-- A new variable, of the same index on both sides. -/
theorem agree_addVariable {name name' : Slice} (h : Standing σ m m') (kept : KeptAlike σ m m' name name') :
    Agree σ (fun index index' n n' => index' = index ∧ n.arena.symbols[index]? = some ⟨name, .var, 0⟩ ∧
        Standing σ n n') m m'
        (allocate (·.addSymbol name .var 0) m) (allocate (·.addSymbol name' .var 0) m') := by
  refine Agree.allocate h.fell (fun hstrict => ?_) fun {index index' arena arena'} granted granted' => ?_
  · rw [Arena.isSome_addSymbol, Arena.isSome_addSymbol, h.free hstrict]
  · have since : Since m m' (m.withArena arena) (m'.withArena arena') :=
      ⟨inner_addVariable kept.kept granted h.sound h.placed,
        inner_addVariable kept.kept' granted' h.sound' h.placed'⟩
    obtain ⟨same, core⟩ := h.toCore.addPlain granted granted' (.same nofun) nofun kept.kept.held
      kept.kept'.held kept.sight
    refine ⟨since, same, ?_, h.next core since rfl rfl⟩
    obtain ⟨-, rfl, rfl⟩ := Arena.addSymbol_eq_some granted
    exact Array.getElem?_push_size

theorem kept_of_forall₂ {slices slices' : List Slice}
    (h : List.Forall₂ (KeptAlike σ m m') slices slices') :
    (∀ slice ∈ slices, Kept m slice) ∧ (∀ slice ∈ slices', Kept m' slice) ∧
      slices'.map (m'.memory.sight σ.strict) = slices.map (m.memory.sight σ.strict) := by
  induction h with
  | nil => exact ⟨by simp, by simp, rfl⟩
  | cons kept _ ih =>
    obtain ⟨rest, rest', sights⟩ := ih
    refine ⟨List.forall_mem_cons.mpr ⟨kept.kept, rest⟩, List.forall_mem_cons.mpr ⟨kept.kept', rest'⟩, ?_⟩
    rw [List.map_cons, List.map_cons, sights, kept.sight]

/-- A new routine, of the same number on both sides. -/
theorem agree_addRoutine (routine routine' : Routine) (h : Standing σ m m')
    (kept : List.Forall₂ (KeptAlike σ m m') (routine.body :: routine.params)
      (routine'.body :: routine'.params)) :
    Agree σ (fun number number' n n' => number' = number ∧
        n.memory.routine? (Int64.ofNat number) = some routine ∧
        n'.memory.routine? (Int64.ofNat number) = some routine' ∧ Standing σ n n') m m'
      (allocate (·.addRoutine routine) m) (allocate (·.addRoutine routine') m') := by
  obtain ⟨keptLeft, keptRight, -⟩ := kept_of_forall₂ kept
  refine Agree.allocate h.fell (fun hstrict => ?_) fun {number number' arena arena'} granted granted' => ?_
  · rw [Arena.isSome_addRoutine, Arena.isSome_addRoutine, h.free hstrict]
  · have yields := yields_addRoutine h.sound h.placed routine keptLeft
    have yields' := yields_addRoutine h.sound' h.placed' routine' keptRight
    rw [allocate_of_some granted] at yields
    rw [allocate_of_some granted'] at yields'
    have since : Since m m' (m.withArena arena) (m'.withArena arena') := ⟨yields.after, yields'.after⟩
    have quiet : Quiet σ.strict m (m.withArena arena) :=
      quiet_addRoutine h.sound granted (tidy_of_kept keptLeft)
    have quiet' : Quiet σ.strict m' (m'.withArena arena') :=
      quiet_addRoutine h.sound' granted' (tidy_of_kept keptRight)
    have found := yields.result rfl rfl
    have found' := yields'.result rfl rfl
    obtain ⟨-, rfl, rfl⟩ := Arena.addRoutine_eq_some granted
    obtain ⟨-, rfl, rfl⟩ := Arena.addRoutine_eq_some granted'
    have number : m'.arena.routines.size = m.arena.routines.size := h.table.routines
    refine ⟨since, number, found, number ▸ found', h.next (h.toCore.quiet quiet quiet' ?_ fun hstrict => ?_)
      since rfl rfl⟩
    · change (m'.arena.routines.push routine').size = (m.arena.routines.push routine).size
      rw [Array.size_push, Array.size_push, number]
    · exact congrArg (· + wordAligned routineSize) (h.room hstrict).2

/-- A symbol for a function, whose routines look the same on both sides. -/
theorem agree_addSymbol {name name' : Slice} {routine routine' : Routine} {value : Word}
    (h : Standing σ m m') (keptName : KeptAlike σ m m' name name')
    (kept : List.Forall₂ (KeptAlike σ m m') (routine.body :: routine.params)
      (routine'.body :: routine'.params)) (hroutine : m.memory.routine? value = some routine)
    (hroutine' : m'.memory.routine? value = some routine') (arity : Nat) :
    Agree σ (fun _ _ n n' => Standing σ n n') m m' (allocate (·.addSymbol name (.func arity) value) m)
      (allocate (·.addSymbol name' (.func arity) value) m') := by
  obtain ⟨keptLeft, keptRight, sights⟩ := kept_of_forall₂ kept
  refine Agree.allocate h.fell (fun hstrict => ?_) fun {index index' arena arena'} granted granted' => ?_
  · rw [Arena.isSome_addSymbol, Arena.isSome_addSymbol, h.free hstrict]
  · have yields := yields_addFunction h.sound h.placed keptName.kept keptLeft (fun _ => hroutine) arity
    have yields' := yields_addFunction h.sound' h.placed' keptName.kept' keptRight (fun _ => hroutine') arity
    rw [allocate_of_some granted] at yields
    rw [allocate_of_some granted'] at yields'
    have since : Since m m' (m.withArena arena) (m'.withArena arena') := ⟨yields.after, yields'.after⟩
    have alike : Memory.SymbolAlike σ.strict m.memory m'.memory ⟨name, .func arity, value⟩
        ⟨name', .func arity, value⟩ := by
      refine ⟨.same nofun, rfl, ?_⟩
      simp only [Memory.sights, Memory.slices, hroutine, hroutine']
      exact congrArg₂ List.cons keptName.sight sights
    have core := (h.toCore.addSymbol granted granted' alike since.after.sound since.after'.sound).2
    exact ⟨since, h.next core since rfl rfl⟩

/-- A new function, with its routine. -/
theorem agree_addFunction {name name' : Slice} {routine routine' : Routine} (h : Standing σ m m')
    (keptName : KeptAlike σ m m' name name')
    (kept : List.Forall₂ (KeptAlike σ m m') (routine.body :: routine.params)
      (routine'.body :: routine'.params)) (arity : Nat) :
    Agree σ (fun _ _ n n' => Standing σ n n') m m'
      ((do
        let number ← allocate (·.addRoutine routine)
        allocate (·.addSymbol name (.func arity) (Int64.ofNat number)) : Eval Nat) m)
      ((do
        let number ← allocate (·.addRoutine routine')
        allocate (·.addSymbol name' (.func arity) (Int64.ofNat number)) : Eval Nat) m') := by
  refine Agree.bind (agree_addRoutine routine routine' h kept)
    fun {number number' n n'} since ⟨same, hroutine, hroutine', standing⟩ => ?_
  subst same
  exact agree_addSymbol standing (keptName.since since) (kept.imp fun _ _ kept => kept.since since) hroutine
    hroutine' arity

/-! ### The comparison -/

theorem Tag.Alike.counterpart {strict : Bool} {tag tag' : Tag Native} (h : tag.Alike strict tag') :
    tag.Counterpart tag' := by
  cases h with
  | same plain => exact .same plain
  | native => exact .native

theorem Abreast.counterpart (h : Abreast σ m m') : m.token.Counterpart False m'.token := by
  rcases h.place with before | seam
  · have tokens := before.tokens
    generalize m.token = t at tokens
    generalize m'.token = t' at tokens
    cases tokens with
    | same plain => exact .same plain
    | name => exact .name
    | text => exact .text
  · rw [seam.token, seam.token']
    exact .seam

theorem Abreast.symbols (h : Abreast σ m m') (index : Nat) :
    Option.Rel Symbol.Counterpart m.arena.symbols[index]? m'.arena.symbols[index]? := by
  cases found : m.arena.symbols[index]? with
  | some s =>
    obtain ⟨s', found', alike⟩ := h.table.partner (i := index) found
    rw [show m'.arena.symbols[index]? = some s' from found']
    exact .some ⟨alike.tag.counterpart, alike.value⟩
  | none =>
    have outside : m'.arena.symbols.size ≤ index := by
      rw [h.size_symbols]
      exact Array.getElem?_eq_none_iff.mp found
    rw [Array.getElem?_eq_none outside]
    exact .none

/-- Where both tokens are slices, they look the same. -/
theorem Abreast.slices (h : Abreast σ m m') {slice slice' : Slice} (ht : m.token.slice? = some slice)
    (ht' : m'.token.slice? = some slice') :
    Standing σ m m' ∧ m'.memory.sight σ.strict slice' = m.memory.sight σ.strict slice := by
  have standing := h.standing fun eof => by
    rw [eof] at ht
    cases ht
  refine ⟨standing, ?_⟩
  rcases h.place with before | seam
  · have tokens := before.tokens
    generalize m.token = t at tokens ht
    generalize m'.token = t' at tokens ht'
    cases tokens with
    | same plain => cases plain.symm.trans ht
    | name same | text same =>
      cases ht
      cases ht'
      exact same
  · rw [seam.token] at ht
    cases ht

theorem Abreast.held (h : Abreast σ m m') {slice slice' : Slice} (ht : m.token.slice? = some slice)
    (ht' : m'.token.slice? = some slice') : HeldAlike σ m m' slice slice' := by
  obtain ⟨standing, sight⟩ := h.slices ht ht'
  exact ⟨h.placed.holds standing.cursors.fore ht, h.placed'.holds standing.cursors.fore' ht', sight⟩

/-- Both machines go back to where they were reading. -/
theorem Standing.rewind (h : Standing σ m m') (since : Since m m' n n') (abreast : Abreast σ n n') :
    Since m m' { n with cursor := m.cursor } { n' with cursor := m'.cursor } ∧
      Standing σ { n with cursor := m.cursor } { n' with cursor := m'.cursor } := by
  have rewound : Since m m' { n with cursor := m.cursor } { n' with cursor := m'.cursor } :=
    ⟨since.after.rewind h.placed, since.after'.rewind h.placed'⟩
  have core := abreast.toCore.place m.cursor m'.cursor n.token n'.token n.duplicate n'.duplicate n.depth
    n'.depth
  exact ⟨rewound, h.toAlongside.next core rewound, h.cursors.grows since.after.grows since.after'.grows⟩

/-- Machines that read the same take every step together. -/
theorem Terms.definitions (σ : Terms) : σ.tandem.Definitions where
  trans h k := h.trans k
  grows h := ⟨h.after.grows, h.after'.grows⟩
  done since holds := .done ⟨since, holds⟩
  since since h := Agree.since since h
  bindFrom h _ next := Paired.bind h fun ⟨since, holds⟩ => next since holds
  loop _ hturn passes _ since hI := Agree.loopFrom hturn passes since hI
  begun h := h.since
  failed e h := .failed (.refl e) h.fell
  tokens h := h.counterpart
  symbols h := h.symbols
  literals h := h.literals
  advanceBy raw h other := agree_advanceBy raw (h.standing other)
  withQuoting quoting _ _ h hx := Agree.withQuoting quoting h (hx (h.withQuoting quoting).2)
  unwinding h hx := Agree.unwinding h.toCore hx
  push word h := agree_push word h
  withResult result h := h.withResult result
  setValue value h found hvar := h.setValue found hvar value
  not_level h := h.elim
  refused h := h.elim
  astray h := h.elim
  stands _ h other := h.standing other
  standing h := h.since
  readOn raw h := agree_advanceBy raw h
  rewind h since abreast := h.rewind since abreast
  kept h since := h.since since
  held h since := h.since since
  takes _ h ht ht' := h.held ht ht'
  keep _ h ht ht' := by
    obtain ⟨standing, sight⟩ := h.slices ht ht'
    exact Agree.imp (agree_keep standing ht ht' sight) fun _ ⟨_, standing, kept⟩ => ⟨standing, kept⟩
  addVariable h kept := agree_addVariable h kept
  addFunction _ _ arity h keptName kept := agree_addFunction h keptName kept arity

end Scriptlet
