import Scriptlet.Proofs.Bracket
import Scriptlet.Proofs.Lasting
import Scriptlet.Proofs.Window

/-!
No slice dangles. A slot is released at the end of an evaluation, and taken again by the next text;
a symbol that still had a slice in it would from then on read something else. That there is no such
symbol depends on where the symbols that outlive an evaluation have their slices. `Lands` says where:
in slots that were free when the evaluation began, so that they belong to texts that came later, or in
the text that is being read itself, if its names are not copied.

* `Outer`, for natives, files and texts: new symbols are in slots that were free.
* `Inner`, for expressions and statements: or in the text of the cursor. The slices that tokens carry
  are inside the store that the cursor reads.
-/

namespace Scriptlet

open Eval

variable {whole : Bool}

/-! ### Where new symbols are -/

/-- The slices of symbols that are new are in slots that were free, or at home. -/
def Lands (whole : Bool) (home : Source) (a b : Memory) : Prop :=
  ∀ ⦃i : Nat⦄ ⦃s⦄, a.arena.symbols.size ≤ i → b.arena.symbols[i]? = some s →
    ∀ slice ∈ b.tracked whole s, ∀ ⦃slot⦄, slice.source = .text slot →
      a.texts.text? slot = none ∨ home = .text slot

theorem lands_of_size {home : Source} {a b : Memory}
    (h : b.arena.symbols.size ≤ a.arena.symbols.size) : Lands whole home a b := by
  intro i s hi found
  obtain ⟨inside, -⟩ := Array.getElem?_eq_some_iff.mp found
  omega

/-- A slot that is free was free before, if memory has only grown. -/
theorem Memory.Grows.free {a b : Memory} (g : a.Grows b) {slot : Nat}
    (hfree : b.texts.text? slot = none) : a.texts.text? slot = none := by
  cases held : a.texts.text? slot with
  | none => rfl
  | some text =>
    rw [g.texts held] at hfree
    cases hfree

theorem Lands.trans {home : Source} {a b c : Memory} (h : Lands whole home a b)
    (hb : b.Intact whole) (g : a.Grows b) (k : Lands whole home b c) (g' : b.Grows c) :
    Lands whole home a c := by
  intro i s hi found slice hmem slot hslot
  by_cases hnew : b.arena.symbols.size ≤ i
  · exact (k hnew found slice hmem hslot).imp_left g.free
  · -- the symbol was added in the first step, and has the same slices since
    have old := Array.getElem?_eq_getElem (Nat.lt_of_not_le hnew)
    obtain ⟨s', found', lasts⟩ := g'.symbols old
    rw [found] at found'
    cases found'
    rw [(hb.symbols old).tracked_eq g' lasts] at hmem
    exact h hi old slice hmem hslot

/-! ### Outside scripts -/

/-- What holds after a step, seen from a sound machine. -/
structure Reached (whole : Bool) (home : Source) (m m' : Machine) : Prop where
  grows : Grows m m'
  sound : m'.Sound whole
  lands : Lands whole home m.memory m'.memory

theorem Reached.trans {home : Source} {m m' m'' : Machine} (h : Reached whole home m m')
    (k : Reached whole home m' m'') : Reached whole home m m'' :=
  ⟨grows_track.trans h.grows k.grows, k.sound,
    h.lands.trans h.sound.intact h.grows k.lands k.grows⟩

theorem Reached.of_memory {home : Source} {m m' : Machine} (h : m.Sound whole)
    (hmemory : m'.memory = m.memory) (hhistory : m'.history = m.history) :
    Reached whole home m m' where
  grows := by
    unfold Grows
    rw [hmemory]
    exact .refl _
  sound := by
    refine ⟨hmemory ▸ h.intact, ?_⟩
    rw [hhistory, hmemory]
    exact h.told
  lands := lands_of_size (by rw [hmemory])

theorem Reached.of_size {home : Source} {m m' : Machine} (grows : Grows m m')
    (sound : m'.Sound whole) (h : m'.arena.symbols.size ≤ m.arena.symbols.size) :
    Reached whole home m m' := ⟨grows, sound, lands_of_size h⟩

/-- What a text, a native or a body does to a sound machine. -/
def Outer (whole : Bool) (home : Source) (m m' : Machine) : Prop :=
  m.Sound whole → Reached whole home m m'

theorem outer_track (whole : Bool) (home : Source) : Track (Outer whole home) where
  refl _ hs := .of_memory hs rfl rfl
  trans h k hs := (h hs).trans (k (h hs).sound)

theorem outer_write (home : Source) (stream : Stream) (bytes : Text.Bytes) :
    Keeps (Outer whole home) (Eval.write stream bytes) := fun _ hs => .of_memory hs rfl rfl

theorem outer_ask (home : Source) (world : World) (question : Question) :
    Keeps (Outer whole home) (world.ask question) :=
  (outer_track whole home).ask (fun _ _ hs => .of_memory hs rfl rfl) world question

theorem outer_note (home : Source) (m : Machine) : Outer whole home m m.note := fun hs =>
  .of_size (Memory.Grows.refl m.memory) hs.note (Nat.le_refl _)

theorem reached_addBytes {home : Source} {m : Machine} {bytes : Text.Bytes} {slice : Slice}
    {arena : Arena Native} (hs : m.Sound whole)
    (granted : m.arena.addBytes bytes = some (slice, arena)) :
    Reached whole home m (m.withArena arena) := by
  have g : Grows m (m.withArena arena) := Memory.Grows.addBytes granted
  refine .of_size g (hs.withArena_grows (hs.intact.addBytes granted) g) ?_
  obtain ⟨-, -, rfl⟩ := Arena.addBytes_eq_some granted
  exact Nat.le_refl _

theorem reached_addSymbol {home : Source} {m : Machine} {name : Slice} {tag : Tag Native}
    {value : Word} {index : Nat} {arena : Arena Native} (hs : m.Sound whole)
    (granted : m.arena.addSymbol name tag value = some (index, arena))
    (admits : m.memory.Admits whole ⟨name, tag, value⟩)
    (hhome : ∀ slice ∈ m.memory.tracked whole ⟨name, tag, value⟩, ∀ {slot},
      slice.source = .text slot → home = .text slot) :
    Reached whole home m (m.withArena arena) := by
  have g : Grows m (m.withArena arena) := Memory.Grows.addSymbol granted
  refine ⟨g, hs.withArena_grows (hs.intact.addSymbol granted admits) g, ?_⟩
  intro i s hi found slice hmem slot hslot
  obtain ⟨-, -, rfl⟩ := Arena.addSymbol_eq_some granted
  change (m.arena.symbols.push ⟨name, tag, value⟩)[i]? = some s at found
  rw [Array.getElem?_push] at found
  split at found
  · cases found
    rw [admits.tracked_eq g (.refl _)] at hmem
    exact .inr (hhome slice hmem hslot)
  · obtain ⟨inside, -⟩ := Array.getElem?_eq_some_iff.mp found
    exact absurd hi (Nat.not_le_of_lt inside)

/-- The name of what a host defines is durable. -/
theorem outer_define {name : String} {tag : Tag Native} {value : Word}
    (hfunc : whole = true → ∀ arity, tag ≠ .func arity)
    (hnative : whole = true → ∀ {native arity}, tag = .native native arity →
      ∀ args, (native args).Honest) :
    Keeps (Outer whole .durable) (define name tag value) := by
  unfold define
  split
  · exact (outer_track whole .durable).still (still_fail _)
  · intro m hs
    refine related_bind (R := Reached whole .durable) ?_ fun slice m₁ added h₁ => ?_
    · exact related_allocate (outer_track whole .durable)
        (fun _ _ granted hs => reached_addBytes hs granted) hs
    · obtain ⟨arena, granted, rfl⟩ := allocate_eq_done added
      obtain ⟨durable, held⟩ := Memory.holds_addBytes (a := m.memory) granted
      refine h₁.trans (related_allocate (outer_track whole .durable) (fun _ _ granted' hs => ?_)
        h₁.sound)
      refine reached_addSymbol hs granted' (Memory.admits_of_name held hfunc hnative)
        fun slice' hmem slot hslot => ?_
      rw [Memory.tracked_eq_name _ hfunc, List.mem_singleton] at hmem
      rw [hmem, durable] at hslot
      cases hslot

/-! ### Texts and natives -/

theorem reached_retain {home : Source} {m : Machine} (hs : m.Sound whole) (text : Array UInt8) :
    Reached whole home m (m.withTexts (m.texts.retain text).2) := by
  have g : Grows m (m.withTexts (m.texts.retain text).2) := Memory.Grows.retain text
  refine .of_size g (hs.withTexts (hs.intact.retain text) fun hw => ?_) (Nat.le_refl _)
  subst hw
  exact hs.intact.carries g

/-- A slot that was free can be released again, if no new symbol has a slice in it: the slices of
old symbols are held, so they are elsewhere. -/
theorem reached_release {home : Source} {m m₁ : Machine} {slot : Nat} (hs : m.Sound whole)
    (h : Reached whole home m m₁) (hfree : m.texts.text? slot = none)
    (unused : ∀ {i : Nat} {s}, m.arena.symbols.size ≤ i → m₁.arena.symbols[i]? = some s →
      ∀ slice ∈ m₁.memory.tracked whole s, slice.source ≠ .text slot) :
    Reached whole home m (m₁.withTexts (m₁.texts.release slot)) := by
  have unused' : ∀ {i : Nat} {s}, m₁.arena.symbols[i]? = some s →
      ∀ slice ∈ m₁.memory.tracked whole s, slice.source ≠ .text slot := by
    intro i s found slice hmem hslot
    by_cases hi : m.arena.symbols.size ≤ i
    · exact unused hi found slice hmem hslot
    · have old := Array.getElem?_eq_getElem (Nat.lt_of_not_le hi)
      obtain ⟨s', found', lasts⟩ := h.grows.symbols old
      have same : some s = some s' := found.symm.trans found'
      cases same
      have admits := hs.intact.symbols old
      rw [admits.tracked_eq h.grows lasts] at hmem
      have held := admits.held slice hmem
      unfold Memory.Holds at held
      rw [hslot] at held
      change (m.texts.text? slot).isSome = true at held
      rw [hfree] at held
      cases held
  refine ⟨Memory.Grows.release h.grows hfree, ?_, h.lands⟩
  refine h.sound.withTexts (h.sound.intact.release unused') fun hw => ?_
  subst hw
  exact Memory.carries_release unused'

/-- Where the slices are that an evaluation keeps of the store it reads. -/
def keepSource (source : Source) (duplicate : Bool) : Source :=
  match source with
  | .text slot => if duplicate then .durable else .text slot
  | other => other

/-- Symbols may have come to the table, and moments that were not noted to the history. -/
structure Drifts (m m' : Machine) : Prop where
  symbols : m.arena.symbols.toList <+: m'.arena.symbols.toList
  durable : m'.arena.durable = m.arena.durable
  routines : m'.arena.routines = m.arena.routines
  texts : m'.texts = m.texts
  history : ∀ {life}, (∀ l, m.history l ↔ l = life) →
    ∃ added, (∀ l, m'.history l ↔ l = added ++ life) ∧ ∀ x ∈ added, x.noted = false

theorem drifts_track : Track Drifts where
  refl m := ⟨List.prefix_rfl, rfl, rfl, rfl, fun hlife => ⟨[], hlife, by simp⟩⟩
  trans h k := by
    refine ⟨h.symbols.trans k.symbols, k.durable.trans h.durable, k.routines.trans h.routines,
      k.texts.trans h.texts, fun hlife => ?_⟩
    obtain ⟨added, hadded, unnoted⟩ := h.history hlife
    obtain ⟨more, hmore, unnoted'⟩ := k.history hadded
    refine ⟨more ++ added, by simpa using hmore, fun x hx => ?_⟩
    rcases List.mem_append.mp hx with hx | hx
    · exact unnoted' x hx
    · exact unnoted x hx

theorem drifts_withArena {m : Machine} {arena : Arena Native}
    (symbols : m.arena.symbols.toList <+: arena.symbols.toList)
    (durable : arena.durable = m.arena.durable) (routines : arena.routines = m.arena.routines) :
    Drifts m (m.withArena arena) := by
  refine ⟨symbols, durable, routines, rfl, fun {life} hlife => ?_⟩
  refine ⟨[⟨⟨arena, m.texts⟩, false⟩], fun l => ?_, by simp⟩
  simp [Machine.withArena, History.add, hlife]

theorem Drifts.grows {m m' : Machine} (h : Drifts m m') : Grows m m' where
  symbols {i s} found := by
    refine ⟨s, ?_, .refl s⟩
    rw [← Array.getElem?_toList] at found ⊢
    obtain ⟨inside, -⟩ := List.getElem?_eq_some_iff.mp found
    exact (List.prefix_iff_getElem?.mp h.symbols i inside).trans
      ((List.getElem?_eq_getElem inside).symm.trans found)
  durable := by
    change m.arena.durable.toList <+: m'.arena.durable.toList
    exact h.durable ▸ List.prefix_rfl
  routines found := by
    change m'.arena.routines[_]? = _
    rw [h.routines]
    exact found
  texts held := by
    change m'.texts.text? _ = _
    rw [h.texts]
    exact held

/-- What is known of bodies: they keep machines sound, and nested ones leave no symbols. A body whose
slot is free is empty. -/
structure BodyDiscipline (whole : Bool) (r : Reentry) : Prop where
  outer : ∀ body topLevel duplicate,
    Keeps (Outer whole (keepSource body.source duplicate)) (r.body body topLevel duplicate)
  scope : ∀ body duplicate m,
    (r.body body false duplicate m).machine.arena.symbols.size = m.arena.symbols.size
  bracket : ∀ body topLevel duplicate, Keeps Bracketed (r.body body topLevel duplicate)
  stale : ∀ {body slot m}, body.source = .text slot → m.texts.text? slot = none →
    Drifts m (r.body body false false m).machine

section

variable {r : Reentry} (hbody : BodyDiscipline whole r)

include hbody

theorem reached_slot {m : Machine} (hs : m.Sound whole) (slot length : Nat)
    (duplicate topLevel : Bool) :
    Reached whole (keepSource (.text slot) duplicate) m
      (entering (do let _ ← r.body ⟨.text slot, 0, length⟩ topLevel duplicate) m).machine := by
  unfold entering
  rw [Outcome.machine_adjust]
  have track := outer_track whole (keepSource (.text slot) duplicate)
  have inside := track.bind (hbody.outer ⟨.text slot, 0, length⟩ topLevel duplicate)
    (fun _ => track.still (still_pure ())) { m with depth := m.depth + 1 } ⟨hs.intact, hs.told⟩
  exact ⟨inside.grows, ⟨inside.sound.intact, inside.sound.told⟩, inside.lands⟩

theorem size_slot (m : Machine) (slot length : Nat) (duplicate : Bool) :
    (entering (do let _ ← r.body ⟨.text slot, 0, length⟩ false duplicate)
      m).machine.arena.symbols.size = m.arena.symbols.size := by
  unfold entering
  rw [Outcome.machine_adjust]
  exact related_bind_still (R := fun m m' => m'.arena.symbols.size = m.arena.symbols.size)
    (hbody.scope ⟨.text slot, 0, length⟩ duplicate { m with depth := m.depth + 1 })
    fun _ => still_pure ()

/-- The slot of a text is released unless the text is neither copied from nor nested. A new symbol
that has a slice in it must have been kept of the text, at the top level and without a copy. -/
theorem outer_holding (text : Text.Bytes) (duplicate topLevel : Bool) :
    Keeps (Outer whole .durable) (holding text (!duplicate && topLevel) fun slot => entering do
      let _ ← r.body ⟨.text slot, 0, text.length⟩ topLevel duplicate) := by
  intro m hs
  unfold holding
  rw [Outcome.machine_adjust]
  have hfree := Texts.text?_retain_slot m.texts text.toArray
  have taken := Texts.text?_retain m.texts text.toArray (m.texts.retain text.toArray).1
  rw [if_pos rfl] at taken
  have retained : Reached whole .durable m (m.withTexts (m.texts.retain text.toArray).2) :=
    reached_retain hs text.toArray
  have ran := reached_slot hbody retained.sound (m.texts.retain text.toArray).1 text.length
    duplicate topLevel
  have size := size_slot hbody (m.withTexts (m.texts.retain text.toArray).2)
    (m.texts.retain text.toArray).1 text.length duplicate
  dsimp only
  generalize (m.texts.retain text.toArray).1 = slot at *
  have lands : Lands whole .durable m.memory (entering (do
      let _ ← r.body ⟨.text slot, 0, text.length⟩ topLevel duplicate)
      (m.withTexts (m.texts.retain text.toArray).2)).machine.memory := by
    intro i s hi found slice hmem slot' hslot'
    left
    rcases ran.lands hi found slice hmem hslot' with free | home
    · exact retained.grows.free free
    · cases duplicate with
      | true => cases home
      | false =>
        cases home
        exact hfree
  have reached : Reached whole .durable m _ :=
    ⟨grows_track.trans retained.grows ran.grows, ran.sound, lands⟩
  cases topLevel with
  | false =>
    rw [Bool.and_false]
    refine reached_release hs reached hfree fun {i s} hi found => ?_
    obtain ⟨inside, -⟩ := Array.getElem?_eq_some_iff.mp found
    rw [size] at inside
    exact absurd hi (Nat.not_le_of_lt inside)
  | true =>
    cases duplicate with
    | false => exact reached
    | true =>
      refine reached_release hs reached hfree fun {i s} hi found slice hmem hslot => ?_
      rcases ran.lands hi found slice hmem hslot with free | home
      · change (m.texts.retain text.toArray).2.text? slot = none at free
        rw [taken] at free
        cases free
      · cases home

theorem outer_text (text : String) (duplicate topLevel : Bool) :
    Keeps (Outer whole .durable) (Eval.text r text duplicate topLevel) := by
  intro m
  have track := outer_track whole .durable
  exact track.trans (outer_note .durable m) (keeps_reporting track (outer_write .durable .err)
    (outer_holding hbody (Text.encode text) duplicate topLevel) m.note)

theorem outer_outer : OuterDiscipline (Outer whole .durable) r where
  toTrack := outer_track whole .durable
  write := outer_write .durable
  ask := outer_ask .durable r.world
  text := outer_text hbody

/-- Natives keep machines sound, and so do hosts. -/
theorem outer_perform {action : Action} (honest : whole = true → action.Honest) :
    Keeps (Outer whole .durable) (action.perform r) := by
  have h := outer_outer hbody
  induction action with
  | give value => exact h.still (still_pure _)
  | fail error => exact h.still (still_fail _)
  | takeLiteral next ih =>
    refine h.bind (fun m hs => .of_memory hs rfl rfl) fun text? => ih text? fun hw => ?_
    cases honest hw with
    | takeLiteral hnext => exact hnext text?
  | write stream bytes next ih =>
    refine h.bind (h.write stream bytes) fun _ => ih fun hw => ?_
    cases honest hw with
    | write hnext => exact hnext
  | look next ih =>
    refine h.bind (fun m => outer_note .durable m) fun view => ih view fun hw => ?_
    cases honest hw with
    | look hnext => exact hnext view
  | define name tag value next ih =>
    have hdefine : Keeps (Outer whole .durable) (define name tag value) := by
      refine outer_define (fun hw => ?_) fun hw {native arity} htag => ?_
      · cases honest hw with
        | define hfunc _ _ => exact hfunc
      · cases honest hw with
        | define _ hnative _ => exact hnative native arity htag
    refine h.bind hdefine.attempt fun index => ih index fun hw => ?_
    cases honest hw with
    | define _ _ hnext => exact hnext index
  | evalText text duplicate topLevel next ih =>
    refine h.bind (h.text text duplicate topLevel).attempt fun ended => ih ended fun hw => ?_
    cases honest hw with
    | evalText hnext => exact hnext ended
  | evalFile path next ih =>
    refine h.bind (h.file path).attempt fun ended => ih ended fun hw => ?_
    cases honest hw with
    | evalFile hnext => exact hnext ended
  | ask question next ih =>
    refine h.bind (h.ask question) fun answer => ih answer fun hw => ?_
    cases honest hw with
    | ask hnext => exact hnext answer

/-! ### Functions -/

omit hbody in
theorem reached_bindParameters {home : Source} (bindings : List (Slice × Word)) {m : Machine}
    (hs : m.Sound whole)
    (held : ∀ binding ∈ bindings, m.memory.Holds binding.1 ∧ binding.1.source = home) :
    Reached whole home m (Call.bindParameters bindings m).machine := by
  induction bindings generalizing m with
  | nil => exact .of_memory hs rfl rfl
  | cons binding rest ih =>
    obtain ⟨hname, hhome⟩ := held binding List.mem_cons_self
    have hvar : whole = true → ∀ arity, (.var : Tag Native) ≠ .func arity := fun _ _ h => by cases h
    refine related_bind (R := Reached whole home) ?_ fun index m₁ _ h₁ => ?_
    · refine related_allocate (outer_track whole home) (fun _ _ granted hs => ?_) hs
      refine reached_addSymbol hs granted
        (Memory.admits_of_name hname hvar fun _ {_ _} h => by cases h) fun slice hmem slot hslot => ?_
      rw [Memory.tracked_eq_name _ hvar, List.mem_singleton] at hmem
      rw [hmem] at hslot
      exact hhome.symm.trans hslot
    · refine h₁.trans (ih h₁.sound fun binding' hmem => ?_)
      obtain ⟨hname', hhome'⟩ := held binding' (List.mem_cons_of_mem _ hmem)
      exact ⟨h₁.grows.holds hname', hhome'⟩

omit hbody in
theorem drifts_bindParameters (bindings : List (Slice × Word)) :
    Keeps Drifts (Call.bindParameters bindings) := by
  refine drifts_track.bindParameters (fun _ _ => drifts_track.allocate fun granted => ?_) bindings
  obtain ⟨-, -, rfl⟩ := Arena.addSymbol_eq_some granted
  refine drifts_withArena ?_ rfl rfl
  rw [Array.toList_push]
  exact List.prefix_append _ _

omit hbody in
theorem Machine.Sound.rollback {m : Machine} (h : m.Sound whole) (count : Nat) :
    (m.withArena (m.arena.rollback count)).Sound whole :=
  h.withArena (h.intact.rollback count) fun _ => Memory.carries_rollback m.memory count

omit hbody in
/-- Where only names count, a machine that has drifted is sound again once the new symbols are
dropped. -/
theorem Drifts.rollback {m m' : Machine} (h : Drifts m m') (hs : m.Sound false) :
    (m'.withArena (m'.arena.rollback m.arena.symbols.size)).Sound false := by
  have symbols : (m'.arena.rollback m.arena.symbols.size).symbols = m.arena.symbols := by
    change m'.arena.symbols.take m.arena.symbols.size = m.arena.symbols
    rw [← Array.toList_inj, Array.take_eq_extract, Array.toList_extract, List.extract_eq_take_drop,
      ← Array.length_toList]
    exact (List.prefix_iff_eq_take.mp h.symbols).symm
  have g : Grows m (m'.withArena (m'.arena.rollback m.arena.symbols.size)) :=
    Memory.Grows.of_eq symbols h.durable h.routines h.texts
  constructor
  · exact hs.intact.grows_of_size g (congrArg Array.size symbols) (congrArg Array.size h.routines)
      fun hw => by cases hw
  · obtain ⟨life, hlife, told⟩ := hs.told
    obtain ⟨added, hadded, unnoted⟩ := h.history hlife
    refine ⟨⟨⟨m'.arena.rollback m.arena.symbols.size, m'.texts⟩, false⟩ :: (added ++ life),
      fun l => ?_, ?_, fun hw => ?_, fun hw => ?_, fun hw => ?_⟩
    · simp [Machine.withArena, History.add, hadded]
    · intro x hx hnoted i s found
      rcases List.mem_cons.mp hx with rfl | hx
      · cases hnoted
      · rcases List.mem_append.mp hx with hx | hx
        · rw [unnoted x hx] at hnoted
          cases hnoted
        · exact told.names x hx hnoted found
    all_goals cases hw

omit hbody in
theorem reached_inFrame {α : Type} {home : Source} {x : Eval α} {m : Machine}
    (grows : Grows m (x m).machine)
    (sound : ((x m).machine.withArena
      ((x m).machine.arena.rollback m.arena.symbols.size)).Sound whole) :
    Reached whole home m (Call.inFrame x m).machine := by
  unfold Call.inFrame restoring
  rw [Outcome.machine_adjust]
  refine .of_size (Memory.Grows.rollback grows) ⟨sound.intact, sound.told⟩ ?_
  change ((x m).machine.arena.symbols.take m.arena.symbols.size).size ≤ m.arena.symbols.size
  rw [Array.take_eq_extract, Array.size_extract]
  omega

omit hbody in
theorem keepSource_false (source : Source) : keepSource source false = source := by
  cases source <;> rfl

/-- A routine whose body is held is run on parameters that are held as well. -/
theorem reached_runRoutine {home : Source} {m : Machine} (hs : m.Sound whole) {routine : Routine}
    (tidy : m.memory.Tidy routine) (held : m.memory.Holds routine.body) (args : List Word) :
    Reached whole home m (Call.runRoutine r routine args m).machine := by
  have track := outer_track whole routine.body.source
  have body : Keeps (Outer whole routine.body.source) (r.body routine.body false false) := by
    have := hbody.outer routine.body false false
    rwa [keepSource_false] at this
  have framed : Reached whole routine.body.source m ((do
      Call.bindParameters (routine.params.zip args)
      update fun m => { m with result := 0 }
      let _ ← r.body routine.body false false
      read (·.result) : Eval Word) m).machine := by
    refine related_bind (R := Reached whole routine.body.source)
      (reached_bindParameters _ hs fun binding hmem => ?_) fun _ m₁ _ h₁ => h₁.trans ?_
    · have hparam : binding.1 ∈ routine.params := (List.of_mem_zip hmem).1
      exact ⟨tidy.holds held _ hparam, tidy.source _ hparam⟩
    · exact track.bind (fun m hs => .of_memory hs rfl rfl)
        (fun _ => track.bind body fun _ => track.still (still_read _)) m₁ h₁.sound
  exact reached_inFrame framed.grows (framed.sound.rollback _)

/-- A routine whose text is gone has an empty body, and its parameters do not stay. -/
theorem reached_runRoutine_of_free {home : Source} {m : Machine} (hs : m.Sound false)
    {routine : Routine} {slot : Nat} (hslot : routine.body.source = .text slot)
    (hfree : m.texts.text? slot = none)
    (args : List Word) : Reached false home m (Call.runRoutine r routine args m).machine := by
  have drifted : Drifts m ((do
      Call.bindParameters (routine.params.zip args)
      update fun m => { m with result := 0 }
      let _ ← r.body routine.body false false
      read (·.result) : Eval Word) m).machine := by
    refine related_bind (drifts_bindParameters _ m) fun _ m₁ _ h₁ => ?_
    have hfree₁ : m₁.texts.text? slot = none := by
      rw [h₁.texts]
      exact hfree
    refine related_bind (x := update _) (m := m₁) (R := Drifts) ?_ fun _ m₂ hm₂ h₂ => ?_
    · exact ⟨h₁.symbols, h₁.durable, h₁.routines, h₁.texts, h₁.history⟩
    · cases hm₂
      exact related_bind_still (drifts_track.trans h₂ (hbody.stale hslot hfree₁))
        fun _ => still_read _
  exact reached_inFrame drifted.grows (drifted.rollback hs)

/-- A call of a function leaves no symbols. In honest company its routine is held. -/
theorem reached_runFunction {home : Source} {m : Machine} (hs : m.Sound whole) (number : Word)
    (args : List Word)
    (held : whole = true → ∀ {routine}, m.memory.routine? number = some routine →
      m.memory.Holds routine.body) :
    Reached whole home m (Call.runFunction r number args m).machine := by
  have noted : Reached whole home m m.note := outer_note home m hs
  refine noted.trans ?_
  change Reached whole home m.note (((read _ : Eval (Option Routine)) >>= _) m.note).machine
  rw [bind_apply]
  change Reached whole home m.note ((Outcome.done (m.memory.routine? number) m.note).andThen _).machine
  cases found : m.memory.routine? number with
  | none => exact .of_memory noted.sound rfl rfl
  | some routine =>
    have tidy : m.memory.Tidy routine := by
      obtain ⟨index, -, hroutine⟩ := Option.bind_eq_some_iff.mp found
      exact hs.intact.routines hroutine
    by_cases hheld : m.memory.Holds routine.body
    · exact reached_runRoutine hbody noted.sound tidy hheld args
    · cases whole with
      | true => exact absurd (held rfl found) hheld
      | false =>
        obtain ⟨slot, hslot, hfree⟩ := tidy.gone hheld
        exact reached_runRoutine_of_free hbody noted.sound hslot hfree args

end

end Scriptlet
