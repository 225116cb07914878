import Scriptlet.Proofs.Twin.Copying

/-!
The same machine with more room. How large its arena is enters what a machine does in one way: an
allocation is refused when the free bytes do not cover it. So the second of two machines here is
always the first with a larger arena, `Machine.resize`, and there is nothing to relate: a computation
scales if it commutes with the change of size, or runs out of memory before (`Eval.Scales`).

A lack of memory is passed on by everything that a script can do, and by the natives every machine
starts with. A native that looks at the machine sees the size, and one that defines a symbol is told
whether there was room; so such natives are left out.
-/

namespace Scriptlet

open Text (Bytes)

/-! ### Another size -/

def Arena.resize {ν : Type} (size : Nat) (a : Arena ν) : Arena ν := { a with size }

def Moment.resize (size : Nat) (moment : Moment) : Moment :=
  ⟨⟨moment.arena.resize size, moment.texts⟩, moment.noted⟩

def History.resize (size : Nat) (h : History) : History :=
  fun life => ∃ before, h before ∧ life = before.map (Moment.resize size)

theorem History.resize_empty (size : Nat) : History.empty.resize size = History.empty := by
  funext life
  simp [History.resize, History.empty]

theorem History.resize_add (size : Nat) (h : History) (moment : Moment) :
    (h.add moment).resize size = (h.resize size).add (moment.resize size) := by
  funext life
  apply propext
  constructor
  · rintro ⟨_, ⟨before, told, rfl⟩, rfl⟩
    exact ⟨_, ⟨before, told, rfl⟩, rfl⟩
  · rintro ⟨_, ⟨before, told, rfl⟩, rfl⟩
    exact ⟨_, ⟨before, told, rfl⟩, rfl⟩

namespace Machine

def resize (size : Nat) (m : Machine) : Machine :=
  { m with
    options := { m.options with arenaSize := size }
    arena := m.arena.resize size
    history := m.history.resize size }

variable (size : Nat) (m : Machine)

theorem resize_withArena (arena : Arena Native) :
    (m.withArena arena).resize size = (m.resize size).withArena (arena.resize size) :=
  congrArg (fun history => { m.resize size with arena := arena.resize size, history })
    (History.resize_add size m.history _)

theorem resize_withTexts (texts : Texts) :
    (m.withTexts texts).resize size = (m.resize size).withTexts texts :=
  congrArg (fun history => { m.resize size with texts, history })
    (History.resize_add size m.history _)

theorem resize_note : m.note.resize size = (m.resize size).note :=
  congrArg (fun history => { m.resize size with history }) (History.resize_add size m.history _)

/-! What is read of a machine does not depend on the size. -/

@[simp] theorem store_resize (source : Source) : (m.resize size).store source = m.store source := by
  cases source <;> rfl

@[simp] theorem bytes_resize (slice : Slice) : (m.resize size).bytes slice = m.bytes slice :=
  congrArg slice.bytesIn (m.store_resize size slice.source)

theorem newestBelow?_resize (name : Bytes) (count : Nat) :
    (m.resize size).newestBelow? name count = m.newestBelow? name count := by
  induction count with
  | zero => rfl
  | succ index ih =>
    have symbols : (m.resize size).arena.symbols = m.arena.symbols := rfl
    unfold newestBelow?
    rw [ih, symbols]
    cases m.arena.symbols[index]? with
    | none => rfl
    | some s =>
      dsimp only
      rw [store_resize]

@[simp] theorem index?_resize (name : Bytes) : (m.resize size).index? name = m.index? name :=
  m.newestBelow?_resize size name m.arena.symbols.size

theorem symbolList_resize : (m.resize size).symbolList = m.symbolList := by
  unfold symbolList
  simp only [bytes_resize]
  rfl

theorem cursorAt_resize (body : Slice) : (m.resize size).cursorAt body = m.cursorAt body := by
  simp only [cursorAt, store_resize]

theorem locate_resize (e : Error) : (m.resize size).locate e = m.locate e := by
  unfold locate
  simp only [store_resize]
  rfl

end Machine

/-! ### Computations that scale -/

/-- A symbol that is no native, or one that does not mind how large the arena is. -/
def Symbol.Heedless (s : Symbol Native) : Prop :=
  ∀ ⦃native arity⦄, s.tag = .native native arity → ∀ args, (native args).Alike false (native args)

/-- A machine that fits into an arena of a size, and whose natives do not mind the size. -/
structure Machine.Fits (size : Nat) (m : Machine) : Prop where
  size : m.arena.size ≤ size
  natives : ∀ s ∈ m.arena.symbols, s.Heedless

namespace Machine.Fits

variable {size : Nat} {m m' : Machine}

/-- A machine with no other native symbols fits into the same size. -/
theorem of_symbols (h : m.Fits size) (same : m'.arena.size = m.arena.size)
    (symbols : ∀ s ∈ m'.arena.symbols, s ∈ m.arena.symbols ∨ s.Heedless) : m'.Fits size where
  size := same ▸ h.size
  natives s hs := (symbols s hs).elim (h.natives s) id

theorem of_subset (h : m.Fits size) (same : m'.arena.size = m.arena.size)
    (symbols : ∀ s ∈ m'.arena.symbols, s ∈ m.arena.symbols) : m'.Fits size :=
  h.of_symbols same fun s hs => .inl (symbols s hs)

theorem rollback (h : m.Fits size) (count : Nat) :
    (m.withArena (m.arena.rollback count)).Fits size := by
  refine h.of_subset rfl fun s hs => ?_
  obtain ⟨i, found⟩ := Array.getElem?_of_mem hs
  change (m.arena.symbols.take count)[i]? = some s at found
  rw [Array.take_eq_extract, Array.getElem?_extract, Nat.zero_add] at found
  split at found
  · exact Array.mem_of_getElem? found
  · cases found

theorem congr (h : m.Fits size) (same : m'.arena = m.arena) : m'.Fits size := by
  refine h.of_subset (congrArg Arena.size same) fun s hs => ?_
  rwa [same] at hs

end Machine.Fits

theorem Outcome.outOfMemory_iff {α : Type} {o : Outcome α} :
    o.OutOfMemory ↔ ∃ e m, o = .failed e m ∧ e.kind = .outOfMemory := by
  cases o with
  | failed e m => exact ⟨fun h => ⟨e, m, rfl, h⟩, by rintro ⟨_, _, ⟨⟩, h⟩; exact h⟩
  | done a m => exact ⟨False.elim, by rintro ⟨_, _, ⟨⟩, _⟩⟩
  | stopped why m => exact ⟨False.elim, by rintro ⟨_, _, ⟨⟩, _⟩⟩

/-- Of two outcomes, the first is a lack of memory, or the second is the first with an arena of
another size. -/
def Outcome.Scales {α : Type} (size : Nat) (o o' : Outcome α) : Prop :=
  o.OutOfMemory ∨ o' = o.adjust (Machine.resize size) ∧ o.machine.Fits size

/-- In an arena of another size, into which the machine fits, the computation does the same, unless
it runs out of memory. -/
def Eval.Scales {α : Type} (size : Nat) (x : Eval α) : Prop :=
  ∀ ⦃m : Machine⦄, m.Fits size → (x m).Scales size (x (m.resize size))

namespace Eval.Scales

variable {α β σ : Type} {size : Nat} {x : Eval α}

theorem pure (a : α) : Scales size (pure a : Eval α) := fun _ h => .inr ⟨rfl, h⟩

theorem fail (e : Error) : Scales size (fail e : Eval α) := fun _ h => .inr ⟨rfl, h⟩

theorem complain (c : Complaint) : Scales size (complain c : Eval α) := fail _

theorem read {f : Machine → α} (hf : ∀ m : Machine, f (m.resize size) = f m) :
    Scales size (read f) := by
  intro m h
  refine .inr ⟨?_, h⟩
  change Outcome.done _ _ = Outcome.done _ _
  rw [hf]

theorem token : Scales size token := read fun _ => rfl

theorem ofExcept (result : Except Error α) : Scales size (ofExcept result) := by
  cases result with
  | ok a => exact pure a
  | error e => exact fail e

theorem update {f : Machine → Machine} (hf : ∀ m : Machine, f (m.resize size) = (f m).resize size)
    (fits : ∀ {m : Machine}, m.Fits size → (f m).Fits size) : Scales size (update f) := by
  intro m h
  refine .inr ⟨?_, fits h⟩
  change Outcome.done _ _ = Outcome.done _ _
  rw [hf]

theorem bind {f : α → Eval β} (hx : Scales size x) (hf : ∀ a, Scales size (f a)) :
    Scales size (x >>= f) := by
  intro m h
  change ((x m).andThen f).Scales size ((x (m.resize size)).andThen f)
  rcases hx h with short | ⟨same, fits⟩
  · obtain ⟨e, m', hm, kind⟩ := Outcome.outOfMemory_iff.mp short
    rw [hm]
    exact .inl kind
  · rw [same]
    cases hm : x m with
    | done a m' =>
      rw [hm] at fits
      exact hf a fits
    | failed e m' =>
      rw [hm] at fits
      exact .inr ⟨rfl, fits⟩
    | stopped why m' =>
      rw [hm] at fits
      exact .inr ⟨rfl, fits⟩

theorem loop {turn : σ → Eval (Turn σ α)} (hturn : ∀ s, Scales size (turn s)) (passes : Nat)
    (s : σ) : Scales size (Eval.loop turn passes s) := by
  intro m h
  induction passes generalizing s m with
  | zero => exact .inr ⟨rfl, h⟩
  | succ passes ih =>
    unfold Eval.loop
    rcases hturn s h with short | ⟨same, fits⟩
    · obtain ⟨e, m', hm, kind⟩ := Outcome.outOfMemory_iff.mp short
      rw [hm]
      exact .inl kind
    · rw [same]
      cases hm : turn s m with
      | done next m' =>
        rw [hm] at fits
        cases next with
        | again s' => exact ih s' fits
        | finish a => exact .inr ⟨rfl, fits⟩
      | failed e m' =>
        rw [hm] at fits
        exact .inr ⟨rfl, fits⟩
      | stopped why m' =>
        rw [hm] at fits
        exact .inr ⟨rfl, fits⟩

/-- What goes on with an error has to fail where that was a lack of memory. -/
theorem attempt_bind {f : Except Error α → Eval β} (hx : Scales size x)
    (hf : ∀ ended, Scales size (f ended))
    (passes : ∀ e m, e.kind = .outOfMemory → (f (.error e) m).OutOfMemory) :
    Scales size (Eval.attempt x >>= f) := by
  intro m h
  change ((Eval.attempt x m).andThen f).Scales size ((Eval.attempt x (m.resize size)).andThen f)
  unfold Eval.attempt
  rcases hx h with short | ⟨same, fits⟩
  · obtain ⟨e, m', hm, kind⟩ := Outcome.outOfMemory_iff.mp short
    rw [hm]
    exact .inl (passes e m' kind)
  · rw [same]
    cases hm : x m with
    | done a m' =>
      rw [hm] at fits
      exact hf (.ok a) fits
    | failed e m' =>
      rw [hm] at fits
      exact hf (.error e) fits
    | stopped why m' =>
      rw [hm] at fits
      exact .inr ⟨rfl, fits⟩

/-! ### Putting things back -/

/-- Starting on another machine, and changing the outcome in a way that passes on a lack of memory,
scales if both do. -/
theorem transform (hx : Scales size x) (start : Machine → Machine)
    (change : Machine → Outcome α → Outcome β)
    (hstart : ∀ m, start (m.resize size) = (start m).resize size)
    (fits : ∀ {m : Machine}, m.Fits size → (start m).Fits size)
    (hchange : ∀ m o, change (m.resize size) (o.adjust (Machine.resize size)) =
      (change m o).adjust (Machine.resize size))
    (fits' : ∀ m {o : Outcome α}, o.machine.Fits size → (change m o).machine.Fits size)
    (short' : ∀ m e m', e.kind = .outOfMemory → (change m (.failed e m')).OutOfMemory) :
    Scales size (fun m => change m (x (start m))) := by
  intro m h
  change (change m (x (start m))).Scales size (change (m.resize size) (x (start (m.resize size))))
  rcases hx (fits h) with short | ⟨same, fits⟩
  · obtain ⟨e, m', hm, kind⟩ := Outcome.outOfMemory_iff.mp short
    rw [hm]
    exact .inl (short' m e m' kind)
  · rw [hstart, same]
    exact .inr ⟨hchange m _, fits' m fits⟩

theorem adjusting (hx : Scales size x) (start : Machine → Machine)
    (finish : Machine → Machine → Machine)
    (hstart : ∀ m, start (m.resize size) = (start m).resize size)
    (fits : ∀ {m : Machine}, m.Fits size → (start m).Fits size)
    (hfinish : ∀ m m', finish (m.resize size) (m'.resize size) = (finish m m').resize size)
    (fits' : ∀ m {m' : Machine}, m'.Fits size → (finish m m').Fits size) :
    Scales size (fun m => (x (start m)).adjust (finish m)) := by
  refine hx.transform start (fun m o => o.adjust (finish m)) hstart fits (fun m o => ?_)
    (fun m o h => ?_) fun m e m' kind => kind
  · cases o <;> simp only [Outcome.adjust, hfinish]
  · rw [Outcome.machine_adjust]
    exact fits' m h

theorem noting (hx : Scales size x) : Scales size (Eval.noting x) := by
  intro m h
  change (x m.note).Scales size (x (m.resize size).note)
  rw [← Machine.resize_note]
  exact hx (h.congr rfl)

theorem withQuoting (hx : Scales size x) (quoting : Quoting) :
    Scales size (Eval.withQuoting quoting x) :=
  hx.adjusting (fun m => { m with quoting }) (fun m m' => { m' with quoting := m.quoting })
    (fun _ => rfl) (fun h => h.congr rfl) (fun _ _ => rfl) fun _ _ h => h.congr rfl

theorem truncatingLiterals (hx : Scales size x) (count : Nat) :
    Scales size (Eval.truncatingLiterals count x) :=
  hx.adjusting id (fun _ m' => { m' with literals := m'.literals.truncate count })
    (fun _ => rfl) id (fun _ _ => rfl) fun _ _ h => h.congr rfl

theorem withPending (hx : Scales size x) (count : Nat) : Scales size (Eval.withPending count x) :=
  hx.adjusting (fun m => { m with literals := (m.literals.openFrame count).2 })
    (fun m m' => { m' with literals := m'.literals.closeFrame (m.literals.openFrame count).1 })
    (fun _ => rfl) (fun h => h.congr rfl) (fun _ _ => rfl) fun _ _ h => h.congr rfl

theorem entering (hx : Scales size x) : Scales size (Eval.entering x) :=
  hx.adjusting (fun m => { m with depth := m.depth + 1 })
    (fun _ m' => { m' with depth := m'.depth - 1 })
    (fun _ => rfl) (fun h => h.congr rfl) (fun _ _ => rfl) fun _ _ h => h.congr rfl

theorem inBody (hx : Scales size x) (body : Slice) (duplicate : Bool) :
    Scales size (Eval.inBody body duplicate x) :=
  hx.adjusting (fun m => { m with cursor := m.cursorAt body, quoting := .plain, duplicate })
    (fun m m' => { m' with
      cursor := m.cursor, token := m.token, quoting := m.quoting, duplicate := m.duplicate })
    (fun m => by rw [Machine.cursorAt_resize]; rfl) (fun h => h.congr rfl) (fun _ _ => rfl)
    fun _ _ h => h.congr rfl

theorem inFrame (hx : Scales size x) : Scales size (Call.inFrame x) := by
  refine hx.adjusting id
    (fun m m' => { m'.withArena (m'.arena.rollback m.arena.symbols.size) with result := m.result })
    (fun _ => rfl) id (fun m m' => ?_) fun m m' h => (h.rollback m.arena.symbols.size).congr rfl
  have back := m'.resize_withArena size (m'.arena.rollback m.arena.symbols.size)
  exact congrArg (fun m'' : Machine => { m'' with result := m.result }) back.symm

theorem inScope (hx : Scales size x) (topLevel : Bool) : Scales size (Eval.inScope topLevel x) := by
  refine hx.adjusting id
    (fun m m' => if topLevel then m' else m'.withArena (m'.arena.rollback m.arena.symbols.size))
    (fun _ => rfl) id (fun m m' => ?_) fun m m' h => ?_
  · cases topLevel with
    | true => rfl
    | false => exact (m'.resize_withArena size (m'.arena.rollback m.arena.symbols.size)).symm
  · cases topLevel with
    | true => exact h
    | false => exact h.rollback m.arena.symbols.size

theorem holding {f : Nat → Eval α} (hf : ∀ slot, Scales size (f slot)) (text : Bytes)
    (forGood : Bool) : Scales size (Eval.holding text forGood f) := by
  intro m h
  refine (hf (m.texts.retain text.toArray).1).adjusting
    (fun m => m.withTexts (m.texts.retain text.toArray).2)
    (fun m m' => if forGood then m' else
      m'.withTexts (m'.texts.release (m.texts.retain text.toArray).1))
    (fun m => (Machine.resize_withTexts size m _).symm) (fun h => h.congr rfl) (fun m m' => ?_)
    (fun m m' h => ?_) h
  · cases forGood with
    | true => rfl
    | false => exact (Machine.resize_withTexts size m' _).symm
  · cases forGood with
    | true => exact h
    | false => exact h.congr rfl

theorem unwinding (hx : Scales size x) : Scales size (Eval.unwinding x) := by
  let unwound (m m' : Machine) : Machine :=
    { m'.withArena (m'.arena.unwind m.arena.depth) with
      literals := m'.literals.truncate m.literals.size }
  refine hx.transform id (fun m o => o.adjustUndone (unwound m)) (fun _ => rfl) id (fun m o => ?_)
    (fun m o h => ?_) fun m e m' kind => kind
  · have back : ∀ m' : Machine, unwound m (m'.resize size) = (unwound m m').resize size := by
      intro m'
      have back := m'.resize_withArena size (m'.arena.unwind m.arena.depth)
      exact congrArg (fun m'' : Machine =>
        { m'' with literals := m'.literals.truncate m.literals.size }) back.symm
    cases o with
    | done a m' => rfl
    | failed e m' => exact congrArg (Outcome.failed e) (back m')
    | stopped why m' => exact congrArg (Outcome.stopped why) (back m')
  · cases o with
    | done a m' => exact h
    | failed e m' => exact h.of_subset rfl fun _ hs => hs
    | stopped why m' => exact h.of_subset rfl fun _ hs => hs

theorem reporting (hx : Scales size x) : Scales size (Eval.reporting x) := by
  refine hx.transform id (fun _ o => Eval.reporting (fun _ => o) o.machine) (fun _ => rfl) id
    (fun m o => ?_) (fun m o h => ?_) fun m e m' kind => ?_
  · cases o with
    | done a m' => rfl
    | stopped why m' => rfl
    | failed e m' =>
      by_cases outermost : m'.depth = 0
      · have outermost' : (m'.resize size).depth = 0 := outermost
        simp only [Eval.reporting, Outcome.adjust, outermost, outermost', if_true]
        rfl
      · have outermost' : (m'.resize size).depth ≠ 0 := outermost
        simp only [Eval.reporting, Outcome.adjust, outermost, outermost', if_false]
  · cases o with
    | done a m' => exact h
    | stopped why m' => exact h
    | failed e m' =>
      unfold Eval.reporting
      dsimp only
      split
      · exact h.congr rfl
      · exact h
  · unfold Eval.reporting
    dsimp only
    split <;> exact kind

theorem locating (hx : Scales size x) : Scales size (Eval.locating x) := by
  refine hx.transform id (fun _ o => o.adjustError Machine.locate) (fun _ => rfl) id (fun m o => ?_)
    (fun m o h => ?_) fun m e m' kind => ?_
  · cases o with
    | done a m' => rfl
    | stopped why m' => rfl
    | failed e m' => simp only [Outcome.adjust, Outcome.adjustError, Machine.locate_resize]
  · rw [Outcome.machine_adjustError]
    exact h
  · exact (m'.locate_eq e).1.trans kind

end Eval.Scales

/-! ### Allocations -/

namespace Arena

variable {size : Nat} {a a' : Arena Native}

theorem free_le_resize (h : a.size ≤ size) : a.free ≤ (a.resize size).free := by
  have high : a.highEnd ≤ (a.resize size).highEnd :=
    Nat.sub_le_sub_right (Nat.sub_le_sub_right h _) _
  exact Nat.sub_le_sub_right high _

theorem addSymbol_resize (h : a.size ≤ size) {name : Slice} {tag : Tag Native} {value : Word}
    {index : Nat} (granted : a.addSymbol name tag value = some (index, a')) :
    (a.resize size).addSymbol name tag value = some (index, a'.resize size) := by
  obtain ⟨room, rfl, rfl⟩ := addSymbol_eq_some granted
  exact if_pos (room.trans (free_le_resize h))

theorem push_resize (h : a.size ≤ size) {word : Word} (granted : a.push word = some a') :
    (a.resize size).push word = some (a'.resize size) := by
  obtain ⟨room, rfl⟩ := push_eq_some granted
  exact if_pos (room.trans (free_le_resize h))

theorem reserve_resize (h : a.size ≤ size) {length stop : Nat}
    (granted : a.reserve length = some (stop, a')) :
    ∃ stop', (a.resize size).reserve length = some (stop', a'.resize size) := by
  obtain ⟨room, rfl, -⟩ := reserve_eq_some granted
  exact ⟨_, if_pos (room.trans (free_le_resize h))⟩

theorem addBytes_resize (h : a.size ≤ size) {bytes : Bytes} {slice : Slice}
    (granted : a.addBytes bytes = some (slice, a')) :
    (a.resize size).addBytes bytes = some (slice, a'.resize size) := by
  unfold addBytes at granted ⊢
  split at granted
  · next stop reserved granted' =>
    cases granted
    obtain ⟨stop', same⟩ := reserve_resize h granted'
    rw [same]
    rfl
  · cases granted

theorem addRoutine_resize (h : a.size ≤ size) {routine : Routine} {number : Nat}
    (granted : a.addRoutine routine = some (number, a')) :
    (a.resize size).addRoutine routine = some (number, a'.resize size) := by
  unfold addRoutine at granted ⊢
  split at granted
  · next stop reserved granted' =>
    cases granted
    obtain ⟨stop', same⟩ := reserve_resize h granted'
    rw [same]
    rfl
  · cases granted

end Arena

namespace Eval.Scales

variable {α : Type} {size : Nat}

/-- An allocation that a larger arena grants in the same way. -/
theorem allocate {f : Arena Native → Option (α × Arena Native)}
    (grants : ∀ {a a' : Arena Native} {v}, a.size ≤ size → f a = some (v, a') →
      f (a.resize size) = some (v, a'.resize size))
    (fits : ∀ {m : Machine} {arena v}, m.Fits size → f m.arena = some (v, arena) →
      (m.withArena arena).Fits size) : Scales size (allocate f) := by
  intro m h
  cases granted : f m.arena with
  | none =>
    left
    unfold Eval.allocate
    rw [granted]
    rfl
  | some answer =>
    obtain ⟨v, arena⟩ := answer
    right
    have granted' : f (m.resize size).arena = some (v, arena.resize size) := grants h.size granted
    unfold Eval.allocate
    rw [granted, granted']
    refine ⟨?_, fits h granted⟩
    change Outcome.done _ _ = Outcome.done _ _
    rw [Machine.resize_withArena]

theorem addSymbol (name : Slice) {tag : Tag Native} (value : Word)
    (plain : ∀ native arity, tag ≠ .native native arity) :
    Scales size (Eval.allocate (·.addSymbol name tag value)) := by
  refine allocate (fun room granted => Arena.addSymbol_resize room granted) fun {m _ _} h granted => ?_
  obtain ⟨-, -, rfl⟩ := Arena.addSymbol_eq_some granted
  refine h.of_symbols rfl fun s hs => ?_
  rcases Array.mem_push.mp hs with old | rfl
  · exact .inl old
  · exact .inr fun native arity htag => absurd htag (plain native arity)

theorem addBytes (bytes : Bytes) : Scales size (Eval.allocate (·.addBytes bytes)) := by
  refine allocate (fun room granted => Arena.addBytes_resize room granted) fun h granted => ?_
  obtain ⟨-, -, rfl⟩ := Arena.addBytes_eq_some granted
  exact h.of_subset rfl fun _ hs => hs

theorem addRoutine (routine : Routine) : Scales size (Eval.allocate (·.addRoutine routine)) := by
  refine allocate (fun room granted => Arena.addRoutine_resize room granted) fun h granted => ?_
  obtain ⟨-, -, rfl⟩ := Arena.addRoutine_eq_some granted
  exact h.of_subset rfl fun _ hs => hs

theorem push (word : Word) : Scales size (Eval.push word) := by
  refine allocate (fun room granted => ?_) fun h granted => ?_
  · obtain ⟨a', pushed, same⟩ := Option.map_eq_some_iff.mp granted
    cases same
    rw [Arena.push_resize room pushed]
    rfl
  · obtain ⟨a', pushed, same⟩ := Option.map_eq_some_iff.mp granted
    cases same
    obtain ⟨-, rfl⟩ := Arena.push_eq_some pushed
    exact h.of_subset rfl fun _ hs => hs

theorem pop : Scales size Eval.pop := by
  intro m h
  refine .inr ⟨?_, h.of_subset rfl fun _ hs => hs⟩
  exact congrArg (Outcome.done _) (m.resize_withArena size m.arena.pop.2).symm

/-! ### Changes to a machine -/

theorem storeResult (value : Word) :
    Scales size (Eval.update fun m => { m with result := value }) :=
  update (fun _ => rfl) fun h => h.congr rfl

theorem moveTo (cursor : Cursor) : Scales size (Eval.update fun m => { m with cursor }) :=
  update (fun _ => rfl) fun h => h.congr rfl

theorem write (stream : Stream) (bytes : Bytes) : Scales size (Eval.write stream bytes) :=
  update (fun _ => rfl) fun h => h.congr rfl

theorem takeLiteral : Scales size Eval.takeLiteral := by
  intro m h
  refine .inr ⟨rfl, ?_⟩
  exact Machine.Fits.congr h rfl

theorem setValue (index : Nat) (value : Word) :
    Scales size (Eval.update fun m => m.withArena (m.arena.setValue index value)) := by
  refine update (fun m => (m.resize_withArena size (m.arena.setValue index value)).symm)
    fun {m} h => ⟨h.size, fun s hs => ?_⟩
  obtain ⟨i, found⟩ := Array.getElem?_of_mem hs
  change (m.arena.symbols.modify index fun s => { s with value })[i]? = some s at found
  rw [Array.getElem?_modify] at found
  split at found
  · obtain ⟨old, there, rfl⟩ := Option.map_eq_some_iff.mp found
    exact h.natives old (Array.mem_of_getElem? there)
  · exact h.natives s (Array.mem_of_getElem? found)

/-! ### Reading -/

/-- What is found in the table does not mind the size. -/
theorem symbolAt_bind {β : Type} {index : Nat} {f : Symbol Native → Eval β}
    (hf : ∀ s, s.Heedless → Scales size (f s)) : Scales size (symbolAt index >>= f) := by
  intro m h
  cases found : m.arena.symbols[index]? with
  | some s =>
    have found' : (m.resize size).arena.symbols[index]? = some s := found
    rw [bind_of_done (symbolAt_of_some found), bind_of_done (symbolAt_of_some found')]
    exact hf s (h.natives s (Array.mem_of_getElem? found)) h
  | none =>
    have found' : (m.resize size).arena.symbols[index]? = none := found
    rw [bind_of_failed (symbolAt_of_none found), bind_of_failed (symbolAt_of_none found')]
    exact .inr ⟨rfl, h⟩

theorem tokenTag? : Scales size tokenTag? := by
  refine token.bind fun t => ?_
  split
  · exact symbolAt_bind fun _ _ => pure _
  · exact pure _

theorem startsExpression : Scales size startsExpression := by
  refine token.bind fun t => ?_
  split
  case h_6 index =>
    refine symbolAt_bind fun s _ => ?_
    split <;> exact pure _
  all_goals exact pure _

theorem readLexeme : Scales size readLexeme := by
  intro m h
  rcases readLexeme_eq m with ⟨_, _, next, read⟩ | ⟨_, _, next, read⟩ <;> rw [read]
  · exact .inr ⟨readLexeme_of_ok next, h.congr rfl⟩
  · exact .inr ⟨readLexeme_of_error next, h.congr rfl⟩

theorem resolve (raw : Bool) (lexeme : Lexeme) : Scales size (resolve raw lexeme) := by
  intro m h
  have found : ∀ place, (m.resize size).index? ((m.resize size).bytes
      (.ofSpan (m.resize size).cursor.source place)) =
      m.index? (m.bytes (.ofSpan m.cursor.source place)) := fun place => by
    rw [Machine.index?_resize, Machine.bytes_resize]
    rfl
  cases lexeme with
  | name place =>
    unfold Eval.resolve
    dsimp only
    rw [found]
    cases raw with
    | true => exact .inr ⟨rfl, h⟩
    | false => cases m.index? _ <;> exact .inr ⟨rfl, h⟩
  | operator place =>
    unfold Eval.resolve
    dsimp only
    rw [found]
    cases m.index? _ <;> exact .inr ⟨rfl, h⟩
  | quote inside =>
    have quoting : (m.resize size).quoting = m.quoting := rfl
    unfold Eval.resolve
    dsimp only
    rw [quoting, Machine.bytes_resize]
    cases m.quoting with
    | plain => exact .inr ⟨rfl, h⟩
    | argument => exact .inr ⟨rfl, h.congr rfl⟩
  | _ => exact .inr ⟨rfl, h⟩

theorem advanceBy (raw : Bool) : Scales size (advanceBy raw) :=
  readLexeme.bind fun lexeme => (resolve raw lexeme).bind fun _ =>
    update (fun _ => rfl) fun h => h.congr rfl

theorem advance : Scales size advance := advanceBy false

theorem advanceRaw : Scales size advanceRaw := advanceBy true

theorem keep (slice : Slice) : Scales size (keep slice) := by
  intro m h
  have duplicate : (m.resize size).duplicate = m.duplicate := rfl
  unfold Eval.keep
  rw [duplicate, Machine.bytes_resize]
  split
  · split
    · exact addBytes _ h
    · exact .inr ⟨rfl, h⟩
  · exact .inr ⟨rfl, h⟩

/-! ### Definitions and argument lists -/

theorem definedName : Scales size Statement.definedName := by
  refine token.bind fun t => ?_
  split
  · exact keep _
  · exact complain _

theorem definedBody : Scales size Statement.definedBody := by
  refine token.bind fun t => ?_
  split
  · exact keep _
  · exact complain _

theorem parameters (room : Nat) : Scales size (Statement.parameters room) := by
  induction room with
  | zero =>
    refine token.bind fun t => ?_
    split
    · exact pure _
    · exact fail _
    · exact complain _
  | succ room ih =>
    have rest : ∀ name, Scales size (do return name :: (← Statement.parameters room)) :=
      fun name => ih.bind fun _ => pure _
    refine token.bind fun t => ?_
    split
    · exact pure _
    · refine definedName.bind fun name => advanceRaw.bind fun _ => token.bind fun t => ?_
      split
      · exact advanceRaw.bind fun _ => rest name
      · exact rest name
      · exact (complain _).bind fun _ => rest name

theorem parameterList : Scales size Statement.parameterList := by
  refine token.bind fun t => ?_
  split
  · exact advanceRaw.bind fun _ => (parameters _).bind fun _ => advanceRaw.bind fun _ => pure _
  · exact pure _

theorem declareFunction : Scales size Statement.declareFunction :=
  advanceRaw.bind fun _ => definedName.bind fun name => advanceRaw.bind fun _ =>
    parameterList.bind fun params => definedBody.bind fun body =>
      (addRoutine ⟨params, body⟩).bind fun number =>
        (addSymbol name (Int64.ofNat number) fun _ _ h => by cases h).bind fun _ => advance

theorem takeBody : Scales size Statement.takeBody := by
  refine token.bind fun t => ?_
  split
  · exact advance.bind fun _ => pure _
  · exact complain _

theorem takeAlternative : Scales size Statement.takeAlternative := by
  refine tokenTag?.bind fun tag? => ?_
  split
  · exact advance.bind fun _ => takeBody.bind fun _ => pure _
  · exact pure _

theorem popOnto (words : List Word) (count : Nat) : Scales size (popOnto words count) := by
  induction count generalizing words with
  | zero => exact pure _
  | succ count ih => exact pop.bind fun word => ih (word :: words)

theorem bindParameters (bindings : List (Slice × Word)) :
    Scales size (Call.bindParameters bindings) := by
  induction bindings with
  | nil => exact pure _
  | cons binding rest ih =>
    exact (addSymbol binding.1 binding.2 fun _ _ h => by cases h).bind fun _ => ih

theorem passSeparator : Scales size Statement.passSeparator := by
  refine token.bind fun t => ?_
  split
  · exact pure _
  · exact pure _
  · exact advance
  · refine symbolAt_bind fun s _ => ?_
    split
    · exact pure _
    · exact pure _
    · exact pure _
    · split
      · exact complain _
      · exact pure _
    · exact complain _
  · exact complain _

end Eval.Scales

end Scriptlet
