import Mathlib.Data.List.Chain
import Scriptlet.Proofs.Scope

/-!
Slices that last. A symbol has a name, and the symbol of a function has a routine with parameter
names and a body as well; all of these are slices. `Memory.Intact` says that none of them dangles:
the store of each is still there and reaches far enough. `Machine.Sound` says that, and tells the
history of the machine: at every noted moment the names were in place.

Not all hosts play by the rules. One that makes up the symbol of a function can name a routine that
was given up long ago, whose slices point anywhere. So there are two strengths of what is said. With
`whole` set, hosts and natives are honest, symbols are looked at with all their slices, and the
history is known to carry every symbol from moment to moment; without, only names count.
-/

namespace Scriptlet

open Text (Bytes)

/-- An action that leaves it to scripts to define functions, and defines only natives that do so
too. -/
inductive Action.Honest : Action → Prop where
  | give (value : Word) : Honest (.give value)
  | fail (error : Error) : Honest (.fail error)
  | takeLiteral {next : Option String → Action} (hnext : ∀ text?, Honest (next text?)) :
    Honest (.takeLiteral next)
  | write {stream : Stream} {bytes : Bytes} {next : Action} (hnext : Honest next) :
    Honest (.write stream bytes next)
  | look {next : View → Action} (hnext : ∀ view, Honest (next view)) : Honest (.look next)
  | define {name : String} {tag : Tag (List Word → Action)} {value : Word}
    {next : Except Error Nat → Action} (hfunc : ∀ arity, tag ≠ .func arity)
    (hnative : ∀ native arity, tag = .native native arity → ∀ args, Honest (native args))
    (hnext : ∀ index, Honest (next index)) : Honest (.define name tag value next)
  | evalText {text : String} {duplicate topLevel : Bool} {next : Except Error Unit → Action}
    (hnext : ∀ ended, Honest (next ended)) : Honest (.evalText text duplicate topLevel next)
  | evalFile {path : String} {next : Except Error Unit → Action}
    (hnext : ∀ ended, Honest (next ended)) : Honest (.evalFile path next)
  | ask {question : Question} {next : question.Answer → Action}
    (hnext : ∀ answer, Honest (next answer)) : Honest (.ask question next)

theorem Symbol.Lasts.func_value {s s' : Symbol Native} (h : s.Lasts s') {arity : Nat}
    (htag : s.tag = .func arity) : s'.value = s.value := h.value (by simp [htag])

namespace Memory

variable {a b : Memory} {s s' : Symbol Native} {slice : Slice} {whole : Bool}

/-! ### Stores -/

/-- The store of a slice is there, and reaches far enough if it can still grow. -/
def Holds (x : Memory) (slice : Slice) : Prop :=
  match slice.source with
  | .fixed _ => True
  | .durable => slice.stop ≤ x.arena.durable.size
  | .text slot => (x.texts.text? slot).isSome = true

theorem Grows.store_prefix (h : a.Grows b) (source : Source) :
    (a.store source).toList <+: (b.store source).toList := by
  cases source with
  | fixed bytes => exact List.prefix_rfl
  | durable => exact h.durable
  | text slot =>
    change (a.texts.get slot).toList <+: (b.texts.get slot).toList
    unfold Texts.get
    cases held : a.texts.text? slot with
    | none => exact List.nil_prefix
    | some text =>
      exact h.texts held ▸ List.prefix_rfl

theorem Grows.size_store_le (h : a.Grows b) (source : Source) :
    (a.store source).size ≤ (b.store source).size := by
  have := (h.store_prefix source).length_le
  simpa using this

theorem Grows.holds (h : a.Grows b) (hs : a.Holds slice) : b.Holds slice := by
  unfold Holds at hs ⊢
  cases hsource : slice.source with
  | fixed bytes => trivial
  | durable =>
    rw [hsource] at hs
    exact Nat.le_trans hs (h.size_store_le .durable)
  | text slot =>
    rw [hsource] at hs
    obtain ⟨text, held⟩ := Option.isSome_iff_exists.mp hs
    simp [h.texts held]

/-- A slice that is held reads the same in memory that has only grown. -/
theorem Grows.bytes (h : a.Grows b) (hs : a.Holds slice) : b.bytes slice = a.bytes slice := by
  unfold Holds at hs
  unfold Memory.bytes
  cases hsource : slice.source with
  | fixed bytes => rfl
  | durable =>
    rw [hsource] at hs
    have inside : slice.stop ≤ (a.store .durable).size := hs
    have inside' : slice.stop ≤ (b.store .durable).size :=
      Nat.le_trans inside (h.size_store_le .durable)
    obtain ⟨more, hmore⟩ := h.store_prefix .durable
    unfold Slice.bytesIn
    rw [if_pos inside, if_pos inside', Array.toList_extract, Array.toList_extract,
      List.extract_eq_take_drop, List.extract_eq_take_drop, ← hmore, List.drop_append,
      List.take_append_of_le_length]
    rw [List.length_drop, Array.length_toList]
    exact Nat.sub_le_sub_right inside _
  | text slot =>
    rw [hsource] at hs
    obtain ⟨text, held⟩ := Option.isSome_iff_exists.mp hs
    have same : b.store (.text slot) = a.store (.text slot) := by
      change b.texts.get slot = a.texts.get slot
      unfold Texts.get
      rw [held, h.texts held]
    rw [same]

theorem holds_addBytes {bytes : Bytes} {arena : Arena Native}
    (granted : a.arena.addBytes bytes = some (slice, arena)) :
    slice.source = .durable ∧ Holds ⟨arena, a.texts⟩ slice := by
  obtain ⟨-, rfl, rfl⟩ := Arena.addBytes_eq_some granted
  refine ⟨rfl, ?_⟩
  change a.arena.durable.size + bytes.length ≤ (a.arena.durable ++ bytes.toArray).size
  simp

/-! ### The slices of a symbol -/

def routine? (x : Memory) (number : Word) : Option Routine :=
  number.index?.bind (x.arena.routines[·]?)

def slices (x : Memory) (s : Symbol Native) : List Slice :=
  s.name ::
    match s.tag, x.routine? s.value with
    | .func _, some routine => routine.body :: routine.params
    | _, _ => []

/-- The slices of the symbol of an index, each with what it reads as. -/
def readings (x : Memory) (index : Nat) : List (Slice × Bytes) :=
  match x.arena.symbols[index]? with
  | some s => (x.slices s).map fun slice => (slice, x.bytes slice)
  | none => []

/-- The slices of a symbol that are looked at. -/
def tracked (whole : Bool) (x : Memory) (s : Symbol Native) : List Slice :=
  if whole then x.slices s else [s.name]

theorem name_mem_tracked (whole : Bool) (x : Memory) (s : Symbol Native) :
    s.name ∈ x.tracked whole s := by
  cases whole <;> simp [tracked, slices]

theorem tracked_eq_name (x : Memory) (h : whole = true → ∀ arity, s.tag ≠ .func arity) :
    x.tracked whole s = [s.name] := by
  cases whole with
  | false => rfl
  | true =>
    unfold tracked slices
    cases htag : s.tag with
    | func arity => exact absurd htag (h rfl arity)
    | var => rfl
    | operator op => rfl
    | keyword word => rfl
    | native native arity => rfl

theorem Grows.routine? (h : a.Grows b) {number : Word} {routine : Routine}
    (found : a.routine? number = some routine) : b.routine? number = some routine := by
  obtain ⟨index, hindex, hroutine⟩ := Option.bind_eq_some_iff.mp found
  exact Option.bind_eq_some_iff.mpr ⟨index, hindex, h.routines hroutine⟩

/-- What the table has to say of a symbol, besides that its slices are held: a function has a
routine, and a native is honest. -/
structure Admits (whole : Bool) (x : Memory) (s : Symbol Native) : Prop where
  held : ∀ slice ∈ x.tracked whole s, x.Holds slice
  described : whole = true → ∀ {arity}, s.tag = .func arity → ∃ routine, x.routine? s.value = some routine
  honest : whole = true → ∀ {native arity}, s.tag = .native native arity →
    ∀ args, (native args).Honest

/-- A symbol that is no function is admitted with its name. -/
theorem admits_of_name {x : Memory} (hname : x.Holds s.name)
    (hfunc : whole = true → ∀ arity, s.tag ≠ .func arity)
    (hnative : whole = true → ∀ {native arity}, s.tag = .native native arity →
      ∀ args, (native args).Honest) : x.Admits whole s where
  held slice hmem := by
    rw [tracked_eq_name x hfunc, List.mem_singleton] at hmem
    rw [hmem]
    exact hname
  described hw _ htag := absurd htag (hfunc hw _)
  honest := hnative

theorem Grows.slices (g : a.Grows b) (l : s.Lasts s')
    (described : ∀ {arity}, s.tag = .func arity → ∃ routine, a.routine? s.value = some routine) :
    b.slices s' = a.slices s := by
  unfold Memory.slices
  rw [l.name, l.tag]
  cases htag : s.tag with
  | func arity =>
    obtain ⟨routine, found⟩ := described htag
    have found' : b.routine? s'.value = some routine := by
      rw [l.func_value htag]
      exact g.routine? found
    rw [found, found']
  | var => rfl
  | operator op => rfl
  | keyword word => rfl
  | native native arity => rfl

theorem Admits.tracked_eq (h : Admits whole a s) (g : a.Grows b) (l : s.Lasts s') :
    b.tracked whole s' = a.tracked whole s := by
  cases whole with
  | true => exact g.slices l (h.described rfl)
  | false => exact congrArg (fun name => [name]) l.name

theorem Admits.grows (h : Admits whole a s) (g : a.Grows b) (l : s.Lasts s') :
    Admits whole b s' where
  held slice hmem := g.holds (h.held slice (h.tracked_eq g l ▸ hmem))
  described hw arity htag := by
    have htag' : s.tag = .func arity := l.tag ▸ htag
    obtain ⟨routine, found⟩ := h.described hw htag'
    refine ⟨routine, ?_⟩
    rw [l.func_value htag']
    exact g.routine? found
  honest hw _ _ htag := h.honest hw (l.tag ▸ htag)

/-! ### Intact memory -/

/-- The slices of a routine come from one store, and are inside if that is the durable one. -/
structure Tidy (x : Memory) (routine : Routine) : Prop where
  source : ∀ param ∈ routine.params, param.source = routine.body.source
  inside : routine.body.source = .durable →
    ∀ slice ∈ routine.body :: routine.params, slice.stop ≤ x.arena.durable.size

/-- Routines are charged for, and sizes are numbers of 64 bits. -/
structure Budgeted (arena : Arena Native) : Prop where
  charged : arena.routines.size * routineSize ≤ arena.reserved
  fits : arena.reserved ≤ arena.size
  small : arena.size < UInt64.size

theorem Budgeted.addBytes {arena arena' : Arena Native} {bytes : Bytes} (h : Budgeted arena)
    (granted : arena.addBytes bytes = some (slice, arena')) : Budgeted arena' := by
  obtain ⟨room, -, rfl⟩ := Arena.addBytes_eq_some granted
  obtain ⟨charged, fits, small⟩ := h
  simp only [Arena.free, Arena.highEnd] at room
  refine ⟨?_, ?_, small⟩
  · change arena.routines.size * routineSize ≤ arena.reserved + _
    omega
  · change arena.reserved + wordAligned bytes.length ≤ arena.size
    omega

theorem Budgeted.addRoutine {arena arena' : Arena Native} {routine : Routine} {number : Nat}
    (h : Budgeted arena) (granted : arena.addRoutine routine = some (number, arena')) :
    Budgeted arena' := by
  obtain ⟨room, -, rfl⟩ := Arena.addRoutine_eq_some granted
  obtain ⟨charged, fits, small⟩ := h
  have aligned : wordAligned routineSize = routineSize := rfl
  simp only [Arena.free, Arena.highEnd, aligned] at room
  refine ⟨?_, ?_, small⟩
  · change (arena.routines.push routine).size * routineSize ≤ arena.reserved + wordAligned routineSize
    rw [Array.size_push, Nat.add_mul, Nat.one_mul, aligned]
    omega
  · change arena.reserved + wordAligned routineSize ≤ arena.size
    omega

/-- No slice dangles. -/
structure Intact (whole : Bool) (x : Memory) : Prop where
  symbols : ∀ {i : Nat} {s}, x.arena.symbols[i]? = some s → x.Admits whole s
  routines : ∀ {i : Nat} {routine}, x.arena.routines[i]? = some routine → x.Tidy routine
  budget : whole = true → Budgeted x.arena

/-- If the body of a tidy routine is held, so are its parameter names. -/
theorem Tidy.holds {x : Memory} {routine : Routine} (h : x.Tidy routine)
    (hbody : x.Holds routine.body) : ∀ param ∈ routine.params, x.Holds param := by
  intro param hparam
  have hsource := h.source param hparam
  unfold Holds at hbody ⊢
  rw [hsource]
  cases hs : routine.body.source with
  | fixed bytes => trivial
  | durable => exact h.inside hs param (List.mem_cons_of_mem _ hparam)
  | text slot =>
    rw [hs] at hbody
    exact hbody

/-- Only a text can be gone. -/
theorem Tidy.gone {x : Memory} {routine : Routine} (h : x.Tidy routine)
    (hbody : ¬ x.Holds routine.body) :
    ∃ slot, routine.body.source = .text slot ∧ x.texts.text? slot = none := by
  unfold Holds at hbody
  cases hs : routine.body.source with
  | fixed bytes =>
    rw [hs] at hbody
    exact absurd trivial hbody
  | durable =>
    rw [hs] at hbody
    exact absurd (h.inside hs _ List.mem_cons_self) hbody
  | text slot =>
    rw [hs] at hbody
    exact ⟨slot, rfl, by simpa using hbody⟩

theorem Intact.grows (h : a.Intact whole) (g : a.Grows b)
    (hsymbols : ∀ {i : Nat} {s}, a.arena.symbols.size ≤ i → b.arena.symbols[i]? = some s →
      b.Admits whole s)
    (hroutines : ∀ {i : Nat} {routine}, a.arena.routines.size ≤ i →
      b.arena.routines[i]? = some routine → b.Tidy routine)
    (hbudget : whole = true → Budgeted b.arena) : b.Intact whole where
  symbols {i s} found := by
    by_cases hi : i < a.arena.symbols.size
    · obtain ⟨s', found', lasts⟩ := g.symbols (Array.getElem?_eq_getElem hi)
      rw [found] at found'
      cases found'
      exact (h.symbols (Array.getElem?_eq_getElem hi)).grows g lasts
    · exact hsymbols (Nat.le_of_not_lt hi) found
  routines {i routine} found := by
    by_cases hi : i < a.arena.routines.size
    · have old := Array.getElem?_eq_getElem hi
      have same := g.routines old
      rw [found] at same
      cases same
      have tidy := h.routines old
      exact ⟨tidy.source, fun hs slice hmem =>
        Nat.le_trans (tidy.inside hs slice hmem) (g.size_store_le .durable)⟩
    · exact hroutines (Nat.le_of_not_lt hi) found
  budget := hbudget

/-- Where the table and the routines are as before, nothing is new. -/
theorem Intact.grows_of_size (h : a.Intact whole) (g : a.Grows b)
    (hsymbols : b.arena.symbols.size = a.arena.symbols.size)
    (hroutines : b.arena.routines.size = a.arena.routines.size)
    (hbudget : whole = true → Budgeted b.arena) : b.Intact whole := by
  refine h.grows g (fun hi found => ?_) (fun hi found => ?_) hbudget
  · obtain ⟨inside, -⟩ := Array.getElem?_eq_some_iff.mp found
    omega
  · obtain ⟨inside, -⟩ := Array.getElem?_eq_some_iff.mp found
    omega

/-! ### One step -/

theorem Intact.stack (h : a.Intact whole) (stack : Array Word) :
    Intact whole ⟨{ a.arena with stack }, a.texts⟩ :=
  h.grows_of_size (.of_eq rfl rfl rfl rfl) rfl rfl fun hw => ⟨(h.budget hw).charged,
    (h.budget hw).fits, (h.budget hw).small⟩

theorem Intact.setValue (h : a.Intact whole) {index : Nat} (found : a.arena.symbols[index]? = some s)
    (hvar : s.tag = .var) (value : Word) :
    Intact whole ⟨a.arena.setValue index value, a.texts⟩ :=
  h.grows_of_size ((Grows.refl a).setValue found hvar value) (Array.size_modify ..) rfl
    fun hw => ⟨(h.budget hw).charged, (h.budget hw).fits, (h.budget hw).small⟩

theorem Intact.addBytes (h : a.Intact whole) {bytes : Bytes} {arena : Arena Native}
    (granted : a.arena.addBytes bytes = some (slice, arena)) : Intact whole ⟨arena, a.texts⟩ := by
  have g : a.Grows ⟨arena, a.texts⟩ := .addBytes granted
  have budget : whole = true → Budgeted arena := fun hw => (h.budget hw).addBytes granted
  obtain ⟨-, -, rfl⟩ := Arena.addBytes_eq_some granted
  exact h.grows_of_size g rfl rfl budget

theorem Intact.addRoutine (h : a.Intact whole) {routine : Routine} {number : Nat}
    {arena : Arena Native} (granted : a.arena.addRoutine routine = some (number, arena))
    (tidy : a.Tidy routine) : Intact whole ⟨arena, a.texts⟩ := by
  have g : a.Grows ⟨arena, a.texts⟩ := .addRoutine granted
  have budget : whole = true → Budgeted arena := fun hw => (h.budget hw).addRoutine granted
  obtain ⟨-, -, rfl⟩ := Arena.addRoutine_eq_some granted
  refine h.grows g (fun {i s} hi found => ?_) (fun {i new} hi found => ?_) budget
  · obtain ⟨inside, -⟩ := Array.getElem?_eq_some_iff.mp found
    change i < a.arena.symbols.size at inside
    omega
  · change (a.arena.routines.push routine)[i]? = some new at found
    rw [Array.getElem?_push] at found
    split at found
    · cases found
      exact ⟨tidy.source, tidy.inside⟩
    · obtain ⟨inside, -⟩ := Array.getElem?_eq_some_iff.mp found
      omega

theorem Intact.addSymbol (h : a.Intact whole) {name : Slice} {tag : Tag Native} {value : Word}
    {index : Nat} {arena : Arena Native}
    (granted : a.arena.addSymbol name tag value = some (index, arena))
    (admits : a.Admits whole ⟨name, tag, value⟩) : Intact whole ⟨arena, a.texts⟩ := by
  have g : a.Grows ⟨arena, a.texts⟩ := .addSymbol granted
  obtain ⟨-, -, rfl⟩ := Arena.addSymbol_eq_some granted
  refine h.grows g (fun {i s} hi found => ?_) (fun {i routine} hi found => ?_)
    fun hw => ⟨(h.budget hw).charged, (h.budget hw).fits, (h.budget hw).small⟩
  · change (a.arena.symbols.push ⟨name, tag, value⟩)[i]? = some s at found
    rw [Array.getElem?_push] at found
    split at found
    · cases found
      exact admits.grows g (.refl _)
    · obtain ⟨inside, -⟩ := Array.getElem?_eq_some_iff.mp found
      omega
  · obtain ⟨inside, -⟩ := Array.getElem?_eq_some_iff.mp found
    change i < a.arena.routines.size at inside
    omega

theorem Intact.retain (h : a.Intact whole) (text : Array UInt8) :
    Intact whole ⟨a.arena, (a.texts.retain text).2⟩ :=
  h.grows_of_size (.retain text) rfl rfl h.budget

theorem Intact.rollback (h : a.Intact whole) (count : Nat) :
    Intact whole ⟨a.arena.rollback count, a.texts⟩ where
  symbols {i s} found := by
    have found' : a.arena.symbols[i]? = some s := by
      change (a.arena.symbols.take count)[i]? = some s at found
      rw [Array.take_eq_extract, Array.getElem?_extract, Nat.zero_add] at found
      split at found
      · exact found
      · cases found
    have admits := h.symbols found'
    exact ⟨admits.held, admits.described, admits.honest⟩
  routines found := ⟨(h.routines found).source, (h.routines found).inside⟩
  budget hw := ⟨(h.budget hw).charged, (h.budget hw).fits, (h.budget hw).small⟩

/-- A slot is released when no slice of a symbol points into it any more. -/
theorem Intact.release (h : a.Intact whole) {slot : Nat}
    (unused : ∀ {i : Nat} {s}, a.arena.symbols[i]? = some s → ∀ slice ∈ a.tracked whole s,
      slice.source ≠ .text slot) : Intact whole ⟨a.arena, a.texts.release slot⟩ where
  symbols {i s} found := by
    have admits := h.symbols found
    refine ⟨fun slice hmem => ?_, admits.described, admits.honest⟩
    have held := admits.held slice hmem
    have hne := unused found slice hmem
    unfold Holds at held ⊢
    cases hsource : slice.source with
    | fixed bytes => trivial
    | durable =>
      rw [hsource] at held
      exact held
    | text other =>
      rw [hsource] at held hne
      have : other ≠ slot := fun h => hne (congrArg _ h)
      simp only [Texts.text?_release, if_neg this]
      exact held
  routines found := ⟨(h.routines found).source, (h.routines found).inside⟩
  budget := h.budget

/-! ### From one moment to the next -/

/-- A symbol that is in both tables has the same slices in both, and they read the same. -/
def Carries (a b : Memory) : Prop :=
  ∀ {i : Nat}, i < a.arena.symbols.size → i < b.arena.symbols.size → b.readings i = a.readings i

theorem readings_of_found {x : Memory} {i : Nat} (found : x.arena.symbols[i]? = some s) :
    x.readings i = (x.slices s).map fun slice => (slice, x.bytes slice) := by
  unfold readings
  rw [found]

theorem Intact.carries (h : a.Intact true) (g : a.Grows b) : a.Carries b := by
  intro i hi _
  have found := Array.getElem?_eq_getElem hi
  obtain ⟨s', found', lasts⟩ := g.symbols found
  have admits := h.symbols found
  rw [readings_of_found found, readings_of_found found', g.slices lasts (admits.described rfl)]
  refine List.map_congr_left fun slice hmem => ?_
  rw [g.bytes (admits.held slice hmem)]

theorem carries_rollback (x : Memory) (count : Nat) :
    x.Carries ⟨x.arena.rollback count, x.texts⟩ := by
  intro i _ hi
  have hi' : i < min count x.arena.symbols.size := by
    simpa [Arena.rollback] using hi
  have same : (x.arena.rollback count).symbols[i]? = x.arena.symbols[i]? := by
    change (x.arena.symbols.take count)[i]? = _
    rw [Array.take_eq_extract, Array.getElem?_extract, Nat.zero_add, if_pos (by omega)]
  unfold readings
  rw [same]
  rfl

theorem carries_release {x : Memory} {slot : Nat}
    (unused : ∀ {i : Nat} {s}, x.arena.symbols[i]? = some s → ∀ slice ∈ x.tracked true s,
      slice.source ≠ .text slot) : x.Carries ⟨x.arena, x.texts.release slot⟩ := by
  intro i hi _
  have found := Array.getElem?_eq_getElem hi
  rw [readings_of_found found, readings_of_found (x := ⟨x.arena, x.texts.release slot⟩) found]
  refine List.map_congr_left fun slice hmem => ?_
  have hne := unused found slice hmem
  have same : store ⟨x.arena, x.texts.release slot⟩ slice.source = x.store slice.source := by
    cases hsource : slice.source with
    | fixed bytes => rfl
    | durable => rfl
    | text other =>
      rw [hsource] at hne
      have : other ≠ slot := fun h => hne (congrArg _ h)
      change (x.texts.release slot).get other = x.texts.get other
      unfold Texts.get
      rw [Texts.text?_release, if_neg this]
  unfold bytes
  rw [same]

end Memory

/-- A function is called by what its symbol says. -/
theorem runFunction_apply (r : Reentry) {m : Machine} {number : Word} {routine : Routine}
    (args : List Word) (h : m.memory.routine? number = some routine) :
    Call.runFunction r number args m = Call.runRoutine r routine args m.note := by
  change ((Eval.read fun m => m.memory.routine? number) >>= _ : Eval Word) m.note = _
  rw [Eval.bind_apply]
  change (Outcome.done (m.memory.routine? number) m.note).andThen _ = _
  rw [h]
  rfl

/-! ### Sound machines -/

/-- What is known of a life that has led to a memory. -/
structure Told (whole : Bool) (memory : Memory) (life : List Moment) : Prop where
  names : ∀ x ∈ life, x.noted = true → ∀ {i : Nat} {s}, x.arena.symbols[i]? = some s →
    x.toMemory.Holds s.name
  latest : whole = true → ∃ x before, life = x :: before ∧ x.toMemory = memory
  intact : whole = true → ∀ x ∈ life, x.toMemory.Intact true
  carried : whole = true →
    life.IsChain fun newer older => older.toMemory.Carries newer.toMemory

namespace Machine

/-- The memory of the machine is intact, and so it has always been. -/
structure Sound (whole : Bool) (m : Machine) : Prop where
  intact : m.memory.Intact whole
  told : ∃ life, (∀ l, m.history l ↔ l = life) ∧ Told whole m.memory life

variable {whole : Bool} {m : Machine}

theorem Sound.add (h : m.Sound whole) {memory : Memory} (intact : memory.Intact whole)
    (carries : whole = true → m.memory.Carries memory) (noted : Bool) :
    ∃ life, (∀ l, m.history.add ⟨memory, noted⟩ l ↔ l = life) ∧ Told whole memory life := by
  obtain ⟨life, hlife, told⟩ := h.told
  refine ⟨⟨memory, noted⟩ :: life, fun l => ?_, ?_⟩
  · simp [History.add, hlife]
  · refine ⟨fun x hx hnoted i s found => ?_, fun _ => ⟨_, _, rfl, rfl⟩, fun hw x hx => ?_, fun hw => ?_⟩
    · rcases List.mem_cons.mp hx with rfl | hx
      · exact (intact.symbols found).held _ (Memory.name_mem_tracked _ _ _)
      · exact told.names x hx hnoted found
    · rcases List.mem_cons.mp hx with rfl | hx
      · subst hw
        exact intact
      · exact told.intact hw x hx
    · obtain ⟨x, before, rfl, latest⟩ := told.latest hw
      refine List.isChain_cons_cons.mpr ⟨?_, told.carried hw⟩
      rw [latest]
      exact carries hw

theorem Sound.withArena (h : m.Sound whole) {arena : Arena Native}
    (intact : Memory.Intact whole ⟨arena, m.texts⟩)
    (carries : whole = true → m.memory.Carries ⟨arena, m.texts⟩) :
    (m.withArena arena).Sound whole := ⟨intact, h.add intact carries false⟩

theorem Sound.withTexts (h : m.Sound whole) {texts : Texts}
    (intact : Memory.Intact whole ⟨m.arena, texts⟩)
    (carries : whole = true → m.memory.Carries ⟨m.arena, texts⟩) :
    (m.withTexts texts).Sound whole := ⟨intact, h.add intact carries false⟩

theorem Sound.note (h : m.Sound whole) : m.note.Sound whole := by
  refine ⟨h.intact, h.add h.intact (fun hw => ?_) true⟩
  subst hw
  exact h.intact.carries (.refl m.memory)

theorem Sound.withArena_grows (h : m.Sound whole) {arena : Arena Native}
    (intact : Memory.Intact whole ⟨arena, m.texts⟩) (g : Grows m (m.withArena arena)) :
    (m.withArena arena).Sound whole := by
  refine h.withArena intact fun hw => ?_
  subst hw
  exact h.intact.carries g

end Machine

end Scriptlet
