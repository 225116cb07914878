import Scriptlet.Proofs.Reach

/-!
A text in another place. In one slot of a machine a text is exchanged for another one that has a piece
of the first, some way further on. What has to move then are the slices that lie in this piece: names and
bodies of what the text has defined so far. All else that a machine remembers stays as it is, so the
machine with the other text is a function of the first one (`Relocation.put`), up to where it is reading.

Routines are not dropped when their symbols are. Those that are older than the text may still have
slices in its slot, left over from a text that had it before; nothing calls them any more, and they
are not moved.
-/

namespace Scriptlet

open Text (Bytes lineFeed)

/-- An exchange of a text for another. The piece of the old text from `low` up to `reach` is in the new
one too, `shift` bytes further on. As far as `high` there may be slices to be moved. The first `base`
routines are older than the text. -/
structure Relocation where
  slot : Nat
  old : Array UInt8
  new : Array UInt8
  shift : Nat
  low : Nat
  high : Nat
  reach : Nat
  base : Nat

namespace Relocation

/-- The bytes are there, and on the same lines. -/
structure Fits (ρ : Relocation) : Prop where
  high : ρ.high ≤ ρ.reach
  reach : ρ.reach ≤ ρ.old.size
  room : ρ.shift + ρ.reach ≤ ρ.new.size
  bytes : ∀ i, ρ.low ≤ i → i < ρ.reach → ρ.new[ρ.shift + i]? = ρ.old[i]?
  lines : ∀ i, ρ.low ≤ i → i ≤ ρ.high →
    Text.lineNumber ρ.new.toList (ρ.shift + i) = Text.lineNumber ρ.old.toList i

variable (ρ : Relocation)

/-! ### Slices -/

def offset : Source → Nat
  | .text slot => if slot = ρ.slot then ρ.shift else 0
  | .fixed _ | .durable => 0

def slice (s : Slice) : Slice := ⟨s.source, ρ.offset s.source + s.start, s.length⟩

/-- A slice that lies in the text ends at a place of it, and does not start before the part that is there
in both. -/
def Within (stop : Nat) (s : Slice) : Prop := s.source = .text ρ.slot → ρ.low ≤ s.start ∧ s.stop ≤ stop

/-- A slice that is moved lies where there may be slices. -/
def Inside (s : Slice) : Prop := ρ.Within ρ.high s

theorem within_of_ne {stop : Nat} {s : Slice} (h : s.source ≠ .text ρ.slot) : ρ.Within stop s :=
  fun same => absurd same h

theorem Within.le {stop stop' : Nat} {s : Slice} (h : ρ.Within stop s) (le : stop ≤ stop') :
    ρ.Within stop' s := fun same => ⟨(h same).1, Nat.le_trans (h same).2 le⟩

@[simp] theorem source_slice (s : Slice) : (ρ.slice s).source = s.source := rfl

@[simp] theorem length_slice (s : Slice) : (ρ.slice s).length = s.length := rfl

theorem stop_slice (s : Slice) : (ρ.slice s).stop = ρ.offset s.source + s.stop := Nat.add_assoc _ _ _

@[simp] theorem offset_slot : ρ.offset (.text ρ.slot) = ρ.shift := if_pos rfl

theorem offset_of_ne {source : Source} (h : source ≠ .text ρ.slot) : ρ.offset source = 0 := by
  cases source with
  | fixed bytes => rfl
  | durable => rfl
  | text slot => exact if_neg fun same => h (congrArg _ same)

theorem slice_of_ne {s : Slice} (h : s.source ≠ .text ρ.slot) : ρ.slice s = s := by
  rw [slice, ρ.offset_of_ne h, Nat.zero_add]

theorem slice_ofSpan (source : Source) (place : Span) :
    ρ.slice (.ofSpan source place) =
      .ofSpan source ⟨ρ.offset source + place.start, ρ.offset source + place.stop⟩ := by
  simp only [slice, Slice.ofSpan, Slice.mk.injEq, true_and]
  omega

/-! ### Memory -/

def symbol (s : Symbol Native) : Symbol Native := { s with name := ρ.slice s.name }

def routine (r : Routine) : Routine := ⟨r.params.map ρ.slice, ρ.slice r.body⟩

/-- The routine of a number, moved if it is not older than the text. -/
def routineAt (number : Nat) (r : Routine) : Routine := if number < ρ.base then r else ρ.routine r

def arena (a : Arena Native) : Arena Native :=
  { a with symbols := a.symbols.map ρ.symbol, routines := a.routines.mapIdx ρ.routineAt }

def texts (t : Texts) : Texts := ⟨t.slots.setIfInBounds ρ.slot (some ρ.new)⟩

/-- The machine with the new text, where it reads and what it has been left open. -/
def put (m : Machine) (cursor : Cursor) (token : Token) (history : History) : Machine :=
  { m with arena := ρ.arena m.arena, texts := ρ.texts m.texts, cursor, token, history }

structure Movable (number : Nat) (r : Routine) : Prop where
  moved : number < ρ.base → ρ.routine r = r
  params : ∀ param ∈ r.params, ρ.Inside param
  body : ρ.Inside r.body

/-- A symbol whose slices can be moved. Natives are honest, so that there will be no functions but
those of scripts. -/
structure Admits (routines : Array Routine) (s : Symbol Native) : Prop where
  name : ρ.Inside s.name
  func : ∀ {arity}, s.tag = .func arity → ∃ number r, s.value.index? = some number ∧
    routines[number]? = some r ∧ ρ.Movable number r
  native : ∀ {native arity}, s.tag = .native native arity → ∀ args, (native args).Honest

theorem Admits.within {ρ : Relocation} {routines : Array Routine} {s : Symbol Native}
    (h : ρ.Admits routines s) (fits : ρ.Fits) : ρ.Within ρ.reach s.name := h.name.le ρ fits.high

theorem Admits.later {ρ : Relocation} {routines routines' : Array Routine} {s : Symbol Native}
    (h : ρ.Admits routines s)
    (grow : ∀ {i : Nat} {r}, routines[i]? = some r → routines'[i]? = some r) : ρ.Admits routines' s where
  name := h.name
  func htag := by
    obtain ⟨number, r, index, found, movable⟩ := h.func htag
    exact ⟨number, r, index, grow found, movable⟩
  native := h.native

/-- A machine that holds the old text, and whose slices can be moved. -/
structure Settled (m : Machine) : Prop where
  text : m.texts.text? ρ.slot = some ρ.old
  symbols : ∀ {i : Nat} {s}, m.arena.symbols[i]? = some s → ρ.Admits m.arena.routines s
  base : ρ.base ≤ m.arena.routines.size
  budget : Memory.Budgeted m.arena

variable {ρ} {m : Machine}

theorem routineAt_eq {number : Nat} {r : Routine} (h : ρ.Movable number r) :
    ρ.routineAt number r = ρ.routine r := by
  unfold routineAt
  split
  · next older => exact (h.moved older).symm
  · rfl

/-! ### What stays where it is -/

theorem movable_of_ne {number : Nat} {r : Routine} (params : ∀ param ∈ r.params, param.source ≠ .text ρ.slot)
    (body : r.body.source ≠ .text ρ.slot) : ρ.Movable number r where
  moved _ := by
    unfold routine
    rw [slice_of_ne ρ body, List.map_congr_left fun param hmem => slice_of_ne ρ (params param hmem),
      List.map_id']
  params param hmem := within_of_ne ρ (params param hmem)
  body := within_of_ne ρ body

/-- An arena that is older than the text, without names in it. -/
theorem arena_of_ne {a : Arena Native}
    (symbols : ∀ {i : Nat} {s}, a.symbols[i]? = some s → s.name.source ≠ .text ρ.slot)
    (older : a.routines.size ≤ ρ.base) : ρ.arena a = a := by
  have names : a.symbols.map ρ.symbol = a.symbols := by
    refine Array.ext_getElem? fun i => ?_
    rw [Array.getElem?_map]
    cases found : a.symbols[i]? with
    | none => rfl
    | some s => rw [Option.map_some, symbol, slice_of_ne ρ (symbols found)]
  have routines : a.routines.mapIdx ρ.routineAt = a.routines := by
    refine Array.ext_getElem? fun i => ?_
    rw [Array.getElem?_mapIdx]
    cases found : a.routines[i]? with
    | none => rfl
    | some r =>
      have bound := (Array.getElem?_eq_some_iff.mp found).1
      exact congrArg some (if_pos (Nat.lt_of_lt_of_le bound older))
  unfold arena
  rw [names, routines]

/-- Nothing is moved if the piece is in the same place. -/
theorem arena_of_shift (shift : ρ.shift = 0) (a : Arena Native) : ρ.arena a = a := by
  have offset : ∀ source, ρ.offset source = 0 := fun source => by
    by_cases same : source = .text ρ.slot
    · rw [same, offset_slot, shift]
    · exact offset_of_ne ρ same
  have still : ∀ s, ρ.slice s = s := fun s => by rw [slice, offset, Nat.zero_add]
  have names : ρ.symbol = id := funext fun s => by rw [symbol, still, id]
  have routines : ∀ i r, ρ.routineAt i r = r := fun i r => by
    rw [routineAt, routine, still, List.map_congr_left fun param _ => still param, List.map_id', ite_self]
  have unmoved : a.routines.mapIdx ρ.routineAt = a.routines := by
    refine Array.ext_getElem? fun i => ?_
    rw [Array.getElem?_mapIdx]
    cases a.routines[i]? with
    | none => rfl
    | some r => rw [Option.map_some, routines]
  unfold arena
  rw [names, Array.map_id, unmoved]

/-! ### What is read -/

theorem extract_congr {xs ys : Array UInt8} {k start stop : Nat} (hx : stop ≤ xs.size)
    (hy : k + stop ≤ ys.size) (same : ∀ i, start ≤ i → i < stop → ys[k + i]? = xs[i]?) :
    ys.extract (k + start) (k + stop) = xs.extract start stop := by
  refine Array.ext_getElem? fun i => ?_
  rw [Array.getElem?_extract, Array.getElem?_extract, Nat.min_eq_left hx, Nat.min_eq_left hy]
  by_cases hi : i < stop - start
  · rw [if_pos (by omega), if_pos (by omega), ← same (start + i) (by omega) (by omega)]
    congr 1
    omega
  · rw [if_neg (by omega), if_neg (by omega)]

theorem bytesIn_slice (fits : ρ.Fits) {s : Slice} (source : s.source = .text ρ.slot)
    (within : ρ.Within ρ.reach s) : (ρ.slice s).bytesIn ρ.new = s.bytesIn ρ.old := by
  obtain ⟨above, below⟩ := within source
  have stop := ρ.stop_slice s
  have start : (ρ.slice s).start = ρ.shift + s.start := by
    rw [slice, source, offset_slot]
  rw [source, offset_slot] at stop
  have room := fits.room
  have reach := fits.reach
  unfold Slice.bytesIn
  rw [if_pos (by omega), if_pos (by omega), start, stop]
  exact congrArg _ (extract_congr (by omega) (by omega) fun i hi hi' => fits.bytes i (by omega) (by omega))

theorem slots_of_text? {t : Texts} {slot : Nat} {text : Array UInt8} (h : t.text? slot = some text) :
    t.slots[slot]? = some (some text) := Option.join_eq_some_iff.mp h

theorem text?_texts {t : Texts} (h : t.text? ρ.slot = some ρ.old) (i : Nat) :
    (ρ.texts t).text? i = if i = ρ.slot then some ρ.new else t.text? i := by
  obtain ⟨there, -⟩ := Array.getElem?_eq_some_iff.mp (slots_of_text? h)
  unfold Texts.text? texts
  rw [Array.getElem?_setIfInBounds]
  by_cases hi : ρ.slot = i
  · subst hi
    simp [there]
  · simp [hi, Ne.symm hi]

variable {cursor : Cursor} {token : Token} {history : History}

theorem store_put (settled : ρ.Settled m) (source : Source) :
    (ρ.put m cursor token history).store source =
      if source = .text ρ.slot then ρ.new else m.store source := by
  cases source with
  | fixed bytes => rfl
  | durable => rfl
  | text slot =>
    change ((ρ.texts m.texts).text? slot).getD #[] = _
    rw [text?_texts settled.text]
    by_cases same : slot = ρ.slot
    · subst same
      simp
    · simp only [same, if_false, Source.text.injEq]
      rfl

theorem store_slot (settled : ρ.Settled m) : m.store (.text ρ.slot) = ρ.old := by
  change (m.texts.text? ρ.slot).getD #[] = ρ.old
  rw [settled.text]
  rfl

theorem bytes_put (fits : ρ.Fits) (settled : ρ.Settled m) {s : Slice} (within : ρ.Within ρ.reach s) :
    (ρ.put m cursor token history).bytes (ρ.slice s) = m.bytes s := by
  change (ρ.slice s).bytesIn ((ρ.put m cursor token history).store s.source) =
    s.bytesIn (m.store s.source)
  rw [store_put settled]
  by_cases source : s.source = .text ρ.slot
  · rw [if_pos source, source, store_slot settled]
    exact bytesIn_slice fits source within
  · rw [if_neg source, ρ.slice_of_ne source]

theorem symbols_put (i : Nat) :
    (ρ.put m cursor token history).arena.symbols[i]? = (m.arena.symbols[i]?).map ρ.symbol := by
  change (m.arena.symbols.map ρ.symbol)[i]? = _
  rw [Array.getElem?_map]

theorem newestBelow?_put (fits : ρ.Fits) (settled : ρ.Settled m) (name : Bytes) (count : Nat) :
    (ρ.put m cursor token history).newestBelow? name count = m.newestBelow? name count := by
  induction count with
  | zero => rfl
  | succ index ih =>
    cases found : m.arena.symbols[index]? with
    | none =>
      have found' : (ρ.put m cursor token history).arena.symbols[index]? = none := by
        rw [symbols_put, found]
        rfl
      unfold Machine.newestBelow?
      rw [found, found', ih]
    | some s =>
      have found' : (ρ.put m cursor token history).arena.symbols[index]? = some (ρ.symbol s) := by
        rw [symbols_put, found]
        rfl
      rw [Machine.newestBelow?_succ name found, Machine.newestBelow?_succ name found', ih]
      exact if_congr (by rw [← bytes_put fits settled ((settled.symbols found).within fits)]; rfl) rfl rfl

theorem index?_put (fits : ρ.Fits) (settled : ρ.Settled m) (name : Bytes) :
    (ρ.put m cursor token history).index? name = m.index? name := by
  unfold Machine.index?
  rw [newestBelow?_put fits settled]
  change m.newestBelow? name (m.arena.symbols.map ρ.symbol).size = _
  rw [Array.size_map]

theorem symbolList_put (fits : ρ.Fits) (settled : ρ.Settled m) :
    (ρ.put m cursor token history).symbolList = m.symbolList := by
  unfold Machine.symbolList
  change ((m.arena.symbols.map ρ.symbol).toList.map _) = _
  rw [Array.toList_map, List.map_map]
  refine List.map_congr_left fun s hs => ?_
  obtain ⟨i, found⟩ := List.getElem?_of_mem hs
  rw [Array.getElem?_toList] at found
  have read : (ρ.put m cursor token history).bytes (ρ.slice s.name) = m.bytes s.name :=
    bytes_put fits settled ((settled.symbols found).within fits)
  exact congrArg (fun bytes => (bytes, s.tag.shape, s.value)) read

theorem lowEnd_arena (a : Arena Native) : (ρ.arena a).lowEnd = a.lowEnd := by
  unfold Arena.lowEnd arena
  rw [Array.size_map]

theorem free_arena (a : Arena Native) : (ρ.arena a).free = a.free := by
  unfold Arena.free
  rw [lowEnd_arena]
  rfl

theorem view_put (fits : ρ.Fits) (settled : ρ.Settled m) :
    (ρ.put m cursor token history).view = m.view := by
  unfold Machine.view
  rw [symbolList_put fits settled]
  exact congrArg (fun lowEnd => ({ m.view with lowEnd } : View)) (lowEnd_arena m.arena)

/-! ### Allocations -/

theorem addSymbol_arena (a : Arena Native) (name : Slice) (tag : Tag Native) (value : Word) :
    (ρ.arena a).addSymbol (ρ.slice name) tag value =
      (a.addSymbol name tag value).map (Prod.map id ρ.arena) := by
  unfold Arena.addSymbol
  rw [free_arena]
  split
  · have size : (ρ.arena a).symbols.size = a.symbols.size := Array.size_map
    have pushed : (ρ.arena a).symbols.push ⟨ρ.slice name, tag, value⟩ =
        (a.symbols.push ⟨name, tag, value⟩).map ρ.symbol :=
      (Array.map_push (f := ρ.symbol) (x := ⟨name, tag, value⟩)).symm
    rw [size, pushed]
    rfl
  · rfl

theorem reserve_arena (a : Arena Native) (length : Nat) :
    (ρ.arena a).reserve length = (a.reserve length).map (Prod.map id ρ.arena) := by
  unfold Arena.reserve
  rw [free_arena]
  split <;> rfl

theorem addBytes_arena (a : Arena Native) (bytes : Bytes) :
    (ρ.arena a).addBytes bytes = (a.addBytes bytes).map (Prod.map id ρ.arena) := by
  unfold Arena.addBytes
  rw [reserve_arena]
  cases a.reserve bytes.length <;> rfl

theorem push_arena (a : Arena Native) (word : Word) :
    (ρ.arena a).push word = (a.push word).map ρ.arena := by
  unfold Arena.push
  rw [free_arena]
  split <;> rfl

theorem addRoutine_arena {a : Arena Native} (base : ρ.base ≤ a.routines.size) (r : Routine) :
    (ρ.arena a).addRoutine (ρ.routine r) = (a.addRoutine r).map (Prod.map id ρ.arena) := by
  unfold Arena.addRoutine
  rw [reserve_arena]
  cases granted : a.reserve routineSize with
  | none => rfl
  | some answer =>
    obtain ⟨stop, a'⟩ := answer
    obtain ⟨-, rfl, -⟩ := Arena.reserve_eq_some granted
    have size : (ρ.arena a).routines.size = a.routines.size := Array.size_mapIdx
    have moved : ρ.routineAt a.routines.size r = ρ.routine r := if_neg (by omega)
    have pushed : (ρ.arena a).routines.push (ρ.routine r) =
        (a.routines.push r).mapIdx ρ.routineAt := by
      rw [Array.mapIdx_push, moved]
      rfl
    simp only [Option.map_some, Prod.map]
    exact congrArg some (Prod.ext size (congrArg (fun routines : Array Routine =>
      { ρ.arena { a with reserved := a.reserved + wordAligned routineSize } with routines }) pushed))

theorem setValue_arena (a : Arena Native) (index : Nat) (value : Word) :
    (ρ.arena a).setValue index value = ρ.arena (a.setValue index value) := by
  have modified : (a.symbols.map ρ.symbol).modify index (fun s => { s with value }) =
      (a.symbols.modify index fun s => { s with value }).map ρ.symbol := by
    refine Array.ext_getElem? fun i => ?_
    rw [Array.getElem?_modify, Array.getElem?_map, Array.getElem?_map, Array.getElem?_modify]
    by_cases hi : index = i
    · simp only [hi, if_true, Option.map_map]
      rfl
    · simp only [hi, if_false]
  exact congrArg (fun symbols => { ρ.arena a with symbols }) modified

theorem rollback_arena (a : Arena Native) (count : Nat) :
    (ρ.arena a).rollback count = ρ.arena (a.rollback count) := by
  have taken : (a.symbols.map ρ.symbol).take count = (a.symbols.take count).map ρ.symbol := by
    rw [Array.take_eq_extract, Array.take_eq_extract, Array.map_extract]
  exact congrArg (fun symbols => { ρ.arena a with symbols }) taken

/-! ### Texts -/

theorem findIdx?_isNone_texts {t : Texts} (h : t.text? ρ.slot = some ρ.old) :
    (ρ.texts t).slots.findIdx? Option.isNone = t.slots.findIdx? Option.isNone := by
  have same : (ρ.texts t).slots.map Option.isNone = t.slots.map Option.isNone := by
    refine Array.ext_getElem? fun i => ?_
    change ((t.slots.setIfInBounds ρ.slot (some ρ.new)).map Option.isNone)[i]? = _
    rw [Array.getElem?_map, Array.getElem?_map, Array.getElem?_setIfInBounds]
    by_cases hi : ρ.slot = i
    · subst hi
      have there := slots_of_text? h
      rw [if_pos rfl, there, if_pos (Array.getElem?_eq_some_iff.mp there).1]
      rfl
    · rw [if_neg hi]
  have through : ∀ slots : Array (Option (Array UInt8)),
      slots.findIdx? Option.isNone = (slots.map Option.isNone).findIdx? id := fun slots => by
    rw [Array.findIdx?_map]
    rfl
  rw [through, through, same]

/-- The next text is put into the same slot, which is not the one of the text exchanged. -/
theorem retain_texts {t : Texts} (h : t.text? ρ.slot = some ρ.old) (text : Array UInt8) :
    (t.retain text).1 ≠ ρ.slot ∧
      (ρ.texts t).retain text = ((t.retain text).1, ρ.texts (t.retain text).2) := by
  have free := t.text?_retain_slot text
  have other : (t.retain text).1 ≠ ρ.slot := fun same => by
    rw [same, h] at free
    cases free
  refine ⟨other, ?_⟩
  obtain ⟨there, -⟩ := Array.getElem?_eq_some_iff.mp (slots_of_text? h)
  unfold Texts.retain at other ⊢
  rw [findIdx?_isNone_texts h]
  cases found : t.slots.findIdx? Option.isNone with
  | some slot =>
    rw [found] at other
    exact congrArg (fun slots => (slot, (⟨slots⟩ : Texts)))
      (Array.setIfInBounds_comm _ _ (Ne.symm other))
  | none =>
    have size : (ρ.texts t).slots.size = t.slots.size := Array.size_setIfInBounds
    have pushed : (t.slots.setIfInBounds ρ.slot (some ρ.new)).push (some text) =
        (t.slots.push (some text)).setIfInBounds ρ.slot (some ρ.new) := by
      refine Array.ext_getElem? fun i => ?_
      rw [Array.getElem?_push, Array.getElem?_setIfInBounds, Array.getElem?_setIfInBounds,
        Array.getElem?_push, Array.size_setIfInBounds, Array.size_push]
      by_cases hi : ρ.slot = i
      · subst hi
        rw [if_neg (by omega), if_pos rfl, if_pos there, if_pos rfl, if_pos (by omega)]
      · rw [if_neg hi, if_neg hi]
    exact Prod.ext size (congrArg Texts.mk pushed)

/-- Where the end is cut off does not depend on what stands in a slot that stays. -/
theorem popWhile_setIfInBounds {α : Type} {p : α → Bool} {xs : Array α} {i : Nat} {v w : α}
    (there : xs[i]? = some w) (stays : p w = false) (stays' : p v = false) :
    (xs.setIfInBounds i v).popWhile p = (xs.popWhile p).setIfInBounds i v := by
  have bound := (Array.getElem?_eq_some_iff.mp there).1
  fun_induction Array.popWhile p xs with
  | case1 xs hpos cut ih =>
    have before : i ≠ xs.size - 1 := fun last => by
      have same := (Array.getElem?_eq_some_iff.mp there).2
      subst last
      rw [same, stays] at cut
      cases cut
    have there' : xs.pop[i]? = some w := by
      rw [Array.getElem?_pop, if_pos (by omega)]
      exact there
    rw [← ih there' (Array.getElem?_eq_some_iff.mp there').1, Array.popWhile]
    have popped : (xs.setIfInBounds i v).pop = xs.pop.setIfInBounds i v := by
      refine Array.ext_getElem? fun j => ?_
      rw [Array.getElem?_pop, Array.getElem?_setIfInBounds, Array.getElem?_setIfInBounds,
        Array.getElem?_pop, Array.size_setIfInBounds, Array.size_pop]
      by_cases hj : i = j
      · subst hj
        simp only [if_true, bound, if_pos (show i < xs.size - 1 by omega)]
      · rw [if_neg hj, if_neg hj]
    have inside : (xs.setIfInBounds i v).size - 1 < (xs.setIfInBounds i v).size := by
      rw [Array.size_setIfInBounds]
      omega
    have last : (xs.setIfInBounds i v)[(xs.setIfInBounds i v).size - 1] = xs[xs.size - 1] := by
      grind
    rw [dif_pos (by rw [Array.size_setIfInBounds]; omega), last, if_pos cut, popped]
  | case2 xs hpos cut =>
    have inside : (xs.setIfInBounds i v).size - 1 < (xs.setIfInBounds i v).size := by
      rw [Array.size_setIfInBounds]
      omega
    have last : p (xs.setIfInBounds i v)[(xs.setIfInBounds i v).size - 1] = false := by
      grind
    rw [Array.popWhile, dif_pos (by rw [Array.size_setIfInBounds]; omega), last]
    rfl
  | case3 xs hpos => omega

theorem release_texts {t : Texts} (h : t.text? ρ.slot = some ρ.old) {slot : Nat} (other : slot ≠ ρ.slot) :
    (ρ.texts t).release slot = ρ.texts (t.release slot) := by
  have there : (t.slots.setIfInBounds slot none)[ρ.slot]? = some (some ρ.old) := by
    rw [Array.getElem?_setIfInBounds, if_neg other]
    exact slots_of_text? h
  unfold Texts.release texts
  rw [Array.setIfInBounds_comm _ _ (Ne.symm other), popWhile_setIfInBounds there rfl rfl]

/-! ### What stays settled -/

namespace Settled

variable {m m' : Machine} (h : ρ.Settled m)

include h

/-- Where nothing but the symbols has changed, it is up to them. -/
theorem of_symbols (texts : m'.texts.text? ρ.slot = m.texts.text? ρ.slot)
    (routines : m'.arena.routines = m.arena.routines) (budget : Memory.Budgeted m'.arena)
    (symbols : ∀ {i : Nat} {s}, m'.arena.symbols[i]? = some s → ρ.Admits m.arena.routines s) :
    ρ.Settled m' :=
  ⟨texts.trans h.text, fun found => routines ▸ symbols found, routines ▸ h.base, budget⟩

theorem of_arena (texts : m'.texts.text? ρ.slot = m.texts.text? ρ.slot) (arena : m'.arena = m.arena) :
    ρ.Settled m' :=
  h.of_symbols texts (congrArg _ arena) (arena ▸ h.budget) fun found => h.symbols (arena ▸ found)

theorem rollback (count : Nat) : ρ.Settled (m.withArena (m.arena.rollback count)) := by
  refine h.of_symbols rfl rfl ⟨h.budget.charged, h.budget.fits, h.budget.small⟩ fun {i s} found => ?_
  change (m.arena.symbols.take count)[i]? = some s at found
  rw [Array.take_eq_extract, Array.getElem?_extract, Nat.zero_add] at found
  split at found
  · exact h.symbols found
  · cases found

theorem stack (stack : Array Word) : ρ.Settled (m.withArena { m.arena with stack }) :=
  h.of_symbols rfl rfl ⟨h.budget.charged, h.budget.fits, h.budget.small⟩ h.symbols

theorem addSymbol {name : Slice} {tag : Tag Native} {value : Word} {index : Nat} {arena : Arena Native}
    (granted : m.arena.addSymbol name tag value = some (index, arena))
    (admitted : ρ.Admits m.arena.routines ⟨name, tag, value⟩) : ρ.Settled (m.withArena arena) := by
  obtain ⟨-, -, rfl⟩ := Arena.addSymbol_eq_some granted
  refine h.of_symbols rfl rfl ⟨h.budget.charged, h.budget.fits, h.budget.small⟩ fun {i s} found => ?_
  change (m.arena.symbols.push _)[i]? = some s at found
  rw [Array.getElem?_push] at found
  split at found
  · cases found
    exact admitted
  · exact h.symbols found

theorem setValue {index : Nat} {s : Symbol Native} (found : m.arena.symbols[index]? = some s)
    (hvar : s.tag = .var) (value : Word) :
    ρ.Settled (m.withArena (m.arena.setValue index value)) := by
  refine h.of_symbols rfl rfl ⟨h.budget.charged, h.budget.fits, h.budget.small⟩ fun {i s'} found' => ?_
  change (m.arena.symbols.modify index _)[i]? = some s' at found'
  rw [Array.getElem?_modify] at found'
  split at found'
  · next same =>
    subst same
    rw [found] at found'
    cases found'
    refine ⟨(h.symbols found).name, fun htag => ?_, fun htag => ?_⟩ <;> cases hvar.symm.trans htag
  · exact h.symbols found'

theorem addBytes {bytes : Bytes} {slice : Slice} {arena : Arena Native}
    (granted : m.arena.addBytes bytes = some (slice, arena)) : ρ.Settled (m.withArena arena) := by
  have budget := h.budget.addBytes granted
  obtain ⟨-, -, rfl⟩ := Arena.addBytes_eq_some granted
  exact h.of_symbols rfl rfl budget h.symbols

theorem addRoutine {r : Routine} {number : Nat} {arena : Arena Native}
    (granted : m.arena.addRoutine r = some (number, arena)) : ρ.Settled (m.withArena arena) := by
  have budget := h.budget.addRoutine granted
  obtain ⟨-, -, rfl⟩ := Arena.addRoutine_eq_some granted
  have base := h.base
  refine ⟨h.text, fun {i s} found => (h.symbols found).later fun {i r'} found => ?_, ?_, budget⟩
  · change (m.arena.routines.push r)[i]? = some r'
    rw [Array.getElem?_push, if_neg (Nat.ne_of_lt (Array.getElem?_eq_some_iff.mp found).1)]
    exact found
  · change ρ.base ≤ (m.arena.routines.push r).size
    rw [Array.size_push]
    omega

end Settled

end Relocation

end Scriptlet
