import Scriptlet.Proofs.Twin.Natives

/-!
Two memories that look the same. Names and bodies are slices, and the slices of two machines may be
in different stores, at different offsets: one has copied what the other keeps in a script text. What
can be seen of a slice is its `Sight`. Two tables are alike (`TableAlike`) if, symbol by symbol, the tags
and the values are the same and the slices look the same.

A sight does not change as long as its slice is held. So a table stays alike to another when memory
grows on one side only, and when a text is released that no symbol has a slice in.
-/

namespace Scriptlet

open Text (Bytes)

def Source.isText : Source → Bool
  | .text _ => true
  | _ => false

/-- What there is to see of a slice: the bytes between its ends, as far as the store has them, and
whether it has all of them. In strict company it can also be seen whether they are in a script text. -/
structure Sight where
  bytes : Bytes
  whole : Bool
  inText : Bool

namespace Memory

variable {strict : Bool} {x x' y y' : Memory} {s s' : Symbol Native} {slice : Slice}

/-! ### Windows and sights -/

/-- The bytes of a store between two offsets, as far as there are any. -/
def window (x : Memory) (source : Source) (start stop : Nat) : Bytes :=
  ((x.store source).toList.take stop).drop start

theorem rest_ofWindow (x : Memory) (source : Source) (start stop : Nat) :
    (Scanner.ofWindow (x.store source) start stop).rest = x.window source start stop := by
  unfold Scanner.ofWindow window
  apply List.ext_getElem?
  intro i
  simp only [Array.toList_extract, List.extract_eq_take_drop, List.getElem?_take,
    List.getElem?_drop, Array.getElem?_toList]
  grind

theorem drop_window (x : Memory) (source : Source) (start stop n : Nat) :
    (x.window source start stop).drop n = x.window source (start + n) stop := by
  simp only [window, List.drop_drop]

def sight (strict : Bool) (x : Memory) (slice : Slice) : Sight where
  bytes := x.window slice.source slice.start slice.stop
  whole := decide (slice.stop ≤ (x.store slice.source).size)
  inText := strict && slice.source.isText

theorem bytes_eq (strict : Bool) (x : Memory) (slice : Slice) :
    x.bytes slice = if (x.sight strict slice).whole then (x.sight strict slice).bytes else [] := by
  unfold Memory.bytes Slice.bytesIn
  by_cases inside : slice.stop ≤ (x.store slice.source).size
  · simp only [sight, inside, decide_true, if_true, window, Array.toList_extract,
      List.extract_eq_take_drop, List.drop_take]
  · simp only [sight, inside, decide_false, if_false, Bool.false_eq_true]

theorem bytes_of_sight {slice' : Slice} (h : x'.sight strict slice' = x.sight strict slice) :
    x'.bytes slice' = x.bytes slice := by
  rw [bytes_eq strict, bytes_eq strict, h]

/-- The store of a slice that is held is as it was, up to where the slice ends. -/
theorem Grows.window (g : x.Grows y) (held : x.Holds slice) (start : Nat) :
    y.window slice.source start slice.stop = x.window slice.source start slice.stop := by
  obtain ⟨more, hmore⟩ := g.store_prefix slice.source
  unfold Holds at held
  unfold Memory.window
  cases hsource : slice.source with
  | fixed bytes => rfl
  | durable =>
    rw [hsource] at held hmore
    rw [← hmore, List.take_append_of_le_length]
    exact held
  | text slot =>
    rw [hsource] at held
    obtain ⟨text, found⟩ := Option.isSome_iff_exists.mp held
    simp only [Memory.store, Texts.get, found, g.texts found]

/-- What is held looks the same in memory that has only grown. -/
theorem Grows.sight (g : x.Grows y) (held : x.Holds slice) :
    y.sight strict slice = x.sight strict slice := by
  have larger := g.size_store_le slice.source
  have whole : slice.stop ≤ (y.store slice.source).size ↔ slice.stop ≤ (x.store slice.source).size := by
    refine ⟨fun inside => ?_, fun inside => Nat.le_trans inside larger⟩
    unfold Holds at held
    cases hsource : slice.source with
    | fixed bytes =>
      rw [hsource] at inside
      exact inside
    | durable =>
      rw [hsource] at held
      exact held
    | text slot =>
      rw [hsource] at held inside
      obtain ⟨text, found⟩ := Option.isSome_iff_exists.mp held
      simp only [Memory.store, Texts.get, g.texts found] at inside
      simpa only [Memory.store, Texts.get, found] using inside
  simp only [Memory.sight, g.window held, whole]

/-- A copy looks as a slice does that is there in full, but for where it is. -/
theorem sight_addBytes (strict : Bool) {bytes : Bytes} {arena : Arena Native}
    (granted : x.arena.addBytes bytes = some (slice, arena)) :
    sight strict ⟨arena, x.texts⟩ slice = ⟨bytes, true, false⟩ := by
  obtain ⟨-, rfl, rfl⟩ := Arena.addBytes_eq_some granted
  simp [sight, window, Memory.store, Slice.stop, Source.isText, Array.toList_append,
    List.take_of_length_le]

/-! ### Tables -/

def sights (strict : Bool) (x : Memory) (s : Symbol Native) : List Sight :=
  (x.slices s).map (x.sight strict)

theorem Intact.sights (h : x.Intact true) (g : x.Grows y) {i : Nat}
    (found : x.arena.symbols[i]? = some s) (lasts : s.Lasts s') :
    y.sights strict s' = x.sights strict s := by
  have admits := h.symbols found
  unfold Memory.sights
  rw [g.slices lasts (admits.described rfl)]
  exact List.map_congr_left fun slice hmem => g.sight (admits.held slice hmem)

/-- Where no slice dangles after the release of a slot, none was in that slot. -/
theorem Intact.sights_release {slot : Nat} (h : Intact true ⟨x.arena, x.texts.release slot⟩) {i : Nat}
    (found : x.arena.symbols[i]? = some s) :
    Memory.sights strict ⟨x.arena, x.texts.release slot⟩ s = x.sights strict s := by
  have admits := h.symbols found
  refine List.map_congr_left fun slice hmem => ?_
  have held := admits.held slice hmem
  have same : store ⟨x.arena, x.texts.release slot⟩ slice.source = x.store slice.source := by
    unfold Holds at held
    cases hsource : slice.source with
    | fixed bytes => rfl
    | durable => rfl
    | text other =>
      rw [hsource] at held
      simp only [Texts.text?_release] at held
      simp only [Memory.store, Texts.get, Texts.text?_release]
      split at held
      · cases held
      · rw [if_neg ‹_›]
  simp only [sight, window, same]

/-- Two symbols with the same tag and the same value, whose slices look the same. -/
structure SymbolAlike (strict : Bool) (x x' : Memory) (s s' : Symbol Native) : Prop where
  tag : s.tag.Alike strict s'.tag
  value : s'.value = s.value
  sights : x'.sights strict s' = x.sights strict s

theorem SymbolAlike.name (h : SymbolAlike strict x x' s s') :
    x'.sight strict s'.name = x.sight strict s.name := (List.cons.inj h.sights).1

/-- Two tables, symbol by symbol. New routines have the same numbers on both sides. -/
structure TableAlike (strict : Bool) (x x' : Memory) : Prop where
  size : x'.arena.symbols.size = x.arena.symbols.size
  routines : x'.arena.routines.size = x.arena.routines.size
  symbols : ∀ {i : Nat} {s s'}, x.arena.symbols[i]? = some s → x'.arena.symbols[i]? = some s' →
    SymbolAlike strict x x' s s'

namespace TableAlike

variable (h : TableAlike strict x x')

include h

theorem partner {i : Nat} (found : x.arena.symbols[i]? = some s) :
    ∃ s', x'.arena.symbols[i]? = some s' ∧ SymbolAlike strict x x' s s' := by
  obtain ⟨inside, -⟩ := Array.getElem?_eq_some_iff.mp found
  have found' := Array.getElem?_eq_getElem (h.size ▸ inside : i < x'.arena.symbols.size)
  exact ⟨_, found', h.symbols found found'⟩

/-- Nothing is seen to change where the symbols are the same and look the same. -/
theorem of_sights (same : y.arena.symbols = x.arena.symbols) (same' : y'.arena.symbols = x'.arena.symbols)
    (routines : y'.arena.routines.size = y.arena.routines.size)
    (sights : ∀ {i : Nat} {s}, x.arena.symbols[i]? = some s → y.sights strict s = x.sights strict s)
    (sights' : ∀ {i : Nat} {s}, x'.arena.symbols[i]? = some s →
      y'.sights strict s = x'.sights strict s) : TableAlike strict y y' where
  size := by rw [same, same', h.size]
  routines := routines
  symbols found found' := by
    rw [same] at found
    rw [same'] at found'
    have alike := h.symbols found found'
    exact ⟨alike.tag, alike.value, by rw [sights found, sights' found', alike.sights]⟩

theorem grows (intact : x.Intact true) (intact' : x'.Intact true) (g : x.Grows y) (g' : x'.Grows y')
    (same : y.arena.symbols = x.arena.symbols) (same' : y'.arena.symbols = x'.arena.symbols)
    (routines : y'.arena.routines.size = y.arena.routines.size) : TableAlike strict y y' :=
  h.of_sights same same' routines (fun found => intact.sights g found (.refl _))
    fun found => intact'.sights g' found (.refl _)

theorem addSymbol (intact : x.Intact true) (intact' : x'.Intact true) {name name' : Slice}
    {tag tag' : Tag Native} {value value' : Word} {index index' : Nat} {arena arena' : Arena Native}
    (granted : x.arena.addSymbol name tag value = some (index, arena))
    (granted' : x'.arena.addSymbol name' tag' value' = some (index', arena'))
    (alike : SymbolAlike strict x x' ⟨name, tag, value⟩ ⟨name', tag', value'⟩) :
    index' = index ∧ TableAlike strict ⟨arena, x.texts⟩ ⟨arena', x'.texts⟩ := by
  have g : x.Grows ⟨arena, x.texts⟩ := .addSymbol granted
  have g' : x'.Grows ⟨arena', x'.texts⟩ := .addSymbol granted'
  obtain ⟨-, rfl, rfl⟩ := Arena.addSymbol_eq_some granted
  obtain ⟨-, rfl, rfl⟩ := Arena.addSymbol_eq_some granted'
  refine ⟨h.size, by simp [h.size], h.routines, fun {i s s'} found found' => ?_⟩
  simp only [Array.getElem?_push, h.size] at found found'
  split at found
  · next last =>
    rw [if_pos last] at found'
    cases found
    cases found'
    exact ⟨alike.tag, alike.value, alike.sights⟩
  · next before =>
    rw [if_neg before] at found'
    have old := h.symbols found found'
    refine ⟨old.tag, old.value, ?_⟩
    rw [intact.sights g found (.refl _), intact'.sights g' found' (.refl _), old.sights]

theorem setValue {index : Nat} (found : x.arena.symbols[index]? = some s) (hvar : s.tag = .var)
    (value : Word) :
    TableAlike strict ⟨x.arena.setValue index value, x.texts⟩
      ⟨x'.arena.setValue index value, x'.texts⟩ where
  size := by
    change (x'.arena.symbols.modify index _).size = (x.arena.symbols.modify index _).size
    rw [Array.size_modify, Array.size_modify, h.size]
  routines := h.routines
  symbols {i s₁ s₁'} found₁ found₁' := by
    change (x.arena.symbols.modify index _)[i]? = some s₁ at found₁
    change (x'.arena.symbols.modify index _)[i]? = some s₁' at found₁'
    rw [Array.getElem?_modify] at found₁ found₁'
    split at found₁
    · next hi =>
      subst hi
      rw [if_pos rfl] at found₁'
      rw [found] at found₁
      obtain ⟨s', found', alike⟩ := h.partner found
      rw [found'] at found₁'
      cases found₁
      cases found₁'
      have hvar' : s'.tag = .var := (alike.tag.eq (by simp [hvar])).trans hvar
      refine ⟨alike.tag, rfl, ?_⟩
      -- a variable has no slice but its name
      have name := alike.name
      simp only [Memory.sights, slices, hvar, hvar', List.map_cons, List.map_nil]
      exact congrArg (fun sight => [sight]) name
    · next hi =>
      rw [if_neg hi] at found₁'
      have alike := h.symbols found₁ found₁'
      exact ⟨alike.tag, alike.value, alike.sights⟩

theorem rollback (count : Nat) :
    TableAlike strict ⟨x.arena.rollback count, x.texts⟩ ⟨x'.arena.rollback count, x'.texts⟩ where
  size := by
    change (x'.arena.symbols.take count).size = (x.arena.symbols.take count).size
    simp [h.size]
  routines := h.routines
  symbols {i s s'} found found' := by
    have inside : ∀ {a : Arena Native} {t : Symbol Native}, (a.rollback count).symbols[i]? = some t →
        a.symbols[i]? = some t := by
      intro a t found
      change (a.symbols.take count)[i]? = some t at found
      rw [Array.take_eq_extract, Array.getElem?_extract, Nat.zero_add] at found
      split at found
      · exact found
      · cases found
    have alike := h.symbols (inside found) (inside found')
    exact ⟨alike.tag, alike.value, alike.sights⟩

theorem routine (intact : x.Intact true) (intact' : x'.Intact true) {i : Nat}
    (found : x.arena.symbols[i]? = some s) (found' : x'.arena.symbols[i]? = some s') {arity : Nat}
    (htag : s.tag = .func arity) :
    ∃ routine routine', x.routine? s.value = some routine ∧ x'.routine? s'.value = some routine' ∧
      x'.sight strict routine'.body = x.sight strict routine.body ∧
      routine'.params.map (x'.sight strict) = routine.params.map (x.sight strict) := by
  have alike := h.symbols found found'
  have htag' : s'.tag = .func arity := (alike.tag.eq (by simp [htag])).trans htag
  obtain ⟨routine, hroutine⟩ := (intact.symbols found).described rfl htag
  obtain ⟨routine', hroutine'⟩ := (intact'.symbols found').described rfl htag'
  have sights := alike.sights
  simp only [Memory.sights, slices, htag, htag', hroutine, hroutine', List.map_cons,
    List.cons.injEq] at sights
  exact ⟨routine, routine', hroutine, hroutine', sights.2.1, sights.2.2⟩

end TableAlike

end Memory

/-! ### What is found in alike tables -/

theorem Memory.TableAlike.index? {strict : Bool} {m m' : Machine}
    (h : Memory.TableAlike strict m.memory m'.memory) (name : Bytes) :
    m'.index? name = m.index? name := by
  have below : ∀ count ≤ m.arena.symbols.size, m'.newestBelow? name count = m.newestBelow? name count := by
    intro count
    induction count with
    | zero => exact fun _ => rfl
    | succ count ih =>
      intro hcount
      have found := Array.getElem?_eq_getElem (Nat.lt_of_succ_le hcount)
      obtain ⟨s', found', alike⟩ := h.partner found
      have same : m'.bytes s'.name = m.bytes _ := Memory.bytes_of_sight alike.name
      rw [Machine.newestBelow?_succ name found, Machine.newestBelow?_succ name found', same,
        ih (Nat.le_of_succ_le hcount)]
  unfold Machine.index?
  rw [show m'.arena.symbols.size = m.arena.symbols.size from h.size]
  exact below _ (Nat.le_refl _)

theorem Memory.TableAlike.symbolList {strict : Bool} {m m' : Machine}
    (h : Memory.TableAlike strict m.memory m'.memory) : m'.symbolList = m.symbolList := by
  unfold Machine.symbolList
  apply List.ext_getElem?
  intro i
  simp only [List.getElem?_map, Array.getElem?_toList]
  cases found : m.arena.symbols[i]? with
  | none =>
    have outside : m'.arena.symbols.size ≤ i := by
      rw [show m'.arena.symbols.size = m.arena.symbols.size from h.size]
      exact Array.getElem?_eq_none_iff.mp found
    rw [Array.getElem?_eq_none outside]
    rfl
  | some s =>
    obtain ⟨s', found', alike⟩ := h.partner found
    have same : m'.bytes s'.name = m.bytes s.name := Memory.bytes_of_sight alike.name
    have found' : m'.arena.symbols[i]? = some s' := found'
    rw [found', Option.map_some, Option.map_some, same, alike.tag.shape, alike.value]

end Scriptlet
