import Scriptlet.Proofs.Discipline

/-!
Scopes. All definitions go into one table, and leaving a scope cuts the table back to where it
was. That this restores the scope rests on nothing below the cut ever moving: in the course of an
evaluation no symbol of before changes its index, name or tag, and only variables change their
values. The same holds of all memory that slices read from. Durable bytes and routines are only
added, and a text stays in its slot as long as evaluations that were under way before hold it.

`Grows` is this relation. Every evaluation keeps it, on every machine and however it ends; and so it
does with every relation that tells of growth in another way (`Expanding`).
-/

namespace Scriptlet

open Eval

/-- The same symbol, up to the value of a variable. -/
structure Symbol.Lasts {ν : Type} (s s' : Symbol ν) : Prop where
  name : s'.name = s.name
  tag : s'.tag = s.tag
  value : s.tag ≠ .var → s'.value = s.value

theorem Symbol.Lasts.refl {ν : Type} (s : Symbol ν) : s.Lasts s := ⟨rfl, rfl, fun _ => rfl⟩

theorem Symbol.Lasts.trans {ν : Type} {s s' s'' : Symbol ν} (h : s.Lasts s') (k : s'.Lasts s'') :
    s.Lasts s'' :=
  ⟨k.name.trans h.name, k.tag.trans h.tag,
    fun hvar => (k.value (h.tag ▸ hvar)).trans (h.value hvar)⟩

namespace Memory

structure Grows (a b : Memory) : Prop where
  symbols : ∀ {i : Nat} {s}, a.arena.symbols[i]? = some s →
    ∃ s', b.arena.symbols[i]? = some s' ∧ s.Lasts s'
  durable : a.arena.durable.toList <+: b.arena.durable.toList
  routines : ∀ {i : Nat} {routine}, a.arena.routines[i]? = some routine →
    b.arena.routines[i]? = some routine
  texts : ∀ {slot text}, a.texts.text? slot = some text → b.texts.text? slot = some text

namespace Grows

variable {a b c : Memory}

theorem refl (a : Memory) : a.Grows a :=
  ⟨fun {_ s} found => ⟨s, found, .refl s⟩, List.prefix_rfl, id, id⟩

theorem trans (h : a.Grows b) (k : b.Grows c) : a.Grows c where
  symbols found := by
    obtain ⟨s', found', lasts⟩ := h.symbols found
    obtain ⟨s'', found'', lasts'⟩ := k.symbols found'
    exact ⟨s'', found'', lasts.trans lasts'⟩
  durable := h.durable.trans k.durable
  routines found := k.routines (h.routines found)
  texts held := k.texts (h.texts held)

theorem size_le (h : a.Grows b) : a.arena.symbols.size ≤ b.arena.symbols.size := by
  refine Nat.le_of_not_lt fun last => ?_
  obtain ⟨s', found', -⟩ := h.symbols (Array.getElem?_eq_getElem last)
  obtain ⟨inside, -⟩ := Array.getElem?_eq_some_iff.mp found'
  omega

/-! ### Steps of growth -/

theorem of_eq (hsymbols : b.arena.symbols = a.arena.symbols)
    (hdurable : b.arena.durable = a.arena.durable)
    (hroutines : b.arena.routines = a.arena.routines) (htexts : b.texts = a.texts) : a.Grows b where
  symbols {_ s} found := ⟨s, hsymbols ▸ found, .refl s⟩
  durable := hdurable ▸ List.prefix_rfl
  routines found := hroutines ▸ found
  texts held := htexts ▸ held

theorem addSymbol {name : Slice} {tag : Tag Native} {value : Word} {index : Nat}
    {arena : Arena Native} (granted : a.arena.addSymbol name tag value = some (index, arena)) :
    a.Grows ⟨arena, a.texts⟩ := by
  obtain ⟨-, -, rfl⟩ := Arena.addSymbol_eq_some granted
  refine ⟨fun {i s} found => ⟨s, ?_, .refl s⟩, List.prefix_rfl, id, id⟩
  obtain ⟨inside, -⟩ := Array.getElem?_eq_some_iff.mp found
  rw [Array.getElem?_push, if_neg (by omega)]
  exact found

theorem addBytes {bytes : Text.Bytes} {slice : Slice} {arena : Arena Native}
    (granted : a.arena.addBytes bytes = some (slice, arena)) :
    a.Grows ⟨arena, a.texts⟩ := by
  obtain ⟨-, -, rfl⟩ := Arena.addBytes_eq_some granted
  refine ⟨fun {_ s} found => ⟨s, found, .refl s⟩, ?_, id, id⟩
  change a.arena.durable.toList <+: (a.arena.durable ++ bytes.toArray).toList
  rw [Array.toList_append]
  exact List.prefix_append _ _

theorem addRoutine {routine : Routine} {number : Nat} {arena : Arena Native}
    (granted : a.arena.addRoutine routine = some (number, arena)) :
    a.Grows ⟨arena, a.texts⟩ := by
  obtain ⟨-, -, rfl⟩ := Arena.addRoutine_eq_some granted
  refine ⟨fun {_ s} found => ⟨s, found, .refl s⟩, List.prefix_rfl, fun {i routine'} found => ?_, id⟩
  obtain ⟨inside, -⟩ := Array.getElem?_eq_some_iff.mp found
  change (a.arena.routines.push routine)[i]? = some routine'
  rw [Array.getElem?_push, if_neg (by omega)]
  exact found

theorem retain (text : Array UInt8) :
    a.Grows ⟨a.arena, (a.texts.retain text).2⟩ := by
  refine ⟨fun {_ s} found => ⟨s, found, .refl s⟩, List.prefix_rfl, id, fun {slot held} hslot => ?_⟩
  have taken : slot ≠ (a.texts.retain text).1 := by
    rintro rfl
    rw [Texts.text?_retain_slot] at hslot
    cases hslot
  rw [Texts.text?_retain, if_neg taken]
  exact hslot

/-! ### Steps back that undo no more than was added -/

theorem setValue (h : a.Grows b) {index : Nat} {s : Symbol Native}
    (found : a.arena.symbols[index]? = some s) (hvar : s.tag = .var) (value : Word) :
    a.Grows ⟨b.arena.setValue index value, b.texts⟩ where
  symbols {i s₀} found₀ := by
    obtain ⟨s', found', lasts⟩ := h.symbols found₀
    change ∃ s', (b.arena.symbols.modify index _)[i]? = some s' ∧ _
    by_cases hi : index = i
    · subst hi
      rw [found] at found₀
      cases found₀
      refine ⟨{ s' with value }, ?_, lasts.name, lasts.tag, fun hne => absurd hvar hne⟩
      simp [Array.getElem?_modify, found']
    · refine ⟨s', ?_, lasts⟩
      simp [Array.getElem?_modify, hi, found']
  durable := h.durable
  routines := h.routines
  texts := h.texts

/-- Symbols that were added may be dropped. -/
theorem rollback (h : a.Grows b) :
    a.Grows ⟨b.arena.rollback a.arena.symbols.size, b.texts⟩ where
  symbols {i s} found := by
    obtain ⟨s', found', lasts⟩ := h.symbols found
    obtain ⟨inside, -⟩ := Array.getElem?_eq_some_iff.mp found
    refine ⟨s', ?_, lasts⟩
    change (b.arena.symbols.take a.arena.symbols.size)[i]? = some s'
    rw [Array.take_eq_extract, Array.getElem?_extract, if_pos (by have := h.size_le; omega),
      Nat.zero_add]
    exact found'
  durable := h.durable
  routines := h.routines
  texts := h.texts

/-- A slot that was free may become free again. -/
theorem release (h : a.Grows b) {slot : Nat} (hfree : a.texts.text? slot = none) :
    a.Grows ⟨b.arena, b.texts.release slot⟩ where
  symbols := h.symbols
  durable := h.durable
  routines := h.routines
  texts {slot' text} held := by
    have other : slot' ≠ slot := by
      rintro rfl
      rw [hfree] at held
      cases held
    rw [Texts.text?_release, if_neg other]
    exact h.texts held

end Grows

end Memory

def Grows (m m' : Machine) : Prop := m.memory.Grows m'.memory

theorem grows_track : Track Grows := ⟨fun m => Memory.Grows.refl m.memory, Memory.Grows.trans⟩

/-! ### Every evaluation -/

/-- A relation that admits all that evaluations do to a machine, apart from new routines. Changes of
anything else than memory do not matter to it. -/
structure Lenient (R : Machine → Machine → Prop) : Prop extends Track R where
  elsewhere : ∀ {m m'}, m'.memory = m.memory → m'.history = m.history → R m m'
  note : ∀ m, R m m.note
  stack : ∀ m stack, R m (m.withArena { m.arena with stack })
  addBytes : ∀ {m : Machine} {bytes slice arena}, m.arena.addBytes bytes = some (slice, arena) →
    R m (m.withArena arena)
  addSymbol : ∀ {m : Machine} {name tag value index arena},
    m.arena.addSymbol name tag value = some (index, arena) → R m (m.withArena arena)
  setValue : ∀ {m m' : Machine} {index : Nat} {s}, m.arena.symbols[index]? = some s →
    s.tag = .var → R m m' → ∀ value, R m (m'.withArena (m'.arena.setValue index value))
  rollback : ∀ {m m'}, R m m' → R m (m'.withArena (m'.arena.rollback m.arena.symbols.size))
  retain : ∀ m text, R m (m.withTexts (m.texts.retain text).2)
  release : ∀ {m m'} text, R m m' → R m (m'.withTexts (m'.texts.release (m.texts.retain text).1))

namespace Lenient

variable {R : Machine → Machine → Prop} (h : Lenient R)

include h

theorem roaming : Roaming R :=
  ⟨h.toTrack, fun memory history _ _ => h.elsewhere memory history, h.note, h.rollback⟩

theorem advanceBy (raw : Bool) : Keeps R (advanceBy raw) := h.roaming.advanceBy raw

theorem write (stream : Stream) (bytes : Text.Bytes) : Keeps R (Eval.write stream bytes) :=
  fun _ => h.elsewhere rfl rfl

theorem naming : NamingDiscipline R := ⟨h.toTrack, h.advanceBy, h.addBytes⟩

theorem define (name : String) (tag : Tag Native) (value : Word) :
    Keeps R (define name tag value) :=
  h.toTrack.define (h.allocate h.addBytes) fun _ => h.allocate h.addSymbol

theorem bindParameters (bindings : List (Slice × Word)) :
    Keeps R (Call.bindParameters bindings) :=
  h.toTrack.bindParameters (fun _ _ => h.allocate h.addSymbol) bindings

/-- The text is let go of, unless it is held for good. -/
theorem holding {α : Type} {x : Nat → Eval α} (hx : ∀ slot, Keeps R (x slot)) (text : Text.Bytes)
    (forGood : Bool) : Keeps R (holding text forGood x) := by
  intro m
  unfold Eval.holding
  rw [Outcome.machine_adjust]
  have held := h.trans (h.retain m text.toArray) (hx (m.texts.retain text.toArray).1 _)
  cases forGood with
  | true => exact held
  | false => exact h.release _ held

section

variable {r : Reentry} (hexpr : Keeps R r.expression)
  (hbody : ∀ body topLevel duplicate, Keeps R (r.body body topLevel duplicate))

include hbody

theorem text (text : String) (duplicate topLevel : Bool) :
    Keeps R (Eval.text r text duplicate topLevel) :=
  h.toTrack.text h.note (fun _ _ => h.elsewhere rfl rfl) (h.write .err)
    (fun text forGood inside => h.holding inside text forGood) hbody text duplicate topLevel

theorem acting : ActingDiscipline R r where
  toTrack := h.toTrack
  write := h.write
  ask := h.roaming.ask r.world
  text := h.text hbody
  takeLiteral _ := h.elsewhere rfl rfl
  look m := h.note m
  define := h.define

theorem runFunction (number : Word) (args : List Word) :
    Keeps R (Call.runFunction r number args) :=
  h.roaming.runFunction hbody h.bindParameters number args

include hexpr

theorem loose : LooseDiscipline R r where
  toTrack := h.toTrack
  stack := h.stack
  literals _ _ := h.elsewhere rfl rfl
  quoting _ _ := h.elsewhere rfl rfl
  advanceBy := h.advanceBy
  expression := hexpr
  perform _ _ hm _ := h.trans hm ((h.acting hbody).perform _ _)
  runFunction _ _ hm args := h.trans hm (h.runFunction hbody _ args _)

omit hbody in
theorem assigning : AssigningDiscipline R r := ⟨h.toTrack, h.advanceBy, hexpr, h.setValue⟩

theorem undeclaring : UndeclaringDiscipline R r :=
  h.roaming.undeclaring hbody (h.loose hexpr hbody) (h.assigning hexpr)
    (h.naming.declareVariable (h.assigning hexpr) h.addSymbol)

end

end Lenient

/-- Growth, told in one way or another: a relation that goes on to hold whenever memory is changed to
one that has only grown. -/
structure Expanding (R : Machine → Machine → Prop) : Prop extends Lenient R where
  grows : ∀ {m m'}, R m m' → Grows m m'
  withArena : ∀ {m m' arena}, R m m' → m.memory.Grows ⟨arena, m'.texts⟩ → R m (m'.withArena arena)
  withTexts : ∀ {m m' texts}, R m m' → m.memory.Grows ⟨m'.arena, texts⟩ → R m (m'.withTexts texts)
  stack m _ := withArena (refl m) (.of_eq rfl rfl rfl rfl)
  addBytes {m _ _ _} granted := withArena (refl m) (.addBytes granted)
  addSymbol {m _ _ _ _ _} granted := withArena (refl m) (.addSymbol granted)
  setValue found hvar hm value := withArena hm ((grows hm).setValue found hvar value)
  rollback hm := withArena hm (grows hm).rollback
  retain m text := withTexts (refl m) (.retain text)
  release _ hm := withTexts hm ((grows hm).release (Texts.text?_retain_slot _ _))

namespace Expanding

variable {R : Machine → Machine → Prop} (h : Expanding R)

include h

section

variable {r : Reentry} (hexpr : Keeps R r.expression)
  (hbody : ∀ body topLevel duplicate, Keeps R (r.body body topLevel duplicate))

include hexpr

theorem defining : DefiningDiscipline R r where
  toAssigningDiscipline := h.assigning hexpr
  addBytes := h.addBytes
  addRoutine {m _ _ _} granted := h.withArena (h.refl m) (.addRoutine granted)
  addSymbol := h.addSymbol

include hbody

theorem discipline : Discipline R r where
  toUndeclaringDiscipline := h.undeclaring hexpr hbody
  declareFunction := (h.defining hexpr).declareFunction

theorem wholeBody (body : Slice) (topLevel duplicate : Bool) :
    Keeps R (r.wholeBody body topLevel duplicate) :=
  h.roaming.wholeBody (h.discipline hexpr hbody).statements body topLevel duplicate

end

theorem ofFuel (world : World) (fuel : Nat) :
    Keeps R (evalExpression world fuel) ∧
      ∀ body topLevel duplicate, Keeps R (evalBody world fuel body topLevel duplicate) :=
  keeps_ofFuel h.toTrack h.toTrack world (fun hexpr hbody => (h.discipline hexpr hbody).wholeExpression)
    h.wholeBody fuel

end Expanding

theorem expanding_grows : Expanding Grows where
  toTrack := grows_track
  grows := id
  elsewhere {m m'} hmemory _ := by
    unfold Grows
    rw [hmemory]
    exact .refl _
  note m := Memory.Grows.refl m.memory
  withArena _ g := g
  withTexts _ g := g

/-- On every budget, memory only grows. -/
theorem grows_ofFuel (world : World) (fuel : Nat) :
    Keeps Grows (evalExpression world fuel) ∧
      ∀ body topLevel duplicate, Keeps Grows (evalBody world fuel body topLevel duplicate) :=
  expanding_grows.ofFuel world fuel

/-- A frame leaves no symbols, and the result of before. -/
theorem inFrame_exact {α : Type} {x : Eval α} (hx : Keeps Grows x) (m : Machine) :
    (Call.inFrame x m).machine.arena.symbols.size = m.arena.symbols.size ∧
      (Call.inFrame x m).machine.result = m.result := by
  have larger := (hx m).size_le
  unfold Call.inFrame restoring
  rw [Outcome.machine_adjust]
  refine ⟨?_, rfl⟩
  change m.arena.symbols.size ≤ (x m).machine.arena.symbols.size at larger
  change ((x m).machine.arena.symbols.take m.arena.symbols.size).size = m.arena.symbols.size
  rw [Array.take_eq_extract, Array.size_extract]
  omega

/-- A nested body leaves no symbols. -/
theorem size_evalBody (world : World) (fuel : Nat) (body : Slice) (duplicate : Bool) (m : Machine) :
    (evalBody world fuel body false duplicate m).machine.arena.symbols.size =
      m.arena.symbols.size := by
  cases fuel with
  | zero => rfl
  | succ fuel =>
    obtain ⟨hexpr, hbody⟩ := grows_ofFuel world fuel
    have units := expanding_grows.discipline (r := .ofFuel world fuel) hexpr hbody
    have inside := expanding_grows.roaming.inBody units.statements body duplicate m
    have larger := inside.size_le
    rw [evalBody_succ]
    unfold Reentry.wholeBody inScope restoring
    rw [Outcome.machine_adjust]
    generalize (inBody body duplicate _ m).machine = m' at inside larger ⊢
    change m.arena.symbols.size ≤ m'.arena.symbols.size at larger
    change (m'.arena.symbols.take m.arena.symbols.size).size = m.arena.symbols.size
    rw [Array.take_eq_extract, Array.size_extract]
    omega

/-- A text that is not evaluated at the top level leaves no symbols. -/
theorem size_evalText (world : World) (fuel : Nat) (text : String) (duplicate : Bool) (m : Machine) :
    (evalText world fuel text duplicate false m).machine.arena.symbols.size =
      m.arena.symbols.size := by
  have track : Track fun m m' => m'.arena.symbols.size = m.arena.symbols.size :=
    ⟨fun _ => rfl, fun h k => k.trans h⟩
  refine keeps_reporting track (fun _ _ => rfl) (fun m => ?_) m.note
  unfold holding
  rw [Outcome.machine_adjust, Bool.and_false]
  change (entering _ _).machine.arena.symbols.size = _
  unfold entering
  rw [Outcome.machine_adjust]
  exact related_bind_still (R := fun m m' => m'.arena.symbols.size = m.arena.symbols.size)
    (size_evalBody world fuel _ duplicate _) fun _ => still_pure ()

/-- A call of a function leaves no symbols, and the result of before. -/
theorem runFunction_exact (world : World) (fuel : Nat) (number : Word) (args : List Word)
    (m : Machine) :
    (Call.runFunction (.ofFuel world fuel) number args m).machine.arena.symbols.size =
      m.arena.symbols.size ∧
      (Call.runFunction (.ofFuel world fuel) number args m).machine.result = m.result := by
  have track : Track fun m m' => m'.arena.symbols.size = m.arena.symbols.size ∧
      m'.result = m.result :=
    ⟨fun _ => ⟨rfl, rfl⟩, fun h k => ⟨k.1.trans h.1, k.2.trans h.2⟩⟩
  refine track.bind_still (still_read fun m => number.index?.bind (m.arena.routines[·]?))
    (fun routine? => ?_) m.note
  cases routine? with
  | none => exact track.still (still_fail _)
  | some routine =>
    exact inFrame_exact (expanding_grows.roaming.framed (r := .ofFuel world fuel)
      (grows_ofFuel world fuel).2 expanding_grows.bindParameters routine args)

end Scriptlet
