import Scriptlet.Proofs.Lasting
import Scriptlet.Proofs.Trace.Discipline

/-!
What goes on beside reading. Most of what evaluation does leaves alone what there is to be read and the
place that reading has come to: it defines symbols, stacks words, sets flags. So what is known of the
token and of what is left to read needs no second thought there.

The relations differ in what stays:

* `Stores`: what could be read from still can be, and reads the same;
* `SameStores`: the stores are the same;
* `Aside` and `Beside`: the place of reading is the same in addition.

Combinators that adjust the machine around a computation and put things back afterwards are `Traced.Wraps`
with such a relation; a property that the relation carries over has one rule for all of them.
-/

namespace Scriptlet

open Eval

variable {α : Type}

/-! ### What stays -/

/-- What slices could be read from still can. -/
structure Stores (m m' : Machine) : Prop where
  durable : m.arena.durable.toList <+: m'.arena.durable.toList
  texts : ∀ {slot text}, m.texts.text? slot = some text → m'.texts.text? slot = some text

namespace Stores

variable {m m' n : Machine}

protected theorem refl (m : Machine) : Stores m m := ⟨List.prefix_rfl, id⟩

protected theorem trans (h : Stores m m') (k : Stores m' n) : Stores m n :=
  ⟨h.durable.trans k.durable, k.texts ∘ h.texts⟩

theorem of_grows (h : Grows m m') : Stores m m' := ⟨h.durable, h.texts⟩

theorem store_prefix (h : Stores m m') (source : Source) :
    (m.store source).toList <+: (m'.store source).toList := by
  have grown : m.memory.Grows ⟨{ m.arena with durable := m'.arena.durable }, m'.texts⟩ :=
    ⟨fun found => ⟨_, found, .refl _⟩, h.durable, id, h.texts⟩
  exact grown.store_prefix source

end Stores

/-- What slices can be read from is the same, and so are the routines that have slices. -/
structure SameStores (m m' : Machine) : Prop where
  durable : m'.arena.durable = m.arena.durable
  routines : m'.arena.routines = m.arena.routines
  texts : m'.texts = m.texts

theorem SameStores.stores {m m' : Machine} (h : SameStores m m') : Stores m m' :=
  ⟨h.durable ▸ List.prefix_rfl, fun held => h.texts ▸ held⟩

/-- What could be read still can, and reading goes on where it was. -/
structure Aside (m m' : Machine) : Prop extends Stores m m' where
  cursor : m'.cursor = m.cursor
  token : m'.token = m.token

/-- What can be read is the same, and reading goes on where it was. -/
structure Beside (m m' : Machine) : Prop extends SameStores m m' where
  cursor : m'.cursor = m.cursor
  token : m'.token = m.token

theorem Beside.aside {m m' : Machine} (h : Beside m m') : Aside m m' :=
  ⟨h.toSameStores.stores, h.cursor, h.token⟩

theorem sameStores_track : Track SameStores where
  refl _ := ⟨rfl, rfl, rfl⟩
  trans h k := ⟨k.durable.trans h.durable, k.routines.trans h.routines, k.texts.trans h.texts⟩

theorem aside_track : Track Aside where
  refl m := ⟨.refl m, rfl, rfl⟩
  trans h k := ⟨h.toStores.trans k.toStores, k.cursor.trans h.cursor, k.token.trans h.token⟩

theorem beside_track : Track Beside where
  refl m := ⟨sameStores_track.refl m, rfl, rfl⟩
  trans h k := ⟨sameStores_track.trans h.toSameStores k.toSameStores, k.cursor.trans h.cursor,
    k.token.trans h.token⟩

/-- Whatever leaves the stores and the place of reading alone. -/
theorem Beside.of_eq {m m' : Machine} (durable : m'.arena.durable = m.arena.durable)
    (routines : m'.arena.routines = m.arena.routines) (texts : m'.texts = m.texts)
    (cursor : m'.cursor = m.cursor) (token : m'.token = m.token) : Beside m m' :=
  ⟨⟨durable, routines, texts⟩, cursor, token⟩

/-- Errors are located by the cursor and by what it reads. -/
theorem Beside.locate {m m' : Machine} (h : Beside m m') (e : Error) : m'.locate e = m.locate e := by
  have store : ∀ source, m'.store source = m.store source := by
    intro source
    cases source with
    | fixed bytes => rfl
    | durable => exact h.durable
    | text slot => exact congrArg (·.get slot) h.texts
  unfold Machine.locate
  rw [h.cursor, store]

/-! ### Units -/

theorem beside_addSymbol (name : Slice) (tag : Tag Native) (value : Word) :
    Keeps Beside (allocate (·.addSymbol name tag value)) :=
  beside_track.allocate fun granted => by
    obtain ⟨-, -, rfl⟩ := Arena.addSymbol_eq_some granted
    exact .of_eq rfl rfl rfl rfl rfl

theorem beside_push (word : Word) : Keeps Beside (push word) :=
  beside_track.push fun _ => .of_eq rfl rfl rfl rfl rfl

theorem beside_popOnto (words : List Word) (count : Nat) : Keeps Beside (popOnto words count) :=
  beside_track.popOnto (fun _ => .of_eq rfl rfl rfl rfl rfl) words count

theorem beside_bindParameters (bindings : List (Slice × Word)) :
    Keeps Beside (Call.bindParameters bindings) :=
  beside_track.bindParameters (fun name => beside_addSymbol name .var) bindings

theorem aside_addRoutine (routine : Routine) : Keeps Aside (allocate (·.addRoutine routine)) :=
  aside_track.allocate fun granted => by
    obtain ⟨-, -, rfl⟩ := Arena.addRoutine_eq_some granted
    exact ⟨⟨List.prefix_rfl, id⟩, rfl, rfl⟩

theorem aside_keep (slice : Slice) : Keeps Aside (keep slice) := by
  intro m
  unfold Eval.keep
  split
  · split
    · exact aside_track.allocate (fun granted => ⟨.of_grows (.addBytes granted), rfl, rfl⟩) m
    · exact aside_track.refl m
  · exact aside_track.refl m

/-! ### Around a computation -/

/-- A computation is another one, started on a machine and leaving a machine that differ in what the
relation allows. -/
structure Traced.Wraps (R : Machine → Machine → Prop) (start : Machine → Machine) (x y : Traced α) :
    Prop where
  starts : ∀ m, R m (start m)
  events : ∀ m, y.events m = x.events (start m)
  run : ∀ m, ∃ change, y.run m = (x.run (start m)).adjust change ∧ ∀ m', R m' (change m')

namespace Traced

theorem Wraps.mono {R S : Machine → Machine → Prop} {start : Machine → Machine} {x y : Traced α}
    (h : Wraps R start x y) (le : ∀ {m m'}, R m m' → S m m') : Wraps S start x y :=
  ⟨fun m => le (h.starts m), h.events, fun m =>
    let ⟨change, run, hchange⟩ := h.run m
    ⟨change, run, fun m' => le (hchange m')⟩⟩

variable {R : Machine → Machine → Prop} (x : Traced α)

theorem wraps_within {around : Eval α → Eval α} {start : Machine → Machine}
    {change : Machine → Machine → Machine} (hstart : ∀ m, R m (start m))
    (run : ∀ m, around (fun _ => x.run (start m)) m = (x.run (start m)).adjust (change m))
    (hchange : ∀ m m', R m' (change m m')) : Wraps R start x (within around start x) :=
  ⟨hstart, fun _ => rfl, fun m => ⟨change m, run m, hchange m⟩⟩

theorem wraps_noting : Wraps Beside Machine.note x (noting x) := by
  refine ⟨fun _ => .of_eq rfl rfl rfl rfl rfl, fun _ => rfl, fun m => ⟨id, ?_, beside_track.refl⟩⟩
  change x.run m.note = _
  cases x.run m.note <;> rfl

theorem wraps_withQuoting (quoting : Quoting) :
    Wraps Beside (fun m => { m with quoting }) x (withQuoting quoting x) :=
  wraps_within x (fun _ => .of_eq rfl rfl rfl rfl rfl) (fun _ => rfl) fun _ _ => .of_eq rfl rfl rfl rfl rfl

theorem wraps_truncatingLiterals (count : Nat) : Wraps Beside id x (truncatingLiterals count x) :=
  wraps_within x beside_track.refl (fun _ => rfl) fun _ _ => .of_eq rfl rfl rfl rfl rfl

theorem wraps_withPending (count : Nat) :
    Wraps Beside (fun m => { m with literals := (m.literals.openFrame count).2 }) x (withPending count x) :=
  wraps_within x (fun _ => .of_eq rfl rfl rfl rfl rfl) (fun _ => rfl) fun _ _ => .of_eq rfl rfl rfl rfl rfl

theorem wraps_entering : Wraps Beside (fun m => { m with depth := m.depth + 1 }) x (entering x) :=
  wraps_within x (fun _ => .of_eq rfl rfl rfl rfl rfl) (fun _ => rfl) fun _ _ => .of_eq rfl rfl rfl rfl rfl

theorem wraps_inFrame : Wraps Beside id x (inFrame x) :=
  wraps_within x beside_track.refl (fun _ => rfl) fun _ _ => .of_eq rfl rfl rfl rfl rfl

/-- Words are taken off the stack again if an argument list fails. -/
theorem wraps_unwinding : Wraps Beside id x (unwinding x) := by
  refine ⟨beside_track.refl, fun _ => rfl, fun m => ?_⟩
  let undo (m' : Machine) : Machine :=
    { m'.withArena (m'.arena.unwind m.arena.depth) with
      literals := m'.literals.truncate m.literals.size }
  have run : (unwinding x).run m = (x.run m).adjustUndone undo := rfl
  have beside : ∀ m', Beside m' (undo m') := fun _ => .of_eq rfl rfl rfl rfl rfl
  rw [run]
  dsimp only [id]
  cases x.run m with
  | done a m' => exact ⟨id, rfl, beside_track.refl⟩
  | failed error m' => exact ⟨undo, rfl, beside⟩
  | stopped why m' => exact ⟨undo, rfl, beside⟩

theorem wraps_inBody (body : Slice) (duplicate : Bool) :
    Wraps SameStores (fun m => { m with cursor := m.cursorAt body, quoting := .plain, duplicate }) x
      (inBody body duplicate x) :=
  wraps_within x (fun _ => ⟨rfl, rfl, rfl⟩) (fun _ => rfl) fun _ _ => ⟨rfl, rfl, rfl⟩

theorem wraps_inScope (topLevel : Bool) : Wraps SameStores id x (inScope topLevel x) := by
  refine wraps_within x sameStores_track.refl (fun _ => rfl) fun m m' => ?_
  cases topLevel <;> exact ⟨rfl, rfl, rfl⟩

end Traced

end Scriptlet
