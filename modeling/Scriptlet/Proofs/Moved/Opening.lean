import Scriptlet.Proofs.Moved.Bodies
import Scriptlet.Proofs.Reach
import Scriptlet.Proofs.Twin.Seam

/-!
One text or another, put into a slot of the same machine. Nothing in the memory of the machine points
into a free slot, if hosts and natives leave it to scripts to define functions. So there is nothing to be
moved at first, and the machine with the one text in its slot and the machine with the other are a start
for all of the above, whatever the texts have in common (`moved_opened`).
-/

namespace Scriptlet

open Text (Bytes)
open Eval

variable {α : Type} {m m' n : Machine}

/-- The bytes are one token, and may stand for a symbol. -/
def Scanner.IsToken (name : Bytes) : Prop :=
  ∃ l : Lexeme, (l = .name ⟨0, name.length⟩ ∨ l = .operator ⟨0, name.length⟩) ∧
    (⟨0, name⟩ : Scanner).next .plain = (.ok l, ⟨name.length, []⟩)

theorem Scanner.ofWindow_toArray (text : Bytes) {start stop : Nat} (ordered : start ≤ stop)
    (inside : stop ≤ text.length) :
    ofWindow text.toArray start stop = ⟨start, (text.drop start).take (stop - start)⟩ := by
  unfold ofWindow
  dsimp only
  rw [List.size_toArray, Nat.min_eq_left inside, Nat.min_eq_left ordered]
  simp [List.extract_eq_take_drop]

/-- A host that makes up a symbol for the routine of a function that went with its text. -/
def strayHost : Action :=
  .evalText "func g\x7bprint 7\x7d" false false fun _ => .define "f" (.func 0) 0 fun _ => .give 0

namespace Machine

/-! ### Machines of honest hosts -/

/-- An honest host, or a native or a script under it, has a machine with this memory in hand. -/
def HonestlyReachable (m : Machine) : Prop :=
  ∃ host after life, host.Honest ∧ LeftBy host after ∧ after.note.history life ∧ ⟨m.memory, true⟩ ∈ life

/-- What an honest host leaves is honestly reachable. -/
theorem LeftBy.honestlyReachable {host : Action} (honest : host.Honest) (h : LeftBy host m) :
    m.HonestlyReachable := by
  have sound : m.Sound false := h.sound nofun
  obtain ⟨life, hlife, -⟩ := sound.told
  exact ⟨host, m, ⟨m.memory, true⟩ :: life, honest, h, ⟨life, (hlife life).mpr rfl, rfl⟩, List.mem_cons_self⟩

theorem HonestlyReachable.intact (h : m.HonestlyReachable) : m.memory.Intact true := by
  obtain ⟨host, after, life, honest, left, hlife, hmem⟩ := h
  obtain ⟨life', hlife', told⟩ := (left.sound fun _ => honest).note.told
  cases (hlife' life).mp hlife
  exact told.intact rfl _ hmem

/-! ### Reading a token -/

def past (m : Machine) (after : Scanner) (token : Token) : Machine :=
  { m with cursor := { m.cursor with scanner := after, mark := m.cursor.scanner.pos }, token }

theorem advance_eq_past {l : Lexeme} {after : Scanner} {t : Token}
    (read : m.cursor.scanner.next m.quoting = (.ok l, after))
    (resolved : resolve false l (m.past after m.token) = .done t (m.past after m.token)) :
    advance m = .done () (m.past after t) := by
  unfold advance advanceBy
  rw [bind_apply, readLexeme_of_ok read]
  change (resolve false l (m.past after m.token)).andThen _ = _
  rw [resolved]
  rfl

theorem resolve_known {l : Lexeme} {place : Span} {index : Nat}
    (spelled : l = .name place ∨ l = .operator place)
    (found : m.index? (m.bytes (.ofSpan m.cursor.source place)) = some index) :
    resolve false l m = .done (.symbol index) m := by
  rcases spelled with rfl | rfl
  · simp only [resolve, found]
    rfl
  · simp only [resolve, found]

/-! ### Texts in a slot -/

theorem fst_retain (t : Texts) (a b : Array UInt8) : (t.retain a).1 = (t.retain b).1 := by
  unfold Texts.retain
  split <;> rfl

/-- What is found of a name depends on what the names of symbols read as. -/
theorem index?_of_bytes (symbols : m'.arena.symbols = m.arena.symbols)
    (bytes : ∀ {i : Nat} {s}, m.arena.symbols[i]? = some s → m'.bytes s.name = m.bytes s.name) (name : Bytes) :
    m'.index? name = m.index? name := by
  have below : ∀ count, m'.newestBelow? name count = m.newestBelow? name count := fun count => by
    induction count with
    | zero => rfl
    | succ index ih =>
      cases found : m.arena.symbols[index]? with
      | none =>
        unfold newestBelow?
        rw [symbols, found, ih]
      | some s =>
        rw [newestBelow?_succ name found, newestBelow?_succ name (symbols ▸ found), ih, bytes found]
  unfold index?
  rw [symbols, below]

/-- A slot that is taken for a text was free, so nothing was in it. -/
theorem source_ne_of_holds {slice : Slice} (held : m.memory.Holds slice) (text : Array UInt8) :
    slice.source ≠ .text (m.texts.retain text).1 := by
  intro same
  unfold Memory.Holds at held
  rw [same] at held
  have held : (m.texts.text? (m.texts.retain text).1).isSome = true := held
  rw [Texts.text?_retain_slot] at held
  cases held

theorem index?_opened (intact : m.memory.Intact true) (text name : Bytes) :
    (m.opened text).index? name = m.index? name := by
  have symbols : (m.opened text).arena.symbols = m.arena.symbols := rfl
  refine index?_of_bytes symbols (fun {i s} found => ?_) name
  have held := (intact.symbols found).held _ (Memory.name_mem_tracked _ _ _)
  have other := source_ne_of_holds held text.toArray
  have store : (m.opened text).memory.store s.name.source = m.memory.store s.name.source := by
    cases source : s.name.source with
    | fixed bytes => rfl
    | durable => rfl
    | text slot =>
      change ((m.texts.retain text.toArray).2.text? slot).getD #[] = _
      rw [Texts.text?_retain, if_neg fun same => other (source.trans (congrArg _ same))]
      rfl
  change s.name.bytesIn ((m.opened text).memory.store s.name.source) = s.name.bytesIn _
  rw [store]

theorem index?_starting (intact : m.memory.Intact true) (text : Bytes) (duplicate : Bool) (name : Bytes) :
    (m.starting text duplicate).index? name = m.index? name := by
  have same : (m.starting text duplicate).memory = (m.opened text).memory := rfl
  rw [index?_congr same, index?_opened intact]

theorem index?_past (m : Machine) (after : Scanner) (token : Token) (name : Bytes) :
    (m.past after token).index? name = m.index? name := by
  have same : (m.past after token).memory = m.memory := rfl
  rw [index?_congr same]

/-! ### The first token of a text -/

theorem store_opened (m : Machine) (text : Bytes) :
    (m.opened text).store (.text (m.texts.retain text.toArray).1) = text.toArray := by
  change ((m.texts.retain text.toArray).2.text? (m.texts.retain text.toArray).1).getD #[] = _
  rw [Texts.text?_retain, if_pos rfl]
  rfl

theorem cursor_starting (m : Machine) (text : Bytes) (duplicate : Bool) :
    (m.starting text duplicate).cursor =
      ⟨.text (m.texts.retain text.toArray).1, ⟨0, text⟩, text.length, 0⟩ := by
  have scanner : ((m.opened text).cursorAt (m.bodyOf text)).scanner = ⟨0, text⟩ := by
    change Scanner.ofWindow ((m.opened text).store (.text (m.texts.retain text.toArray).1)) 0
      (0 + text.length) = _
    rw [store_opened, Scanner.ofWindow_toArray text (Nat.zero_le _) (Nat.le_of_eq (Nat.zero_add _))]
    simp
  change (⟨_, ((m.opened text).cursorAt (m.bodyOf text)).scanner, 0 + text.length,
    ((m.opened text).cursorAt (m.bodyOf text)).scanner.pos⟩ : Cursor) = _
  rw [scanner, Nat.zero_add]
  rfl

theorem bytes_starting (m : Machine) (text : Bytes) (duplicate : Bool) (after : Scanner) (token : Token)
    {stop : Nat} (inside : stop ≤ text.length) :
    ((m.starting text duplicate).past after token).bytes
      (.ofSpan (.text (m.texts.retain text.toArray).1) ⟨0, stop⟩) = text.take stop := by
  change Slice.bytesIn _ ((m.opened text).store (.text (m.texts.retain text.toArray).1)) = _
  rw [store_opened, Slice.bytesIn, if_pos (by
    change 0 + (stop - 0) ≤ text.toArray.size
    simpa using inside)]
  change (text.toArray.extract 0 (0 + (stop - 0))).toList = _
  simp [List.extract_eq_take_drop]

/-- A text whose first token is known when it is read. -/
theorem advance_starting_of_known {name : Bytes} (token : Scanner.IsToken name) {d : UInt8}
    (delimits : Byte.Delimits d) (more : Bytes) (duplicate : Bool) {index : Nat}
    (known : (m.starting (name ++ d :: more) duplicate).index? name = some index) :
    advance (m.starting (name ++ d :: more) duplicate) = .done ()
      ((m.starting (name ++ d :: more) duplicate).past ⟨name.length, d :: more⟩ (.symbol index)) := by
  obtain ⟨l, spelled, alone⟩ := token
  have running : l ≠ .eof := by rcases spelled with rfl | rfl <;> exact nofun
  have start := cursor_starting m (name ++ d :: more) duplicate
  refine advance_eq_past ?_ (resolve_known spelled ?_)
  · rw [start]
    exact Scanner.next_extend delimits alone running more
  · change index? _ (bytes _ (.ofSpan (m.starting (name ++ d :: more) duplicate).cursor.source _)) = _
    rw [start, bytes_starting _ _ _ _ _ (by simp), List.take_left' rfl, index?_past, known]

theorem advance_starting (intact : m.memory.Intact true) {name : Bytes} (token : Scanner.IsToken name)
    {index : Nat} (known : m.index? name = some index) {d : UInt8} (delimits : Byte.Delimits d) (more : Bytes)
    (duplicate : Bool) :
    advance (m.starting (name ++ d :: more) duplicate) = .done ()
      ((m.starting (name ++ d :: more) duplicate).past ⟨name.length, d :: more⟩ (.symbol index)) :=
  advance_starting_of_known token delimits more duplicate ((index?_starting intact ..).trans known)

/-- The exchange of one text for another, at the moment when it is put into a slot. -/
def exchange (m : Machine) (old new : Bytes) (shift low high reach : Nat) : Relocation :=
  ⟨(m.texts.retain old.toArray).1, old.toArray, new.toArray, shift, low, high, reach, m.arena.routines.size⟩

variable {old new : Bytes} {shift low high reach : Nat}

theorem texts_exchange (old new : Bytes) (shift low high reach : Nat) :
    (m.exchange old new shift low high reach).texts (m.texts.retain old.toArray).2 =
      (m.texts.retain new.toArray).2 := by
  unfold Relocation.texts exchange Texts.retain
  dsimp only
  cases m.texts.slots.findIdx? Option.isNone with
  | some slot => exact congrArg Texts.mk (Array.setIfInBounds_setIfInBounds ..)
  | none =>
    dsimp only
    refine congrArg Texts.mk (Array.ext_getElem? fun i => ?_)
    rw [Array.getElem?_setIfInBounds, Array.getElem?_push, Array.getElem?_push, Array.size_push]
    by_cases hi : m.texts.slots.size = i
    · subst hi
      simp
    · simp [hi, Ne.symm hi]

end Machine

namespace Relocation

variable {old new : Bytes} {shift low high reach : Nat}

/-- At first there is nothing to be moved. -/
theorem settled_opened (intact : m.memory.Intact true) :
    (m.exchange old new shift low high reach).Settled (m.opened old) := by
  have other : ∀ {i : Nat} {s}, m.arena.symbols[i]? = some s → ∀ slice ∈ m.memory.slices s,
      slice.source ≠ .text (m.texts.retain old.toArray).1 := fun found slice hmem =>
    Machine.source_ne_of_holds ((intact.symbols found).held slice hmem) old.toArray
  refine ⟨?_, fun {i s} found => ?_, Nat.le_refl _, intact.budget rfl⟩
  · change (m.texts.retain old.toArray).2.text? (m.texts.retain old.toArray).1 = some old.toArray
    rw [Texts.text?_retain, if_pos rfl]
  · have found : m.arena.symbols[i]? = some s := found
    have admitted := intact.symbols found
    refine ⟨within_of_ne _ (other found _ List.mem_cons_self), fun {arity} htag => ?_,
      fun htag => admitted.honest rfl htag⟩
    obtain ⟨routine, described⟩ := admitted.described rfl htag
    obtain ⟨number, index, there⟩ := Option.bind_eq_some_iff.mp described
    have elsewhere : ∀ slice ∈ routine.body :: routine.params,
        slice.source ≠ .text (m.texts.retain old.toArray).1 := fun slice hmem => by
      refine other found slice ?_
      rw [Memory.slices, htag, described]
      exact List.mem_cons_of_mem _ hmem
    exact ⟨number, routine, index, there,
      movable_of_ne (fun param hmem => elsewhere param (List.mem_cons_of_mem _ hmem))
        (elsewhere _ List.mem_cons_self)⟩

theorem arena_exchange (intact : m.memory.Intact true) :
    (m.exchange old new shift low high reach).arena m.arena = m.arena :=
  arena_of_ne (fun found => Machine.source_ne_of_holds
    ((intact.symbols found).held _ (Memory.name_mem_tracked _ _ _)) old.toArray) (Nat.le_refl _)

theorem moved_opened (intact : m.memory.Intact true) :
    (m.exchange old new shift low high reach).Moved (m.opened old) (m.opened new) := by
  refine moved_of_eq (settled_opened intact) ?_
  unfold put
  rw [show (m.opened old).texts = (m.texts.retain old.toArray).2 from rfl, Machine.texts_exchange,
    show (m.opened old).arena = m.arena from rfl, arena_exchange intact]
  rfl

/-- What has happened to the second machine before is of no account. -/
theorem Moved.noteRight {ρ : Relocation} (h : ρ.Moved m m') : ρ.Moved m m'.note := by
  cases h with
  | put settled => exact .put settled _ _ _

end Relocation

end Scriptlet
