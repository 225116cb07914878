import Scriptlet.Proofs.Bracket
import Scriptlet.Proofs.Budget
import Scriptlet.Proofs.Reach
import Scriptlet.Proofs.Trace.Discipline

/-!
What an evaluation spends for good, where names and bodies are not copied. Durable memory is taken for
copies and for the descriptors of functions; what symbols and arguments take is given back. So without
copies each descriptor costs what a descriptor costs, and nothing else costs anything.

Only the native that evaluates files copies of its own accord. Whether it is called depends on the run,
so the relation below is established by computations in the account of which it is not called.
-/

namespace Scriptlet

open Eval

variable {α β σ : Type}

def Occasion.CallsSource : Occasion → Prop
  | .dispatching callee count => callee.tag = .native Builtin.source count
  | _ => False

/-- In the course of the computation no file is asked for. -/
def Traced.Sourceless (x : Traced α) (m : Machine) : Prop := ∀ e ∈ x.events m, ¬e.what.CallsSource

/-! ### The relation -/

/-- Descriptors were added and paid for, nothing else was paid for, and the stack is not lower. If anything
was paid for, it was there, with the stack as high as it was at first. -/
structure Spends (m m' : Machine) : Prop where
  builtins : m'.OnlyBuiltins
  duplicate : m'.duplicate = m.duplicate
  size : m'.arena.size = m.arena.size
  stack : m.arena.depth ≤ m'.arena.depth
  routines : m.arena.routines.size ≤ m'.arena.routines.size
  reserved : m'.arena.reserved + routineSize * m.arena.routines.size =
    m.arena.reserved + routineSize * m'.arena.routines.size
  room : m'.arena.reserved = m.arena.reserved ∨
    wordSize * m.arena.depth + m'.arena.reserved ≤ m.arena.size

/-- What is spent from a machine with no natives of its own that does not copy. -/
def Spares (m m' : Machine) : Prop := m.OnlyBuiltins → m.duplicate = false → Spends m m'

namespace Spends

variable {m m' n : Machine}

protected theorem refl (natives : m.OnlyBuiltins) : Spends m m :=
  ⟨natives, rfl, rfl, Nat.le_refl _, Nat.le_refl _, rfl, .inl rfl⟩

protected theorem trans (h : Spends m m') (k : Spends m' n) : Spends m n where
  builtins := k.builtins
  duplicate := k.duplicate.trans h.duplicate
  size := k.size.trans h.size
  stack := Nat.le_trans h.stack k.stack
  routines := Nat.le_trans h.routines k.routines
  reserved := by
    have first := h.reserved
    have second := k.reserved
    omega
  room := by
    have higher := Nat.mul_le_mul_left wordSize h.stack
    have size := h.size
    rcases k.room with same | room
    · exact same ▸ h.room
    · exact .inr (by omega)

theorem of_symbols (builtins : m'.OnlyBuiltins)
    (arena : m'.arena = { m.arena with symbols := m'.arena.symbols })
    (duplicate : m'.duplicate = m.duplicate) : Spends m m' := by
  refine ⟨builtins, duplicate, ?_, ?_, ?_, ?_, .inl ?_⟩ <;> rw [arena]
  exact Nat.le_refl _

theorem elsewhere (natives : m.OnlyBuiltins) (arena : m'.arena = m.arena)
    (duplicate : m'.duplicate = m.duplicate) : Spends m m' := by
  refine .of_symbols (onlyBuiltins_iff.mpr ?_) (by rw [arena]) duplicate
  rw [arena]
  exact onlyBuiltins_iff.mp natives

/-- Before and behind, only the arena and the flag count. -/
theorem congr {a b : Machine} (h : Spends m m') (before : m.arena = a.arena)
    (behind : b.arena = m'.arena) (duplicate : b.duplicate = a.duplicate) : Spends a b := by
  obtain ⟨builtins, -, size, stack, routines, reserved, room⟩ := h
  rw [before] at size stack routines reserved room
  rw [← behind] at size stack routines reserved room
  refine ⟨onlyBuiltins_iff.mpr ?_, duplicate, size, stack, routines, reserved, room⟩
  rw [behind]
  exact onlyBuiltins_iff.mp builtins

theorem rollback (h : Spends m m') (count : Nat) :
    Spends m (m'.withArena (m'.arena.rollback count)) :=
  h.trans (.of_symbols (onlyBuiltins_iff.mpr ((onlyBuiltins_iff.mp h.builtins).rollback count)) rfl rfl)

/-- Words may be taken off the stack that were pushed since. -/
theorem withStack (h : Spends m m') {stack : Array Word} (enough : m.arena.depth ≤ stack.size) :
    Spends m (m'.withArena { m'.arena with stack }) :=
  ⟨onlyBuiltins_iff.mpr (onlyBuiltins_iff.mp h.builtins), h.duplicate, h.size, enough, h.routines,
    h.reserved, h.room⟩

end Spends

theorem spares_track : Track Spares where
  refl _ natives _ := .refl natives
  trans h k natives plain :=
    have first := h natives plain
    first.trans (k first.builtins (first.duplicate.trans plain))

theorem spares_elsewhere {m m' : Machine} (arena : m'.arena = m.arena)
    (duplicate : m'.duplicate = m.duplicate) : Spares m m' := fun natives _ =>
  .elsewhere natives arena duplicate

/-! ### Units -/

theorem spares_advanceBy (raw : Bool) : Keeps Spares (advanceBy raw) := by
  intro m
  obtain ⟨cursor, token, literals, hm, -⟩ := advanceBy_machine raw m
  rw [hm]
  exact spares_elsewhere rfl rfl

/-- Symbols are given back, and are not charged to durable memory. -/
theorem spares_addSymbol {name : Slice} {tag : Tag Native} {value : Word}
    (htag : ∀ native arity, tag ≠ .native native arity) :
    Keeps Spares (allocate (·.addSymbol name tag value)) :=
  spares_track.allocate fun granted natives _ => by
    have tags := (onlyBuiltins_iff.mp natives).addSymbol granted fun native arity h =>
      absurd h (htag native arity)
    obtain ⟨-, -, rfl⟩ := Arena.addSymbol_eq_some granted
    exact .of_symbols (onlyBuiltins_iff.mpr tags) rfl rfl

/-- A descriptor is paid for, out of what is left above the stack. -/
theorem spares_addRoutine (routine : Routine) : Keeps Spares (allocate (·.addRoutine routine)) :=
  spares_track.allocate fun {m _ arena} granted natives _ => by
    obtain ⟨room, -, rfl⟩ := Arena.addRoutine_eq_some granted
    rw [Arena.wordAligned_routineSize] at room ⊢
    refine ⟨onlyBuiltins_iff.mpr (onlyBuiltins_iff.mp natives), rfl, rfl, Nat.le_refl _, ?_, ?_, .inr ?_⟩
    · change m.arena.routines.size ≤ (m.arena.routines.push routine).size
      rw [Array.size_push]
      exact Nat.le_succ _
    · change m.arena.reserved + routineSize + routineSize * m.arena.routines.size =
        m.arena.reserved + routineSize * (m.arena.routines.push routine).size
      rw [Array.size_push, Nat.mul_succ]
      omega
    · change wordSize * m.arena.depth + (m.arena.reserved + routineSize) ≤ m.arena.size
      have positive : 0 < routineSize := by decide
      have depth := Nat.mul_comm m.arena.stack.size wordSize
      unfold Arena.free Arena.highEnd at room
      unfold Arena.depth
      omega

/-- Without copies, names and bodies are kept as they are. -/
theorem spares_keep (slice : Slice) : Keeps Spares (keep slice) := by
  intro m natives plain
  unfold keep
  split
  · simp only [plain, Bool.false_eq_true, if_false]
    exact .refl natives
  · exact .refl natives

theorem spares_push (word : Word) : Keeps Spares (push word) :=
  spares_track.push fun _ natives _ => by
    refine (Spends.refl natives).withStack ?_
    rw [Array.size_push]
    exact Nat.le_succ _

/-- Popping goes no lower than the stack was, if so many words were pushed. -/
theorem Spends.popOnto {m m' : Machine} (h : Spends m m') {count : Nat}
    (pushed : m.arena.depth + count ≤ m'.arena.depth) (words : List Word) :
    Spends m (Eval.popOnto words count m').machine := by
  induction count generalizing words m' with
  | zero => exact h
  | succ count ih =>
    have enough : m.arena.depth + count ≤ m'.arena.stack.pop.size := by
      rw [Array.size_pop]
      unfold Arena.depth at pushed ⊢
      omega
    exact ih (h.withStack (Nat.le_trans (Nat.le_add_right _ _) enough)) enough (m'.arena.pop.1 :: words)

theorem spares_setValue (index : Nat) (value : Word) :
    Keeps Spares (update fun m => m.withArena (m.arena.setValue index value)) := fun _ natives _ =>
  .of_symbols (onlyBuiltins_iff.mpr ((onlyBuiltins_iff.mp natives).setValue index value)) rfl rfl

theorem spares_bindParameters (bindings : List (Slice × Word)) :
    Keeps Spares (Call.bindParameters bindings) :=
  spares_track.bindParameters (fun _ _ => spares_addSymbol nofun) bindings

theorem spares_ask (world : World) (question : Question) : Keeps Spares (world.ask question) :=
  spares_track.ask (fun _ _ => spares_elsewhere rfl rfl) world question

/-! ### Combinators -/

/-- From a machine with no natives of its own that does not copy, the computation spends nothing but for
descriptors, if it asks for no file. -/
def Traced.Thrifty (x : Traced α) : Prop :=
  ∀ m, m.OnlyBuiltins → m.duplicate = false → x.Sourceless m → Spends m (x.run m).machine

namespace Traced

theorem Sourceless.left {x : Traced α} {f : α → Traced β} {m : Machine} (h : (x >>= f).Sourceless m) :
    x.Sourceless m := fun e he => h e (List.mem_append_left _ he)

theorem Sourceless.right {x : Traced α} {f : α → Traced β} {m m' : Machine} {a : α}
    (h : (x >>= f).Sourceless m) (done : x.run m = .done a m') : (f a).Sourceless m' := by
  intro e he
  refine h e (List.mem_append_right _ ?_)
  rw [done]
  exact he

/-- What follows a computation goes on from where that ended. -/
theorem spends_bind {x : Traced α} {f : α → Traced β} {m₀ m : Machine}
    (sourceless : (x >>= f).Sourceless m)
    (hx : Spends m₀ (x.run m).machine)
    (hf : ∀ a m', x.run m = .done a m' → (f a).Sourceless m' → Spends m₀ m' →
      Spends m₀ ((f a).run m').machine) : Spends m₀ ((x >>= f).run m).machine :=
  related_bind (R := Spends) hx fun a m' done spent => hf a m' done (sourceless.right done) spent

namespace Thrifty

variable {x : Traced α}

theorem quiet {y : Eval α} (hy : Keeps Spares y) : (Traced.quiet y).Thrifty :=
  fun m natives plain _ => hy m natives plain

theorem still {y : Eval α} (hy : Still y) : (Traced.quiet y).Thrifty := quiet (spares_track.still hy)

theorem after {m₀ m : Machine} (hx : x.Thrifty) (spent : Spends m₀ m) (plain : m₀.duplicate = false)
    (sourceless : x.Sourceless m) : Spends m₀ (x.run m).machine :=
  spent.trans (hx m spent.builtins (spent.duplicate.trans plain) sourceless)

theorem bind {f : α → Traced β} (hx : x.Thrifty) (hf : ∀ a, (f a).Thrifty) : (x >>= f).Thrifty :=
  fun m natives plain sourceless => spends_bind sourceless (hx m natives plain sourceless.left)
    fun a _ _ rest spent => (hf a).after spent plain rest

theorem quiet_bind {y : Eval α} (hy : Keeps Spares y) {f : α → Traced β} (hf : ∀ a, (f a).Thrifty) :
    (Traced.quiet y >>= f).Thrifty := (quiet hy).bind hf

theorem still_bind {y : Eval α} (hy : Still y) {f : α → Traced β} (hf : ∀ a, (f a).Thrifty) :
    (Traced.quiet y >>= f).Thrifty := (still hy).bind hf

/-- An event that is no call of the native for files may be told of first. -/
theorem told_bind {what : Occasion} {f : Unit → Traced β} (hf : ¬what.CallsSource → (f ()).Thrifty) :
    (Traced.tell what >>= f).Thrifty := fun m natives plain sourceless =>
  hf (sourceless ⟨what, m⟩ List.mem_cons_self) m natives plain
    fun e he => sourceless e (List.mem_cons_of_mem _ he)

/-- A symbol that is found has one of the initial natives, if any. -/
theorem symbolAt_bind {index : Nat} {f : Symbol Native → Traced β}
    (hf : ∀ s, s.tag.Initial → (f s).Thrifty) : (Traced.symbolAt index >>= f).Thrifty := by
  intro m natives plain sourceless
  cases found : m.arena.symbols[index]? with
  | some s =>
    have sought : (Traced.symbolAt index).run m = .done s m := symbolAt_of_some found
    have run : ((Traced.symbolAt index >>= f).run m) = (f s).run m := bind_of_done sought _
    rw [run]
    exact hf s (onlyBuiltins_iff.mp natives found) m natives plain (sourceless.right sought)
  | none =>
    have sought : (Traced.symbolAt index).run m = .failed .unknownSymbol m := symbolAt_of_none found
    have run : ((Traced.symbolAt index >>= f).run m) = .failed .unknownSymbol m := bind_of_failed sought _
    rw [run]
    exact .refl natives

/-- A computation is as thrifty as the one inside, if only the machine is adjusted before and after. -/
theorem adjusted {around : Eval α → Eval α} {start : Machine → Machine}
    {change : Machine → Machine → Machine} (hx : x.Thrifty)
    (same : ∀ m, around (fun _ => x.run (start m)) m = (x.run (start m)).adjust (change m))
    (hstart : ∀ m, (start m).arena = m.arena ∧ (start m).duplicate = m.duplicate)
    (hchange : ∀ m m', Spends m m' → Spends m (change m m')) :
    (within around start x).Thrifty := by
  intro m natives plain sourceless
  have ready := Spends.elsewhere natives (hstart m).1 (hstart m).2
  change Spends m (around (fun _ => x.run (start m)) m).machine
  rw [same, Outcome.machine_adjust]
  exact hchange m _ (hx.after ready plain sourceless)

theorem noting (hx : x.Thrifty) : (Traced.noting x).Thrifty := fun m natives plain sourceless =>
  hx.after (.elsewhere natives rfl rfl : Spends m m.note) plain sourceless

theorem withQuoting (hx : x.Thrifty) (quoting : Quoting) : (Traced.withQuoting quoting x).Thrifty :=
  hx.adjusted (fun _ => rfl) (fun _ => ⟨rfl, rfl⟩) fun _ _ h => h.congr rfl rfl h.duplicate

theorem withPending (hx : x.Thrifty) (count : Nat) : (Traced.withPending count x).Thrifty :=
  hx.adjusted (fun _ => rfl) (fun _ => ⟨rfl, rfl⟩) fun _ _ h => h.congr rfl rfl h.duplicate

theorem inFrame (hx : x.Thrifty) : (Traced.inFrame x).Thrifty :=
  hx.adjusted (fun _ => rfl) (fun _ => ⟨rfl, rfl⟩) fun m _ h =>
    (h.rollback m.arena.symbols.size).congr rfl rfl h.duplicate

end Thrifty

end Traced

theorem thrifty_track : TracedTrack Traced.Thrifty := ⟨.bind, .still⟩

end Scriptlet
