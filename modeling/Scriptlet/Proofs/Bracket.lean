import Scriptlet.Proofs.Discipline

/-!
Evaluation as a bracket. An evaluation of a text gives back the stack, the literals, the place of
reading and the flags exactly as it found them, however it ends and whatever natives do on the
way. Nothing puts all of this back at once: an argument list unwinds what it pushed, a call takes
its words and its literals, a native gets a frame of pending literals, a body comes back to where
the machine was reading. So each construct has its own share, and the relations below are these
shares.

* `Balanced`, for expressions and statements: the place of reading moves, and in an argument list
  literals may pile up.
* `Piling`, for argument lists: words pile up as well.
* `Spared`, for callees: the literals of the call are used up.
* `Returned`, for natives: they may have taken pending literals.
* `Bracketed`, for bodies and texts: all is as before.
-/

namespace Scriptlet

open Eval

/-- What an expression or a statement puts back. -/
structure Balanced (m m' : Machine) : Prop where
  stack : m'.arena.stack = m.arena.stack
  literals : m.literals.stack <+: m'.literals.stack
  plain : m.quoting = .plain → m'.literals.stack = m.literals.stack
  pending : m'.literals.pending = m.literals.pending
  quoting : m'.quoting = m.quoting
  duplicate : m'.duplicate = m.duplicate
  depth : m'.depth = m.depth

/-- What an argument list leaves alone. -/
structure Piling (m m' : Machine) : Prop where
  stack : m.arena.stack.toList <+: m'.arena.stack.toList
  literals : m.literals.stack <+: m'.literals.stack
  pending : m'.literals.pending = m.literals.pending
  quoting : m'.quoting = m.quoting
  duplicate : m'.duplicate = m.duplicate
  depth : m'.depth = m.depth

/-- What a callee leaves alone, where the literals above the first `count` are its own. -/
structure Spared (count : Nat) (m m' : Machine) : Prop where
  stack : m'.arena.stack = m.arena.stack
  literals : m'.literals.stack.take count = m.literals.stack.take count
  pending : m'.literals.pending = m.literals.pending
  quoting : m'.quoting = m.quoting
  duplicate : m'.duplicate = m.duplicate
  depth : m'.depth = m.depth

/-- What a native gives back. -/
structure Returned (m m' : Machine) : Prop where
  stack : m'.arena.stack = m.arena.stack
  literals : m'.literals.stack = m.literals.stack
  cursor : m'.cursor = m.cursor
  token : m'.token = m.token
  quoting : m'.quoting = m.quoting
  duplicate : m'.duplicate = m.duplicate
  depth : m'.depth = m.depth

/-- What the evaluation of a body or a text gives back. -/
structure Bracketed (m m' : Machine) : Prop extends Returned m m' where
  pending : m'.literals.pending = m.literals.pending

theorem balanced_track : Track Balanced where
  refl _ := ⟨rfl, List.prefix_rfl, fun _ => rfl, rfl, rfl, rfl, rfl⟩
  trans h k :=
    ⟨k.stack.trans h.stack, h.literals.trans k.literals,
      fun plain => (k.plain (h.quoting.trans plain)).trans (h.plain plain),
      k.pending.trans h.pending, k.quoting.trans h.quoting, k.duplicate.trans h.duplicate,
      k.depth.trans h.depth⟩

theorem piling_track : Track Piling where
  refl _ := ⟨List.prefix_rfl, List.prefix_rfl, rfl, rfl, rfl, rfl⟩
  trans h k :=
    ⟨h.stack.trans k.stack, h.literals.trans k.literals, k.pending.trans h.pending,
      k.quoting.trans h.quoting, k.duplicate.trans h.duplicate, k.depth.trans h.depth⟩

theorem returned_track : Track Returned where
  refl _ := ⟨rfl, rfl, rfl, rfl, rfl, rfl, rfl⟩
  trans h k :=
    ⟨k.stack.trans h.stack, k.literals.trans h.literals, k.cursor.trans h.cursor,
      k.token.trans h.token, k.quoting.trans h.quoting, k.duplicate.trans h.duplicate,
      k.depth.trans h.depth⟩

theorem bracketed_track : Track Bracketed where
  refl m := ⟨returned_track.refl m, rfl⟩
  trans h k :=
    ⟨returned_track.trans h.toReturned k.toReturned, k.pending.trans h.pending⟩

theorem Balanced.piling {m m' : Machine} (h : Balanced m m') : Piling m m' :=
  ⟨h.stack ▸ List.prefix_rfl, h.literals, h.pending, h.quoting, h.duplicate, h.depth⟩

theorem Bracketed.balanced {m m' : Machine} (h : Bracketed m m') : Balanced m m' :=
  ⟨h.stack, h.literals ▸ List.prefix_rfl, fun _ => h.literals, h.pending, h.quoting, h.duplicate,
    h.depth⟩

/-! ### Units -/

theorem balanced_advanceBy (raw : Bool) : Keeps Balanced (advanceBy raw) := by
  intro m
  obtain ⟨cursor, token, literals, hm, -, -, hl⟩ := advanceBy_machine raw m
  rw [hm]
  rcases hl with rfl | ⟨hq, text, rfl⟩
  · exact ⟨rfl, List.prefix_rfl, fun _ => rfl, rfl, rfl, rfl, rfl⟩
  · refine ⟨rfl, List.prefix_append _ _, fun plain => ?_, rfl, rfl, rfl, rfl⟩
    rw [hq] at plain
    cases plain

/-- Changes of the arena that leave the stack alone are none of the bracket's business. -/
theorem bracketed_withArena {m : Machine} {arena : Arena Native}
    (h : arena.stack = m.arena.stack) : Bracketed m (m.withArena arena) :=
  ⟨⟨h, rfl, rfl, rfl, rfl, rfl, rfl⟩, rfl⟩

theorem balanced_withArena {m : Machine} {arena : Arena Native}
    (h : arena.stack = m.arena.stack) : Balanced m (m.withArena arena) :=
  (bracketed_withArena h).balanced

theorem bracketed_addBytes (bytes : Text.Bytes) : Keeps Bracketed (allocate (·.addBytes bytes)) :=
  bracketed_track.allocate fun granted => by
    obtain ⟨-, -, rfl⟩ := Arena.addBytes_eq_some granted
    exact bracketed_withArena rfl

theorem bracketed_addSymbol (name : Slice) (tag : Tag Native) (value : Word) :
    Keeps Bracketed (allocate (·.addSymbol name tag value)) :=
  bracketed_track.allocate fun granted => by
    obtain ⟨-, -, rfl⟩ := Arena.addSymbol_eq_some granted
    exact bracketed_withArena rfl

theorem bracketed_define (name : String) (tag : Tag Native) (value : Word) :
    Keeps Bracketed (define name tag value) :=
  bracketed_track.define (bracketed_addBytes _) fun slice => bracketed_addSymbol slice tag value

theorem bracketed_bindParameters (bindings : List (Slice × Word)) :
    Keeps Bracketed (Call.bindParameters bindings) :=
  bracketed_track.bindParameters (fun name => bracketed_addSymbol name .var) bindings

theorem bracketed_ask (world : World) (q : Question) : Keeps Bracketed (world.ask q) :=
  bracketed_track.ask (fun _ _ => ⟨⟨rfl, rfl, rfl, rfl, rfl, rfl, rfl⟩, rfl⟩) world q

theorem bracketed_write (stream : Stream) (bytes : Text.Bytes) :
    Keeps Bracketed (Eval.write stream bytes) := fun _ =>
  ⟨⟨rfl, rfl, rfl, rfl, rfl, rfl, rfl⟩, rfl⟩

theorem bracketed_noting {α : Type} {x : Eval α} (hx : Keeps Bracketed x) :
    Keeps Bracketed (noting x) := fun m =>
  bracketed_track.trans (⟨⟨rfl, rfl, rfl, rfl, rfl, rfl, rfl⟩, rfl⟩ : Bracketed m m.note) (hx m.note)

theorem bracketed_withTexts (m : Machine) (texts : Texts) : Bracketed m (m.withTexts texts) :=
  ⟨⟨rfl, rfl, rfl, rfl, rfl, rfl, rfl⟩, rfl⟩

theorem bracketed_holding {α : Type} {x : Nat → Eval α} (hx : ∀ slot, Keeps Bracketed (x slot))
    (text : Text.Bytes) (forGood : Bool) : Keeps Bracketed (holding text forGood x) := by
  intro m
  unfold holding
  rw [Outcome.machine_adjust]
  have held := bracketed_track.trans (bracketed_withTexts m (m.texts.retain text.toArray).2)
    (hx (m.texts.retain text.toArray).1 _)
  cases forGood with
  | true => exact held
  | false => exact bracketed_track.trans held (bracketed_withTexts _ _)

/-- The count of evaluations under way goes up and down again. -/
theorem bracketed_entering {α : Type} {x : Eval α} (hx : Keeps Bracketed x) :
    Keeps Bracketed (entering x) := by
  intro m
  unfold entering
  rw [Outcome.machine_adjust]
  have inside := hx { m with depth := m.depth + 1 }
  refine ⟨⟨inside.stack, inside.literals, inside.cursor, inside.token, inside.quoting,
    inside.duplicate, ?_⟩, inside.pending⟩
  change (x { m with depth := m.depth + 1 }).machine.depth - 1 = m.depth
  rw [inside.depth]
  rfl

/-! ### Texts and natives -/

section

variable {r : Reentry} (hbody : ∀ body topLevel duplicate, Keeps Bracketed (r.body body topLevel duplicate))

include hbody

theorem bracketed_text (text : String) (duplicate topLevel : Bool) :
    Keeps Bracketed (Eval.text r text duplicate topLevel) := by
  have inside : ∀ slot, Keeps Bracketed (entering (do
      let _ ← r.body ⟨.text slot, 0, (Text.encode text).length⟩ topLevel duplicate)) := fun slot =>
    bracketed_entering (bracketed_track.bind (hbody _ topLevel duplicate) fun _ =>
      bracketed_track.still (still_pure _))
  exact bracketed_noting (keeps_reporting bracketed_track (bracketed_write .err)
    (bracketed_holding inside _ _))

theorem returned_acting : ActingDiscipline Returned r where
  toTrack := returned_track
  write stream bytes m := (bracketed_write stream bytes m).toReturned
  ask question m := (bracketed_ask r.world question m).toReturned
  text text duplicate topLevel m := (bracketed_text hbody text duplicate topLevel m).toReturned
  takeLiteral m := by
    refine ⟨rfl, ?_, rfl, rfl, rfl, rfl, rfl⟩
    change m.literals.takeOldest.2.stack = m.literals.stack
    unfold Literals.takeOldest
    split <;> rfl
  look m := (bracketed_noting (bracketed_track.still (still_read _)) m).toReturned
  define name tag value m := (bracketed_define name tag value m).toReturned

theorem bracketed_nestedBody (body : Slice) : Keeps Bracketed (Statement.nestedBody r body) :=
  bracketed_noting (bracketed_track.bind (hbody body false false) fun _ =>
    bracketed_track.still (still_pure _))

theorem bracketed_runFunction (number : Word) (args : List Word) :
    Keeps Bracketed (Call.runFunction r number args) := by
  refine bracketed_noting (bracketed_track.bind_still (still_read _) fun routine? => ?_)
  cases routine? with
  | none => exact bracketed_track.still (still_fail _)
  | some routine =>
    intro m
    change Bracketed m (Call.inFrame _ m).machine
    unfold Call.inFrame restoring
    rw [Outcome.machine_adjust]
    have framed : Keeps Bracketed (do
        Call.bindParameters (routine.params.zip args)
        update fun m => { m with result := 0 }
        let _ ← r.body routine.body false false
        read (·.result)) := by
      refine bracketed_track.bind (bracketed_bindParameters _) fun _ => ?_
      refine bracketed_track.bind (fun m => ⟨⟨rfl, rfl, rfl, rfl, rfl, rfl, rfl⟩, rfl⟩) fun _ => ?_
      exact bracketed_track.bind (hbody _ false false) fun _ =>
        bracketed_track.still (still_read _)
    obtain ⟨⟨stack, literals, cursor, token, quoting, duplicate, depth⟩, pending⟩ := framed m
    exact ⟨⟨stack, literals, cursor, token, quoting, duplicate, depth⟩, pending⟩

/-! ### Handing over -/

omit hbody in
/-- Popping takes words off the top, one for each, and touches nothing else. -/
theorem popOnto_eq (words : List Word) (count : Nat) (m : Machine) :
    ∃ args m', popOnto words count m = .done args m' ∧
      m'.arena.stack.toList = m.arena.stack.toList.take (m.arena.stack.size - count) ∧
      m'.literals = m.literals ∧ m'.quoting = m.quoting ∧ m'.duplicate = m.duplicate ∧
      m'.depth = m.depth := by
  induction count generalizing words m with
  | zero =>
    refine ⟨words, m, rfl, ?_, rfl, rfl, rfl, rfl⟩
    rw [Nat.sub_zero, ← Array.length_toList, List.take_length]
  | succ count ih =>
    obtain ⟨args, m', hm, stack, literals, quoting, duplicate, depth⟩ :=
      ih (m.arena.pop.1 :: words) (m.withArena m.arena.pop.2)
    refine ⟨args, m', hm, ?_, literals, quoting, duplicate, depth⟩
    rw [stack]
    change m.arena.stack.pop.toList.take (m.arena.stack.pop.size - count) = _
    rw [Array.toList_pop, Array.size_pop, List.dropLast_eq_take, List.take_take,
      Array.length_toList]
    congr 1
    omega

/-- A callee takes none of the literals but its own. -/
theorem spared_runCallee (callee : Symbol Native) (args : List Word) (count : Nat) :
    Keeps (Spared count) (Call.runCallee r callee args count) := by
  intro m
  unfold Call.runCallee
  split
  · exact ⟨rfl, rfl, rfl, rfl, rfl, rfl⟩
  · cases callee.tag with
    | native native arity =>
      change Spared count m (withPending count ((native args).perform r) m).machine
      unfold withPending
      rw [Outcome.machine_adjust]
      have back := (returned_acting hbody).perform (native args)
        { m with literals := (m.literals.openFrame count).2 }
      generalize ((native args).perform r _).machine = after at back ⊢
      -- the literals of the call were taken off the stack before the native started
      have below : after.literals.stack = m.literals.stack.take count := back.literals
      refine ⟨back.stack, ?_, rfl, back.quoting, back.duplicate, back.depth⟩
      change after.literals.stack.take count = m.literals.stack.take count
      rw [below, List.take_take, Nat.min_self]
    | func arity =>
      have back := bracketed_runFunction hbody callee.value args m
      exact ⟨back.stack, congrArg _ back.literals, back.pending, back.quoting, back.duplicate,
        back.depth⟩
    | var => exact ⟨rfl, rfl, rfl, rfl, rfl, rfl⟩
    | operator op => exact ⟨rfl, rfl, rfl, rfl, rfl, rfl⟩
    | keyword word => exact ⟨rfl, rfl, rfl, rfl, rfl, rfl⟩

/-- Once the words of a call are handed over, the machine is balanced with respect to where the
argument list began. -/
theorem balanced_handOver {m m₁ : Machine} (hm : Piling m m₁) {count : Nat}
    (hcount : m₁.arena.stack.size = m.arena.stack.size + count) (callee : Symbol Native) :
    Balanced m (Call.handOver r callee count m.literals.size m₁).machine := by
  obtain ⟨args, m₂, hpop, stack, literals, quoting, duplicate, depth⟩ := popOnto_eq [] count m₁
  have popped : m₂.arena.stack = m.arena.stack := by
    rw [← Array.toList_inj, stack, hcount, Nat.add_sub_cancel, ← Array.length_toList]
    exact (List.prefix_iff_eq_take.mp hm.stack).symm
  have below : m₂.literals.stack.take m.literals.size = m.literals.stack := by
    rw [literals]
    exact (List.prefix_iff_eq_take.mp hm.literals).symm
  have handed : Call.handOver r callee count m.literals.size m₁ =
      ((Call.runCallee r callee args m.literals.size).truncatingLiterals m.literals.size) m₂ := by
    unfold Call.handOver truncatingLiterals popWords
    rw [bind_apply, hpop]
    rfl
  rw [handed]
  unfold truncatingLiterals
  rw [Outcome.machine_adjust]
  have spared := spared_runCallee hbody callee args m.literals.size m₂
  generalize (Call.runCallee r callee args m.literals.size m₂).machine = m₃ at spared ⊢
  have cut : m₃.literals.stack.take m.literals.size = m.literals.stack := spared.literals.trans below
  refine ⟨spared.stack.trans popped, ?_, fun _ => cut, ?_, ?_, ?_, ?_⟩
  · change m.literals.stack <+: m₃.literals.stack.take m.literals.size
    exact cut.symm ▸ List.prefix_rfl
  · exact spared.pending.trans ((congrArg _ literals).trans hm.pending)
  · exact spared.quoting.trans (quoting.trans hm.quoting)
  · exact spared.duplicate.trans (duplicate.trans hm.duplicate)
  · exact spared.depth.trans (depth.trans hm.depth)

end

/-! ### Argument lists -/

/-- When the computation is done, there are as many words more on the stack as `words` tells,
counting `before` that were there. -/
def Eval.Stacks {α : Type} (before : Nat) (words : α → Nat) (x : Eval α) : Prop :=
  ∀ m a m', x m = .done a m' → m'.arena.stack.size + before = m.arena.stack.size + words a

theorem stacks_bind {α β : Type} {x : Eval α} {f : α → Eval β} {before : Nat} {words : α → Nat}
    {total : β → Nat} (hx : Stacks before words x) (hf : ∀ a, Stacks (words a) total (f a)) :
    Stacks before total (x >>= f) := by
  intro m b m' h
  obtain ⟨a, m₁, hm₁, hm'⟩ := bind_eq_done h
  have first := hx m a m₁ hm₁
  have second := hf a m₁ b m' hm'
  omega

theorem stacks_loop {σ α : Type} {turn : σ → Eval (Turn σ α)} (sofar : σ → Nat) {words : α → Nat}
    (hturn : ∀ s, Stacks (sofar s)
      (fun | .again s' => sofar s' | .finish a => words a) (turn s)) (passes : Nat) (s : σ) :
    Stacks (sofar s) words (Eval.loop turn passes s) := by
  intro m a m' h
  obtain ⟨s₁, m₁, counted, last⟩ := loop_eq_done
    (I := fun s₁ m₁ => m₁.arena.stack.size + sofar s = m.arena.stack.size + sofar s₁)
    (fun counted again => by have := hturn _ _ _ _ again; dsimp only at this; omega) rfl h
  have := hturn s₁ m₁ _ m' last
  dsimp only at this
  omega

theorem stacks_still {α : Type} {x : Eval α} (hx : Still x) (before : Nat) :
    Stacks before (fun _ => before) x := by
  intro m a m' h
  have same : m' = m := by
    have := hx m
    rw [h] at this
    exact this
  rw [same]

theorem stacks_balanced {α : Type} {x : Eval α} (hx : Keeps Balanced x) (before : Nat) :
    Stacks before (fun _ => before) x := by
  intro m a m' h
  have kept := hx m
  rw [h] at kept
  exact congrArg (·.size + before) kept.stack

theorem piling_push (word : Word) : Keeps Piling (push word) := by
  refine piling_track.push fun m => ⟨?_, List.prefix_rfl, rfl, rfl, rfl, rfl⟩
  change m.arena.stack.toList <+: (m.arena.stack.push word).toList
  rw [Array.toList_push]
  exact List.prefix_append _ _

theorem stacks_push (word : Word) (before : Nat) : Stacks before (fun _ => before + 1) (push word) := by
  intro m a m' h
  obtain ⟨arena, granted, rfl⟩ := allocate_eq_done h
  obtain ⟨after, pushed, hafter⟩ := Option.map_eq_some_iff.mp granted
  cases hafter
  obtain ⟨-, rfl⟩ := Arena.push_eq_some pushed
  change (m.arena.stack.push word).size + before = m.arena.stack.size + (before + 1)
  rw [Array.size_push]
  omega

section

variable {r : Reentry} (hexpr : Keeps Balanced r.expression)

include hexpr

omit hexpr in
theorem piling_advance : Keeps Piling advance := fun m => (balanced_advanceBy false m).piling

theorem piling_arguments : ArgumentDiscipline Piling r :=
  ⟨piling_track, piling_advance, fun m => (hexpr m).piling, piling_push⟩

omit hexpr in
theorem stacks_advance (before : Nat) : Stacks before (fun _ => before) advance :=
  stacks_balanced (balanced_advanceBy false) before

theorem stacks_argument (before : Nat) : Stacks before (fun _ => before + 1) (Call.argument r) :=
  stacks_bind (stacks_balanced hexpr before) fun value => stacks_push value before

omit hexpr in
theorem stacks_read {α : Type} (f : Machine → α) (before : Nat) :
    Stacks before (fun _ => before) (read f) := stacks_still (still_read f) before

omit hexpr in
theorem stacks_pure {α : Type} {words : α → Nat} {before : Nat} {a : α} (ha : words a = before) :
    Stacks before words (pure a) := by
  intro m b m' h
  cases h
  rw [ha]

omit hexpr in
theorem stacks_fail {α : Type} {words : α → Nat} (before : Nat) (e : Error) :
    Stacks before words (fail e) := by
  intro m a m' h
  cases h

theorem stacks_argumentsInParens : Stacks 0 id (Call.argumentsInParens r) := by
  refine stacks_bind (stacks_advance 0) fun _ => stacks_bind (stacks_read _ 0) fun t => ?_
  split
  · exact stacks_pure rfl
  · refine stacks_loop id (fun count => ?_) _ 0
    refine stacks_bind (stacks_argument hexpr count) fun _ => ?_
    refine stacks_bind (stacks_read _ _) fun t => ?_
    split
    · exact stacks_bind (stacks_advance _) fun _ => stacks_pure rfl
    · exact stacks_pure rfl
    · exact stacks_fail _ _

theorem stacks_argumentsAfterCallee : Stacks 0 id (Call.argumentsAfterCallee r) := by
  refine stacks_bind (stacks_advance 0) fun _ => stacks_bind (stacks_read _ 0) fun t => ?_
  split
  · exact stacks_argumentsInParens hexpr
  · exact stacks_fail _ _

theorem stacks_bareArguments : Stacks 0 id (Call.bareArguments r) := by
  refine stacks_bind (stacks_still still_startsExpression 0) fun starts => ?_
  split
  · refine stacks_loop id (fun count => ?_) _ 0
    refine stacks_bind (stacks_argument hexpr count) fun _ => ?_
    refine stacks_bind (stacks_read _ _) fun t => ?_
    split
    · exact stacks_bind (stacks_advance _) fun _ => stacks_pure rfl
    · exact stacks_pure rfl
  · exact stacks_pure rfl

theorem stacks_argumentsAfterCommand : Stacks 0 Prod.fst (Call.argumentsAfterCommand r) := by
  refine stacks_bind (stacks_advance 0) fun _ => stacks_bind (stacks_read _ 0) fun t => ?_
  split
  · exact stacks_bind (stacks_argumentsInParens hexpr) fun count => stacks_pure rfl
  · exact stacks_bind (stacks_bareArguments hexpr) fun count => stacks_pure rfl

end

/-! ### Calls -/

/-- Words and literals that piled up can be cut off again. -/
theorem Piling.unwound {m m' : Machine} (h : Piling m m') :
    Balanced m { m'.withArena (m'.arena.unwind m.arena.depth) with
      literals := m'.literals.truncate m.literals.size } := by
  have stack : m'.arena.stack.take m.arena.stack.size = m.arena.stack := by
    rw [← Array.toList_inj, Array.take_eq_extract, Array.toList_extract, List.extract_eq_take_drop,
      ← Array.length_toList]
    exact (List.prefix_iff_eq_take.mp h.stack).symm
  have literals : m'.literals.stack.take m.literals.stack.length = m.literals.stack :=
    (List.prefix_iff_eq_take.mp h.literals).symm
  refine ⟨stack, ?_, fun _ => literals, h.pending, h.quoting, h.duplicate, h.depth⟩
  change m.literals.stack <+: m'.literals.stack.take m.literals.stack.length
  exact literals.symm ▸ List.prefix_rfl

/-- An argument list is followed by the call or is unwound. -/
theorem balanced_unwinding {α β : Type} {x : Eval α} {f : α → Eval β} {m : Machine}
    (hx : Piling m (x m).machine)
    (hf : ∀ a m', x m = .done a m' → Piling m m' → Balanced m (f a m').machine) :
    Balanced m ((unwinding x >>= f) m).machine := by
  change Balanced m ((unwinding x m).andThen f).machine
  unfold unwinding
  cases hm : x m with
  | done a m' =>
    rw [hm] at hx
    exact hf a m' hm hx
  | failed e m' =>
    rw [hm] at hx
    exact hx.unwound
  | stopped why m' =>
    rw [hm] at hx
    exact hx.unwound

theorem piling_withQuoting {α : Type} (quoting : Quoting) {x : Eval α} (hx : Keeps Piling x) :
    Keeps Piling (withQuoting quoting x) := by
  intro m
  unfold withQuoting restoring
  rw [Outcome.machine_adjust]
  obtain ⟨stack, literals, pending, -, duplicate, depth⟩ := hx { m with quoting }
  exact ⟨stack, literals, pending, rfl, duplicate, depth⟩

theorem stacks_withQuoting {α : Type} (quoting : Quoting) {x : Eval α} {before : Nat}
    {words : α → Nat} (hx : Stacks before words x) : Stacks before words (withQuoting quoting x) := by
  intro m a m' h
  obtain ⟨m₁, hm, rfl⟩ := Outcome.adjust_eq_done h
  exact hx { m with quoting } a m₁ hm

/-- In parentheses quotations are not literals, so none are left behind. -/
theorem balanced_withQuoting_plain {α : Type} {x : Eval α} (hx : Keeps Balanced x) :
    Keeps Balanced (withQuoting .plain x) := by
  intro m
  unfold withQuoting restoring
  rw [Outcome.machine_adjust]
  have inside := hx { m with quoting := .plain }
  exact ⟨inside.stack, inside.literals, fun _ => inside.plain rfl, inside.pending, rfl,
    inside.duplicate, inside.depth⟩

section

variable {r : Reentry} (hexpr : Keeps Balanced r.expression)
  (hbody : ∀ body topLevel duplicate, Keeps Bracketed (r.body body topLevel duplicate))

include hexpr hbody

theorem balanced_inExpression (callee : Symbol Native) :
    Keeps Balanced (Call.inExpression r callee) := by
  intro m
  rw [Call.inExpression_apply]
  refine balanced_unwinding
    (piling_withQuoting .argument (piling_arguments hexpr).argumentsAfterCallee m)
    fun count m₁ listed hm₁ => ?_
  have counted := stacks_withQuoting .argument (stacks_argumentsAfterCallee hexpr) _ _ _ listed
  refine related_bind (balanced_handOver hbody hm₁ counted callee) fun value m₂ _ hm₂ => ?_
  exact related_bind_still (balanced_track.trans hm₂ (balanced_advanceBy false m₂))
    fun _ => still_pure _

theorem balanced_asStatement (callee : Symbol Native) :
    Keeps Balanced (Call.asStatement r callee) := by
  intro m
  rw [Call.asStatement_apply]
  refine balanced_unwinding
    (piling_withQuoting .argument (piling_arguments hexpr).argumentsAfterCommand m)
    fun listed m₁ hlisted hm₁ => ?_
  have counted := stacks_withQuoting .argument (stacks_argumentsAfterCommand hexpr) _ _ _ hlisted
  refine related_bind (balanced_handOver hbody hm₁ counted callee) fun _ m₂ _ hm₂ => ?_
  cases listed.2 with
  | true => exact balanced_track.trans hm₂ (balanced_advanceBy false m₂)
  | false => exact hm₂

/-! ### Bodies -/

omit hbody in
theorem balanced_definitions : DefiningDiscipline Balanced r where
  toTrack := balanced_track
  advanceBy := balanced_advanceBy
  expression := hexpr
  addBytes granted := by
    obtain ⟨-, -, rfl⟩ := Arena.addBytes_eq_some granted
    exact balanced_withArena rfl
  addRoutine granted := by
    obtain ⟨-, -, rfl⟩ := Arena.addRoutine_eq_some granted
    exact balanced_withArena rfl
  addSymbol granted := by
    obtain ⟨-, -, rfl⟩ := Arena.addSymbol_eq_some granted
    exact balanced_withArena rfl
  setValue _ _ hm _ := balanced_track.trans hm (balanced_withArena rfl)

theorem balanced_discipline : Discipline Balanced r where
  toTrack := balanced_track
  advanceBy := balanced_advanceBy
  rewind h := ⟨h.stack, h.literals, h.plain, h.pending, h.quoting, h.duplicate, h.depth⟩
  result _ _ := ⟨rfl, List.prefix_rfl, fun _ => rfl, rfl, rfl, rfl, rfl⟩
  plain := balanced_withQuoting_plain
  expression := hexpr
  nestedBody body m := (bracketed_nestedBody hbody body m).balanced
  inExpression _ := balanced_inExpression hexpr hbody _ _
  asStatement _ := balanced_asStatement hexpr hbody _ _
  reassign := (balanced_definitions hexpr).reassign
  declareVariable := (balanced_definitions hexpr).declareVariable
  declareFunction := (balanced_definitions hexpr).declareFunction

/-- A body comes back to where the machine was reading. Its statements are read outside argument
lists, so they leave no literals. -/
theorem bracketed_wholeBody (body : Slice) (topLevel duplicate : Bool) :
    Keeps Bracketed (r.wholeBody body topLevel duplicate) := by
  intro m
  have h := balanced_discipline hexpr hbody
  have inside := h.bind h.advance (fun _ => h.statements)
    { m with cursor := m.cursorAt body, quoting := .plain, duplicate }
  have read : Bracketed m (inBody body duplicate (locating do advance; Statement.statements r)
      m).machine := by
    unfold inBody restoring locating
    rw [Outcome.machine_adjust, Outcome.machine_adjustError]
    exact ⟨⟨inside.stack, inside.plain rfl, rfl, rfl, rfl, rfl, inside.depth⟩, inside.pending⟩
  unfold Reentry.wholeBody inScope restoring
  rw [Outcome.machine_adjust]
  cases topLevel with
  | true => exact read
  | false => exact bracketed_track.trans read (bracketed_withArena rfl)

end

/-- On every budget, expressions are balanced and bodies are bracketed. -/
theorem bracketed_ofFuel (world : World) (fuel : Nat) :
    Keeps Balanced (evalExpression world fuel) ∧
      ∀ body topLevel duplicate, Keeps Bracketed (evalBody world fuel body topLevel duplicate) :=
  keeps_ofFuel balanced_track bracketed_track world
    (fun hexpr hbody => (balanced_discipline hexpr hbody).wholeExpression) bracketed_wholeBody fuel

/-- The evaluation of a text gives back the stack, the literals, those pending, the cursor, the
token, the quoting, the copying flag and the count of evaluations as it found them. It makes no
difference on which machine it starts, in the middle of what it is started, which natives the
machine has, or whether it is done, fails or is stopped. -/
theorem evalText_bracketed (world : World) (fuel : Nat) (text : String) (duplicate topLevel : Bool)
    (m : Machine) : Bracketed m (evalText world fuel text duplicate topLevel m).machine :=
  bracketed_text (r := .ofFuel world fuel) (bracketed_ofFuel world fuel).2 text duplicate topLevel m

end Scriptlet
