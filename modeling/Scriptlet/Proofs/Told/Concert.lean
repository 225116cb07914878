import Scriptlet.Proofs.Moved.Ahead
import Scriptlet.Proofs.Told.Telling

/-!
Evaluation is concerted. Each construct treats the errors of what is nested in it alike: it passes them
on. So where the nested evaluations are uniform in the telling, the construct is, and the one place where
something is done to an error is the end of a body. The constructs are gone through once; what they
consist of besides nested evaluations does not depend on the telling and has only to keep the natives of
the table relaying.
-/

namespace Scriptlet

open Eval

variable {α β σ : Type}

/-- What becomes of a machine for all tellings: the same, but for errors, and these are of one flight. -/
inductive Concerted (m : Machine) (o : Telling → Outcome α) : Prop where
  | done (a : α) (m' : Machine) (minded : Minded m m') (same : ∀ t, o t = .done a m')
  | failed (flight : Flight) (m' : Machine) (minded : Minded m m')
    (same : ∀ t, o t = .failed (flight.told t) m')
  | stopped (why : Stop) (m' : Machine) (minded : Minded m m') (same : ∀ t, o t = .stopped why m')

theorem Concerted.congr {m : Machine} {o o' : Telling → Outcome α} (same : ∀ t, o t = o' t)
    (h : Concerted m o') : Concerted m o := by
  rwa [funext same]

/-- What is concerted from a later machine is so from an earlier one. -/
theorem Concerted.after {m m' : Machine} {o : Telling → Outcome α} (h : Concerted m' o)
    (minded : Minded m m') : Concerted m o := by
  have later : ∀ {m''}, Minded m' m'' → Minded m m'' :=
    fun minded' => ⟨minded'.relays, minded'.depth.trans minded.depth⟩
  cases h with
  | done a m'' minded' same => exact .done a m'' (later minded') same
  | failed flight m'' minded' same => exact .failed flight m'' (later minded') same
  | stopped why m'' minded' same => exact .stopped why m'' (later minded') same

theorem Concerted.adjust {m start : Machine} {o : Telling → Outcome α} (h : Concerted start o)
    {change : Machine → Machine} (hchange : ∀ m', Minded start m' → Minded m (change m')) :
    Concerted m fun t => (o t).adjust change := by
  cases h with
  | done a m' minded same =>
    exact .done a (change m') (hchange m' minded) fun t => congrArg (·.adjust change) (same t)
  | failed flight m' minded same =>
    exact .failed flight (change m') (hchange m' minded) fun t => congrArg (·.adjust change) (same t)
  | stopped why m' minded same =>
    exact .stopped why (change m') (hchange m' minded) fun t => congrArg (·.adjust change) (same t)

/-- Concerted on every machine with relaying natives on which an evaluation is under way. -/
def Uniform (x : Telling → Eval α) : Prop :=
  ∀ m, m.Relays → 0 < m.depth → Concerted m fun t => x t m

/-! ### Combinators -/

/-- What does not depend on the telling raises its errors itself. -/
theorem uniform_const {x : Eval α} (hx : Keeps Minding x) : Uniform fun _ => x := by
  intro m relays _
  have minded := hx m relays
  cases hm : x m with
  | done a m' =>
    rw [hm] at minded
    exact .done a m' minded fun _ => hm
  | failed e m' =>
    rw [hm] at minded
    exact .failed ⟨e, []⟩ m' minded fun _ => hm
  | stopped why m' =>
    rw [hm] at minded
    exact .stopped why m' minded fun _ => hm

theorem uniform_still {x : Eval α} (hx : Still x) : Uniform fun _ => x :=
  uniform_const (minding_track.still hx)

namespace Uniform

variable {x : Telling → Eval α}

theorem bind {f : Telling → α → Eval β} (hx : Uniform x) (hf : ∀ a, Uniform fun t => f t a) :
    Uniform fun t => x t >>= f t := by
  intro m relays under
  cases hx m relays under with
  | done a m' minded same =>
    exact Concerted.congr (fun t => bind_of_done (same t) (f t))
      ((hf a m' minded.relays (minded.depth ▸ under)).after minded)
  | failed flight m' minded same =>
    exact .failed flight m' minded fun t => bind_of_failed (same t) (f t)
  | stopped why m' minded same =>
    exact .stopped why m' minded fun t => congrArg (·.andThen (f t)) (same t)

theorem const_bind {x : Eval α} (hx : Keeps Minding x) {f : Telling → α → Eval β}
    (hf : ∀ a, Uniform fun t => f t a) : Uniform fun t => x >>= f t := (uniform_const hx).bind hf

theorem still_bind {x : Eval α} (hx : Still x) {f : Telling → α → Eval β}
    (hf : ∀ a, Uniform fun t => f t a) : Uniform fun t => x >>= f t := (uniform_still hx).bind hf

theorem bind_const (hx : Uniform x) {f : α → Eval β} (hf : ∀ a, Keeps Minding (f a)) :
    Uniform fun t => x t >>= f := hx.bind fun a => uniform_const (hf a)

theorem bind_still (hx : Uniform x) {f : α → Eval β} (hf : ∀ a, Still (f a)) :
    Uniform fun t => x t >>= f := hx.bind fun a => uniform_still (hf a)

/-- A symbol that is found relays, if it is a native. -/
theorem symbolAt_bind {index : Nat} {f : Telling → Symbol Native → Eval β}
    (hf : ∀ s, s.tag.Relays → Uniform fun t => f t s) : Uniform fun t => symbolAt index >>= f t := by
  intro m relays under
  cases found : m.arena.symbols[index]? with
  | some s =>
    have after : ∀ t, (symbolAt index >>= f t) m = f t s m := fun t =>
      bind_of_done (symbolAt_of_some found) (f t)
    simp only [after]
    exact hf s (relays found) m relays under
  | none =>
    exact .failed ⟨.unknownSymbol, []⟩ m ⟨relays, rfl⟩ fun t =>
      bind_of_failed (symbolAt_of_none found) (f t)

theorem loop {turn : Telling → σ → Eval (Turn σ α)} (hturn : ∀ s, Uniform fun t => turn t s)
    (passes : Nat) (s : σ) : Uniform fun t => Eval.loop (turn t) passes s := by
  induction passes generalizing s with
  | zero => exact fun m relays _ => .stopped .outOfFuel m ⟨relays, rfl⟩ fun _ => rfl
  | succ passes ih =>
    intro m relays under
    cases hturn s m relays under with
    | done next m' minded same =>
      cases next with
      | again s' =>
        refine Concerted.congr (fun t => ?_)
          ((ih s' m' minded.relays (minded.depth ▸ under)).after minded)
        simp only [Eval.loop, same t]
      | finish a => exact .done a m' minded fun t => by simp only [Eval.loop, same t]
    | failed flight m' minded same =>
      exact .failed flight m' minded fun t => by simp only [Eval.loop, same t]
    | stopped why m' minded same =>
      exact .stopped why m' minded fun t => by simp only [Eval.loop, same t]

/-- On another machine to start with, and with the machine that is left adjusted. -/
theorem adjust (hx : Uniform x) (start : Machine → Machine) {change : Machine → Machine → Machine}
    (hstart : ∀ m, m.Relays → 0 < m.depth → (start m).Relays ∧ 0 < (start m).depth)
    (hchange : ∀ m m', Minded (start m) m' → Minded m (change m m')) :
    Uniform fun t m => (x t (start m)).adjust (change m) := fun m relays under =>
  (hx (start m) (hstart m relays under).1 (hstart m relays under).2).adjust (hchange m)

/-- Where neither the table nor the count is touched, before or behind. -/
theorem adjust_elsewhere (hx : Uniform x) (start : Machine → Machine)
    {change : Machine → Machine → Machine}
    (hstart : ∀ m, (start m).arena.symbols = m.arena.symbols ∧ (start m).depth = m.depth)
    (hchange : ∀ m m', (change m m').arena.symbols = m'.arena.symbols ∧
      (change m m').depth = m'.depth) :
    Uniform fun t m => (x t (start m)).adjust (change m) := by
  refine hx.adjust start (fun m relays under => ?_) fun m m' minded => ?_
  · exact ⟨relays.of_symbols (hstart m).1, (hstart m).2 ▸ under⟩
  · exact ⟨minded.relays.of_symbols (hchange m m').1,
      (hchange m m').2.trans (minded.depth.trans (hstart m).2)⟩

theorem noting (hx : Uniform x) : Uniform fun t => Eval.noting (x t) :=
  const_bind minding_note fun _ => hx

theorem withQuoting (hx : Uniform x) (quoting : Quoting) :
    Uniform fun t => Eval.withQuoting quoting (x t) :=
  hx.adjust_elsewhere (fun m => { m with quoting }) (fun _ => ⟨rfl, rfl⟩) fun _ _ => ⟨rfl, rfl⟩

theorem truncatingLiterals (hx : Uniform x) (count : Nat) :
    Uniform fun t => Eval.truncatingLiterals count (x t) :=
  hx.adjust_elsewhere id (fun _ => ⟨rfl, rfl⟩) fun _ _ => ⟨rfl, rfl⟩

theorem withPending (hx : Uniform x) (count : Nat) :
    Uniform fun t => Eval.withPending count (x t) :=
  hx.adjust_elsewhere (fun m => { m with literals := (m.literals.openFrame count).2 })
    (fun _ => ⟨rfl, rfl⟩) fun _ _ => ⟨rfl, rfl⟩

theorem inFrame (hx : Uniform x) : Uniform fun t => Call.inFrame (x t) :=
  hx.adjust id (fun _ relays under => ⟨relays, under⟩) fun m _ minded =>
    ⟨(minded.rollback m.arena.symbols.size).relays.of_symbols rfl, minded.depth⟩

theorem inScope (hx : Uniform x) (topLevel : Bool) : Uniform fun t => Eval.inScope topLevel (x t) :=
  hx.adjust id (fun _ relays under => ⟨relays, under⟩) fun m _ minded => by
    cases topLevel with
    | true => exact minded
    | false => exact minded.rollback m.arena.symbols.size

theorem entering (hx : Uniform x) : Uniform fun t => Eval.entering (x t) :=
  hx.adjust (fun m => { m with depth := m.depth + 1 })
    (fun _ relays _ => ⟨relays, Nat.succ_pos _⟩) fun _ _ minded => by
      refine ⟨minded.relays.of_symbols rfl, ?_⟩
      dsimp only
      rw [minded.depth, Nat.add_sub_cancel]

theorem holding {x : Nat → Telling → Eval α} (hx : ∀ slot, Uniform (x slot)) (text : Text.Bytes)
    (forGood : Bool) : Uniform fun t => Eval.holding text forGood fun slot => x slot t := by
  intro m relays under
  have held := hx (m.texts.retain text.toArray).1 (m.withTexts (m.texts.retain text.toArray).2)
    (relays.of_symbols rfl) under
  refine held.adjust fun m' minded => ?_
  cases forGood <;> exact ⟨minded.relays.of_symbols rfl, minded.depth⟩

theorem unwinding (hx : Uniform x) : Uniform fun t => Eval.unwinding (x t) := by
  intro m relays under
  have cut : ∀ m', Minded m m' → Minded m { m'.withArena (m'.arena.unwind m.arena.depth) with
      literals := m'.literals.truncate m.literals.size } :=
    fun m' minded => ⟨minded.relays.of_symbols rfl, minded.depth⟩
  cases hx m relays under with
  | done a m' minded same =>
    refine .done a m' minded fun t => ?_
    simp only [Eval.unwinding, same t, Outcome.adjustUndone]
  | failed flight m' minded same =>
    refine .failed flight _ (cut m' minded) fun t => ?_
    simp only [Eval.unwinding, same t, Outcome.adjustUndone]
  | stopped why m' minded same =>
    refine .stopped why _ (cut m' minded) fun t => ?_
    simp only [Eval.unwinding, same t, Outcome.adjustUndone]

/-- While an evaluation is under way, nothing is reported. -/
theorem reporting (hx : Uniform x) : Uniform fun t => Eval.reporting (x t) := by
  intro m relays under
  cases hx m relays under with
  | done a m' minded same =>
    refine .done a m' minded fun t => ?_
    simp only [Eval.reporting, same t]
  | failed flight m' minded same =>
    refine .failed flight m' minded fun t => ?_
    have still_under : m'.depth ≠ 0 := by
      rw [minded.depth]
      exact under.ne'
    simp only [Eval.reporting, same t, if_neg still_under]
  | stopped why m' minded same =>
    refine .stopped why m' minded fun t => ?_
    simp only [Eval.reporting, same t]

/-- The flight of an error that leaves a body goes on. -/
theorem told (hx : Uniform x) (reads : ∀ m, (x .located m).machine.cursor.source = m.cursor.source)
    {body : Slice} {m : Machine} (relays : m.Relays) (under : 0 < m.depth)
    (reading : m.cursor.source = body.source) :
    Concerted m fun t => (x t m).adjustError (t.tell body) := by
  cases hx m relays under with
  | done a m' minded same =>
    refine .done a m' minded fun t => ?_
    simp only [same t, Outcome.adjustError]
  | failed flight m' minded same =>
    have left := (reads m).trans reading
    rw [same .located] at left
    refine .failed (flight.leaving ⟨body, m', left⟩) m' minded fun t => ?_
    simp only [same t, Outcome.adjustError, Flight.told_leaving]
  | stopped why m' minded same =>
    refine .stopped why m' minded fun t => ?_
    simp only [same t, Outcome.adjustError]

theorem inBody (hx : Uniform x) (reads : ∀ m, (x .located m).machine.cursor.source = m.cursor.source)
    (body : Slice) (duplicate : Bool) :
    Uniform fun t => Eval.inBody body duplicate fun m => (x t m).adjustError (t.tell body) :=
  fun m relays under =>
    (hx.told reads (m := { m with cursor := m.cursorAt body, quoting := .plain, duplicate })
      (relays.of_symbols rfl) under rfl).adjust fun _ minded =>
        ⟨minded.relays.of_symbols rfl, minded.depth⟩

end Uniform

/-! ### Constructs -/

theorem uniform_advance : Uniform fun _ => advance := uniform_const (minding_advanceBy false)

/-- The nested evaluations are uniform, the world and the number of turns are the same for all tellings,
and with the usual telling all is as usual. -/
structure UniformReentry (R : Telling → Reentry) (world : World) (passes : Nat) : Prop where
  located : R .located = .ofFuel world passes
  world : ∀ t, (R t).world = world
  passes : ∀ t, (R t).passes = passes
  expression : Uniform fun t => (R t).expression
  body : ∀ b topLevel duplicate, Uniform fun t => (R t).body b topLevel duplicate

namespace UniformReentry

variable {R : Telling → Reentry} {world : World} {passes : Nat} (h : UniformReentry R world passes)

include h

theorem loop {turn : Telling → σ → Eval (Turn σ α)} (hturn : ∀ s, Uniform fun t => turn t s) (s : σ) :
    Uniform fun t => (R t).loop (turn t) s := by
  simp only [Reentry.loop, h.passes]
  exact Uniform.loop hturn passes s

/-! #### Texts and natives -/

theorem text (text : String) (duplicate topLevel : Bool) :
    Uniform fun t => Eval.text (R t) text duplicate topLevel := by
  refine .noting (.reporting (.holding (fun slot => ?_) _ _))
  have body := h.body ⟨.text slot, 0, (Text.encode text).length⟩ topLevel duplicate
  exact .entering (body.bind_still fun _ => still_pure _)

omit h in
theorem minding_readScript (path : String) : Keeps Minding (readScript world path) := by
  unfold readScript
  refine minding_track.bind (minding_ask world _) fun reading => ?_
  cases reading with
  | missing => exact minding_track.still (still_fail _)
  | unreadable => exact minding_track.still (still_fail _)
  | contents bytes =>
    refine minding_track.bind_still (still_read _) fun limit => ?_
    split
    · exact minding_track.still (still_fail _)
    · exact minding_track.still (still_pure _)

theorem file (path : String) : Uniform fun t => Eval.file (R t) path := by
  have contents : Uniform fun _ => Eval.reporting (readScript world path) :=
    .reporting (uniform_const (minding_readScript path))
  unfold Eval.file
  simp only [h.world]
  exact contents.bind fun contents => h.text contents true true

omit h in
/-- A relaying native passes an error on, or does not care where it was found. -/
theorem relayed {x : Telling → Eval Unit} (hx : Uniform x) {next : Except Error Unit → Action}
    {handler : ErrorKind → String → Option Action}
    (hok : Uniform fun t => (next (.ok ())).perform (R t))
    (herror : ∀ e, next (.error e) = (handler e.kind e.message).getD (.fail e))
    (hhandled : ∀ kind message action, handler kind message = some action →
      Uniform fun t => action.perform (R t)) :
    Uniform fun t => (x t).attempt >>= fun ended => (next ended).perform (R t) := by
  intro m relays under
  cases hx m relays under with
  | done a m' minded same =>
    -- from here on it is as if the machine were where the evaluation ended
    refine Concerted.congr (fun t => ?_)
      ((hok m' minded.relays (minded.depth ▸ under)).after minded)
    refine bind_of_done ?_ _
    simp only [attempt, same t]
  | failed flight m' minded same =>
    have after : ∀ t, ((x t).attempt >>= fun ended => (next ended).perform (R t)) m =
        ((handler flight.raised.kind flight.raised.message).getD
          (.fail (flight.told t))).perform (R t) m' := by
      intro t
      have attempted : (x t).attempt m = .done (.error (flight.told t)) m' := by
        simp only [attempt, same t]
      rw [bind_of_done attempted, herror, flight.kind_told, flight.message_told]
    cases handled : handler flight.raised.kind flight.raised.message with
    | none =>
      simp only [handled, Option.getD_none] at after
      exact .failed flight m' minded after
    | some action =>
      simp only [handled, Option.getD_some] at after
      exact Concerted.congr after
        ((hhandled _ _ action handled m' minded.relays (minded.depth ▸ under)).after minded)
  | stopped why m' minded same =>
    have attempted : ∀ t, (x t).attempt m = .stopped why m' := by
      intro t
      simp only [attempt, same t]
    exact .stopped why m' minded fun t =>
      congrArg (·.andThen fun ended => (next ended).perform (R t)) (attempted t)

theorem perform {action : Action} (relays : action.Relays) : Uniform fun t => action.perform (R t) := by
  induction relays with
  | give value => exact uniform_still (still_pure value)
  | fail error => exact uniform_still (still_fail error)
  | takeLiteral _ ih => exact .const_bind (fun _ => minding_elsewhere rfl rfl) ih
  | write _ ih => exact .const_bind (fun _ => minding_elsewhere rfl rfl) fun _ => ih
  | look _ ih => exact .const_bind (fun _ => minding_elsewhere rfl rfl) ih
  | @define name tag value next hnative _ _ ih =>
    have relays : tag.Relays := hnative
    exact .const_bind (minding_define relays).attempt ih
  | evalText handler _ herror _ hok hhandled => exact relayed (h.text _ _ _) hok herror hhandled
  | evalFile handler _ herror _ hok hhandled => exact relayed (h.file _) hok herror hhandled
  | ask _ ih =>
    simp only [Action.perform, h.world]
    exact .const_bind (minding_ask world _) ih

/-! #### Calls -/

theorem argument : Uniform fun t => Call.argument (R t) := h.expression.bind_const minding_push

theorem argumentsInParens : Uniform fun t => Call.argumentsInParens (R t) := by
  refine uniform_advance.bind fun _ => .still_bind (still_read _) fun token => ?_
  split
  · exact uniform_still (still_pure _)
  · refine h.loop (fun count => h.argument.bind fun _ => .still_bind (still_read _) fun token => ?_) 0
    split
    · exact uniform_advance.bind_still fun _ => still_pure _
    · exact uniform_still (still_pure _)
    · exact uniform_still (still_fail _)

theorem argumentsAfterCallee : Uniform fun t => Call.argumentsAfterCallee (R t) := by
  refine uniform_advance.bind fun _ => .still_bind (still_read _) fun token => ?_
  split
  · exact h.argumentsInParens
  · exact uniform_still (still_fail _)

theorem bareArguments : Uniform fun t => Call.bareArguments (R t) := by
  refine .still_bind still_startsExpression fun starts => ?_
  split
  · refine h.loop (fun count => h.argument.bind fun _ => .still_bind (still_read _) fun token => ?_) 0
    split
    · exact uniform_advance.bind_still fun _ => still_pure _
    · exact uniform_still (still_pure _)
  · exact uniform_still (still_pure _)

theorem argumentsAfterCommand : Uniform fun t => Call.argumentsAfterCommand (R t) := by
  refine uniform_advance.bind fun _ => .still_bind (still_read _) fun token => ?_
  split
  · exact h.argumentsInParens.bind_still fun _ => still_pure _
  · exact h.bareArguments.bind_still fun _ => still_pure _

theorem runFunction (number : Word) (args : List Word) :
    Uniform fun t => Call.runFunction (R t) number args := by
  refine .noting (.still_bind (still_read _) fun routine? => ?_)
  cases routine? with
  | none => exact uniform_still (still_fail _)
  | some routine =>
    have body := h.body routine.body false false
    refine .inFrame (.const_bind (minding_bindParameters _) fun _ => ?_)
    refine .const_bind (fun _ => minding_elsewhere rfl rfl) fun _ => ?_
    exact body.bind_still fun _ => still_read _

theorem handOver {callee : Symbol Native} (relays : callee.tag.Relays) (count literals : Nat) :
    Uniform fun t => Call.handOver (R t) callee count literals := by
  refine .truncatingLiterals (.const_bind (minding_popOnto [] count) fun args => ?_) literals
  unfold Call.runCallee
  split
  · exact uniform_still (still_fail _)
  · split
    · next native arity tag => exact (h.perform (relays native arity tag args)).withPending literals
    · exact h.runFunction callee.value args
    · exact uniform_still (still_fail _)

theorem inExpression {callee : Symbol Native} (relays : callee.tag.Relays) :
    Uniform fun t => Call.inExpression (R t) callee := by
  have listed := (h.argumentsAfterCallee.withQuoting .argument).unwinding
  refine .still_bind (still_read _) fun literals => listed.bind fun count => ?_
  have handed := h.handOver relays count literals
  exact handed.bind fun _ => uniform_advance.bind_still fun _ => still_pure _

theorem asStatement {callee : Symbol Native} (relays : callee.tag.Relays) :
    Uniform fun t => Call.asStatement (R t) callee := by
  have listed := (h.argumentsAfterCommand.withQuoting .argument).unwinding
  refine .still_bind (still_read _) fun literals => listed.bind fun counted => ?_
  have handed := h.handOver relays counted.1 literals
  refine handed.bind fun _ => ?_
  split
  · exact uniform_advance
  · exact uniform_still (still_pure _)

/-! #### Expressions -/

theorem symbolAtom {s : Symbol Native} (relays : s.tag.Relays) :
    Uniform fun t => Expression.symbolAtom (R t) s := by
  unfold Expression.symbolAtom
  split
  · exact uniform_advance.bind_still fun _ => still_pure _
  · exact h.inExpression relays
  · exact h.inExpression relays
  · exact uniform_advance.bind fun _ => h.expression.bind_still fun _ => still_ofExcept _
  · exact uniform_still (still_fail _)

theorem group : Uniform fun t => Expression.group (R t) := by
  refine uniform_advance.bind fun _ => h.expression.bind fun value => ?_
  refine .still_bind (still_read _) fun token => ?_
  split
  · exact uniform_still (still_pure _)
  · exact uniform_still (still_fail _)

theorem atom : Uniform fun t => Expression.atom (R t) := by
  refine .still_bind (still_read _) fun token => ?_
  split
  · exact uniform_advance.bind_still fun _ => still_pure _
  · exact (h.group.withQuoting .plain).bind fun _ => uniform_advance.bind_still fun _ => still_pure _
  · exact uniform_advance.bind_still fun _ => still_pure _
  · exact uniform_advance.bind_still fun _ => still_pure _
  · exact uniform_still (still_fail _)
  · exact .symbolAt_bind fun s relays => h.symbolAtom relays
  all_goals exact uniform_still (still_fail _)

theorem upToLevel (level : Nat) : Uniform fun t => Expression.upToLevel (R t) level := by
  induction level with
  | zero => exact h.atom
  | succ level ih =>
    refine ih.bind fun first => h.loop (fun value => ?_) first
    refine .still_bind (still_operatorOfLevel _) fun op? => ?_
    cases op? with
    | some op =>
      refine uniform_advance.bind fun _ => ih.bind fun operand => ?_
      exact .still_bind (still_ofExcept _) fun _ => uniform_still (still_pure _)
    | none => exact uniform_still (still_pure _)

/-! #### Statements -/

theorem assign (index : Nat) : Uniform fun t => Statement.assign (R t) index := by
  refine .still_bind still_tokenTag? fun tag? => ?_
  split
  · refine uniform_advance.bind fun _ => h.expression.bind_const fun value m relays => ?_
    exact Minded.setValue ⟨relays, rfl⟩ index value
  · exact uniform_still (still_fail _)

theorem declareVariable : Uniform fun t => Statement.declareVariable (R t) := by
  refine .const_bind (minding_advanceBy true) fun _ => ?_
  refine .const_bind minding_naming.definedName fun name => ?_
  have added : Keeps Minding (allocate (·.addSymbol name .var 0)) :=
    minding_addScripted fun _ _ native => by cases native
  refine .const_bind added fun index => ?_
  exact uniform_advance.bind fun _ => h.assign index

theorem nestedBody (body : Slice) : Uniform fun t => Statement.nestedBody (R t) body := by
  have run := h.body body false false
  exact .noting (run.bind_still fun _ => still_pure _)

theorem branch : Uniform fun t => Statement.branch (R t) := by
  have advances := minding_advanceBy false
  refine uniform_advance.bind fun _ => h.expression.bind fun condition => ?_
  refine .const_bind (minding_track.takeBody advances) fun body => ?_
  refine .const_bind (minding_track.takeAlternative advances) fun alternative => ?_
  split
  · exact (h.nestedBody body).bind_still fun _ => still_pure _
  · cases alternative with
    | some body => exact (h.nestedBody body).bind_still fun _ => still_pure _
    | none => exact uniform_still (still_pure _)

theorem repeatBranch : Uniform fun t => Statement.repeatBranch (R t) := by
  refine .still_bind (still_read _) fun start => h.loop (fun _ => h.branch.bind fun held => ?_) ()
  cases held with
  | true =>
    refine .const_bind ?_ fun _ => uniform_still (still_pure _)
    exact fun _ => minding_elsewhere rfl rfl
  | false => exact uniform_still (still_pure _)

theorem setResult : Uniform fun t => Statement.setResult (R t) := by
  refine uniform_advance.bind fun _ => .still_bind still_startsExpression fun starts => ?_
  split
  · exact h.expression.bind_const fun _ _ => minding_elsewhere rfl rfl
  · exact .still_bind (still_pure _) fun _ => uniform_const fun _ => minding_elsewhere rfl rfl

theorem ofKeyword (word : Keyword) : Uniform fun t => Statement.ofKeyword (R t) word := by
  cases word with
  | var => exact h.declareVariable.bind_still fun _ => still_pure _
  | cond => exact h.branch.bind_still fun _ => still_pure _
  | loop => exact h.repeatBranch.bind_still fun _ => still_pure _
  | func => exact .const_bind minding_declareFunction fun _ => uniform_still (still_pure _)
  | leave => exact h.setResult.bind_still fun _ => still_pure _
  | otherwise => exact uniform_still (still_fail _)

theorem statement : Uniform fun t => Statement.statement (R t) := by
  refine .still_bind (still_read _) fun token => ?_
  split
  · refine .symbolAt_bind fun s relays => ?_
    split
    · exact Uniform.bind_still (uniform_advance.bind fun _ => h.assign _) fun _ => still_pure _
    · exact (h.asStatement relays).bind_still fun _ => still_pure _
    · exact (h.inExpression relays).bind_still fun _ => still_pure _
    · exact h.ofKeyword _
    · exact uniform_still (still_fail _)
  all_goals exact uniform_still (still_fail _)

theorem statements : Uniform fun t => Statement.statements (R t) := by
  refine h.loop (fun _ => .still_bind (still_read _) fun token => ?_) ()
  split
  · exact uniform_still (still_pure _)
  · exact uniform_advance.bind_still fun _ => still_pure _
  · refine h.statement.bind fun ending => ?_
    cases ending with
    | returned => exact uniform_still (still_pure _)
    | ranOut =>
      exact .const_bind (minding_track.passSeparator (minding_advanceBy false)) fun _ =>
        uniform_still (still_pure _)

theorem reads (m : Machine) :
    (((do advance; Statement.statements (R .located)) : Eval Ending) m).machine.cursor.source =
      m.cursor.source := by
  rw [h.located]
  have ahead := ahead_discipline (r := .ofFuel world passes) (ahead_ofFuel world passes)
    (bracketed_ofFuel world passes).2
  exact (ahead.bind ahead.advance (fun _ => ahead.statements) m).source

theorem bodyTelling (body : Slice) (topLevel duplicate : Bool) :
    Uniform fun t => (R t).bodyTelling t body topLevel duplicate := by
  refine .inScope (.inBody ?_ h.reads body duplicate) topLevel
  exact uniform_advance.bind fun _ => h.statements

end UniformReentry

/-- On every budget, evaluation is uniform. -/
theorem uniform_telling (world : World) (fuel : Nat) :
    UniformReentry (fun t => .telling t world fuel) world fuel := by
  induction fuel with
  | zero =>
    -- every evaluation stops at once, however errors are told
    refine ⟨rfl, fun _ => rfl, fun _ => rfl, fun m relays _ => ?_, fun _ _ _ m relays _ => ?_⟩
    · exact .stopped .outOfFuel m ⟨relays, rfl⟩ fun _ => rfl
    · exact .stopped .outOfFuel m ⟨relays, rfl⟩ fun _ => rfl
  | succ fuel ih =>
    exact ⟨Reentry.telling_located world (fuel + 1), fun _ => rfl, fun _ => rfl, ih.upToLevel _,
      ih.bodyTelling⟩

end Scriptlet
