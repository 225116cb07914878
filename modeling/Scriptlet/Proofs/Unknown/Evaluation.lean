import Scriptlet.Proofs.Twin.Seam
import Scriptlet.Proofs.Unknown.Blame

/-!
Every evaluation is fair in what it tells of unknown names. The constructs are gone through once. A body
starts by reading on, which anchors the machine, and ends by telling where an error was found; a loop goes
back to its start and reads on. What is nested and what natives do comes back to the place of reading.
-/

namespace Scriptlet

open Eval

variable {α β : Type}

/-! ### Reading on -/

theorem stores_advanceBy (raw : Bool) (m : Machine) : Stores m (advanceBy raw m).machine := by
  obtain ⟨cursor, token, literals, hm, -⟩ := advanceBy_machine raw m
  rw [hm]
  exact ⟨List.prefix_rfl, id⟩

theorem anchoring_advanceBy (raw : Bool) : (Traced.quiet (advanceBy raw)).Anchoring := fun m anchored =>
  ⟨.quiet (stores_advanceBy raw m), fun _ _ done => anchored_of_advanceBy anchored.toAttentive done⟩

/-- Reading on is all that has to happen before a computation on an anchored machine. -/
theorem Traced.Anchoring.advancing {x : Traced β} (hx : x.Anchoring) {m : Machine}
    (attentive : Attentive m) :
    (do Traced.quiet advance; x).Fair m ∧
      ∀ {b m'}, (do Traced.quiet advance; x).run m = .done b m' → Anchored m' := by
  refine ⟨.bind (.quiet (stores_advanceBy false m)) fun _ m' done => ?_, fun {b m''} done => ?_⟩
  · exact (hx m' (anchored_of_advanceBy attentive done)).1
  · obtain ⟨_, m', first, second⟩ := bind_eq_done done
    exact (hx m' (anchored_of_advanceBy attentive first)).2 second

/-- A name that stands for nothing is met where it was read. -/
theorem fair_unknown {m : Machine} {name : Slice} (anchored : Anchored m) (token : m.token = .name name) :
    (Traced.unknown name : Traced α).Fair m where
  stores := .refl m
  met e he name' unresolved := by
    cases List.mem_singleton.mp he
    cases unresolved
    exact ⟨token, anchored, .refl m⟩
  passed before _ _ _ _ h more := absurd (Traced.single_event h).2.2 more
  stays _ _ _ _ _ done := by cases done
  raised error m' before name' n failed h := by
    cases failed
    cases (Traced.single_event h).2.1
    exact .inr ⟨rfl, fun _ => rfl⟩

/-! ### Texts -/

/-- What is nested is fair and, if it is a body, gives an error its place and comes back. -/
structure FairReentry (r : TracedReentry) : Prop where
  expression : r.expression.Anchoring
  fair : ∀ body topLevel duplicate m, (r.body body topLevel duplicate).Fair m
  settles : ∀ body topLevel duplicate m, (r.body body topLevel duplicate).Settles m
  bracketed : ∀ body topLevel duplicate, Keeps Bracketed (r.run.body body topLevel duplicate)
  grows : ∀ body topLevel duplicate, Keeps Grows (r.run.body body topLevel duplicate)

theorem text_ends {r : Reentry} {text : String} {duplicate topLevel : Bool} {m : Machine} :
    (∀ {e m'}, Eval.text r text duplicate topLevel m = .failed e m' → ∃ n,
      r.body (m.bodyOf (Text.encode text)) topLevel duplicate (m.opened (Text.encode text)) = .failed e n) ∧
    (∀ {m'}, Eval.text r text duplicate topLevel m = .done () m' → ∃ a n,
      r.body (m.bodyOf (Text.encode text)) topLevel duplicate (m.opened (Text.encode text)) = .done a n) := by
  have shape : ∃ f g, Eval.text r text duplicate topLevel m = reporting (fun _ =>
      ((r.body (m.bodyOf (Text.encode text)) topLevel duplicate (m.opened (Text.encode text))).andThen
        fun _ => (pure () : Eval Unit)).adjust f |>.adjust g) m.note := ⟨_, _, rfl⟩
  obtain ⟨f, g, shape⟩ := shape
  cases body : r.body (m.bodyOf (Text.encode text)) topLevel duplicate (m.opened (Text.encode text)) with
  | done a n =>
    rw [body] at shape
    refine ⟨fun failed => ?_, fun _ => ⟨a, n, rfl⟩⟩
    cases shape.symm.trans failed
  | failed e n =>
    rw [body] at shape
    unfold reporting at shape
    change _ = if _ then _ else _ at shape
    refine ⟨fun {e' m'} failed => ⟨n, ?_⟩, fun done => ?_⟩
    · rw [shape] at failed
      split at failed <;> cases failed <;> rfl
    · rw [shape] at done
      split at done <;> cases done
  | stopped why n =>
    rw [body] at shape
    refine ⟨fun failed => ?_, fun done => ?_⟩
    · cases shape.symm.trans failed
    · cases shape.symm.trans done

theorem stores_opened (m : Machine) (bytes : Text.Bytes) : Stores m (m.opened bytes) := by
  have grown : m.memory.Grows ⟨m.arena, (m.texts.retain bytes.toArray).2⟩ := .retain bytes.toArray
  exact ⟨grown.durable, grown.texts⟩

theorem Traced.events_text (r : TracedReentry) (text : String) (duplicate topLevel : Bool) (m : Machine) :
    (Traced.text r text duplicate topLevel).events m =
      (r.body (m.bodyOf (Text.encode text)) topLevel duplicate).events (m.opened (Text.encode text)) := by
  change (r.body (m.bodyOf (Text.encode text)) topLevel duplicate).events (m.opened (Text.encode text)) ++
    ((r.body (m.bodyOf (Text.encode text)) topLevel duplicate).run (m.opened (Text.encode text))).thenTold
      (fun _ _ => []) = _
  cases (r.body (m.bodyOf (Text.encode text)) topLevel duplicate).run (m.opened (Text.encode text)) <;>
    exact List.append_nil _

namespace FairReentry

variable {r : TracedReentry} (h : FairReentry r)

include h

theorem text (text : String) (duplicate topLevel : Bool) (m : Machine) :
    (Traced.text r text duplicate topLevel).Fair m ∧
      (Traced.text r text duplicate topLevel).Settles m := by
  have events := Traced.events_text r text duplicate topLevel m
  have run := Traced.run_text r text duplicate topLevel
  have settles := h.settles (m.bodyOf (Text.encode text)) topLevel duplicate (m.opened (Text.encode text))
  have ends : ∀ {e m'}, (Traced.text r text duplicate topLevel).run m = .failed e m' → ∃ n,
      (r.body (m.bodyOf (Text.encode text)) topLevel duplicate).run (m.opened (Text.encode text)) =
        .failed e n := fun failed => text_ends.1 (run ▸ failed)
  refine ⟨(h.fair _ _ _ _).around (stores_opened m _) events ?_ (fun done => ?_) fun failed => ?_,
    settles.around events ends⟩
  · rw [run]
    exact .of_grows (expanding_grows.text h.grows text duplicate topLevel m)
  · exact text_ends.2 (run ▸ done)
  · obtain ⟨n, ended⟩ := ends failed
    exact ⟨n, ended, .inl settles⟩

theorem file (path : String) (m : Machine) :
    (Traced.file r path).Fair m ∧ (Traced.file r path).Settles m := by
  have reading : Keeps Grows (reporting (readScript r.world path)) :=
    (expanding_grows.acting h.grows).readScript path
  refine ⟨.bind (.quiet (.of_grows (reading m))) fun contents m' _ => (h.text contents true true m').1, ?_⟩
  intro error m' before name n failed split
  cases ran : reporting (readScript r.world path) m with
  | done contents m'' =>
    have run : (Traced.file r path).run m = (Traced.text r contents true true).run m'' :=
      bind_of_done ran _
    have events : (Traced.file r path).events m = (Traced.text r contents true true).events m'' := by
      change [] ++ (reporting (readScript r.world path) m).thenTold _ = _
      rw [ran]
      rfl
    exact (h.text contents true true m'').2 (run ▸ failed) (events ▸ split)
  | _ =>
    have events : (Traced.file r path).events m = [] := by
      change [] ++ (reporting (readScript r.world path) m).thenTold _ = _
      rw [ran]
      rfl
    rw [events] at split
    cases before <;> cases split

/-! ### Natives -/

omit h in
/-- An evaluation that fails is told of with its error, and the error has its place. -/
theorem fair_judged {x : Traced β} {m : Machine} (fair : x.Fair m) (settles : x.Settles m) :
    (Traced.judged x).Fair m := by
  have stores := fair.stores
  have events := Traced.events_judged x m
  have run : (Traced.judged x).run m = Eval.attempt x.run m := congrFun (Traced.run_judged rfl) m
  unfold Eval.attempt at run
  cases hm : x.run m with
  | failed error m' =>
    rw [hm] at events run stores
    change _ = x.events m ++ [⟨.failed error, m'⟩] at events
    have other : ∀ {before trail : List Event} {name n},
        [⟨.failed error, m'⟩] ≠ before ++ ⟨.unresolved name, n⟩ :: trail := by
      intro before trail name n h
      cases (Traced.single_event h).2.1
    refine ⟨run ▸ stores, fun e he name unresolved => ?_,
      fun before name n trail error' split _ passed => ?_, fun a m'' before name n _ split => ?_,
      fun _ _ _ _ _ failed => ?_⟩
    · rw [events] at he
      rcases List.mem_append.mp he with he | he
      · exact fair.met e he name unresolved
      · cases List.mem_singleton.mp he
        cases unresolved
    · rw [events] at split
      rcases Traced.split_events split with ⟨before', inside⟩ | ⟨trail', inside, rfl⟩
      · exact absurd inside other
      · have same : error' = error := by
          rcases passed ⟨.failed error, m'⟩ (by simp) with told | told
          · cases told
            rfl
          · cases told
        exact same ▸ fair.blame settles hm inside fun e he => same ▸ passed e (List.mem_append_left _ he)
    · rw [events] at split
      rcases Traced.split_events split with ⟨before', inside⟩ | ⟨trail', inside, nothing⟩
      · exact other inside
      · cases trail' <;> cases nothing
    · cases run.symm.trans failed
  | done a m' =>
    rw [hm] at events run stores
    exact fair.around (.refl m) (events.trans (List.append_nil _)) (run ▸ stores) (fun _ => ⟨a, m', hm⟩)
      fun failed => by cases run.symm.trans failed
  | stopped why m' =>
    rw [hm] at events run stores
    exact fair.around (.refl m) (events.trans (List.append_nil _)) (run ▸ stores)
      (fun done => by cases run.symm.trans done) fun failed => by cases run.symm.trans failed

/-- Natives and hosts are fair, whatever they do. -/
theorem perform (action : Action) (m : Machine) : (Traced.perform r action).Fair m := by
  have units := expanding_grows.acting h.grows
  have quietly : ∀ {γ : Type} {y : Eval γ} {f : γ → Traced Word} {m : Machine}, Keeps Grows y →
      (∀ a m', (f a).Fair m') → (Traced.quiet y >>= f).Fair m := fun hy hf =>
    .bind (.quiet (.of_grows (hy _))) fun a m' _ => hf a m'
  induction action generalizing m with
  | give value => exact .quiet (.refl m)
  | fail error => exact .bind (.tell fun _ h => by cases h) fun _ m' _ => .quiet (.refl m')
  | takeLiteral next ih => exact quietly units.takeLiteral ih
  | write stream bytes next ih => exact quietly (units.write stream bytes) fun _ => ih
  | look next ih => exact quietly units.look ih
  | define name tag value next ih => exact quietly (units.define name tag value).attempt ih
  | evalText text duplicate topLevel next ih =>
    have evaluated := h.text text duplicate topLevel m
    exact .bind (fair_judged evaluated.1 evaluated.2) fun a m' _ => ih a m'
  | evalFile path next ih =>
    have evaluated := h.file path m
    exact .bind (fair_judged evaluated.1 evaluated.2) fun a m' _ => ih a m'
  | ask question next ih => exact quietly (units.ask question) ih

/-! ### Calls -/

theorem body (body : Slice) (topLevel duplicate : Bool) : (r.body body topLevel duplicate).Anchoring :=
  .of_fair (h.fair body topLevel duplicate) fun m => (h.bracketed body topLevel duplicate m).toReturned

theorem runFunction (number : Word) (args : List Word) : (Traced.runFunction r number args).Anchoring := by
  have track := anchoring_track
  refine .wrapped (.tell_bind (fun _ h => by cases h) (track.still_bind (still_read _) fun routine? => ?_))
    (Traced.wraps_noting _)
  cases routine? with
  | none => exact .still (still_fail _)
  | some routine =>
    refine .wrapped (.bind (.beside (beside_bindParameters _)) fun _ => ?_) (Traced.wraps_inFrame _)
    refine .bind (.beside fun _ => .of_eq rfl rfl rfl rfl rfl) fun _ => ?_
    exact track.bind_still (h.body routine.body false false) fun _ => still_read _

theorem runNativeWith (native : Native) (args : List Word) (literals : Nat) (form : CallForm)
    (list : Scanner) : (Traced.runNativeWith r native args literals form list).Anchoring := by
  refine .wrapped (.tell_bind (fun _ h => by cases h) ?_) (Traced.wraps_withPending _ literals)
  refine .of_fair (h.perform (native args)) ?_
  rw [Traced.run_perform]
  exact (returned_acting h.bracketed).perform (native args)

theorem runCallee (callee : Symbol Native) (args : List Word) (literals : Nat) (form : CallForm)
    (list : Scanner) : (Traced.runCallee r callee args literals form list).Anchoring := by
  refine .tell_bind (fun _ h => by cases h) ?_
  split
  · exact .still (still_fail _)
  · cases callee.tag with
    | native native arity => exact h.runNativeWith native args literals form list
    | func arity => exact h.runFunction callee.value args
    | _ => exact .still (still_fail _)

theorem handOver (callee : Symbol Native) (count literals : Nat) (form : CallForm) (list : Scanner) :
    (Traced.handOver r callee count literals form list).Anchoring := by
  refine .wrapped (.bind (.beside (beside_popOnto [] count)) fun args => ?_)
    (Traced.wraps_truncatingLiterals _ literals)
  exact h.runCallee callee args literals form list

theorem arguments : TracedArguments Traced.Anchoring (fun _ => True) r where
  toTracedTrack := anchoring_track
  advanceBy := anchoring_advanceBy
  symbolAt hf :=
    .bind (.tell_bind (fun _ h => by cases h) (.still (still_symbolAt _))) fun s => hf s trivial
  push word := .beside (beside_push word)
  expression := h.expression

theorem inExpression (callee : Symbol Native) : (Traced.inExpression r callee).Anchoring := by
  have track := anchoring_track
  refine track.still_bind (still_read _) fun list => track.still_bind (still_read _) fun literals => ?_
  have quoting := h.arguments.argumentsAfterCallee.wrapped (Traced.wraps_withQuoting _ .argument)
  refine .bind (quoting.wrapped (Traced.wraps_unwinding _)) fun count => ?_
  refine .bind (h.handOver callee count literals .parenthesised list) fun _ => ?_
  exact track.bind_still h.arguments.advance fun _ => still_pure _

theorem asStatement (callee : Symbol Native) : (Traced.asStatement r callee).Anchoring := by
  have track := anchoring_track
  refine track.still_bind (still_read _) fun list => track.still_bind (still_read _) fun literals => ?_
  have quoting := h.arguments.argumentsAfterCommand.wrapped (Traced.wraps_withQuoting _ .argument)
  refine .bind (quoting.wrapped (Traced.wraps_unwinding _)) fun counted => ?_
  refine .bind (h.handOver callee counted.1 literals _ list) fun _ => ?_
  split
  · exact h.arguments.advance
  · exact .still (still_pure _)

/-! ### Expressions and statements -/

omit h in
/-- A turn of a loop starts by reading on. If there is to be another, the cursor is back where it was. -/
theorem branchTurn (choice : (Traced.choice r).Anchoring) {m : Machine} (attentive : Attentive m) :
    (Traced.branchTurn r m.cursor ()).Fair m ∧
      ∀ {next m'}, (Traced.branchTurn r m.cursor ()).run m = .done next m' →
        (next = .again () ∧ Attentive m' ∧ m'.cursor = m.cursor) ∨ next = .finish () ∧ Anchored m' := by
  obtain ⟨fair, leaves⟩ := choice.advancing attentive
  refine ⟨fair.bind fun held m₁ _ => ?_, fun {next m'} done => ?_⟩
  · cases held with
    | true => exact .bind (.quiet ⟨List.prefix_rfl, id⟩) fun _ m' _ => .quiet (.refl m')
    | false => exact .quiet (.refl m₁)
  · obtain ⟨held, m₁, branched, done⟩ := bind_eq_done done
    have stores : Stores m ((Traced.branch r).run m).machine := fair.stores
    rw [branched] at stores
    cases held with
    | true =>
      cases done
      have back : Stores m { m₁ with cursor := m.cursor } := ⟨stores.durable, stores.texts⟩
      exact .inl ⟨rfl, attentive.stores back rfl, rfl⟩
    | false =>
      cases done
      exact .inr ⟨rfl, leaves branched⟩

omit h in
theorem branchTurns (choice : (Traced.choice r).Anchoring) {start : Cursor} (passes : Nat) {m : Machine}
    (attentive : Attentive m) (cursor : m.cursor = start) :
    (Traced.loop (Traced.branchTurn r start) passes ()).Fair m ∧
      ∀ {a m'}, (Traced.loop (Traced.branchTurn r start) passes ()).run m = .done a m' →
        Anchored m' := by
  subst cursor
  -- on the passes; where another turn is to come, the cursor is back at the start
  induction passes generalizing m with
  | zero => exact ⟨.quiet (.refl m), fun done => by cases done⟩
  | succ passes ih =>
    obtain ⟨fair, leaves⟩ := branchTurn choice attentive
    rw [Traced.loop_succ]
    refine ⟨fair.bind fun next m' done => ?_, fun {a m''} done => ?_⟩
    · obtain ⟨rfl, attentive', cursor⟩ | ⟨rfl, -⟩ := leaves done
      · exact cursor ▸ (ih attentive').1
      · exact .quiet (.refl m')
    · obtain ⟨next, m', turned, done⟩ := bind_eq_done done
      obtain ⟨rfl, attentive', cursor⟩ | ⟨rfl, anchored⟩ := leaves turned
      · exact (cursor ▸ @(ih attentive').2) done
      · cases done
        exact anchored

omit h in
theorem repeating (choice : (Traced.choice r).Anchoring) : (Traced.repeatBranch r).Anchoring := by
  intro m anchored
  obtain ⟨fair, leaves⟩ := branchTurns choice r.passes anchored.toAttentive rfl
  exact ⟨fair.around (.refl m) rfl fair.stores (fun done => ⟨_, _, done⟩)
    fun failed => ⟨_, failed, .inr fun _ => rfl⟩, fun _ _ => leaves⟩

theorem nestedBody (body : Slice) : (Traced.nestedBody r body).Anchoring := by
  have run := h.body body false false
  exact (anchoring_track.bind_still run fun _ => still_pure _).wrapped (Traced.wraps_noting _)

theorem discipline : TracedDiscipline Traced.Anchoring (fun _ => True) (fun _ => True) r where
  toTracedArguments := h.arguments
  atToken {_ f} atName other m anchored := by
    have asked : (f m.token).Fair m ∧ ∀ ⦃a m'⦄, (f m.token).run m = .done a m' → Anchored m' := by
      cases token : m.token with
      | name name =>
        rw [atName]
        exact ⟨fair_unknown anchored token, fun _ _ done => by cases done⟩
      | _ => exact other _ (fun _ h => by cases h) m anchored
    exact ⟨asked.1.around (.refl m) rfl asked.1.stores (fun done => ⟨_, _, done⟩)
      fun failed => ⟨_, failed, .inr fun _ => rfl⟩, asked.2⟩
  plain hx := hx.wrapped (Traced.wraps_withQuoting _ .plain)
  storing index since value :=
    .tell_bind (fun _ h => by cases h) (.beside fun _ => .of_eq rfl rfl rfl rfl rfl)
  result _ := .beside fun _ => .of_eq rfl rfl rfl rfl rfl
  definedName := anchoring_track.definedName fun slice => .aside (aside_keep slice)
  definedBody hf := .bind (anchoring_track.definedBody fun slice => .aside (aside_keep slice)) fun body =>
    hf body trivial
  takeBody hf := .bind h.arguments.takeBody fun body => hf body trivial
  addSymbol name value {tag} _ := .beside (beside_addSymbol name tag value)
  addRoutine {routine} _ := .aside (aside_addRoutine routine)
  repeating := repeating
  nestedBody {body} _ := h.nestedBody body
  inExpression _ := h.inExpression _
  asStatement _ := h.asStatement _

/-! ### Bodies -/

omit h in
/-- A body ends as its statements do, and where an error leaves it, it is given its place, if it has
none. -/
theorem body_ends {body : Slice} {topLevel duplicate : Bool} {m : Machine} :
    (∀ {error m'}, (Traced.wholeBody r body topLevel duplicate).run m = .failed error m' → ∃ raised n,
      (do Traced.quiet advance; Traced.statements r : Traced Ending).run
        { m with cursor := m.cursorAt body, quoting := .plain, duplicate } = .failed raised n ∧
      error = n.locate raised) ∧
    (∀ {ending m'}, (Traced.wholeBody r body topLevel duplicate).run m = .done ending m' → ∃ n,
      (do Traced.quiet advance; Traced.statements r : Traced Ending).run
        { m with cursor := m.cursorAt body, quoting := .plain, duplicate } = .done ending n) := by
  have shape : ∃ f g, (Traced.wholeBody r body topLevel duplicate).run m =
      (((do Traced.quiet advance; Traced.statements r : Traced Ending).run
        { m with cursor := m.cursorAt body, quoting := .plain, duplicate }).adjustError
          Machine.locate |>.adjust f |>.adjust g) := ⟨_, _, rfl⟩
  obtain ⟨f, g, shape⟩ := shape
  cases inside : (do Traced.quiet advance; Traced.statements r : Traced Ending).run
      { m with cursor := m.cursorAt body, quoting := .plain, duplicate } with
  | failed raised n =>
    rw [inside] at shape
    refine ⟨fun failed => ?_, fun done => by cases shape.symm.trans done⟩
    cases shape.symm.trans failed
    exact ⟨raised, n, rfl, rfl⟩
  | done ending n =>
    rw [inside] at shape
    refine ⟨fun failed => (by cases shape.symm.trans failed), fun done => ?_⟩
    cases shape.symm.trans done
    exact ⟨n, rfl⟩
  | stopped why n =>
    rw [inside] at shape
    exact ⟨fun failed => (by cases shape.symm.trans failed), fun done => by cases shape.symm.trans done⟩

/-- A body is fair, and an error that leaves it has its place. -/
theorem wholeBody {body : Slice} {topLevel duplicate : Bool}
    (grows : Keeps Grows (Traced.wholeBody r body topLevel duplicate).run) (m : Machine) :
    (Traced.wholeBody r body topLevel duplicate).Fair m ∧
      (Traced.wholeBody r body topLevel duplicate).Settles m := by
  obtain ⟨fair, -⟩ := h.discipline.statements.advancing (attentive_cursorAt m body duplicate)
  have start : Stores m { m with cursor := m.cursorAt body, quoting := .plain, duplicate } :=
    ⟨List.prefix_rfl, id⟩
  have settles : (Traced.wholeBody r body topLevel duplicate).Settles m := by
    intro error m' before name n failed split
    obtain ⟨raised, k, inside, rfl⟩ := body_ends.1 failed
    -- a body inside has given the error its place, or this one does
    rcases fair.raised inside split with rfl | ⟨rfl, same⟩
    · exact Machine.locate_of_context (n.context_locate _)
    · exact same _
  refine ⟨⟨.of_grows (grows m), fun e he name unresolved => (fair.met e he name unresolved).after start,
    fair.passed, fun ending m' before name n done => ?_, fun error m' before name n failed split =>
      .inl (settles failed split)⟩, settles⟩
  obtain ⟨k, inside⟩ := body_ends.2 done
  exact fair.stays inside

end FairReentry

/-- On every budget, evaluation is fair. -/
theorem fairReentry_ofFuel (world : World) (fuel : Nat) : FairReentry (.ofFuel world fuel) := by
  have bracketed : ∀ fuel body topLevel duplicate,
      Keeps Bracketed ((TracedReentry.ofFuel world fuel).body body topLevel duplicate).run := fun fuel => by
    have known : ∀ body topLevel duplicate,
      Keeps Bracketed ((Reentry.ofFuel world fuel).body body topLevel duplicate) :=
        (bracketed_ofFuel world fuel).2
    rwa [← TracedReentry.run_ofFuel] at known
  have grows : ∀ fuel body topLevel duplicate,
      Keeps Grows ((TracedReentry.ofFuel world fuel).body body topLevel duplicate).run := fun fuel => by
    have known : ∀ body topLevel duplicate,
      Keeps Grows ((Reentry.ofFuel world fuel).body body topLevel duplicate) := (grows_ofFuel world fuel).2
    rwa [← TracedReentry.run_ofFuel] at known
  induction fuel with
  | zero =>
    refine ⟨.still fun _ => rfl, fun _ _ _ m => .quiet (.refl m), fun _ _ _ _ _ _ _ _ _ failed => ?_,
      bracketed 0, grows 0⟩
    cases failed
  | succ fuel ih =>
    exact ⟨ih.discipline.wholeExpression, fun body topLevel duplicate m =>
      (ih.wholeBody (grows (fuel + 1) body topLevel duplicate) m).1, fun body topLevel duplicate m =>
      (ih.wholeBody (grows (fuel + 1) body topLevel duplicate) m).2, bracketed (fuel + 1),
      grows (fuel + 1)⟩

/-- An error that was last told of together with a name has the place of the name, and the name was met
while the text was in its slot. -/
theorem blamed {world : World} {fuel : Nat} {text : String} {duplicate topLevel : Bool} {m m' : Machine}
    {error : Error} {before trail : List Event} {name : Slice} {n : Machine}
    (failed : evalText world fuel text duplicate topLevel m = .failed error m')
    (told : (Traced.text (.ofFuel world fuel) text duplicate topLevel).events m =
      before ++ ⟨.unresolved name, n⟩ :: trail) (passed : PassedOn error trail) :
    error = n.locate .unknownSymbol ∧ Met (m.opened (Text.encode text)) name n := by
  have fair := fairReentry_ofFuel world fuel
  obtain ⟨whole, settles⟩ := fair.text text duplicate topLevel m
  rw [← Traced.run_evalText] at failed
  refine ⟨whole.blame settles failed told passed, ?_⟩
  rw [Traced.events_text] at told
  refine (fair.fair (m.bodyOf (Text.encode text)) topLevel duplicate _).met ⟨.unresolved name, n⟩ ?_ name rfl
  rw [told]
  exact List.mem_append_right _ List.mem_cons_self

end Scriptlet
