import Scriptlet.Proofs.Trace.Account

/-!
Accounts of texts, natives and calls. A call resolves its callee before it reads its arguments, and
hands over afterwards; so what vouches for the callee is the table of before, and that it has only grown
since. The strings of the call are those above the ones that were stacked when its list began.
-/

namespace Scriptlet

open Eval

/-! ### What evaluation keeps up -/

/-- A machine stands on its memory as it did, and its books are kept. -/
def Onward (m m' : Machine) : Prop := Moves m m' ∧ Books m m'

/-- The run that began on `origin` has come to the machine, and the table is in order if that matters. -/
structure Running (whole : Bool) (origin m : Machine) : Prop where
  since : Meanwhile origin m
  ledger : whole = true → Ledger m

theorem Running.books {whole : Bool} {origin m m' : Machine} (h : Running whole origin m)
    (k : Books m m') : Running whole origin m' :=
  ⟨expanding_meanwhile.trans h.since k.meanwhile, fun w => k.ledger (h.ledger w)⟩

/-- In a run, the machine can go on reading. -/
structure Ready (whole : Bool) (origin m : Machine) : Prop extends Running whole origin m where
  grounded : Grounded origin m

theorem Ready.onward {whole : Bool} {origin m m' : Machine} (h : Ready whole origin m)
    (k : Onward m m') : Ready whole origin m' :=
  ⟨h.toRunning.books k.2, k.1.grounded h.since h.grounded⟩

/-- What is known of the evaluation of nested expressions and bodies in a run. -/
structure VouchingDiscipline (whole : Bool) (origin : Machine) (r : TracedReentry) : Prop where
  reading : ReadingDiscipline r.run
  books : Keeps Books r.run.expression
  booksBody : ∀ body topLevel duplicate, Keeps Books (r.run.body body topLevel duplicate)
  expression : ∀ {m}, Ready whole origin m → Vouched whole origin r.expression m
  body : ∀ body topLevel duplicate {m}, Running whole origin m →
    Vouched whole origin (r.body body topLevel duplicate) m

namespace Traced

variable {α : Type} {R : Machine → Machine → Prop}

/-- A traced computation that is done keeps what the computation keeps. -/
theorem kept {x : Traced α} {y : Eval α} (hrun : x.run = y) (hy : Keeps R y) {m m' : Machine} {a : α}
    (done : x.run m = .done a m') : R m m' := hy.done (hrun ▸ done)

/-- A traced computation that is done leaves the machine if the computation does. -/
theorem unmoved {x : Traced α} {y : Eval α} (hrun : x.run = y) (hy : Still y) {m m' : Machine} {a : α}
    (done : x.run m = .done a m') : m' = m := hy.done (hrun ▸ done)

end Traced

section

variable {whole : Bool} {origin : Machine} {r : TracedReentry}
  (h : VouchingDiscipline whole origin r)

include h

theorem onward_loose : LooseDiscipline Onward r.run :=
  (moves_loose h.reading.moves h.reading.meanwhile h.reading.bracket).and
    (books_loose h.books h.booksBody)

theorem onward_discipline : Discipline Onward r.run :=
  (moves_discipline h.reading.moves h.reading.meanwhile h.reading.bracket).and
    (books_discipline h.books h.booksBody)

/-! ### Texts and natives -/

theorem vouched_text (text : String) (duplicate topLevel : Bool) {m : Machine}
    (running : Running whole origin m) : Vouched whole origin (.text r text duplicate topLevel) m := by
  have started : Books m { m.note.withTexts (m.texts.retain (Text.encode text).toArray).2 with
      depth := m.depth + 1 } :=
    books_track.trans (books_track.trans (.note m)
      ((books_track.refl m.note).withTexts (.retain (Text.encode text).toArray))) (.elsewhere rfl rfl)
  refine .noting (.reporting (.holding (.entering ?_)))
  exact (h.body _ topLevel duplicate (running.books started)).bind fun _ _ _ =>
    .quiet (knowing_pure ())

theorem vouched_file (path : String) {m : Machine} (running : Running whole origin m) :
    Vouched whole origin (.file r path) m :=
  .afterQuiet (knowing_reporting (knowing_readScript r.world path)) fun contents _ done =>
    vouched_text h contents true true
      (running.books (((books_outer h.booksBody).readScript path).done done))

/-- What natives and hosts do, where they leave it to scripts to define functions. -/
theorem vouched_perform {action : Action} (honest : whole = true → action.Honest) {m : Machine}
    (running : Running whole origin m) : Vouched whole origin (.perform r action) m := by
  induction action generalizing m with
  | give value => exact .quiet (knowing_pure value)
  | fail error =>
    exact .failing trivial (fun _ => trivial) (fun _ other => by cases other) fun kind => kind
  | takeLiteral next ih =>
    refine .afterQuiet (fun _ _ _ failed => by cases failed) fun text? m' done => ?_
    have kept : Books m m' := by
      cases done
      exact .elsewhere rfl rfl
    exact ih text? (fun w => by cases honest w with | takeLiteral hnext => exact hnext text?)
      (running.books kept)
  | write stream bytes next ih =>
    refine .afterQuiet (knowing_update _) fun _ m' done => ?_
    have kept : Books m m' := (books_write stream bytes).done done
    exact ih (fun w => by cases honest w with | write hnext => exact hnext) (running.books kept)
  | look next ih =>
    refine .afterQuiet (fun _ _ _ failed => by cases failed) fun view m' done => ?_
    have kept : Books m m' := by
      cases done
      exact .note m
    exact ih view (fun w => by cases honest w with | look hnext => exact hnext view)
      (running.books kept)
  | define name tag value next ih =>
    refine .afterQuiet (knowing_attempt _) fun index m' done => ?_
    have meanwhile : Meanwhile m m' := (expanding_meanwhile.define name tag value).attempt.done done
    refine ih index (fun w => by cases honest w with | define _ _ hnext => exact hnext index)
      ⟨expanding_meanwhile.trans running.since meanwhile, fun w => ?_⟩
    cases honest w with
    | define hfunc hnative hnext =>
      exact ((books_define hfunc hnative).attempt.done done).ledger (running.ledger w)
  | evalText text duplicate topLevel next ih =>
    refine (vouched_text h text duplicate topLevel running).judged.bind fun ended m' done => ?_
    have kept : Books m m' := Traced.kept (Traced.run_judged (Traced.run_text r text duplicate topLevel))
      ((books_outer h.booksBody).text text duplicate topLevel).attempt done
    exact ih ended (fun w => by cases honest w with | evalText hnext => exact hnext ended)
      (running.books kept)
  | evalFile path next ih =>
    refine (vouched_file h path running).judged.bind fun ended m' done => ?_
    have kept : Books m m' := Traced.kept (Traced.run_judged (Traced.run_file r path))
      ((books_outer h.booksBody).file path).attempt done
    exact ih ended (fun w => by cases honest w with | evalFile hnext => exact hnext ended)
      (running.books kept)
  | ask question next ih =>
    refine .afterQuiet (knowing_ask _ question) fun answer m' done => ?_
    have kept : Books m m' := (books_roaming.ask _ question).done done
    exact ih answer (fun w => by cases honest w with | ask hnext => exact hnext answer)
      (running.books kept)

/-! ### Callees -/

theorem vouched_runRoutine (routine : Routine) (args : List Word) {m : Machine}
    (running : Running whole origin m) : Vouched whole origin (.runRoutine r routine args) m := by
  refine .inFrame (.afterQuiet (knowing_bindParameters _) fun _ m₁ bound => ?_)
  refine .afterQuiet (knowing_update _) fun _ m₂ cleared => ?_
  have kept : Books m m₂ := by
    cases cleared
    exact books_track.trans ((books_bindParameters _).done bound) (.elsewhere rfl rfl)
  exact (h.body routine.body false false (running.books kept)).bind fun _ _ _ =>
    .quiet (knowing_read _)

/-- The routine of a function is there, and has a parameter for each argument. -/
theorem vouched_runFunction {number : Word} {args : List Word} {m : Machine}
    (running : Running whole origin m)
    (described : whole = true →
      ∃ routine, m.memory.routine? number = some routine ∧ routine.params.length = args.length) :
    Vouched whole origin (.runFunction r number args) m := by
  refine .noting (.afterTold trivial described (fun _ other => by cases other) (.afterRead ?_))
  cases found : number.index?.bind (m.note.arena.routines[·]?) with
  | some routine => exact vouched_runRoutine h routine args (running.books (.note m))
  | none =>
    refine .quietly fun w => ?_
    obtain ⟨routine, found', -⟩ := described w
    change number.index?.bind (m.arena.routines[·]?) = some routine at found'
    rw [show number.index?.bind (m.arena.routines[·]?) = none from found] at found'
    cases found'

/-- The strings above the first `literals` are those of an argument list that began at a place in the
text. -/
def OwnList (form : CallForm) (list : Scanner) (literals : Nat) (m : Machine) : Prop :=
  (form = .command → m.token ≠ .literal) →
    ArgumentList list m.cursor.scanner form (m.literals.stack.drop literals)

omit h in
theorem Enclosed.argumentList {m n : Machine} {list : List Lexeme} (enclosed : Enclosed m n list)
    (hq : m.quoting = .argument) :
    ArgumentList m.cursor.scanner n.cursor.scanner .parenthesised
      (n.literals.stack.drop m.literals.size) := by
  have own : n.literals.stack.drop m.literals.size =
      (directQuotes 0 list).map m.cursor.scanner.textOf := by
    rw [enclosed.strings hq]
    exact List.drop_left
  rw [own]
  exact .parenthesised enclosed.path enclosed.depth

omit h in
/-- A quotation behind the list would be the token now. -/
theorem Listing.argumentList {m n : Machine} (listing : Listing 0 m n) (hq : m.quoting = .argument)
    (behind : n.token ≠ .literal) :
    ArgumentList m.cursor.scanner n.cursor.scanner .command
      (n.literals.stack.drop m.literals.size) := by
  obtain ⟨list, next, reads⟩ := listing.reads
  have other : next.quoted = [] := by
    by_contra quoted
    exact behind (reads.becomes.literal hq quoted)
  have own : n.literals.stack.drop m.literals.size =
      (directQuotes 0 list).map m.cursor.scanner.textOf := by
    rw [reads.strings hq, directQuotes_append reads.depth, directQuotes_single, other, List.append_nil]
    exact List.drop_left
  rw [own]
  exact .command reads.path reads.depth other

/-- The native that starts is given those strings. -/
theorem vouched_runNativeWith {native : Native} {args : List Word} {literals : Nat} {form : CallForm}
    {list : Scanner} {m : Machine} (running : Running whole origin m)
    (honest : whole = true → (native args).Honest) (own : OwnList form list literals m) :
    Vouched whole origin (.runNativeWith r native args literals form list) m := by
  have opened : Books m { m with literals := (m.literals.openFrame literals).2 } :=
    .elsewhere rfl rfl
  refine .withPending (.afterTold ?_ (fun _ => trivial) (fun _ other => by cases other) ?_)
  · exact fun behind => ⟨_, own behind, givesStrings_pending _⟩
  · exact vouched_perform h honest (running.books opened)

theorem vouched_runCallee {callee : Symbol Native} {args : List Word} {literals : Nat}
    {form : CallForm} {list : Scanner} {m : Machine} (running : Running whole origin m)
    (callable : ∃ arity, callee.tag.arity? = some arity)
    (enrolled : whole = true → m.memory.Enrolled callee) (own : OwnList form list literals m) :
    Vouched whole origin (.runCallee r callee args literals form list) m := by
  obtain ⟨arity, callable⟩ := callable
  refine .afterTold trivial (fun w => ?_) (fun _ other => by cases other) ?_
  · exact ⟨arity, (enrolled w).fits callable, callable⟩
  · split
    · exact .quiet (knowing_fail fun kind => by cases kind)
    · next counted =>
      rw [callable] at counted
      have length : args.length = arity := not_not.mp counted
      cases htag : callee.tag with
      | native native arity =>
        exact vouched_runNativeWith h running (fun w => (enrolled w).honest htag args) own
      | func arity' =>
        rw [htag] at callable
        cases callable
        exact vouched_runFunction h running fun w => length ▸ (enrolled w).described htag
      | _ => exact .quiet (knowing_complain _)

theorem vouched_handOver {callee : Symbol Native} {count literals : Nat} {form : CallForm}
    {list : Scanner} {m : Machine} (running : Running whole origin m)
    (callable : ∃ arity, callee.tag.arity? = some arity)
    (enrolled : whole = true → m.memory.Enrolled callee) (own : OwnList form list literals m) :
    Vouched whole origin (.handOver r callee count literals form list) m := by
  refine .truncatingLiterals (.afterQuiet (knowing_popOnto [] count) fun args m₁ popped => ?_)
  have kept : Books m m₁ := ((books_loose h.books h.booksBody).popOnto [] count).done popped
  obtain ⟨args', arena, history, popped'⟩ := popOnto_elsewhere [] count m
  cases popped'.symm.trans popped
  exact vouched_runCallee h (running.books kept) callable
    (fun w => (enrolled w).grows kept.grows (.refl _)) own

/-! ### Arguments -/

omit h in
theorem vouched_symbolAt {index : Nat} {m : Machine} (grounded : Grounded origin m)
    (token : m.token = .symbol index) : Vouched whole origin (.symbolAt index) m := by
  have pinned := grounded.seated index token
  obtain ⟨s, found⟩ := pinned.found
  have inside := (Array.getElem?_eq_some_iff.mp found).1
  refine .afterTold trivial (fun _ => ⟨inside, pinned⟩) (fun _ other => by cases other)
    (.quietly fun _ error m' failed => ?_)
  cases (symbolAt_of_some found).symm.trans failed

omit h in
theorem vouched_withSymbol {β : Type} {index : Nat} {m : Machine} {f : Symbol Native → Traced β}
    (grounded : Grounded origin m) (token : m.token = .symbol index)
    (hf : ∀ {s}, m.arena.symbols[index]? = some s → Vouched whole origin (f s) m) :
    Vouched whole origin (.symbolAt index >>= f) m := by
  refine (vouched_symbolAt grounded token).bind fun s m' done => ?_
  obtain ⟨rfl, found⟩ := symbolAt_eq_done done
  exact hf found

omit h in
theorem vouched_tokenTag? {m : Machine} (grounded : Grounded origin m) :
    Vouched whole origin .tokenTag? m := by
  refine .afterRead ?_
  cases token : m.token with
  | symbol index => exact vouched_withSymbol grounded token fun _ => .quiet (knowing_pure _)
  | _ => exact .quiet (knowing_pure _)

omit h in
theorem vouched_startsExpression {m : Machine} (grounded : Grounded origin m) :
    Vouched whole origin .startsExpression m := by
  refine .afterRead ?_
  cases token : m.token with
  | symbol index =>
    refine vouched_withSymbol grounded token fun {s} _ => ?_
    cases s.tag <;> exact .quiet (knowing_pure _)
  | _ => exact .quiet (knowing_pure _)

omit h in
theorem knowing_push (word : Word) : Knowing (push word) := knowing_allocate _

theorem vouched_argument {m : Machine} (ready : Ready whole origin m) :
    Vouched whole origin (.argument r) m :=
  (h.expression ready).bind fun value _ _ => .quiet (knowing_push value)

omit h in
theorem vouched_loop {α σ : Type} {turn : σ → Traced (Turn σ α)}
    (hturn : ∀ s {m}, Ready whole origin m → Vouched whole origin (turn s) m)
    (onward : ∀ s, Keeps Onward (turn s).run) (passes : Nat) (s : σ) {m : Machine}
    (ready : Ready whole origin m) : Vouched whole origin (.loop turn passes s) m :=
  .loop hturn (fun {s _ _ _} ready done => ready.onward ((onward s).done done)) passes s ready

theorem Ready.advance {m m' : Machine} (ready : Ready whole origin m)
    (read : Eval.advance m = .done () m') :
    Ready whole origin m' := ready.onward ((onward_loose h).advance.done read)

theorem vouched_argumentsInParens {m : Machine} (ready : Ready whole origin m) :
    Vouched whole origin (.argumentsInParens r) m := by
  have k := onward_loose h
  refine .afterQuiet knowing_advance fun _ m₁ read => .afterRead ?_
  split
  · exact .quiet (knowing_pure 0)
  · exact vouched_loop (fun count _ ready => (vouched_argument h ready).bind fun _ _ _ =>
      .quiet (knowing_behindArgument count)) k.arguments.parensTurn _ 0 (ready.advance h read)

theorem vouched_argumentsAfterCallee {m : Machine} (ready : Ready whole origin m) :
    Vouched whole origin (.argumentsAfterCallee r) m := by
  refine .afterQuiet knowing_advance fun _ m₁ read => .afterRead ?_
  split
  · exact vouched_argumentsInParens h (ready.advance h read)
  · exact .quiet (knowing_complain _)

theorem vouched_bareArguments {m : Machine} (ready : Ready whole origin m) :
    Vouched whole origin (.bareArguments r) m := by
  have k := onward_loose h
  refine (vouched_startsExpression ready.grounded).bind fun starts m₁ asked => ?_
  cases Traced.unmoved Traced.run_startsExpression still_startsExpression asked
  split
  · exact vouched_loop (fun count _ ready => (vouched_argument h ready).bind fun _ _ _ =>
      .quiet (knowing_behindBare count)) k.arguments.bareTurn _ 0 ready
  · exact .quiet (knowing_pure 0)

theorem vouched_argumentsAfterCommand {m : Machine} (ready : Ready whole origin m) :
    Vouched whole origin (.argumentsAfterCommand r) m := by
  refine .afterQuiet knowing_advance fun _ m₁ read => .afterRead ?_
  split
  · exact (vouched_argumentsInParens h (ready.advance h read)).bind fun _ _ _ =>
      .quiet (knowing_pure _)
  · exact (vouched_bareArguments h (ready.advance h read)).bind fun _ _ _ => .quiet (knowing_pure _)

/-! ### The two forms -/

omit h in
/-- A symbol of the table can be called as its tag tells, also later on. -/
theorem Ready.enrolled {m m' : Machine} {index : Nat} {callee : Symbol Native}
    (ready : Ready whole origin m) (found : m.arena.symbols[index]? = some callee) (k : Onward m m') :
    whole = true → m'.memory.Enrolled callee := fun w =>
  ((ready.ledger w).now.symbols found).grows k.2.grows (.refl _)

theorem vouched_inExpression {m : Machine} {index : Nat} {callee : Symbol Native}
    (ready : Ready whole origin m) (found : m.arena.symbols[index]? = some callee)
    (callable : ∃ arity, callee.tag.arity? = some arity) :
    Vouched whole origin (.inExpression r callee) m := by
  have k := onward_loose h
  refine .afterRead (.afterRead ?_)
  refine (Vouched.unwinding (.withQuoting (vouched_argumentsAfterCallee h
    (ready.onward (k.quoting m .argument))))).bind fun count m₁ listed => ?_
  have listed' : unwinding (withQuoting .argument (Call.argumentsAfterCallee r.run)) m =
      .done count m₁ :=
    Traced.run_unwinding (Traced.run_withQuoting (Traced.run_argumentsAfterCallee r) _) ▸ listed
  have onward : Onward m m₁ :=
    (k.unwinding (k.withQuoting .argument k.arguments.argumentsAfterCallee)).done listed'
  refine (vouched_handOver h (ready.onward onward).toRunning callable (ready.enrolled found onward)
    fun _ => ?_).bind fun value _ _ => .afterQuiet knowing_advance fun _ _ _ =>
      .quiet (knowing_pure _)
  obtain ⟨n, arguments, rfl⟩ := unwinding_eq_done listed'
  obtain ⟨-, list, enclosed⟩ := enclosed_argumentsAfterCallee h.reading
    (ready.grounded.faithful.withQuoting .argument) arguments
  exact enclosed.argumentList rfl

theorem vouched_asStatement {m : Machine} {index : Nat} {callee : Symbol Native}
    (ready : Ready whole origin m) (found : m.arena.symbols[index]? = some callee)
    (callable : ∃ arity, callee.tag.arity? = some arity) :
    Vouched whole origin (.asStatement r callee) m := by
  have k := onward_loose h
  refine .afterRead (.afterRead ?_)
  refine (Vouched.unwinding (.withQuoting (vouched_argumentsAfterCommand h
    (ready.onward (k.quoting m .argument))))).bind fun counted m₁ listed => ?_
  have listed' : unwinding (withQuoting .argument (Call.argumentsAfterCommand r.run)) m =
      .done counted m₁ :=
    Traced.run_unwinding (Traced.run_withQuoting (Traced.run_argumentsAfterCommand r) _) ▸ listed
  have onward : Onward m m₁ :=
    (k.unwinding (k.withQuoting .argument k.arguments.argumentsAfterCommand)).done listed'
  refine (vouched_handOver h (ready.onward onward).toRunning callable (ready.enrolled found onward)
    ?_).bind fun value _ _ => ?_
  · obtain ⟨n, arguments, rfl⟩ := unwinding_eq_done listed'
    obtain ⟨count, inParens⟩ := counted
    have read := read_argumentsAfterCommand h.reading (ready.grounded.faithful.withQuoting .argument)
      arguments
    cases inParens with
    | true =>
      obtain ⟨-, list, enclosed⟩ := read
      exact fun _ => enclosed.argumentList rfl
    | false =>
      have listing : Listing 0 { m with quoting := .argument } n := read
      exact fun behind => listing.argumentList rfl (behind rfl)
  · split
    · exact .quiet knowing_advance
    · exact .quiet (knowing_pure _)

end

end Scriptlet
