import Scriptlet.Proofs.Trace.Calls

/-!
Accounts of expressions and bodies, and with them of every evaluation. An assignment waits for its value
with the index of its variable in hand: `since` is the machine on which the statement began, and from
there to the moment at which the value is stored memory has only grown.
-/

namespace Scriptlet

open Eval

section

variable {whole : Bool} {origin : Machine} {r : TracedReentry}
  (h : VouchingDiscipline whole origin r)

/-! ### Expressions -/

theorem vouched_operatorOfLevel (level : Nat) {m : Machine} (grounded : Grounded origin m) :
    Vouched whole origin (.operatorOfLevel level) m := by
  refine (vouched_tokenTag? grounded).bind fun tag? _ _ => ?_
  rcases tag? with - | tag
  · exact .quiet (knowing_pure _)
  · cases tag <;> exact .quiet (knowing_pure _)

/-- A name that stands for nothing is told of before it is an error. -/
theorem vouched_unknown {α : Type} (name : Slice) (m : Machine) :
    Vouched whole origin (.unknown name : Traced α) m :=
  .failing trivial (fun _ => trivial) (fun _ other => by cases other) fun _ => trivial

include h

theorem vouched_group {m : Machine} (ready : Ready whole origin m) :
    Vouched whole origin (.group r) m := by
  refine .afterQuiet knowing_advance fun _ m₁ read => ?_
  refine (h.expression (ready.advance h read)).bind fun value _ _ => .afterRead ?_
  split
  · exact .quiet (knowing_pure _)
  · exact .quiet (knowing_complain _)

theorem vouched_symbolAtom {m : Machine} {index : Nat} {s : Symbol Native} (ready : Ready whole origin m)
    (found : m.arena.symbols[index]? = some s) : Vouched whole origin (.symbolAtom r s) m := by
  unfold Traced.symbolAtom
  cases htag : s.tag with
  | var => exact .afterQuiet knowing_advance fun _ _ _ => .quiet (knowing_pure _)
  | native native arity => exact vouched_inExpression h ready found ⟨arity, congrArg Tag.arity? htag⟩
  | func arity => exact vouched_inExpression h ready found ⟨arity, congrArg Tag.arity? htag⟩
  | operator op =>
    refine .afterQuiet knowing_advance fun _ _ read => ?_
    exact (h.expression (ready.advance h read)).bind fun value _ _ => .quiet (knowing_apply op 0 value)
  | keyword word => exact .quiet (knowing_complain _)

theorem vouched_atom {m : Machine} (ready : Ready whole origin m) :
    Vouched whole origin (.atom r) m := by
  refine .afterRead ?_
  cases token : m.token with
  | openParen =>
    have inside := ready.onward ((onward_loose h).quoting m .plain)
    exact (Vouched.withQuoting (vouched_group h inside)).bind fun value _ _ =>
      .afterQuiet knowing_advance fun _ _ _ => .quiet (knowing_pure _)
  | symbol index =>
    exact vouched_withSymbol ready.grounded token fun found => vouched_symbolAtom h ready found
  | name name => exact vouched_unknown name m
  | number _ | text _ | literal =>
    exact .afterQuiet knowing_advance fun _ _ _ => .quiet (knowing_pure _)
  | _ => exact .quiet (knowing_complain _)

theorem onward_upToLevel (level : Nat) : Keeps Onward (Traced.run (.upToLevel r level)) :=
  Traced.run_upToLevel r level ▸ (onward_discipline h).upToLevel level

theorem vouched_upToLevel (level : Nat) {m : Machine} (ready : Ready whole origin m) :
    Vouched whole origin (.upToLevel r level) m := by
  have k := onward_discipline h
  induction level generalizing m with
  | zero => exact vouched_atom h ready
  | succ level ih =>
    refine (ih ready).bind fun first m₁ done => ?_
    have onward : ∀ value, Keeps Onward (Traced.levelTurn (level + 1) (.upToLevel r level) value).run :=
      fun value => Traced.run_levelTurn rfl (level + 1) value ▸
        k.toTrack.levelTurn k.advance (onward_upToLevel h level) _ value
    refine vouched_loop (fun value m ready => ?_) onward _ first
      (ready.onward ((onward_upToLevel h level).done done))
    refine (vouched_operatorOfLevel _ ready.grounded).bind fun op? m₂ asked => ?_
    cases Traced.unmoved (Traced.run_operatorOfLevel _) (still_operatorOfLevel _) asked
    cases op? with
    | some op =>
      refine .afterQuiet knowing_advance fun _ _ read => ?_
      exact (ih (ready.advance h read)).bind fun operand _ _ =>
        .afterQuiet (knowing_apply op value operand) fun _ _ _ => .quiet (knowing_pure _)
    | none => exact .quiet (knowing_pure _)

/-! ### Assignments -/

/-- The value is stored in the variable that the statement found or made. -/
theorem vouched_assign {index : Nat} {since : Machine} {s : Symbol Native} {m : Machine}
    (ready : Ready whole origin m) (run : Meanwhile origin since)
    (pinned : Pinned origin index since ∨ since.arena.symbols.size = index + 1)
    (found : since.arena.symbols[index]? = some s) (hvar : s.tag = .var) (k : Meanwhile since m) :
    Vouched whole origin (.assign r index since) m := by
  refine (vouched_tokenTag? ready.grounded).bind fun tag? m₁ asked => ?_
  cases Traced.unmoved Traced.run_tokenTag? still_tokenTag? asked
  have stored : Vouched whole origin (do
      (advance : Traced Unit)
      let value ← r.expression
      Traced.tell (.storing index since)
      (update fun m => m.withArena (m.arena.setValue index value) : Traced Unit)) m := by
    refine .afterQuiet knowing_advance fun _ m₂ read => ?_
    refine (h.expression (ready.advance h read)).bind fun value m₃ evaluated => ?_
    have meanwhile : Meanwhile since m₃ :=
      expanding_meanwhile.trans k (expanding_meanwhile.trans
        ((expanding_meanwhile.advanceBy false).done read) (h.reading.moves.done evaluated).meanwhile)
    exact .afterTold trivial (fun _ => ⟨run, pinned, ⟨s, found, hvar⟩, meanwhile.lasting found⟩)
      (fun _ other => by cases other) (.quiet (knowing_update _))
  rcases tag? with - | tag
  · exact .quiet (knowing_complain _)
  · cases tag with
    | operator op =>
      cases op with
      | equal => exact stored
      | _ => exact .quiet (knowing_complain _)
    | _ => exact .quiet (knowing_complain _)

theorem vouched_reassign {index : Nat} {s : Symbol Native} {m : Machine} (ready : Ready whole origin m)
    (token : m.token = .symbol index) (found : m.arena.symbols[index]? = some s)
    (hvar : s.tag = .var) : Vouched whole origin (.reassign r index) m :=
  .afterRead (.afterQuiet knowing_advance fun _ _ read =>
    vouched_assign h (ready.advance h read) ready.since
      (.inl (ready.grounded.seated index token)) found hvar ((expanding_meanwhile.advanceBy false).done read))

theorem vouched_declareVariable {m : Machine} (ready : Ready whole origin m) :
    Vouched whole origin (.declareVariable r) m := by
  have k := onward_discipline h
  have naming := (moves_defining h.reading.moves).naming
  refine .afterQuiet (knowing_advanceBy true) fun _ m₁ read => ?_
  refine .afterQuiet knowing_definedName fun name m₂ named => ?_
  refine .afterQuiet (knowing_allocate _) fun index m₃ added => .afterRead ?_
  have ready₂ : Ready whole origin m₂ := (ready.onward ((k.advanceBy true).done read)).onward
    ⟨naming.definedName.done named, books_naming.definedName.done named⟩
  obtain ⟨arena, granted, rfl⟩ := allocate_eq_done added
  have ready₃ : Ready whole origin (m₂.withArena arena) := ready₂.onward
    ⟨.withArena (.addSymbol granted), books_addSymbol granted fun _ => Memory.enrolled_var _ _ _⟩
  obtain ⟨-, rfl, rfl⟩ := Arena.addSymbol_eq_some granted
  exact .afterQuiet knowing_advance fun _ m₄ read => vouched_assign h (ready₃.advance h read)
    ready₃.since (.inr (Array.size_push _)) Array.getElem?_push_size rfl
    ((expanding_meanwhile.advanceBy false).done read)

/-! ### Branches, loops and results -/

omit h in
theorem vouched_takeAlternative {m : Machine} (ready : Ready whole origin m) :
    Vouched whole origin .takeAlternative m := by
  refine (vouched_tokenTag? ready.grounded).bind fun tag? m₁ _ => ?_
  rcases tag? with - | tag
  · exact .quiet (knowing_pure _)
  · cases tag with
    | keyword word =>
      cases word with
      | otherwise =>
        exact .afterQuiet knowing_advance fun _ _ _ => .afterQuiet knowing_takeBody fun _ _ _ =>
          .quiet (knowing_pure _)
      | _ => exact .quiet (knowing_pure _)
    | _ => exact .quiet (knowing_pure _)

theorem vouched_nestedBody (body : Slice) {m : Machine} (running : Running whole origin m) :
    Vouched whole origin (.nestedBody r body) m :=
  .noting ((h.body body false false (running.books (.note m))).bind fun _ _ _ =>
    .quiet (knowing_pure _))

theorem vouched_branch {m : Machine} (ready : Ready whole origin m) :
    Vouched whole origin (.branch r) m := by
  have k := onward_discipline h
  refine .afterQuiet knowing_advance fun _ m₁ read => ?_
  have ready₁ := ready.advance h read
  refine (h.expression ready₁).bind fun condition m₂ evaluated => ?_
  have ready₂ := ready₁.onward (k.expression.done evaluated)
  refine .afterQuiet knowing_takeBody fun body m₃ taken => ?_
  have ready₃ := ready₂.onward (k.takeBody.done taken)
  refine (vouched_takeAlternative ready₃).bind fun alternative m₄ taken' => ?_
  have ready₄ := ready₃.onward (Traced.kept Traced.run_takeAlternative k.takeAlternative taken')
  split
  · exact (vouched_nestedBody h body ready₄.toRunning).bind fun _ _ _ => .quiet (knowing_pure _)
  · cases alternative with
    | some body =>
      exact (vouched_nestedBody h body ready₄.toRunning).bind fun _ _ _ => .quiet (knowing_pure _)
    | none => exact .quiet (knowing_pure _)

/-- The cursor that a loop goes back to is that of its start, so the turns are followed from there. -/
theorem vouched_repeatBranch {m : Machine} (ready : Ready whole origin m) :
    Vouched whole origin (.repeatBranch r) m := by
  have k := onward_discipline h
  refine .afterRead (.loop (I := Onward m) (fun _ n onward => ?_) (fun {_ n _ n'} onward done => ?_) _ _
    (k.refl m))
  · refine (vouched_branch h (ready.onward onward)).bind fun held n' _ => ?_
    cases held with
    | true => exact .afterQuiet (knowing_update _) fun _ _ _ => .quiet (knowing_pure _)
    | false => exact .quiet (knowing_pure _)
  · obtain ⟨held, n₁, branched, rest⟩ := bind_eq_done done
    have passed := k.trans onward (Traced.kept (Traced.run_branch r) k.branch branched)
    cases held with
    | true =>
      cases rest
      exact k.rewind passed
    | false => cases rest

theorem vouched_setResult {m : Machine} (ready : Ready whole origin m) :
    Vouched whole origin (.setResult r) m := by
  refine .afterQuiet knowing_advance fun _ m₁ read => ?_
  have ready₁ := ready.advance h read
  refine (vouched_startsExpression ready₁.grounded).bind fun starts m₂ asked => ?_
  cases Traced.unmoved Traced.run_startsExpression still_startsExpression asked
  cases starts with
  | true => exact (h.expression ready₁).bind fun value _ _ => .quiet (knowing_update _)
  | false => exact .afterQuiet (knowing_pure _) fun value _ _ => .quiet (knowing_update _)

/-! ### Statements and bodies -/

theorem vouched_ofKeyword (word : Keyword) {m : Machine} (ready : Ready whole origin m) :
    Vouched whole origin (.ofKeyword r word) m := by
  cases word with
  | var => exact (vouched_declareVariable h ready).bind fun _ _ _ => .quiet (knowing_pure _)
  | cond => exact (vouched_branch h ready).bind fun _ _ _ => .quiet (knowing_pure _)
  | loop => exact (vouched_repeatBranch h ready).bind fun _ _ _ => .quiet (knowing_pure _)
  | func => exact .afterQuiet knowing_declareFunction fun _ _ _ => .quiet (knowing_pure _)
  | leave => exact (vouched_setResult h ready).bind fun _ _ _ => .quiet (knowing_pure _)
  | otherwise => exact .quiet (knowing_complain _)

theorem vouched_statement {m : Machine} (ready : Ready whole origin m) :
    Vouched whole origin (.statement r) m := by
  refine .afterRead ?_
  cases token : m.token with
  | symbol index =>
    refine vouched_withSymbol ready.grounded token fun {s} found => ?_
    cases htag : s.tag with
    | var =>
      exact (vouched_reassign h ready token found htag).bind fun _ _ _ => .quiet (knowing_pure _)
    | native native arity =>
      exact (vouched_asStatement h ready found ⟨arity, congrArg Tag.arity? htag⟩).bind fun _ _ _ =>
        .quiet (knowing_pure _)
    | func arity =>
      exact (vouched_inExpression h ready found ⟨arity, congrArg Tag.arity? htag⟩).bind fun _ _ _ =>
        .quiet (knowing_pure _)
    | keyword word => exact vouched_ofKeyword h word ready
    | operator op => exact .quiet (knowing_complain _)
  | name name => exact vouched_unknown name m
  | _ => exact .quiet (knowing_complain _)

omit h in
theorem vouched_passSeparator {m : Machine} (ready : Ready whole origin m) :
    Vouched whole origin .passSeparator m := by
  refine .afterRead ?_
  cases token : m.token with
  | separator => exact .quiet knowing_advance
  | symbol index =>
    refine vouched_withSymbol ready.grounded token fun {s} _ => ?_
    cases s.tag with
    | keyword word =>
      cases word with
      | otherwise => exact .quiet (knowing_complain _)
      | _ => exact .quiet (knowing_pure _)
    | operator op => exact .quiet (knowing_complain _)
    | _ => exact .quiet (knowing_pure _)
  | eof | name _ => exact .quiet (knowing_pure _)
  | _ => exact .quiet (knowing_complain _)

theorem vouched_statementTurn {m : Machine} (ready : Ready whole origin m) :
    Vouched whole origin (.statementTurn r) m := by
  have onward : Keeps Onward (Traced.run (.statement r)) :=
    Traced.run_statement r ▸ (onward_discipline h).statement
  refine (vouched_statement h ready).bind fun ending m' done => ?_
  cases ending with
  | returned => exact .quiet (knowing_pure _)
  | ranOut =>
    exact (vouched_passSeparator (ready.onward (onward.done done))).bind fun _ _ _ =>
      .quiet (knowing_pure _)

theorem vouched_statements {m : Machine} (ready : Ready whole origin m) :
    Vouched whole origin (.statements r) m := by
  have onward : ∀ u, Keeps Onward (Traced.run (.turn r u)) := fun u =>
    Traced.run_turn r u ▸ (onward_discipline h).turn
  refine vouched_loop (fun _ m ready => .afterRead ?_) onward _ () ready
  cases m.token with
  | eof => exact .quiet (knowing_pure _)
  | separator => exact .afterQuiet knowing_advance fun _ _ _ => .quiet (knowing_pure _)
  | _ => exact vouched_statementTurn h ready

/-- A body is read from its own start, so the place of reading before does not matter. -/
theorem vouched_wholeBody (body : Slice) (topLevel duplicate : Bool) {m : Machine}
    (running : Running whole origin m) :
    Vouched whole origin (.wholeBody r body topLevel duplicate) m := by
  refine .inScope (.inBody (.locating (.afterQuiet knowing_advance fun _ m₁ read => ?_)))
  have entered : Books m { m with cursor := m.cursorAt body, quoting := .plain, duplicate } :=
    .elsewhere rfl rfl
  have running₁ := (running.books entered).books ((books_roaming.advanceBy false).done read)
  exact vouched_statements h ⟨running₁,
    grounded_of_advanceBy (running.books entered).since (faithful_cursorAt m body duplicate) read⟩

end

/-! ### Every budget -/

/-- On every budget, what is told of expressions and bodies is as it has to be. -/
theorem vouchingDiscipline_ofFuel (whole : Bool) (origin : Machine) (world : World) (fuel : Nat) :
    VouchingDiscipline whole origin (.ofFuel world fuel) := by
  have reading : ∀ fuel, ReadingDiscipline (TracedReentry.ofFuel world fuel).run := fun fuel =>
    TracedReentry.run_ofFuel world fuel ▸ readingDiscipline_ofFuel world fuel
  have books : ∀ fuel, Keeps Books (TracedReentry.ofFuel world fuel).run.expression ∧
      ∀ body topLevel duplicate,
        Keeps Books ((TracedReentry.ofFuel world fuel).run.body body topLevel duplicate) := fun fuel =>
    TracedReentry.run_ofFuel world fuel ▸ books_ofFuel world fuel
  induction fuel with
  | zero =>
    refine ⟨reading 0, (books 0).1, (books 0).2, fun _ => ?_, fun _ _ _ _ _ => ?_⟩
    · exact .quiet fun _ _ _ failed => by cases failed
    · exact .quiet fun _ _ _ failed => by cases failed
  | succ fuel ih =>
    exact ⟨reading (fuel + 1), (books (fuel + 1)).1, (books (fuel + 1)).2,
      vouched_upToLevel ih Operator.maxLevel, vouched_wholeBody ih⟩

end Scriptlet
