import Scriptlet.Proofs.Durable.Spending

/-!
Every evaluation that copies nothing pays for descriptors alone. The constructs are gone through once. A
call is the one place where words come off the stack: they are those of its own argument list, so the stack
is as high again as before the list.
-/

namespace Scriptlet

open Eval

variable {α β : Type}

/-! ### Calls -/

/-- The computation takes words off the stack, and then spends no more than a thrifty one. -/
def Traced.Takes (count : Nat) (x : Traced α) : Prop :=
  ∀ m₀ m, Spends m₀ m → m₀.duplicate = false → m₀.arena.depth + count ≤ m.arena.depth →
    x.Sourceless m → Spends m₀ (x.run m).machine

theorem Traced.Takes.bind {count : Nat} {x : Traced α} {f : α → Traced β} (hx : x.Takes count)
    (hf : ∀ a, (f a).Thrifty) : (x >>= f).Takes count := fun m₀ m spent plain pushed sourceless =>
  spends_bind sourceless (hx m₀ m spent plain pushed sourceless.left)
    fun a _ _ rest spent => (hf a).after spent plain rest

/-- What takes the words of an argument list goes on from before the list. -/
theorem Traced.Thrifty.calling {x : Traced α} {words : α → Nat} (hx : x.Thrifty)
    (pushes : Stacks 0 words x.run) {f : α → Traced β} (hf : ∀ a, (f a).Takes (words a)) :
    (Traced.unwinding x >>= f).Thrifty := by
  intro m natives plain sourceless
  have listed := hx m natives plain sourceless.left
  -- on failure what was pushed is taken off again
  have unwound : ∀ m', Spends m m' → Spends m { m'.withArena (m'.arena.unwind m.arena.depth) with
      literals := m'.literals.truncate m.literals.size } := by
    intro m' h
    have height : m.arena.depth ≤ (m'.arena.stack.take m.arena.depth).size := by
      have := h.stack
      rw [Array.take_eq_extract, Array.size_extract]
      unfold Arena.depth at this ⊢
      omega
    exact (h.withStack height).congr rfl rfl h.duplicate
  have run : (Traced.unwinding x).run m = Eval.unwinding x.run m := rfl
  refine Traced.spends_bind sourceless ?_ fun a m' done rest spent => ?_
  · rw [run]
    unfold Eval.unwinding
    dsimp only
    generalize x.run m = o at listed
    cases o with
    | done a m' => exact listed
    | failed e m' => exact unwound m' listed
    | stopped why m' => exact unwound m' listed
  · have ran : x.run m = .done a m' := by
      rw [run] at done
      unfold Eval.unwinding at done
      cases ran : x.run m with
      | done b n =>
        rw [ran] at done
        exact done
      | _ =>
        rw [ran] at done
        cases done
    have height := pushes m a m' ran
    exact hf a m m' spent plain (by unfold Arena.depth; omega) rest

/-- What is nested is thrifty, and expressions are balanced. -/
structure ThriftyReentry (r : TracedReentry) : Prop where
  expression : r.expression.Thrifty
  body : ∀ body topLevel m, m.OnlyBuiltins → (r.body body topLevel false).Sourceless m →
    Spends m ((r.body body topLevel false).run m).machine
  balanced : Keeps Balanced r.run.expression

namespace ThriftyReentry

open Traced.Thrifty (still still_bind quiet_bind)

variable {r : TracedReentry} (h : ThriftyReentry r)

/-! ### Natives and functions -/

/-- The initial natives spend nothing, if no file is asked for. -/
theorem thrifty_builtin {entry : String × Nat × Native} (member : entry ∈ Builtin.all)
    (other : entry.2.2 ≠ Builtin.source) (args : List Word) :
    (Traced.perform r (entry.2.2 args)).Thrifty := by
  have requests : Builtin.Requests fun action => (Traced.perform r action).Thrifty := {
    give := fun value => still (still_pure value)
    takeLiteral := fun hnext => quiet_bind (fun _ => spares_elsewhere rfl rfl) hnext
    print := fun bytes => quiet_bind (fun _ => spares_elsewhere rfl rfl) fun _ => still (still_pure 0)
    ask := fun hnext => quiet_bind (spares_ask r.world _) hnext }
  rcases requests.of_mem member args with ⟨-, source⟩ | thrifty
  · exact absurd source other
  · exact thrifty

include h

theorem thrifty_body (body : Slice) (topLevel : Bool) : (r.body body topLevel false).Thrifty :=
  fun m natives _ sourceless => h.body body topLevel m natives sourceless

theorem runFunction (number : Word) (args : List Word) : (Traced.runFunction r number args).Thrifty := by
  refine .noting (.told_bind fun _ => still_bind (still_read _) fun routine? => ?_)
  cases routine? with
  | none => exact still (still_fail _)
  | some routine =>
    have body := h.thrifty_body routine.body false
    refine .inFrame (quiet_bind (spares_bindParameters _) fun _ => ?_)
    refine quiet_bind (fun _ => spares_elsewhere rfl rfl) fun _ => ?_
    exact thrifty_track.bind_still body fun _ => still_read _

theorem runCallee {callee : Symbol Native} (initial : callee.tag.Initial) (args : List Word)
    (literals : Nat) (form : CallForm) (list : Scanner) :
    (Traced.runCallee r callee args literals form list).Thrifty := by
  refine .told_bind fun other => ?_
  split
  · exact still (still_fail _)
  · next counted =>
    cases htag : callee.tag with
    | native native arity =>
      obtain ⟨entry, member, rfl⟩ := initial htag
      have called : args.length = arity := by
        rw [htag] at counted
        exact not_not.mp counted
      -- the account has the call with as many words as the native takes
      have no_source : entry.2.2 ≠ Builtin.source := by
        intro source
        refine other ?_
        change callee.tag = _
        rw [htag, source, called]
      have performed := thrifty_builtin (r := r) member no_source args
      exact .withPending (.told_bind fun _ => performed) literals
    | func arity => exact h.runFunction callee.value args
    | _ => exact still (still_fail _)

theorem handOver {callee : Symbol Native} (initial : callee.tag.Initial) (count literals : Nat)
    (form : CallForm) (list : Scanner) :
    (Traced.handOver r callee count literals form list).Takes count := by
  intro m₀ m spent plain pushed sourceless
  have handed : Spends m₀ (((Traced.quiet (popWords count) : Traced (List Word)) >>= fun args =>
      Traced.runCallee r callee args literals form list).run m).machine :=
    Traced.spends_bind sourceless (spent.popOnto pushed []) fun args _ _ rest spent =>
      (h.runCallee initial args literals form list).after spent plain rest
  change Spends m₀ (Outcome.adjust _ (((Traced.quiet (popWords count) : Traced (List Word)) >>= fun args =>
    Traced.runCallee r callee args literals form list).run m)).machine
  rw [Outcome.machine_adjust]
  exact handed.congr rfl rfl handed.duplicate

/-! ### Expressions and statements -/

theorem arguments : TracedArguments Traced.Thrifty (·.tag.Initial) r where
  toTracedTrack := thrifty_track
  advanceBy raw := .quiet (spares_advanceBy raw)
  symbolAt := .symbolAt_bind
  push word := .quiet (spares_push word)
  expression := h.expression

theorem inExpression {callee : Symbol Native} (initial : callee.tag.Initial) :
    (Traced.inExpression r callee).Thrifty := by
  refine still_bind (still_read _) fun list => still_bind (still_read _) fun literals => ?_
  have pushes : Stacks 0 id (Traced.withQuoting .argument (Traced.argumentsAfterCallee r)).run := by
    rw [Traced.run_withQuoting (Traced.run_argumentsAfterCallee r)]
    exact stacks_withQuoting .argument (stacks_argumentsAfterCallee h.balanced)
  have listed := h.arguments.argumentsAfterCallee.withQuoting .argument
  refine listed.calling pushes fun count => ?_
  have handed := h.handOver initial count literals .parenthesised list
  exact handed.bind fun _ => h.arguments.bind_still h.arguments.advance fun _ => still_pure _

theorem asStatement {callee : Symbol Native} (initial : callee.tag.Initial) :
    (Traced.asStatement r callee).Thrifty := by
  refine still_bind (still_read _) fun list => still_bind (still_read _) fun literals => ?_
  have pushes : Stacks 0 Prod.fst (Traced.withQuoting .argument (Traced.argumentsAfterCommand r)).run := by
    rw [Traced.run_withQuoting (Traced.run_argumentsAfterCommand r)]
    exact stacks_withQuoting .argument (stacks_argumentsAfterCommand h.balanced)
  have listed := h.arguments.argumentsAfterCommand.withQuoting .argument
  refine listed.calling pushes fun counted => ?_
  have handed := h.handOver initial counted.1 literals (if counted.2 then .parenthesised else .command) list
  refine handed.bind fun _ => ?_
  split
  · exact h.arguments.advance
  · exact still (still_pure _)

theorem nestedBody (body : Slice) : (Traced.nestedBody r body).Thrifty := by
  have run := h.thrifty_body body false
  exact .noting (thrifty_track.bind_still run fun _ => still_pure _)

/-- The cursor that a loop goes back to is none of memory's business. -/
theorem repeatBranch (choice : (Traced.choice r).Thrifty) : (Traced.repeatBranch r).Thrifty := by
  refine still_bind (still_read _) fun start => thrifty_track.loop (fun u => ?_) _ ()
  have branch : (Traced.branch r).Thrifty := h.arguments.bind h.arguments.advance fun _ => choice
  refine branch.bind fun held => ?_
  cases held with
  | true => exact quiet_bind (fun _ => spares_elsewhere rfl rfl) fun _ => still (still_pure _)
  | false => exact still (still_pure _)

theorem discipline : TracedDiscipline Traced.Thrifty (·.tag.Initial) (fun _ => True) r where
  toTracedArguments := h.arguments
  atToken atName other := still_bind (still_read _) fun token => by
    cases token with
    | name name =>
      rw [atName name]
      exact .told_bind fun _ => still (still_fail _)
    | _ => exact other _ fun _ h => by cases h
  plain hx := hx.withQuoting .plain
  storing index since value := .told_bind fun _ => .quiet (spares_setValue index value)
  result _ := .quiet fun _ => spares_elsewhere rfl rfl
  definedName := thrifty_track.definedName fun slice => .quiet (spares_keep slice)
  definedBody hf := .bind (thrifty_track.definedBody fun slice => .quiet (spares_keep slice)) fun body =>
    hf body trivial
  takeBody hf := .bind h.arguments.takeBody fun body => hf body trivial
  addSymbol _ _ {_} htag := .quiet (spares_addSymbol htag)
  addRoutine {routine} _ := .quiet (spares_addRoutine routine)
  repeating := h.repeatBranch
  nestedBody {body} _ := h.nestedBody body
  inExpression := h.inExpression
  asStatement := h.asStatement

/-- A body that is not copied is thrifty, whether or not what encloses it is copied. -/
theorem wholeBody (body : Slice) (topLevel : Bool) {m : Machine} (natives : m.OnlyBuiltins)
    (sourceless : (Traced.wholeBody r body topLevel false).Sourceless m) :
    Spends m ((Traced.wholeBody r body topLevel false).run m).machine := by
  -- while the body is read the flag is off, and afterwards it is what it was
  have inside : (do Traced.quiet advance; Traced.statements r : Traced Ending).Thrifty :=
    h.arguments.advance.bind fun _ => h.discipline.statements
  have ran := inside { m with cursor := m.cursorAt body, quoting := .plain, duplicate := false }
    natives rfl sourceless
  have read : Spends m ((Traced.inBody body false (.locating do
      Traced.quiet advance; Traced.statements r)).run m).machine := by
    change Spends m (Outcome.adjust _ (Outcome.adjustError _
      ((do Traced.quiet advance; Traced.statements r : Traced Ending).run _))).machine
    rw [Outcome.machine_adjust, Outcome.machine_adjustError]
    exact ran.congr rfl rfl rfl
  change Spends m (Outcome.adjust _ ((Traced.inBody body false (.locating do
    Traced.quiet advance; Traced.statements r)).run m)).machine
  rw [Outcome.machine_adjust]
  cases topLevel with
  | true => exact read
  | false => exact read.rollback _

end ThriftyReentry

/-- On every budget, expressions and bodies are thrifty. -/
theorem thriftyReentry_ofFuel (world : World) (fuel : Nat) : ThriftyReentry (.ofFuel world fuel) := by
  have balanced : ∀ fuel, Keeps Balanced (TracedReentry.ofFuel world fuel).run.expression := fun fuel =>
    TracedReentry.run_ofFuel world fuel ▸ (bracketed_ofFuel world fuel).1
  induction fuel with
  | zero => exact ⟨fun m natives _ _ => .refl natives, fun _ _ m natives _ => .refl natives, balanced 0⟩
  | succ fuel ih =>
    exact ⟨ih.discipline.wholeExpression, fun body topLevel m natives => ih.wholeBody body topLevel natives,
      balanced (fuel + 1)⟩

end Scriptlet
