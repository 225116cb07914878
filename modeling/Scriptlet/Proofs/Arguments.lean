import Scriptlet.Proofs.Bracket
import Scriptlet.Proofs.Lasting
import Scriptlet.Proofs.Reach

/-!
How arguments reach a callee. All calls share one stack: an argument is evaluated, and its value is
pushed before the next one is evaluated, which may call anything, to any depth. That a call pops its
own words, in their order, rests on expressions being balanced: whatever an argument calls, the stack
is behind it what it was before.

`Values` and `Gives` say what it is for the expressions of a list to have values, evaluated from left
to right where the call stands. They do not mention the count that the machine keeps or the words it
pops; that these come to the same is what is proved here. The callee is then looked at from the
machine that is left when the words of the call are off the stack again. `Overflows` tells of the lists
for whose values the stack has no room.
-/

namespace Scriptlet

open Eval

/-! ### What a list gives -/

/-- An argument has been evaluated and its value pushed. -/
def Stacked (r : Reentry) (m : Machine) (value : Word) (n : Machine) : Prop :=
  ∃ k, r.expression m = .done value k ∧ push value k = .done () n

/-- The expressions from the current token on have these values, evaluated in their order, with a
comma between one and the next. `closes` tells the tokens at which the list may end. -/
inductive Values (r : Reentry) (closes : Token → Bool) : Machine → List Word → Machine → Prop
  | last {m n : Machine} {value : Word} (argument : Stacked r m value n)
      (ends : closes n.token = true) : Values r closes m [value] n
  | more {m n n' k : Machine} {value : Word} {values : List Word} (argument : Stacked r m value n)
      (comma : n.token = .comma) (next : advance n = .done () n')
      (rest : Values r closes n' values k) : Values r closes m (value :: values) k

inductive ListForm where
  | parenthesised
  | bare
  deriving DecidableEq

namespace ListForm

def closes : ListForm → Token → Bool
  | .parenthesised, t => t = .closeParen
  | .bare, t => t ≠ .comma

/-- The list that follows the name of a callee, which is the current token, begins on `n`. -/
def Opens : ListForm → Machine → Machine → Prop
  | .parenthesised, m, n => ∃ k, advance m = .done () k ∧ k.token = .openParen ∧ advance k = .done () n
  | .bare, m, n => advance m = .done () n ∧ n.token ≠ .openParen

/-- Whether the list that begins here has an argument. -/
def Begins : ListForm → Machine → Bool → Prop
  | .parenthesised, m, begins => begins = decide (m.token ≠ .closeParen)
  | .bare, m, begins => startsExpression m = .done begins m

end ListForm

/-- The list that begins here gives these values. -/
inductive GivesHere (r : Reentry) (form : ListForm) (m : Machine) : List Word → Machine → Prop
  | none (begins : form.Begins m false) : GivesHere r form m [] m
  | some {n : Machine} {values : List Word} (begins : form.Begins m true)
      (given : Values r form.closes m values n) : GivesHere r form m values n

/-- The list that follows the name of a callee, which is the current token, gives these values. -/
def Gives (r : Reentry) (form : ListForm) (m : Machine) (values : List Word) (n : Machine) : Prop :=
  ∃ k, form.Opens m k ∧ GivesHere r form k values n

/-- Of the expressions from the current token on, the one behind `count` others has a value for which
there is no room on the stack. -/
inductive Overflow (r : Reentry) : Machine → Nat → Machine → Prop
  | here {m n : Machine} {value : Word} (evaluated : r.expression m = .done value n)
      (full : n.arena.free < wordSize) : Overflow r m 0 n
  | later {m n n' k : Machine} {value : Word} {count : Nat} (argument : Stacked r m value n)
      (comma : n.token = .comma) (next : advance n = .done () n')
      (rest : Overflow r n' count k) : Overflow r m (count + 1) k

/-- In the list that follows the name of a callee, which is the current token, there is no room for
the value of an argument. -/
def Overflows (r : Reentry) (form : ListForm) (m : Machine) (count : Nat) (n : Machine) : Prop :=
  ∃ k, form.Opens m k ∧ form.Begins k true ∧ Overflow r k count n

/-! ### Lists are read as they give -/

variable {r : Reentry} {form : ListForm} {closes : Token → Bool} {m n k : Machine}
  {values : List Word}

theorem argument_eq_done : Call.argument r m = .done () n ↔ ∃ value, Stacked r m value n := by
  constructor
  · intro h
    obtain ⟨value, k, evaluated, pushed⟩ := bind_eq_done h
    exact ⟨value, k, evaluated, pushed⟩
  · rintro ⟨value, k, evaluated, pushed⟩
    rw [Call.argument, bind_of_done evaluated]
    exact pushed

namespace ListForm

def turn (r : Reentry) : ListForm → Nat → Eval (Turn Nat Nat)
  | .parenthesised => Call.parensTurn r
  | .bare => Call.bareTurn r

/-- Behind an argument a list goes on at a comma, and it ends where it may. -/
theorem turn_eq (r : Reentry) (form : ListForm) (count : Nat) : form.turn r count = (do
    Call.argument r
    let t ← token
    if t = .comma then do advance; return .again (count + 1)
    else if form.closes t then return .finish (count + 1)
    else complain .expectedClose) := by
  cases form <;> refine bind_congr fun _ => bind_congr fun t => ?_ <;> cases t <;> rfl

theorem closes_comma (form : ListForm) : form.closes .comma = false := by cases form <;> rfl

end ListForm

theorem turn_eq_again {count count' : Nat} {n' : Machine} :
    form.turn r count m = .done (.again count') n' ↔
      count' = count + 1 ∧
        ∃ value n, Stacked r m value n ∧ n.token = .comma ∧ advance n = .done () n' := by
  constructor
  · intro h
    rw [ListForm.turn_eq] at h
    obtain ⟨_, n, argued, rest⟩ := bind_eq_done h
    obtain ⟨value, stacked⟩ := argument_eq_done.mp argued
    rw [token_bind] at rest
    split at rest
    · next comma =>
      obtain ⟨_, _, next, last⟩ := bind_eq_done rest
      cases last
      exact ⟨rfl, value, n, stacked, comma, next⟩
    · split at rest <;> cases rest
  · rintro ⟨rfl, value, n, stacked, comma, next⟩
    rw [ListForm.turn_eq, bind_of_done (argument_eq_done.mpr ⟨value, stacked⟩), token_bind,
      if_pos comma, bind_of_done next]
    rfl

theorem turn_eq_finish {count total : Nat} :
    form.turn r count m = .done (.finish total) n ↔
      total = count + 1 ∧ ∃ value, Stacked r m value n ∧ form.closes n.token = true := by
  constructor
  · intro h
    rw [ListForm.turn_eq] at h
    obtain ⟨_, n₁, argued, rest⟩ := bind_eq_done h
    obtain ⟨value, stacked⟩ := argument_eq_done.mp argued
    rw [token_bind] at rest
    split at rest
    · obtain ⟨_, _, _, last⟩ := bind_eq_done rest
      cases last
    · split at rest
      · next ends =>
        cases rest
        exact ⟨rfl, value, stacked, ends⟩
      · cases rest
  · rintro ⟨rfl, value, stacked, ends⟩
    have comma : n.token ≠ .comma := by
      intro comma
      rw [comma, form.closes_comma] at ends
      cases ends
    rw [ListForm.turn_eq, bind_of_done (argument_eq_done.mpr ⟨value, stacked⟩), token_bind,
      if_neg comma, if_pos ends]
    rfl

/-- The loop over the arguments is done where the list gives values, and counts them. -/
theorem loop_turn_eq_done {passes count total : Nat} :
    Eval.loop (form.turn r) passes count m = .done total n ↔
      ∃ values, Values r form.closes m values n ∧ total = count + values.length ∧
        values.length ≤ passes := by
  induction passes generalizing count m with
  | zero =>
    constructor
    · intro stopped
      cases stopped
    · rintro ⟨values, given, -, few⟩
      cases given <;> cases few
  | succ passes ih =>
    unfold Eval.loop
    constructor
    · intro done
      split at done
      · next again =>
        obtain ⟨rfl, value, n₁, stacked, comma, next⟩ := turn_eq_again.mp again
        obtain ⟨values, given, rfl, few⟩ := ih.mp done
        refine ⟨value :: values, .more stacked comma next given, ?_, Nat.succ_le_succ few⟩
        rw [List.length_cons]
        omega
      · next finish =>
        cases done
        obtain ⟨rfl, value, stacked, ends⟩ := turn_eq_finish.mp finish
        exact ⟨[value], .last stacked ends, rfl, Nat.succ_le_succ (Nat.zero_le _)⟩
      · cases done
      · cases done
    · rintro ⟨values, given, rfl, few⟩
      cases given with
      | last stacked ends =>
        rw [turn_eq_finish.mpr ⟨rfl, _, stacked, ends⟩]
        rfl
      | @more _ n₁ n₂ _ value values stacked comma next rest =>
        rw [turn_eq_again.mpr ⟨rfl, value, n₁, stacked, comma, next⟩]
        refine ih.mpr ⟨values, rest, ?_, Nat.le_of_succ_le_succ few⟩
        rw [List.length_cons]
        omega

/-- A list is read, from where it begins, as it gives values. -/
theorem exists_givesHere_iff {count : Nat} :
    (∃ values, GivesHere r form m values n ∧ count = values.length ∧ values.length ≤ r.passes) ↔
      form.Begins m false ∧ count = 0 ∧ n = m ∨
        form.Begins m true ∧ r.loop (form.turn r) 0 m = .done count n := by
  constructor
  · rintro ⟨values, given, rfl, few⟩
    cases given with
    | none begins => exact .inl ⟨begins, rfl, rfl⟩
    | some begins given =>
      exact .inr ⟨begins, loop_turn_eq_done.mpr ⟨values, given, (Nat.zero_add _).symm, few⟩⟩
  · rintro (⟨begins, rfl, rfl⟩ | ⟨begins, done⟩)
    · exact ⟨[], .none begins, rfl, Nat.zero_le _⟩
    · obtain ⟨values, given, total, few⟩ := loop_turn_eq_done.mp done
      exact ⟨values, .some begins given, total.trans (Nat.zero_add _), few⟩

/-- A list in parentheses that has an argument is read by the loop. -/
theorem argumentsInParens_of_begins (inside : advance m = .done () k)
    (begins : ListForm.parenthesised.Begins k true) :
    Call.argumentsInParens r m = r.loop (ListForm.parenthesised.turn r) 0 k := by
  have further : k.token ≠ .closeParen := by simpa [ListForm.Begins] using begins
  rw [Call.argumentsInParens, bind_of_done inside, Call.insideParens, token_bind, if_neg further]
  rfl

theorem bareArguments_of_begins (begins : ListForm.bare.Begins m true) :
    Call.bareArguments r m = r.loop (ListForm.bare.turn r) 0 m := by
  rw [Call.bareArguments, bind_of_done begins]
  rfl

/-- The two forms are told apart by the token behind the name. -/
theorem argumentsAfterCommand_of_paren (behind : advance m = .done () k)
    (opened : k.token = .openParen) : Call.argumentsAfterCommand r m =
      (do return (← Call.argumentsInParens r, true) : Eval (Nat × Bool)) k := by
  rw [Call.argumentsAfterCommand, bind_of_done behind, token_bind, if_pos opened]

theorem argumentsAfterCommand_of_bare (behind : advance m = .done () k)
    (unopened : k.token ≠ .openParen) : Call.argumentsAfterCommand r m =
      (do return (← Call.bareArguments r, false) : Eval (Nat × Bool)) k := by
  rw [Call.argumentsAfterCommand, bind_of_done behind, token_bind, if_neg unopened]

theorem argumentsAfterCallee_of_paren (behind : advance m = .done () k)
    (opened : k.token = .openParen) :
    Call.argumentsAfterCallee r m = Call.argumentsInParens r k := by
  rw [Call.argumentsAfterCallee, bind_of_done behind, token_bind, if_pos opened]

theorem argumentsInParens_eq_done {count : Nat} :
    Call.argumentsInParens r m = .done count n ↔
      ∃ k, advance m = .done () k ∧
        ∃ values, GivesHere r .parenthesised k values n ∧ count = values.length ∧
          values.length ≤ r.passes := by
  simp only [exists_givesHere_iff]
  rw [Call.argumentsInParens]
  constructor
  · intro done
    obtain ⟨_, k, inside, rest⟩ := bind_eq_done done
    rw [Call.insideParens, token_bind] at rest
    refine ⟨k, inside, ?_⟩
    split at rest
    · next closed =>
      cases rest
      exact .inl ⟨by simp [ListForm.Begins, closed], rfl, rfl⟩
    · next further => exact .inr ⟨by simp [ListForm.Begins, further], rest⟩
  · rintro ⟨k, inside, ⟨begins, rfl, rfl⟩ | ⟨begins, done⟩⟩
    · have closed : n.token = .closeParen := by simpa [ListForm.Begins] using begins
      rw [bind_of_done inside, Call.insideParens, token_bind, if_pos closed]
      rfl
    · exact (argumentsInParens_of_begins inside begins).trans done

theorem bareArguments_eq_done {count : Nat} :
    Call.bareArguments r m = .done count n ↔
      ∃ values, GivesHere r .bare m values n ∧ count = values.length ∧ values.length ≤ r.passes := by
  rw [exists_givesHere_iff]
  constructor
  · intro done
    rw [Call.bareArguments] at done
    obtain ⟨starts, k, asked, rest⟩ := bind_eq_done done
    obtain rfl := still_startsExpression.done asked
    cases starts with
    | false =>
      cases rest
      exact .inl ⟨asked, rfl, rfl⟩
    | true => exact .inr ⟨asked, rest⟩
  · rintro (⟨begins, rfl, rfl⟩ | ⟨begins, done⟩)
    · rw [Call.bareArguments, bind_of_done begins]
      rfl
    · rw [bareArguments_of_begins begins]
      exact done

/-- The list that follows a command is read as it gives values, in the form that it has. -/
theorem argumentsAfterCommand_eq_done {count : Nat} {inParens : Bool} :
    Call.argumentsAfterCommand r m = .done (count, inParens) n ↔
      ∃ form values, Gives r form m values n ∧ values.length ≤ r.passes ∧ count = values.length ∧
        inParens = decide (form = .parenthesised) := by
  constructor
  · intro done
    obtain ⟨_, k, behind, rest⟩ := bind_eq_done done
    rw [token_bind] at rest
    split at rest
    · next opened =>
      obtain ⟨_, _, listed, last⟩ := bind_eq_done rest
      cases last
      obtain ⟨k', inside, values, given, total, few⟩ := argumentsInParens_eq_done.mp listed
      exact ⟨.parenthesised, values, ⟨k', ⟨k, behind, opened, inside⟩, given⟩, few, total, rfl⟩
    · next unopened =>
      obtain ⟨_, _, listed, last⟩ := bind_eq_done rest
      cases last
      obtain ⟨values, given, total, few⟩ := bareArguments_eq_done.mp listed
      exact ⟨.bare, values, ⟨k, ⟨behind, unopened⟩, given⟩, few, total, rfl⟩
  · rintro ⟨form, values, ⟨k, opens, given⟩, few, rfl, rfl⟩
    cases form with
    | parenthesised =>
      obtain ⟨k', behind, opened, inside⟩ := opens
      have listed := argumentsInParens_eq_done.mpr ⟨k, inside, values, given, rfl, few⟩
      rw [argumentsAfterCommand_of_paren behind opened, bind_of_done listed]
      rfl
    | bare =>
      obtain ⟨behind, unopened⟩ := opens
      have listed := bareArguments_eq_done.mpr ⟨values, given, rfl, few⟩
      rw [argumentsAfterCommand_of_bare behind unopened, bind_of_done listed]
      rfl

/-- The list that follows a callee in an expression has parentheses. -/
theorem argumentsAfterCallee_eq_done {count : Nat} :
    Call.argumentsAfterCallee r m = .done count n ↔
      ∃ values, Gives r .parenthesised m values n ∧ values.length ≤ r.passes ∧
        count = values.length := by
  constructor
  · intro done
    obtain ⟨_, k, behind, rest⟩ := bind_eq_done done
    rw [token_bind] at rest
    split at rest
    · next opened =>
      obtain ⟨k', inside, values, given, total, few⟩ := argumentsInParens_eq_done.mp rest
      exact ⟨values, ⟨k', ⟨k, behind, opened, inside⟩, given⟩, few, total⟩
    · cases rest
  · rintro ⟨values, ⟨k, ⟨k', behind, opened, inside⟩, given⟩, few, rfl⟩
    rw [argumentsAfterCallee_of_paren behind opened]
    exact argumentsInParens_eq_done.mpr ⟨k, inside, values, given, rfl, few⟩

/-! ### Lists for which there is no room -/

theorem turn_of_full {value : Word} {count : Nat} (evaluated : r.expression m = .done value n)
    (full : n.arena.free < wordSize) : form.turn r count m = .failed .outOfMemory n := by
  have refused : push value n = .failed .outOfMemory n :=
    allocate_of_none (by rw [Arena.push_of_full full]; rfl)
  have argued : Call.argument r m = .failed .outOfMemory n := by
    rw [Call.argument, bind_of_done evaluated]
    exact refused
  rw [ListForm.turn_eq, bind_of_failed argued]

theorem loop_turn_of_overflow {count passes total : Nat} (h : Overflow r m count n)
    (few : count < passes) :
    Eval.loop (form.turn r) passes total m = .failed .outOfMemory n := by
  induction h generalizing passes total with
  | here evaluated full =>
    obtain ⟨passes, rfl⟩ := Nat.exists_eq_add_of_lt few
    unfold Eval.loop
    rw [turn_of_full evaluated full]
  | later stacked comma next _ ih =>
    cases passes with
    | zero => cases few
    | succ passes =>
      unfold Eval.loop
      rw [turn_eq_again.mpr ⟨rfl, _, _, stacked, comma, next⟩]
      exact ih (Nat.lt_of_succ_lt_succ few)

theorem argumentsInParens_of_overflow {count : Nat} (inside : advance m = .done () k)
    (begins : ListForm.parenthesised.Begins k true) (h : Overflow r k count n)
    (few : count < r.passes) : Call.argumentsInParens r m = .failed .outOfMemory n := by
  rw [argumentsInParens_of_begins inside begins]
  exact loop_turn_of_overflow h few

theorem argumentsAfterCommand_of_overflow {count : Nat} (h : Overflows r form m count n)
    (few : count < r.passes) : Call.argumentsAfterCommand r m = .failed .outOfMemory n := by
  obtain ⟨k, opens, begins, h⟩ := h
  cases form with
  | parenthesised =>
    obtain ⟨k', behind, opened, inside⟩ := opens
    rw [argumentsAfterCommand_of_paren behind opened,
      bind_of_failed (argumentsInParens_of_overflow inside begins h few)]
  | bare =>
    obtain ⟨behind, unopened⟩ := opens
    have listed : Call.bareArguments r k = .failed .outOfMemory n := by
      rw [bareArguments_of_begins begins]
      exact loop_turn_of_overflow h few
    rw [argumentsAfterCommand_of_bare behind unopened, bind_of_failed listed]

theorem argumentsAfterCallee_of_overflow {count : Nat} (h : Overflows r .parenthesised m count n)
    (few : count < r.passes) : Call.argumentsAfterCallee r m = .failed .outOfMemory n := by
  obtain ⟨k, ⟨k', behind, opened, inside⟩, begins, h⟩ := h
  rw [argumentsAfterCallee_of_paren behind opened]
  exact argumentsInParens_of_overflow inside begins h few

/-! ### The words of a call -/

section

variable (balanced : Keeps Balanced r.expression)

include balanced

/-- Whatever an argument calls, it leaves one word more. -/
theorem Stacked.stack {value : Word} (h : Stacked r m value n) :
    n.arena.stack = m.arena.stack.push value := by
  obtain ⟨k, evaluated, pushed⟩ := h
  obtain ⟨arena, granted, rfl⟩ := allocate_eq_done pushed
  obtain ⟨after, room, hafter⟩ := Option.map_eq_some_iff.mp granted
  cases hafter
  obtain ⟨-, rfl⟩ := Arena.push_eq_some room
  exact congrArg (·.push value) (balanced.done evaluated).stack

/-- The values of an argument list lie on the stack in their order, over what was there. -/
theorem Values.stack (h : Values r closes m values n) :
    n.arena.stack = m.arena.stack ++ values.toArray := by
  induction h with
  | last argument ends => simp [argument.stack balanced]
  | more argument comma next _ ih =>
    have moved := ((balanced_advanceBy false).done next).stack
    rw [ih, moved, argument.stack balanced]
    simp

theorem Gives.stack (h : Gives r form m values n) :
    n.arena.stack = m.arena.stack ++ values.toArray := by
  obtain ⟨k, opens, given⟩ := h
  have opened : k.arena.stack = m.arena.stack := by
    cases form with
    | parenthesised =>
      obtain ⟨k', behind, -, inside⟩ := opens
      exact ((balanced_advanceBy false).done inside).stack.trans
        ((balanced_advanceBy false).done behind).stack
    | bare => exact ((balanced_advanceBy false).done opens.1).stack
  cases given with
  | none => simp [opened]
  | some _ given => rw [given.stack balanced, opened]

end

/-- A machine is as another, but for the stack. Its history tells of how that came about. -/
def Restacked (stack : Array Word) (m k : Machine) : Prop :=
  k = { m with arena := { m.arena with stack }, history := k.history }

/-- Popping as many words as there are values gives the values, in the order in which they were
pushed. -/
theorem popOnto_values {stack : Array Word} (values words : List Word) (m : Machine)
    (h : m.arena.stack = stack ++ values.toArray) :
    ∃ k, popOnto words values.length m = .done (values ++ words) k ∧ Restacked stack m k := by
  induction values using List.reverseRecOn generalizing words m with
  | nil =>
    refine ⟨m, rfl, ?_⟩
    simp only [Array.append_empty] at h
    rw [Restacked, ← h]
  | append_singleton values value ih =>
    have top : m.arena.pop.1 = value := by simp [Arena.pop, h]
    have below : m.arena.pop.2.stack = stack ++ values.toArray := by simp [Arena.pop, h]
    obtain ⟨k, popped, same⟩ := ih (value :: words) (m.withArena m.arena.pop.2) below
    refine ⟨k, ?_, same⟩
    rw [List.length_append, List.length_singleton, List.append_assoc]
    exact (congrArg (fun word => popOnto (word :: words) values.length
      (m.withArena m.arena.pop.2)) top).trans popped

/-- The callee is handed the values of its list and runs where they are off the stack. -/
theorem handOver_values {stack : Array Word} (r : Reentry) (callee : Symbol Native)
    (literals : Nat) (h : n.arena.stack = stack ++ values.toArray) :
    ∃ k, Restacked stack n k ∧ Call.handOver r callee values.length literals n =
      truncatingLiterals literals (Call.runCallee r callee values literals) k := by
  obtain ⟨k, popped, same⟩ := popOnto_values values [] n h
  refine ⟨k, same, ?_⟩
  rw [List.append_nil] at popped
  unfold Call.handOver truncatingLiterals popWords
  rw [bind_apply, popped]
  rfl

/-! ### Callees -/

variable {callee : Symbol Native} {literals : Nat} {routine : Routine}

def frameSymbols (routine : Routine) (values : List Word) : List (Symbol Native) :=
  (routine.params.zip values).map fun b => ⟨b.1, .var, b.2⟩

/-- The body of a routine starts on `s`: the frame lies over all symbols there were, the result is
zero, and the rest is as the callee found it. -/
def Starts (routine : Routine) (values : List Word) (k s : Machine) : Prop :=
  s = { k with
    arena := { k.arena with
      symbols := k.arena.symbols ++ (frameSymbols routine values).toArray }
    result := 0
    history := s.history }

/-- What becomes of a call when the body of the routine has ended: its value is what was returned, the
frame is dropped, and the result is again that of the caller. -/
def leaving (k : Machine) (o : Outcome Ending) : Outcome Word :=
  (o.andThen fun _ m => .done m.result m).adjust fun m =>
    { m.withArena (m.arena.rollback k.arena.symbols.size) with result := k.result }

theorem bindParameters_cons (binding : Slice × Word) (rest : List (Slice × Word)) (k : Machine) :
    Call.bindParameters (binding :: rest) k =
      (allocate (·.addSymbol binding.1 .var binding.2) k).andThen fun _ =>
        Call.bindParameters rest := rfl

/-- Parameters are bound in their order, if there is room for all of them. -/
theorem bindParameters_of_room (bindings : List (Slice × Word)) (k : Machine)
    (room : bindings.length * symbolSize ≤ k.arena.free) :
    ∃ s, Call.bindParameters bindings k = .done () s ∧ s = { k with
      arena := { k.arena with symbols := k.arena.symbols ++
        (bindings.map fun b => ⟨b.1, .var, b.2⟩).toArray }
      history := s.history } := by
  induction bindings generalizing k with
  | nil => exact ⟨k, rfl, by simp⟩
  | cons binding rest ih =>
    rw [List.length_cons, Nat.succ_mul] at room
    let added : Machine := k.withArena
      { k.arena with symbols := k.arena.symbols.push ⟨binding.1, .var, binding.2⟩ }
    have granted : allocate (·.addSymbol binding.1 .var binding.2) k =
        .done k.arena.symbols.size added :=
      allocate_of_some (Arena.addSymbol_of_room (by omega))
    have free : added.arena.free = k.arena.free - symbolSize := Arena.free_push_symbol k.arena _
    obtain ⟨s, bound, same⟩ := ih added (by omega)
    rw [bindParameters_cons, granted]
    refine ⟨s, bound, ?_⟩
    rw [same]
    simp [added, Machine.withArena]

/-- If there is not, binding them ends for want of memory. -/
theorem bindParameters_of_full (bindings : List (Slice × Word)) (k : Machine)
    (full : k.arena.free < bindings.length * symbolSize) :
    ∃ s, Call.bindParameters bindings k = .failed .outOfMemory s := by
  induction bindings generalizing k with
  | nil => simp at full
  | cons binding rest ih =>
    rw [List.length_cons, Nat.succ_mul] at full
    rw [bindParameters_cons]
    by_cases room : symbolSize ≤ k.arena.free
    · let added : Machine := k.withArena
        { k.arena with symbols := k.arena.symbols.push ⟨binding.1, .var, binding.2⟩ }
      have granted : allocate (·.addSymbol binding.1 .var binding.2) k =
          .done k.arena.symbols.size added :=
        allocate_of_some (Arena.addSymbol_of_room room)
      have free : added.arena.free = k.arena.free - symbolSize := Arena.free_push_symbol k.arena _
      rw [granted]
      exact ih added (by omega)
    · have refused : allocate (·.addSymbol binding.1 .var binding.2) k = .failed .outOfMemory k :=
        allocate_of_none (Arena.addSymbol_of_full (Nat.not_le.mp room))
      rw [refused]
      exact ⟨k, rfl⟩

theorem length_frame (fits : routine.params.length = values.length) :
    (routine.params.zip values).length = values.length := by
  rw [List.length_zip, fits, Nat.min_self]

/-- A routine that is called with as many values as it has parameters starts on its frame, if there is
room for the frame. -/
theorem runFunction_of_room {number : Word} (r : Reentry) (k : Machine)
    (found : k.memory.routine? number = some routine) (fits : routine.params.length = values.length)
    (room : values.length * symbolSize ≤ k.arena.free) :
    ∃ s, Starts routine values k s ∧
      Call.runFunction r number values k = leaving k (r.body routine.body false false s) := by
  obtain ⟨s, bound, same⟩ := bindParameters_of_room (routine.params.zip values) k.note
    (by rw [length_frame fits]; exact room)
  refine ⟨{ s with result := 0 }, ?_, ?_⟩
  · rw [Starts, same]
    rfl
  · rw [runFunction_apply r values found]
    unfold Call.runRoutine Call.inFrame restoring
    rw [bind_apply, bound]
    rfl

/-- If there is no room for the frame, the routine does not start. -/
theorem runFunction_of_full {number : Word} (r : Reentry) (k : Machine)
    (found : k.memory.routine? number = some routine) (fits : routine.params.length = values.length)
    (full : k.arena.free < values.length * symbolSize) :
    ∃ s, Call.runFunction r number values k = .failed .outOfMemory s := by
  obtain ⟨s, bound⟩ := bindParameters_of_full (routine.params.zip values) k.note
    (by rw [length_frame fits]; exact full)
  rw [runFunction_apply r values found]
  unfold Call.runRoutine Call.inFrame restoring
  rw [bind_apply, bound]
  exact ⟨_, rfl⟩

/-- What becomes of a callee that is handed some values on the machine `k`, where the literals above
the first `literals` are those of the call. A function written in a script has the number of its routine
for its value, and its tag tells how many parameters the routine has. -/
structure Delivered (r : Reentry) (callee : Symbol Native) (values : List Word) (literals : Nat)
    (k : Machine) (o : Outcome Word) : Prop where
  /-- A callee that does not take as many values does not run. -/
  mismatch : values.length ≠ callee.tag.arity?.getD 0 →
    o = .failed .argumentMismatch { k with literals := k.literals.truncate literals }
  /-- A native receives the values. -/
  native : ∀ {native arity}, callee.tag = .native native arity → values.length = arity →
    o = truncatingLiterals literals (withPending literals ((native values).perform r)) k
  /-- The body of a routine starts with the values bound to its parameters. -/
  routine : ∀ {routine arity}, callee.tag = .func arity → values.length = arity →
    k.memory.routine? callee.value = some routine → routine.params.length = arity →
    values.length * symbolSize ≤ k.arena.free →
    ∃ s, Starts routine values k s ∧
      o = (leaving k (r.body routine.body false false s)).adjust fun m =>
        { m with literals := m.literals.truncate literals }
  /-- The body does not start if there is no room for the parameters. -/
  full : ∀ {routine arity}, callee.tag = .func arity → values.length = arity →
    k.memory.routine? callee.value = some routine → routine.params.length = arity →
    k.arena.free < values.length * symbolSize → ∃ s, o = .failed .outOfMemory s

theorem delivered_runCallee (r : Reentry) (callee : Symbol Native) (values : List Word)
    (literals : Nat) (k : Machine) :
    Delivered r callee values literals k
      (truncatingLiterals literals (Call.runCallee r callee values literals) k) where
  mismatch differ := by
    rw [Call.runCallee_of_misfit literals differ]
    rfl
  native tag same := by
    rw [Call.runCallee_of_native literals tag same]
    rfl
  routine {routine arity} tag same found fits room := by
    obtain ⟨s, starts, ran⟩ := runFunction_of_room r k found (fits.trans same.symm) room
    refine ⟨s, starts, ?_⟩
    unfold truncatingLiterals
    rw [Call.runCallee_of_func literals tag same, ← ran]
  full {routine arity} tag same found fits full := by
    obtain ⟨s, ran⟩ := runFunction_of_full r k found (fits.trans same.symm) full
    refine ⟨{ s with literals := s.literals.truncate literals }, ?_⟩
    unfold truncatingLiterals
    rw [Call.runCallee_of_func literals tag same, ran]
    rfl

/-! ### Calls -/

theorem withQuoting_apply {α : Type} (quoting : Quoting) (x : Eval α) (m : Machine) :
    withQuoting quoting x m =
      (x { m with quoting }).adjust fun n => { n with quoting := m.quoting } := rfl

theorem unwinding_of_done {α : Type} {x : Eval α} {a : α}
    (done : x { m with quoting := .argument } = .done a n) :
    unwinding (withQuoting .argument x) m = .done a { n with quoting := m.quoting } := by
  unfold unwinding
  rw [withQuoting_apply, done]
  rfl

theorem unwinding_of_failed {α : Type} {x : Eval α} {e : Error}
    (failed : x { m with quoting := .argument } = .failed e n) :
    ∃ s, unwinding (withQuoting .argument x) m = .failed e s := by
  unfold unwinding
  rw [withQuoting_apply, failed]
  exact ⟨_, rfl⟩

/-- Whatever is called in a list, routines stay what they are. -/
theorem Gives.routine? {world : World} {fuel : Nat} (h : Gives (.ofFuel world fuel) form m values n)
    (enough : values.length ≤ fuel) {number : Word} (found : m.memory.routine? number = some routine) :
    n.memory.routine? number = some routine := by
  obtain ⟨expression, body⟩ := grows_ofFuel world fuel
  have units : ArgumentDiscipline Grows (.ofFuel world fuel) :=
    (expanding_grows.loose (r := .ofFuel world fuel) expression body).arguments
  have listed := argumentsAfterCommand_eq_done.mpr ⟨form, values, h, enough, rfl, rfl⟩
  exact Memory.Grows.routine? (units.argumentsAfterCommand.done listed) found

/-- A call whose list has given some values hands them to its callee. -/
theorem call_of_gives {world : World} {fuel : Nat} (callee : Symbol Native)
    (given : Gives (.ofFuel world fuel) form { m with quoting := .argument } values n)
    (enough : values.length ≤ fuel) :
    ∃ k o, Restacked m.arena.stack { n with quoting := m.quoting } k ∧
      Delivered (.ofFuel world fuel) callee values m.literals.size k o ∧
      Call.asStatement (.ofFuel world fuel) callee m =
        (o.andThen fun _ => (if form = .parenthesised then advance else pure () : Eval Unit)) ∧
      (form = .parenthesised → Call.inExpression (.ofFuel world fuel) callee m =
        o.andThen fun value => (do advance; return value : Eval Word)) := by
  obtain ⟨expression, -⟩ := bracketed_ofFuel world fuel
  have stack : n.arena.stack = m.arena.stack ++ values.toArray := (given.stack expression :)
  obtain ⟨k, restacked, handed⟩ := handOver_values (n := { n with quoting := m.quoting })
    (.ofFuel world fuel) callee m.literals.size stack
  refine ⟨k, _, restacked, delivered_runCallee _ callee values _ k, ?_, ?_⟩
  · have listed := argumentsAfterCommand_eq_done.mpr ⟨form, values, given, enough, rfl, rfl⟩
    rw [Call.asStatement_apply, bind_of_done (unwinding_of_done listed), ← handed]
    cases form <;> rfl
  · rintro rfl
    have listed := argumentsAfterCallee_eq_done.mpr ⟨values, given, enough, rfl⟩
    rw [Call.inExpression_apply, bind_of_done (unwinding_of_done listed), ← handed]
    rfl

/-- A call for whose arguments there is no room ends for want of memory. -/
theorem call_of_overflows {count : Nat} (callee : Symbol Native)
    (h : Overflows r form { m with quoting := .argument } count n) (few : count < r.passes) :
    (∃ s, Call.asStatement r callee m = .failed .outOfMemory s) ∧
      (form = .parenthesised → ∃ s, Call.inExpression r callee m = .failed .outOfMemory s) := by
  constructor
  · obtain ⟨s, failed⟩ := unwinding_of_failed (argumentsAfterCommand_of_overflow h few)
    rw [Call.asStatement_apply]
    exact ⟨s, bind_of_failed failed _⟩
  · rintro rfl
    obtain ⟨s, failed⟩ := unwinding_of_failed (argumentsAfterCallee_of_overflow h few)
    rw [Call.inExpression_apply]
    exact ⟨s, bind_of_failed failed _⟩

/-- The arguments of a call reach its callee. Where a list has given some values, whatever was called
in it, they are on the stack, in their order, over what was there before. The callee is then looked at
from the machine `k`, where they have been taken off again. A callee that takes another number of
arguments does not run. A native receives exactly these values. The body of a routine starts with
exactly these values bound to its parameters, over the symbols there were, if there is room for that.
Where there was no room on the stack for the value of an argument, the call ends for want of memory.
And when a call is over, the stack is what it was before. -/
theorem arguments_delivered (world : World) (fuel : Nat) (m : Machine) (callee : Symbol Native)
    (form : ListForm) :
    let r := Reentry.ofFuel world fuel
    let start := { m with quoting := .argument }
    (∀ values n, Gives r form start values n → values.length ≤ fuel →
      n.arena.stack = m.arena.stack ++ values.toArray ∧
        ∃ k o, Restacked m.arena.stack { n with quoting := m.quoting } k ∧
          (∀ routine, m.memory.routine? callee.value = some routine →
            k.memory.routine? callee.value = some routine) ∧
          Delivered r callee values m.literals.size k o ∧
          Call.asStatement r callee m =
            (o.andThen fun _ => (if form = .parenthesised then advance else pure () : Eval Unit)) ∧
          (form = .parenthesised → Call.inExpression r callee m =
            o.andThen fun value => (do advance; return value : Eval Word))) ∧
      (∀ count n, Overflows r form start count n → count < fuel →
        (∃ s, Call.asStatement r callee m = .failed .outOfMemory s) ∧
          (form = .parenthesised → ∃ s, Call.inExpression r callee m = .failed .outOfMemory s)) ∧
      (Call.asStatement r callee m).machine.arena.stack = m.arena.stack ∧
      (Call.inExpression r callee m).machine.arena.stack = m.arena.stack := by
  intro r start
  obtain ⟨expression, body⟩ := bracketed_ofFuel world fuel
  refine ⟨fun values n given enough => ?_, fun count n overflows few =>
    call_of_overflows callee overflows few,
    (balanced_asStatement (r := r) expression body callee m).stack,
    (balanced_inExpression (r := r) expression body callee m).stack⟩
  obtain ⟨k, o, restacked, delivered, calls⟩ := call_of_gives callee given enough
  refine ⟨(given.stack expression :), k, o, restacked, fun routine found => ?_, delivered, calls⟩
  rw [restacked]
  exact given.routine? enough found

/-! ### A call within a call of the same function -/

def Outcome.told? {α β : Type} (f : α → Machine → β) : Outcome α → Option β
  | done a m => some (f a m)
  | failed _ _ => none
  | stopped _ _ => none

theorem Outcome.told?_eq_some {α β : Type} {f : α → Machine → β} {b : β} {o : Outcome α}
    (h : o.told? f = some b) : ∃ a m, o = .done a m ∧ f a m = b := by
  cases o with
  | done a m => exact ⟨a, m, rfl, Option.some.inj h⟩
  | failed _ _ => cases h
  | stopped _ _ => cases h

/-- A machine that knows a function of two parameters, and reads a list for it. -/
def Machine.subtracting (start : Machine) (list : String) : Machine :=
  let script := "func sub(a, b) \x7breturn a - b\x7d"
  let m := (evalText (fun _ _ => none) 20 script true true start).machine
  let bytes := (Text.encode list).toArray
  { m with cursor := m.cursorAt ⟨.fixed bytes, 0, bytes.size⟩ }

/-- In `sub(9, sub(5, 3))` the outer call has nine and two bound to its parameters. -/
theorem arguments_delivered_nested :
    ∃ (start m n k s : Machine) (o : Outcome Word) (routine : Routine),
      Machine.new {} = .ok start ∧ m = start.subtracting "(9, sub(5, 3))" ∧
      Gives (.ofFuel (fun _ _ => none) 20) .parenthesised { m with quoting := .argument } [9, 2] n ∧
      Restacked m.arena.stack { n with quoting := m.quoting } k ∧
      m.memory.routine? 0 = some routine ∧ routine.params.length = 2 ∧
      Starts routine [9, 2] k s ∧
      o = (leaving k ((Reentry.ofFuel (fun _ _ => none) 20).body routine.body false false s)).adjust
        (fun m' => { m' with literals := m'.literals.truncate m.literals.size }) ∧
      Call.inExpression (.ofFuel (fun _ _ => none) 20) ⟨.ofString "sub", .func 2, 0⟩ m =
        o.andThen fun value => (do advance; return value : Eval Word) := by
  have run : (Machine.new {}).toOption.map (fun start =>
      let m := start.subtracting "(9, sub(5, 3))"
      (m.arena.stack, (m.memory.routine? 0).map (·.params.length),
        (Call.argumentsAfterCallee (.ofFuel (fun _ _ => none) 20)
          { m with quoting := .argument }).told? fun _ n =>
            (n.arena.stack, decide (64 ≤ ({ n.arena with stack := #[] } : Arena Native).free)))) =
      some (#[], some 2, some (#[9, 2], true)) := by
    decide +kernel
  obtain ⟨start, made, told⟩ := Machine.exists_new run
  generalize reads : start.subtracting "(9, sub(5, 3))" = m at told
  simp only [Prod.mk.injEq] at told
  obtain ⟨empty, described, listed⟩ := told
  obtain ⟨routine, found, params⟩ := Option.map_eq_some_iff.mp described
  obtain ⟨_, n, listed, tells⟩ := Outcome.told?_eq_some listed
  obtain ⟨stacked, room⟩ := Prod.mk.inj tells
  obtain ⟨values, given, enough, -⟩ := argumentsAfterCallee_eq_done.mp listed
  obtain ⟨stack, k, o, restacked, lasts, delivered, -, call⟩ :=
    (arguments_delivered (fun _ _ => none) 20 m ⟨.ofString "sub", .func 2, 0⟩ .parenthesised).1
      values n given enough
  obtain rfl : [9, 2] = values := by simpa [stacked, empty] using stack
  obtain ⟨s, starts, ran⟩ := delivered.routine rfl rfl (lasts routine found) params (by
    rw [restacked, empty]
    exact of_decide_eq_true room)
  exact ⟨start, m, n, k, s, o, routine, made, reads.symm, given, restacked, found, params, starts, ran,
    call rfl⟩

end Scriptlet
