import Scriptlet.Proofs.Discipline
import Scriptlet.Proofs.Trace.Evaluation

/-!
What every computation with an account has, in general. A property of such computations is established
like a relation between machines: for a few units first, and then for whatever is put together from them.
`TracedDiscipline P Q B r` lists what the units have to satisfy, over a way `r` of evaluating what is nested,
and this module shows once, for all properties, that every expression and every sequence of statements has
`P`. About a symbol that is found, a unit may rely on `Q`, and about a slice that is taken as a body, on `B`.
-/

namespace Scriptlet

open Eval

namespace Traced

variable {α β γ : Type}

/-- There is nothing to tell of two computations if there is nothing to tell of either. -/
theorem quiet_bind (x : Eval α) (f : α → Eval β) : quiet (x >>= f) = quiet x >>= fun a => quiet (f a) := by
  refine Traced.ext rfl (funext fun m => ?_)
  change [] = [] ++ (x m).thenTold fun _ _ => []
  cases x m <;> rfl

theorem bind_assoc (x : Traced α) (f : α → Traced β) (g : β → Traced γ) :
    x >>= f >>= g = x >>= fun a => f a >>= g := by
  refine Traced.ext (Eval.bind_assoc _ _ _) (funext fun m => ?_)
  change (x.events m ++ (x.run m).thenTold fun a m' => (f a).events m') ++
      ((x.run m).andThen fun a => (f a).run).thenTold (fun b m' => (g b).events m') =
    x.events m ++ (x.run m).thenTold fun a m' => (f a >>= g).events m'
  cases x.run m with
  | done a m' => exact List.append_assoc _ _ _
  | _ => exact List.append_nil _

end Traced

/-- A property that goes from computations to one after the other, and that those have which change
nothing. -/
structure TracedTrack (P : ∀ {α : Type}, Traced α → Prop) : Prop where
  bind : ∀ {α β : Type} {x : Traced α} {f : α → Traced β}, P x → (∀ a, P (f a)) → P (x >>= f)
  still : ∀ {α : Type} {x : Eval α}, Still x → P (Traced.quiet x)

namespace TracedTrack

variable {P : ∀ {α : Type}, Traced α → Prop} (h : TracedTrack P) {α β σ : Type}

include h

theorem still_bind {x : Eval α} {f : α → Traced β} (hx : Still x) (hf : ∀ a, P (f a)) :
    P (Traced.quiet x >>= f) := h.bind (h.still hx) hf

theorem bind_still {x : Traced α} {f : α → Eval β} (hx : P x) (hf : ∀ a, Still (f a)) :
    P (x >>= fun a => Traced.quiet (f a)) := h.bind hx fun a => h.still (hf a)

/-- There is nothing to tell of one computation after another if there is nothing to tell of either. -/
theorem quiet_bind {x : Eval α} {f : α → Eval β} (hx : P (Traced.quiet x))
    (hf : ∀ a, P (Traced.quiet (f a))) : P (Traced.quiet (x >>= f)) := by
  rw [Traced.quiet_bind]
  exact h.bind hx hf

/-- What keeps every slice keeps the name that is the token. -/
theorem definedName (keep : ∀ slice, P (Traced.quiet (keep slice))) :
    P (Traced.quiet Statement.definedName) := by
  refine h.quiet_bind (h.still (still_read _)) fun token => ?_
  split
  · exact keep _
  · exact h.still (still_fail _)

theorem definedBody (keep : ∀ slice, P (Traced.quiet (keep slice))) :
    P (Traced.quiet Statement.definedBody) := by
  refine h.quiet_bind (h.still (still_read _)) fun token => ?_
  split
  · exact keep _
  · exact h.still (still_fail _)

theorem loop {turn : σ → Traced (Turn σ α)} (hturn : ∀ s, P (turn s)) (passes : Nat) (s : σ) :
    P (Traced.loop turn passes s) := by
  induction passes generalizing s with
  | zero => exact h.still fun _ => rfl
  | succ passes ih =>
    rw [Traced.loop_succ]
    refine h.bind (hturn s) fun next => ?_
    cases next with
    | again s => exact ih s
    | finish a => exact h.still (still_pure a)

end TracedTrack

/-- What the units of argument lists have to satisfy for a property to hold of them. -/
structure TracedArguments (P : ∀ {α : Type}, Traced α → Prop) (Q : Symbol Native → Prop)
    (r : TracedReentry) : Prop extends TracedTrack P where
  advanceBy : ∀ raw, P (Traced.quiet (advanceBy raw))
  symbolAt : ∀ {α : Type} {index : Nat} {f : Symbol Native → Traced α}, (∀ s, Q s → P (f s)) →
    P (Traced.symbolAt index >>= f)
  push : ∀ word, P (Traced.quiet (push word))
  expression : P r.expression

namespace TracedArguments

variable {P : ∀ {α : Type}, Traced α → Prop} {Q : Symbol Native → Prop} {r : TracedReentry}
  (h : TracedArguments P Q r)

include h

theorem advance : P (Traced.quiet advance) := h.advanceBy false

theorem tokenTag? : P Traced.tokenTag? := by
  refine h.still_bind (still_read _) fun token => ?_
  split
  · exact h.symbolAt fun _ _ => h.still (still_pure _)
  · exact h.still (still_pure _)

theorem startsExpression : P Traced.startsExpression := by
  refine h.still_bind (still_read _) fun token => ?_
  split
  case h_6 index =>
    refine h.symbolAt fun s _ => ?_
    split <;> exact h.still (still_pure _)
  all_goals exact h.still (still_pure _)

theorem argument : P (Traced.argument r) := h.bind h.expression h.push

theorem behindArgument (count : Nat) : P (Traced.quiet (Call.behindArgument count)) := by
  refine h.quiet_bind (h.still (still_read _)) fun token => ?_
  split
  · exact h.quiet_bind h.advance fun _ => h.still (still_pure _)
  · exact h.still (still_pure _)
  · exact h.still (still_fail _)

theorem parensTurn (count : Nat) : P (Traced.parensTurn r count) :=
  h.bind h.argument fun _ => h.behindArgument count

theorem behindBare (count : Nat) : P (Traced.quiet (Call.behindBare count)) := by
  refine h.quiet_bind (h.still (still_read _)) fun token => ?_
  split
  · exact h.quiet_bind h.advance fun _ => h.still (still_pure _)
  · exact h.still (still_pure _)

theorem bareTurn (count : Nat) : P (Traced.bareTurn r count) :=
  h.bind h.argument fun _ => h.behindBare count

theorem argumentsInParens : P (Traced.argumentsInParens r) := by
  refine h.bind h.advance fun _ => h.still_bind (still_read _) fun token => ?_
  split
  · exact h.still (still_pure _)
  · exact h.loop h.parensTurn _ 0

theorem argumentsAfterCallee : P (Traced.argumentsAfterCallee r) := by
  refine h.bind h.advance fun _ => h.still_bind (still_read _) fun token => ?_
  split
  · exact h.argumentsInParens
  · exact h.still (still_fail _)

theorem bareArguments : P (Traced.bareArguments r) := by
  refine h.bind h.startsExpression fun starts => ?_
  split
  · exact h.loop h.bareTurn _ 0
  · exact h.still (still_pure _)

theorem argumentsAfterCommand : P (Traced.argumentsAfterCommand r) := by
  refine h.bind h.advance fun _ => h.still_bind (still_read _) fun token => ?_
  split
  · exact h.bind_still h.argumentsInParens fun _ => still_pure _
  · exact h.bind_still h.bareArguments fun _ => still_pure _

theorem takeBody : P (Traced.quiet Statement.takeBody) := by
  refine h.quiet_bind (h.still (still_read _)) fun token => ?_
  split
  · exact h.quiet_bind h.advance fun _ => h.still (still_pure _)
  · exact h.still (still_fail _)

end TracedArguments

/-- What the units of expressions and statements have to satisfy for a property to hold of them. Behind a
turn of a loop the cursor goes back to where the loop starts, so the token is not the one that was read
there; but each turn reads on at once. A name where an expression or a statement is due stands for
nothing. -/
structure TracedDiscipline (P : ∀ {α : Type}, Traced α → Prop) (Q : Symbol Native → Prop) (B : Slice → Prop)
    (r : TracedReentry) : Prop extends TracedArguments P Q r where
  atToken : ∀ {α : Type} {f : Token → Traced α}, (∀ name, f (.name name) = Traced.unknown name) →
    (∀ token, (∀ name, token ≠ .name name) → P (f token)) → P (Traced.quiet token >>= f)
  plain : ∀ {x : Traced Word}, P x → P (Traced.withQuoting .plain x)
  storing : ∀ index since value, P (do
    Traced.tell (.storing index since)
    Traced.quiet (update fun m => m.withArena (m.arena.setValue index value)))
  result : ∀ value, P (Traced.quiet (update fun m => { m with result := value }))
  definedName : P (Traced.quiet Statement.definedName)
  definedBody : ∀ {α : Type} {f : Slice → Traced α}, (∀ body, B body → P (f body)) →
    P (Traced.quiet Statement.definedBody >>= f)
  takeBody : ∀ {α : Type} {f : Slice → Traced α}, (∀ body, B body → P (f body)) →
    P (Traced.quiet Statement.takeBody >>= f)
  addSymbol : ∀ name value {tag : Tag Native}, (∀ native arity, tag ≠ .native native arity) →
    P (Traced.quiet (allocate (·.addSymbol name tag value)))
  addRoutine : ∀ {routine : Routine}, B routine.body → P (Traced.quiet (allocate (·.addRoutine routine)))
  repeating : P (Traced.choice r) → P (Traced.repeatBranch r)
  nestedBody : ∀ {body}, B body → P (Traced.nestedBody r body)
  inExpression : ∀ {s}, Q s → P (Traced.inExpression r s)
  asStatement : ∀ {s}, Q s → P (Traced.asStatement r s)

namespace TracedDiscipline

variable {P : ∀ {α : Type}, Traced α → Prop} {Q : Symbol Native → Prop} {B : Slice → Prop}
  {r : TracedReentry} (h : TracedDiscipline P Q B r)

include h

/-! ### Expressions -/

theorem symbolAtom {s : Symbol Native} (hs : Q s) : P (Traced.symbolAtom r s) := by
  unfold Traced.symbolAtom
  split
  · exact h.bind_still h.advance fun _ => still_pure _
  · exact h.inExpression hs
  · exact h.inExpression hs
  · exact h.bind h.advance fun _ => h.bind_still h.expression fun _ => still_ofExcept _
  · exact h.still (still_fail _)

theorem group : P (Traced.group r) := by
  refine h.bind h.advance fun _ => h.bind h.expression fun value => ?_
  refine h.still_bind (still_read _) fun token => ?_
  split
  · exact h.still (still_pure _)
  · exact h.still (still_fail _)

theorem atom : P (Traced.atom r) := by
  refine h.atToken (fun _ => rfl) fun token other => ?_
  split
  · exact h.bind_still h.advance fun _ => still_pure _
  · exact h.bind (h.plain h.group) fun _ => h.bind_still h.advance fun _ => still_pure _
  · exact h.bind_still h.advance fun _ => still_pure _
  · exact h.bind_still h.advance fun _ => still_pure _
  · exact absurd rfl (other _)
  · exact h.symbolAt fun s hs => h.symbolAtom hs
  all_goals exact h.still (still_fail _)

theorem operatorOfLevel (level : Nat) : P (Traced.operatorOfLevel level) := by
  refine h.bind h.tokenTag? fun tag? => ?_
  split <;> exact h.still (still_pure _)

theorem levelTurn {operand : Traced Word} (hoperand : P operand) (level : Nat) (value : Word) :
    P (Traced.levelTurn level operand value) := by
  refine h.bind (h.operatorOfLevel _) fun op? => ?_
  cases op? with
  | some op =>
    refine h.bind h.advance fun _ => h.bind hoperand fun operand => ?_
    exact h.still_bind (still_ofExcept _) fun _ => h.still (still_pure _)
  | none => exact h.still (still_pure _)

theorem upToLevel (level : Nat) : P (Traced.upToLevel r level) := by
  induction level with
  | zero => exact h.atom
  | succ level ih => exact h.bind ih fun first => h.loop (h.levelTurn ih _) _ first

/-- Every expression has the property. -/
theorem wholeExpression : P (Traced.wholeExpression r) := h.upToLevel _

/-! ### Assignments and definitions -/

theorem assign (index : Nat) (since : Machine) : P (Traced.assign r index since) := by
  refine h.bind h.tokenTag? fun tag? => ?_
  split
  · exact h.bind h.advance fun _ => h.bind h.expression fun value => h.storing index since value
  · exact h.still (still_fail _)

theorem reassign (index : Nat) : P (Traced.reassign r index) :=
  h.still_bind (still_read _) fun since => h.bind h.advance fun _ => h.assign index since

theorem declareVariable : P (Traced.declareVariable r) :=
  h.bind (h.advanceBy true) fun _ => h.bind h.definedName fun name =>
    h.bind (h.addSymbol name 0 fun _ _ h => by cases h) fun index =>
      h.still_bind (still_read _) fun since => h.bind h.advance fun _ => h.assign index since

theorem parameters (room : Nat) : P (Traced.quiet (Statement.parameters room)) := by
  have raw := h.advanceBy true
  induction room with
  | zero =>
    refine h.quiet_bind (h.still (still_read _)) fun token => ?_
    split
    · exact h.still (still_pure _)
    · exact h.still (still_fail _)
    · exact h.still (still_fail _)
  | succ room ih =>
    have rest : ∀ name, P (Traced.quiet (do return name :: (← Statement.parameters room))) :=
      fun name => h.quiet_bind ih fun _ => h.still (still_pure _)
    refine h.quiet_bind (h.still (still_read _)) fun token => ?_
    split
    · exact h.still (still_pure _)
    · refine h.quiet_bind h.definedName fun name => h.quiet_bind raw fun _ => ?_
      refine h.quiet_bind (h.still (still_read _)) fun token => ?_
      split
      · exact h.quiet_bind raw fun _ => rest name
      · exact rest name
      · exact h.quiet_bind (h.still (still_fail _)) fun _ => rest name

theorem parameterList : P (Traced.quiet Statement.parameterList) := by
  have raw := h.advanceBy true
  refine h.quiet_bind (h.still (still_read _)) fun token => ?_
  split
  · refine h.quiet_bind raw fun _ => h.quiet_bind (h.parameters _) fun params => ?_
    exact h.quiet_bind raw fun _ => h.still (still_pure _)
  · exact h.still (still_pure _)

theorem declareFunction : P (Traced.quiet Statement.declareFunction) := by
  have raw := h.advanceBy true
  refine h.quiet_bind raw fun _ => h.quiet_bind h.definedName fun name => ?_
  refine h.quiet_bind raw fun _ => h.quiet_bind h.parameterList fun params => ?_
  rw [Traced.quiet_bind]
  refine h.definedBody fun body isBody => h.quiet_bind (h.addRoutine isBody) fun number => ?_
  exact h.quiet_bind (h.addSymbol name _ fun _ _ h => by cases h) fun _ => h.advance

/-! ### Statements -/

/-- A body is taken behind the word for the alternative. -/
theorem takeAlternative {α : Type} {f : Option Slice → Traced α}
    (hf : ∀ alternative, (∀ body ∈ alternative, B body) → P (f alternative)) :
    P (Traced.takeAlternative >>= f) := by
  unfold Traced.takeAlternative
  rw [Traced.bind_assoc]
  refine h.bind h.tokenTag? fun tag? => ?_
  split
  · rw [Traced.bind_assoc]
    refine h.bind h.advance fun _ => ?_
    rw [Traced.bind_assoc]
    refine h.takeBody fun body isBody => hf (some body) fun body' mem => ?_
    cases mem
    exact isBody
  · exact hf none fun _ mem => by cases mem

theorem choice : P (Traced.choice r) := by
  refine h.bind h.expression fun condition => h.takeBody fun body isBody => ?_
  refine h.takeAlternative fun alternative bodies => ?_
  split
  · exact h.bind_still (h.nestedBody isBody) fun _ => still_pure _
  · cases alternative with
    | some body => exact h.bind_still (h.nestedBody (bodies body rfl)) fun _ => still_pure _
    | none => exact h.still (still_pure _)

theorem branch : P (Traced.branch r) := h.bind h.advance fun _ => h.choice

theorem repeatBranch : P (Traced.repeatBranch r) := h.repeating h.choice

theorem setResult : P (Traced.setResult r) := by
  refine h.bind h.advance fun _ => h.bind h.startsExpression fun starts => ?_
  split
  · exact h.bind h.expression h.result
  · exact h.still_bind (still_pure _) h.result

theorem ofKeyword (word : Keyword) : P (Traced.ofKeyword r word) := by
  cases word with
  | var => exact h.bind_still h.declareVariable fun _ => still_pure _
  | cond => exact h.bind_still h.branch fun _ => still_pure _
  | loop => exact h.bind_still h.repeatBranch fun _ => still_pure _
  | func => exact h.bind_still h.declareFunction fun _ => still_pure _
  | leave => exact h.bind_still h.setResult fun _ => still_pure _
  | otherwise => exact h.still (still_fail _)

theorem statement : P (Traced.statement r) := by
  refine h.atToken (fun _ => rfl) fun token other => ?_
  split
  · refine h.symbolAt fun s hs => ?_
    split
    · exact h.bind_still (h.reassign _) fun _ => still_pure _
    · exact h.bind_still (h.asStatement hs) fun _ => still_pure _
    · exact h.bind_still (h.inExpression hs) fun _ => still_pure _
    · exact h.ofKeyword _
    · exact h.still (still_fail _)
  · exact absurd rfl (other _)
  · exact h.still (still_fail _)

theorem passSeparator : P Traced.passSeparator := by
  refine h.still_bind (still_read _) fun token => ?_
  split
  · exact h.still (still_pure _)
  · exact h.still (still_pure _)
  · exact h.advance
  · refine h.symbolAt fun s _ => ?_
    split
    · exact h.still (still_pure _)
    · exact h.still (still_pure _)
    · exact h.still (still_pure _)
    · split
      · exact h.still (still_fail _)
      · exact h.still (still_pure _)
    · exact h.still (still_fail _)
  · exact h.still (still_fail _)

theorem statementTurn : P (Traced.statementTurn r) := by
  refine h.bind h.statement fun ending => ?_
  cases ending with
  | returned => exact h.still (still_pure _)
  | ranOut => exact h.bind_still h.passSeparator fun _ => still_pure _

theorem turn (u : Unit) : P (Traced.turn r u) := by
  refine h.still_bind (still_read _) fun token => ?_
  split
  · exact h.still (still_pure _)
  · exact h.bind_still h.advance fun _ => still_pure _
  · exact h.statementTurn

/-- Every sequence of statements has the property. -/
theorem statements : P (Traced.statements r) := h.loop h.turn _ ()

end TracedDiscipline

end Scriptlet
