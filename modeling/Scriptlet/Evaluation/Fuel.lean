import Scriptlet.Evaluation.Run

/-!
Fuel is nothing but a bound. A computation with less fuel does what it does with more, or it
stops for want of fuel; so an outcome that is not such a stop is the outcome on every larger
budget, and one may speak of the outcome of an evaluation without naming a budget.

`Eval.Below x y` says that `x` does as `y` or stops for want of fuel. Every construct keeps
this order between the ways of evaluating what is nested in it, and the knot is then an
induction on the fuel.
-/

namespace Scriptlet

/-- An outcome that is another one, or a stop for want of fuel. -/
def Outcome.Below {α : Type} (o o' : Outcome α) : Prop :=
  o = o' ∨ ∃ m, o = .stopped .outOfFuel m

def Eval.Below {α : Type} (x y : Eval α) : Prop := ∀ m, (x m).Below (y m)

/-! ### The order and the combinators -/

namespace Eval.Below

variable {α β σ : Type} {x y : Eval α}

theorem refl (x : Eval α) : Eval.Below x x := fun _ => .inl rfl

theorem bind {f g : α → Eval β} (hx : Eval.Below x y) (hf : ∀ a, Eval.Below (f a) (g a)) :
    Eval.Below (x >>= f) (y >>= g) := by
  intro m
  change ((x m).andThen f).Below ((y m).andThen g)
  rcases hx m with h | ⟨m', h⟩
  · rw [h]
    cases y m with
    | done a m' => exact hf a m'
    | failed e m' => exact .inl rfl
    | stopped why m' => exact .inl rfl
  · rw [h]
    exact .inr ⟨m', rfl⟩

theorem bind_left (hx : Eval.Below x y) (f : α → Eval β) : Eval.Below (x >>= f) (y >>= f) :=
  hx.bind fun a => refl (f a)

theorem bind_right (x : Eval α) {f g : α → Eval β} (hf : ∀ a, Eval.Below (f a) (g a)) :
    Eval.Below (x >>= f) (x >>= g) := (refl x).bind hf

theorem loop {f g : σ → Eval (Turn σ α)} (hf : ∀ s, Eval.Below (f s) (g s)) {p q : Nat}
    (hpq : p ≤ q) (s : σ) : Eval.Below (Eval.loop f p s) (Eval.loop g q s) := by
  intro m
  induction p generalizing q s m with
  | zero => exact .inr ⟨m, rfl⟩
  | succ p ih =>
    obtain ⟨q, rfl⟩ : ∃ k, q = k + 1 := ⟨q - 1, by omega⟩
    unfold Eval.loop
    rcases hf s m with h | ⟨m', h⟩
    · rw [h]
      cases g s m with
      | done turn m' =>
        cases turn with
        | again s' => exact ih (Nat.le_of_succ_le_succ hpq) s' m'
        | finish a => exact .inl rfl
      | failed e m' => exact .inl rfl
      | stopped why m' => exact .inl rfl
    · rw [h]
      exact .inr ⟨m', rfl⟩

/-- Starting on another machine, and changing the outcome in a way that leaves stops alone,
keeps the order. -/
theorem transform (hx : Eval.Below x y) (start : Machine → Machine)
    (change : Machine → Outcome α → Outcome β)
    (hstop : ∀ m m', ∃ m'', change m (.stopped .outOfFuel m') = .stopped .outOfFuel m'') :
    Eval.Below (fun m => change m (x (start m))) (fun m => change m (y (start m))) := by
  intro m
  show (change m (x (start m))).Below (change m (y (start m)))
  rcases hx (start m) with h | ⟨m', h⟩
  · rw [h]
    exact .inl rfl
  · rw [h]
    exact .inr (hstop m m')

theorem noting (hx : Eval.Below x y) : Eval.Below x.noting y.noting := fun m => hx m.note

theorem attempt (hx : Eval.Below x y) : Eval.Below x.attempt y.attempt :=
  hx.transform id (fun _ o => Eval.attempt (fun _ => o) (o.machine)) fun _ _ => ⟨_, rfl⟩

theorem restoring (hx : Eval.Below x y) (keep : Machine → σ) (restore : σ → Machine → Machine) :
    Eval.Below (Eval.restoring keep restore x) (Eval.restoring keep restore y) :=
  hx.transform id (fun m o => o.adjust (restore (keep m))) fun _ _ => ⟨_, rfl⟩

theorem withQuoting (hx : Eval.Below x y) (quoting : Quoting) :
    Eval.Below (Eval.withQuoting quoting x) (Eval.withQuoting quoting y) :=
  restoring (fun m => hx { m with quoting }) _ _

theorem unwinding (hx : Eval.Below x y) : Eval.Below x.unwinding y.unwinding :=
  hx.transform id (fun m o => o.adjustUndone fun m' =>
    { m'.withArena (m'.arena.unwind m.arena.depth) with
      literals := m'.literals.truncate m.literals.size }) fun _ _ => ⟨_, rfl⟩

theorem truncatingLiterals (hx : Eval.Below x y) (count : Nat) :
    Eval.Below (x.truncatingLiterals count) (y.truncatingLiterals count) :=
  hx.transform id (fun _ o => o.adjust fun m => { m with literals := m.literals.truncate count })
    fun _ _ => ⟨_, rfl⟩

theorem withPending (hx : Eval.Below x y) (count : Nat) :
    Eval.Below (x.withPending count) (y.withPending count) :=
  hx.transform (fun m => { m with literals := (m.literals.openFrame count).2 })
    (fun m o => o.adjust fun m' =>
      { m' with literals := m'.literals.closeFrame (m.literals.openFrame count).1 })
    fun _ _ => ⟨_, rfl⟩

theorem entering (hx : Eval.Below x y) : Eval.Below x.entering y.entering :=
  hx.transform (fun m => { m with depth := m.depth + 1 })
    (fun _ o => o.adjust fun m => { m with depth := m.depth - 1 }) fun _ _ => ⟨_, rfl⟩

theorem reporting (hx : Eval.Below x y) : Eval.Below x.reporting y.reporting :=
  hx.transform id (fun _ o => Eval.reporting (fun _ => o) (o.machine)) fun _ m' => ⟨m', rfl⟩

theorem inFrame (hx : Eval.Below x y) : Eval.Below (Call.inFrame x) (Call.inFrame y) :=
  hx.restoring _ _

theorem inScope (hx : Eval.Below x y) (topLevel : Bool) :
    Eval.Below (x.inScope topLevel) (y.inScope topLevel) := hx.restoring _ _

theorem inBody (hx : Eval.Below x y) (body : Slice) (duplicate : Bool) :
    Eval.Below (x.inBody body duplicate) (y.inBody body duplicate) :=
  restoring (fun m => hx { m with cursor := m.cursorAt body, quoting := .plain, duplicate }) _ _

theorem locating (hx : Eval.Below x y) : Eval.Below x.locating y.locating :=
  hx.transform id (fun _ o => o.adjustError Machine.locate) fun _ m' => ⟨m', rfl⟩

theorem holding {f g : Nat → Eval α} (hf : ∀ slot, Eval.Below (f slot) (g slot)) (text : Text.Bytes)
    (forGood : Bool) :
    Eval.Below (Eval.holding text forGood f) (Eval.holding text forGood g) := by
  intro m
  exact (hf (m.texts.retain text.toArray).1).transform
    (fun m => m.withTexts (m.texts.retain text.toArray).2)
    (fun m o => o.adjust fun m' =>
      if forGood then m' else m'.withTexts (m'.texts.release (m.texts.retain text.toArray).1))
    (fun _ _ => ⟨_, rfl⟩) m

end Eval.Below

/-! ### The constructs -/

structure Reentry.Below (r s : Reentry) : Prop where
  world : r.world = s.world
  passes : r.passes ≤ s.passes
  expression : Eval.Below r.expression s.expression
  body : ∀ b topLevel duplicate,
    Eval.Below (r.body b topLevel duplicate) (s.body b topLevel duplicate)

namespace Reentry.Below

open Eval.Below

variable {r s : Reentry} (h : r.Below s)

include h

theorem loop {σ α : Type} {f g : σ → Eval (Turn σ α)} (hf : ∀ a, Eval.Below (f a) (g a)) (a : σ) :
    Eval.Below (r.loop f a) (s.loop g a) := Eval.Below.loop hf h.passes a

theorem text (t : String) (duplicate topLevel : Bool) :
    Eval.Below (Eval.text r t duplicate topLevel) (Eval.text s t duplicate topLevel) :=
  noting (reporting (holding (fun _ => entering ((h.body _ topLevel duplicate).bind_left _)) _ _))

theorem file (path : String) : Eval.Below (Eval.file r path) (Eval.file s path) := by
  unfold Eval.file
  rw [h.world]
  exact bind_right _ fun t => h.text t true true

theorem perform (a : Action) : Eval.Below (a.perform r) (a.perform s) := by
  induction a with
  | give value => exact refl _
  | fail error => exact refl _
  | takeLiteral next ih => exact bind_right _ fun t => ih t
  | write stream bytes next ih => exact bind_right _ fun _ => ih
  | look next ih => exact bind_right _ fun v => ih v
  | define name tag value next ih => exact bind_right _ fun i => ih i
  | evalText t duplicate topLevel next ih => exact (h.text t duplicate topLevel).attempt.bind ih
  | evalFile path next ih => exact (h.file path).attempt.bind ih
  | ask question next ih =>
    simp only [Action.perform, h.world]
    exact bind_right _ fun answer => ih answer

theorem argument : Eval.Below (Call.argument r) (Call.argument s) := h.expression.bind_left _

theorem argumentsInParens : Eval.Below (Call.argumentsInParens r) (Call.argumentsInParens s) := by
  refine bind_right _ fun _ => bind_right _ fun t => ?_
  split
  · exact refl _
  · exact h.loop (fun _ => h.argument.bind_left _) 0

theorem argumentsAfterCallee :
    Eval.Below (Call.argumentsAfterCallee r) (Call.argumentsAfterCallee s) := by
  refine bind_right _ fun _ => bind_right _ fun t => ?_
  split
  · exact h.argumentsInParens
  · exact refl _

theorem bareArguments : Eval.Below (Call.bareArguments r) (Call.bareArguments s) := by
  refine bind_right _ fun starts => ?_
  split
  · exact h.loop (fun _ => h.argument.bind_left _) 0
  · exact refl _

theorem argumentsAfterCommand :
    Eval.Below (Call.argumentsAfterCommand r) (Call.argumentsAfterCommand s) := by
  refine bind_right _ fun _ => bind_right _ fun t => ?_
  split
  · exact h.argumentsInParens.bind_left _
  · exact h.bareArguments.bind_left _

theorem runRoutine (routine : Routine) (args : List Word) :
    Eval.Below (Call.runRoutine r routine args) (Call.runRoutine s routine args) :=
  inFrame (bind_right _ fun _ => bind_right _ fun _ => (h.body _ false false).bind_left _)

theorem runFunction (number : Word) (args : List Word) :
    Eval.Below (Call.runFunction r number args) (Call.runFunction s number args) := by
  refine noting (bind_right _ fun routine? => ?_)
  cases routine? with
  | some routine => exact h.runRoutine routine args
  | none => exact refl _

theorem runCallee (callee : Symbol Native) (args : List Word) (literals : Nat) :
    Eval.Below (Call.runCallee r callee args literals) (Call.runCallee s callee args literals) := by
  unfold Call.runCallee
  split
  · exact refl _
  · split
    · exact (h.perform _).withPending literals
    · exact h.runFunction _ _
    · exact refl _

theorem handOver (callee : Symbol Native) (count literals : Nat) :
    Eval.Below (Call.handOver r callee count literals) (Call.handOver s callee count literals) :=
  truncatingLiterals (bind_right _ fun args => h.runCallee callee args literals) literals

theorem inExpression (callee : Symbol Native) :
    Eval.Below (Call.inExpression r callee) (Call.inExpression s callee) :=
  bind_right _ fun literals =>
    (h.argumentsAfterCallee.withQuoting .argument).unwinding.bind fun count =>
      (h.handOver callee count literals).bind_left _

theorem asStatement (callee : Symbol Native) :
    Eval.Below (Call.asStatement r callee) (Call.asStatement s callee) :=
  bind_right _ fun literals =>
    (h.argumentsAfterCommand.withQuoting .argument).unwinding.bind fun counted =>
      (h.handOver callee counted.1 literals).bind_left _

theorem symbolAtom (callee : Symbol Native) :
    Eval.Below (Expression.symbolAtom r callee) (Expression.symbolAtom s callee) := by
  unfold Expression.symbolAtom
  split
  · exact refl _
  · exact h.inExpression callee
  · exact h.inExpression callee
  · exact bind_right _ fun _ => h.expression.bind_left _
  · exact refl _

theorem atom : Eval.Below (Expression.atom r) (Expression.atom s) := by
  refine bind_right _ fun t => ?_
  split
  · exact refl _
  · exact (withQuoting (bind_right _ fun _ => h.expression.bind_left _) .plain).bind_left _
  · exact refl _
  · exact refl _
  · exact refl _
  · exact bind_right _ fun callee => h.symbolAtom callee
  all_goals exact refl _

theorem upToLevel (level : Nat) :
    Eval.Below (Expression.upToLevel r level) (Expression.upToLevel s level) := by
  induction level with
  | zero => exact h.atom
  | succ level ih =>
    refine ih.bind fun first => h.loop (fun value => bind_right _ fun op? => ?_) first
    cases op? with
    | some op => exact bind_right _ fun _ => ih.bind_left _
    | none => exact refl _

theorem wholeExpression : Eval.Below r.wholeExpression s.wholeExpression := h.upToLevel _

theorem assign (index : Nat) :
    Eval.Below (Statement.assign r index) (Statement.assign s index) := by
  refine bind_right _ fun tag? => ?_
  split
  · exact bind_right _ fun _ => h.expression.bind_left _
  · exact refl _

theorem declareVariable : Eval.Below (Statement.declareVariable r) (Statement.declareVariable s) :=
  bind_right _ fun _ => bind_right _ fun _ => bind_right _ fun index => bind_right _ fun _ =>
    h.assign index

theorem nestedBody (body : Slice) :
    Eval.Below (Statement.nestedBody r body) (Statement.nestedBody s body) :=
  noting ((h.body _ false false).bind_left _)

theorem branch : Eval.Below (Statement.branch r) (Statement.branch s) := by
  refine bind_right _ fun _ => h.expression.bind fun condition => bind_right _ fun body =>
    bind_right _ fun alternative => ?_
  split
  · exact (h.nestedBody body).bind_left _
  · cases alternative with
    | some body => exact (h.nestedBody body).bind_left _
    | none => exact refl _

theorem repeatBranch : Eval.Below (Statement.repeatBranch r) (Statement.repeatBranch s) :=
  bind_right _ fun _ => h.loop (fun _ => h.branch.bind_left _) ()

theorem setResult : Eval.Below (Statement.setResult r) (Statement.setResult s) := by
  refine bind_right _ fun _ => bind_right _ fun starts => ?_
  split
  · exact h.expression.bind_left _
  · exact refl _

theorem ofKeyword (word : Keyword) :
    Eval.Below (Statement.ofKeyword r word) (Statement.ofKeyword s word) := by
  cases word with
  | var => exact h.declareVariable.bind_left _
  | cond => exact h.branch.bind_left _
  | loop => exact h.repeatBranch.bind_left _
  | func => exact refl _
  | leave => exact h.setResult.bind_left _
  | otherwise => exact refl _

theorem statement : Eval.Below (Statement.statement r) (Statement.statement s) := by
  refine bind_right _ fun t => ?_
  split
  · refine bind_right _ fun callee => ?_
    split
    · exact Eval.Below.bind_left (bind_right _ fun _ => h.assign _) _
    · exact (h.asStatement callee).bind_left _
    · exact (h.inExpression callee).bind_left _
    · exact h.ofKeyword _
    · exact refl _
  all_goals exact refl _

theorem turn (u : Unit) : Eval.Below (Statement.turn r u) (Statement.turn s u) := by
  refine bind_right _ fun t => ?_
  split
  · exact refl _
  · exact refl _
  · exact h.statement.bind_left _

theorem statements : Eval.Below (Statement.statements r) (Statement.statements s) :=
  h.loop h.turn ()

theorem wholeBody (body : Slice) (topLevel duplicate : Bool) :
    Eval.Below (r.wholeBody body topLevel duplicate) (s.wholeBody body topLevel duplicate) :=
  inScope (inBody (locating (bind_right _ fun _ => h.statements)) _ _) _

end Reentry.Below

/-! ### Evaluation on a budget -/

/-- Evaluation with more fuel does as with less, unless that stops for want of fuel. -/
theorem Reentry.ofFuel_below (world : World) {fuel more : Nat} (h : fuel ≤ more) :
    (Reentry.ofFuel world fuel).Below (Reentry.ofFuel world more) := by
  induction fuel generalizing more with
  | zero => exact ⟨rfl, h, fun m => .inr ⟨m, rfl⟩, fun _ _ _ m => .inr ⟨m, rfl⟩⟩
  | succ fuel ih =>
    obtain ⟨more, rfl⟩ : ∃ k, more = k + 1 := ⟨more - 1, by omega⟩
    have below := ih (Nat.le_of_succ_le_succ h)
    exact ⟨rfl, h, below.wholeExpression, below.wholeBody⟩

/-- An evaluation of a text that did not stop for want of fuel has the same outcome with
more. -/
theorem evalText_of_le {world : World} {fuel more : Nat} (h : fuel ≤ more) {text : String}
    {duplicate topLevel : Bool} {m : Machine}
    (hstop : ∀ m', evalText world fuel text duplicate topLevel m ≠ .stopped .outOfFuel m') :
    evalText world more text duplicate topLevel m =
      evalText world fuel text duplicate topLevel m := by
  rcases (Reentry.ofFuel_below world h).text text duplicate topLevel m with same | ⟨m', stopped⟩
  · exact same.symm
  · exact absurd stopped (hstop m')

end Scriptlet
