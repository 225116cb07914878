import Scriptlet.Evaluation.Fuel
import Scriptlet.Proofs.Durable.Charges

/-!
Durable memory does not leak. Whatever a run without copies goes through, it costs its descriptors and
nothing else, so a run without definitions costs nothing.

To tell which runs are without definitions, evaluation is defined once more with a stop in front of every
definition of a function. If that comes to an end, it has met none, and evaluation does the same.
-/

namespace Scriptlet

open Eval

variable {α : Type}

/-! ### Evaluation with a stop in front of definitions -/

/-- The current token is the word that the definition of a function starts with. -/
def Machine.atDefinition (m : Machine) : Bool :=
  match m.token with
  | .symbol index =>
    match m.arena.symbols[index]? with
    | some ⟨_, .keyword .func, _⟩ => true
    | _ => false
  | _ => false

namespace Statement

/-- A turn of a sequence of statements. In front of the definition of a function, the computation stops as
if for want of fuel. -/
def undeclaringTurn (r : Reentry) (u : Unit) : Eval (Turn Unit Ending) := fun m =>
  if m.atDefinition then .stopped .outOfFuel m else turn r u m

/-- Evaluates statements up to the first that defines a function. -/
def undeclaringStatements (r : Reentry) : Eval Ending := r.loop (undeclaringTurn r) ()

end Statement

namespace Reentry

def undeclaringBody (r : Reentry) (body : Slice) (topLevel duplicate : Bool) : Eval Ending :=
  inScope topLevel <| inBody body duplicate <| locating do
    advance
    Statement.undeclaringStatements r

/-- Evaluation in a world on a budget, with a stop in front of every definition of a function. -/
def undeclaring (world : World) : Nat → Reentry
  | 0 => .ofFuel world 0
  | fuel + 1 =>
    ⟨world, fuel + 1, (undeclaring world fuel).wholeExpression, undeclaringBody (undeclaring world fuel)⟩

theorem Below.undeclaringStatements {r s : Reentry} (h : r.Below s) :
    Eval.Below (Statement.undeclaringStatements r) (Statement.statements s) := by
  refine h.loop (fun u m => ?_) ()
  unfold Statement.undeclaringTurn
  split
  · exact .inr ⟨m, rfl⟩
  · exact h.turn u m

/-- Evaluation with a stop in front of definitions does as evaluation does, or stops. -/
theorem undeclaring_below (world : World) (fuel : Nat) :
    (Reentry.undeclaring world fuel).Below (Reentry.ofFuel world fuel) := by
  induction fuel with
  | zero => exact ⟨rfl, Nat.le_refl _, fun m => .inr ⟨m, rfl⟩, fun _ _ _ m => .inr ⟨m, rfl⟩⟩
  | succ fuel ih =>
    refine ⟨rfl, Nat.le_refl _, ih.wholeExpression, fun body topLevel duplicate => ?_⟩
    exact .inScope (.inBody (.locating (.bind_right _ fun _ => ih.undeclaringStatements)) _ _) _

end Reentry

/-- Evaluates a text that defines no function, in whatever way it is come by. -/
def evalTextUndeclaring (world : World) (fuel : Nat) (text : String) (duplicate topLevel : Bool) :
    Eval Unit := Eval.text (.undeclaring world fuel) text duplicate topLevel

/-! ### No descriptors without definitions -/

def SameRoutines (m m' : Machine) : Prop := m'.arena.routines = m.arena.routines

/-- Only the definition of a function makes a descriptor. -/
theorem lenient_sameRoutines : Lenient SameRoutines where
  refl _ := rfl
  trans h k := k.trans h
  elsewhere hmemory _ := congrArg (fun memory : Memory => memory.arena.routines) hmemory
  note _ := rfl
  stack _ _ := rfl
  addBytes granted := by
    obtain ⟨-, -, rfl⟩ := Arena.addBytes_eq_some granted
    rfl
  addSymbol granted := by
    obtain ⟨-, -, rfl⟩ := Arena.addSymbol_eq_some granted
    rfl
  setValue _ _ same _ := same
  rollback same := same
  retain _ _ := rfl
  release _ same := same

namespace Statement

variable {r : Reentry} (units : UndeclaringDiscipline SameRoutines r)

include units

theorem sameRoutines_undeclaringStatements : Keeps SameRoutines (undeclaringStatements r) := by
  refine units.loop (fun _ m => ?_) _ ()
  unfold undeclaringTurn
  split
  · rfl
  · next other =>
    refine units.turn fun {index s word} token found keyword => ?_
    refine units.ofKeyword (fun func => other ?_) m
    obtain ⟨name, tag, value⟩ := s
    cases keyword
    cases func
    simp only [Machine.atDefinition, token, found]

end Statement

/-- As long as no function is defined, no descriptor is made. -/
theorem Reentry.sameRoutines_undeclaring (world : World) (fuel : Nat) :
    Keeps SameRoutines (Reentry.undeclaring world fuel).expression ∧ ∀ body topLevel duplicate,
      Keeps SameRoutines ((Reentry.undeclaring world fuel).body body topLevel duplicate) := by
  have lenient := lenient_sameRoutines
  induction fuel with
  | zero => exact ⟨fun _ => rfl, fun _ _ _ _ => rfl⟩
  | succ fuel ih =>
    have units := lenient.undeclaring ih.1 ih.2
    refine ⟨units.wholeExpression, fun body topLevel duplicate => ?_⟩
    have statements := Statement.sameRoutines_undeclaringStatements units
    exact lenient.roaming.inScope (lenient.roaming.inBody statements body duplicate) topLevel

/-- A text that defines no function leaves the descriptors as they are. -/
theorem routines_evalText {world : World} {fuel : Nat} {text : String} {duplicate topLevel : Bool}
    {m : Machine}
    (undeclaring : ∀ n, evalTextUndeclaring world fuel text duplicate topLevel m ≠ .stopped .outOfFuel n) :
    (evalText world fuel text duplicate topLevel m).machine.arena.routines = m.arena.routines := by
  rcases (Reentry.undeclaring_below world fuel).text text duplicate topLevel m with same | ⟨n, stopped⟩
  · have kept := lenient_sameRoutines.text (Reentry.sameRoutines_undeclaring world fuel).2 text duplicate
      topLevel m
    change SameRoutines m (Eval.text (.ofFuel world fuel) text duplicate topLevel m).machine
    rw [← same]
    exact kept
  · exact absurd stopped (undeclaring n)

/-! ### Texts -/

/-- Reporting an error spends nothing. -/
theorem Spends.reporting {x : Eval α} {m m₀ : Machine} (h : Spends m₀ (x m).machine) :
    Spends m₀ (reporting x m).machine := by
  unfold Eval.reporting
  generalize x m = o at h
  cases o with
  | done a m' => exact h
  | failed e m' =>
    dsimp only
    split
    · exact h.congr rfl rfl h.duplicate
    · exact h
  | stopped why m' => exact h

/-- Holding a text in a slot spends nothing. -/
theorem Spends.holding {x : Nat → Eval α} {bytes : Text.Bytes} {forGood : Bool} {m : Machine}
    (h : Spends m
      (x (m.texts.retain bytes.toArray).1 (m.withTexts (m.texts.retain bytes.toArray).2)).machine) :
    Spends m (holding bytes forGood x m).machine := by
  unfold Eval.holding
  rw [Outcome.machine_adjust]
  cases forGood with
  | true => exact h
  | false => exact h.congr rfl rfl h.duplicate

theorem Spends.entering {x : Eval α} {m m₀ : Machine}
    (h : Spends m₀ (x { m with depth := m.depth + 1 }).machine) :
    Spends m₀ (entering x m).machine := by
  unfold Eval.entering
  rw [Outcome.machine_adjust]
  exact h.congr rfl rfl h.duplicate

/-- A text that is not copied spends nothing but for descriptors, if it asks for no file. -/
theorem Traced.spends_text {r : TracedReentry} (h : ThriftyReentry r) {text : String} {topLevel : Bool}
    {m : Machine} (natives : m.OnlyBuiltins)
    (sourceless : (Traced.text r text false topLevel).Sourceless m) :
    Spends m ((Traced.text r text false topLevel).run m).machine := by
  have noted : Spends m.note ((Traced.text r text false topLevel).run m).machine := by
    rw [Traced.run_text]
    refine .reporting (.holding (.entering (related_bind_still ?_ fun _ => still_pure ())))
    -- the body starts on a machine with the same arena
    have spent := h.body ⟨.text (m.texts.retain (Text.encode text).toArray).1, 0, (Text.encode text).length⟩
      topLevel { m.note.withTexts (m.texts.retain (Text.encode text).toArray).2 with depth := m.depth + 1 }
      (onlyBuiltins_iff.mpr (onlyBuiltins_iff.mp natives)) fun e he =>
        sourceless e (List.mem_append_left _ he)
    exact spent.congr rfl rfl spent.duplicate
  exact noted.congr rfl rfl noted.duplicate

/-- With the stack as before, what was spent is what durable memory has come down by. -/
theorem Spends.highEnd {m m' : Machine} (h : Spends m m') (stack : m'.arena.stack = m.arena.stack) :
    ∃ added, m'.arena.routines.size = m.arena.routines.size + added ∧
      m'.arena.highEnd + routineSize * added = m.arena.highEnd := by
  obtain ⟨added, routines⟩ := Nat.exists_eq_add_of_le h.routines
  refine ⟨added, routines, ?_⟩
  have reserved := h.reserved
  rw [routines, Nat.mul_add] at reserved
  have depth := Nat.mul_comm m.arena.stack.size wordSize
  have room := h.room
  unfold Arena.depth at room
  unfold Arena.highEnd
  rw [stack, h.size]
  omega

/-- Durable memory does not leak. Take any machine whose natives are the initial ones, new or used, at
rest or in the middle of something, and any text in the course of whose evaluation the native for files is
not called. Evaluated without copies, at the top level or not, the text lowers the upper end of the free
space by what the descriptors cost that were added, and by nothing else, whether it is done, fails or is
stopped. And a run that comes to its end without having met a definition of a function leaves the
descriptors and the upper end as they were, however many turns of loops and calls it went through. -/
theorem durable_memory_balanced (world : World) (fuel : Nat) (text : String) (topLevel : Bool) {m : Machine}
    (natives : m.OnlyBuiltins)
    (sourceless : (Traced.text (.ofFuel world fuel) text false topLevel).Sourceless m) :
    (Traced.text (.ofFuel world fuel) text false topLevel).run = evalText world fuel text false topLevel ∧
    (∃ added, (evalText world fuel text false topLevel m).machine.arena.routines.size =
        m.arena.routines.size + added ∧
      (evalText world fuel text false topLevel m).machine.arena.highEnd + routineSize * added =
        m.arena.highEnd) ∧
    ((∀ n, evalTextUndeclaring world fuel text false topLevel m ≠ .stopped .outOfFuel n) →
      (evalText world fuel text false topLevel m).machine.arena.routines = m.arena.routines ∧
      (evalText world fuel text false topLevel m).machine.arena.highEnd = m.arena.highEnd) := by
  have run := Traced.run_evalText world fuel text false topLevel
  have spent := Traced.spends_text (thriftyReentry_ofFuel world fuel) natives sourceless
  rw [run] at spent
  have stack := (evalText_bracketed world fuel text false topLevel m).stack
  obtain ⟨added, routines, highEnd⟩ := spent.highEnd stack
  refine ⟨run, ⟨added, routines, highEnd⟩, fun undeclaring => ?_⟩
  have same := routines_evalText undeclaring
  refine ⟨same, ?_⟩
  rw [same] at routines
  have none : added = 0 := by omega
  rwa [none] at highEnd

/-- Whoever is called is a function of a script. -/
def Occasion.scripted : Occasion → Bool
  | .dispatching ⟨_, .func _, _⟩ _ => true
  | .dispatching _ _ => false
  | _ => true

theorem Traced.sourceless_of_scripted {x : Traced α} {m : Machine}
    (scripted : (x.events m).all (·.what.scripted) = true) : x.Sourceless m := by
  intro e he
  have only := List.all_eq_true.mp scripted e he
  obtain ⟨what, n⟩ := e
  cases what with
  | dispatching callee count =>
    obtain ⟨name, tag, value⟩ := callee
    intro source
    change tag = _ at source
    rw [source] at only
    cases only
  | _ => exact id

def Outcome.isOver : Outcome α → Bool
  | .stopped _ _ => false
  | _ => true

/-- A text with nested definitions, which ends with an error. -/
def windingText : String :=
  "func h(k) \x7breturn k-1\x7d func f() \x7bfunc g() \x7b\x7d\x7d var i=2 while i \x7bf() i=i-1\x7d nothing"

/-- A text that goes on with what the other has left. -/
def furtherText : String := "i=2 while i \x7bi=h(i)\x7d"

/-- Two calls of a function that defines another cost four descriptors in all, and after that two calls of
a function that defines none cost nothing. -/
theorem durable_memory_balanced_of_windingText :
    ∃ start, Machine.new {} = .ok start ∧ start.OnlyBuiltins ∧
      (Traced.text (.ofFuel (fun _ _ => none) 20) windingText false true).Sourceless start ∧
      let m := (evalText (fun _ _ => none) 20 windingText false true start).machine
      m.arena.highEnd + routineSize * 4 = start.arena.highEnd ∧ m.OnlyBuiltins ∧
      (Traced.text (.ofFuel (fun _ _ => none) 20) furtherText false false).Sourceless m ∧
      (∀ n, evalTextUndeclaring (fun _ _ => none) 20 furtherText false false m ≠ .stopped .outOfFuel n) ∧
      let m' := (evalText (fun _ _ => none) 20 furtherText false false m).machine
      m'.value? "i" = some 0 ∧ m'.arena.highEnd = m.arena.highEnd := by
  have ran : ((Machine.new {}).toOption.map fun start =>
      let m := (evalText (fun _ _ => none) 20 windingText false true start).machine
      decide ((((Traced.text (.ofFuel (fun _ _ => none) 20) windingText false true).events start).all
          (·.what.scripted) = true ∧ start.arena.routines.size = 0 ∧ m.arena.routines.size = 4) ∧
        ((Traced.text (.ofFuel (fun _ _ => none) 20) furtherText false false).events m).all
          (·.what.scripted) = true ∧
        (evalTextUndeclaring (fun _ _ => none) 20 furtherText false false m).isOver = true ∧
        (evalText (fun _ _ => none) 20 furtherText false false m).machine.value? "i" = some 0)) =
      some true := by
    decide +kernel
  obtain ⟨start, made, computed⟩ := Machine.exists_new ran
  obtain ⟨⟨scripted, none, four⟩, scripted', ends, value⟩ := of_decide_eq_true computed
  have natives := onlyBuiltins_new made
  have sourceless := Traced.sourceless_of_scripted scripted
  have sourceless' := Traced.sourceless_of_scripted scripted'
  obtain ⟨run, ⟨added, routines, highEnd⟩, -⟩ := durable_memory_balanced _ _ _ _ natives sourceless
  rw [four, none, Nat.zero_add] at routines
  rw [← routines] at highEnd
  have natives' := (Traced.spends_text (thriftyReentry_ofFuel _ _) natives sourceless).builtins
  rw [run] at natives'
  have undeclaring : ∀ n, evalTextUndeclaring (fun _ _ => Option.none) 20 furtherText false false
      (evalText (fun _ _ => Option.none) 20 windingText false true start).machine ≠
        .stopped .outOfFuel n := by
    intro n stopped
    rw [stopped] at ends
    cases ends
  have same := (durable_memory_balanced _ _ _ _ natives' sourceless').2.2 undeclaring
  exact ⟨start, made, natives, sourceless, highEnd, natives', sourceless', undeclaring, value, same.2⟩

end Scriptlet
