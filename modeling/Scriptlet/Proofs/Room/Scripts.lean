import Scriptlet.Proofs.Room.Scaling

/-!
More room changes nothing. Every construct scales if what is nested in it does, so all evaluation
scales, by induction on the fuel. What is done in an arena of some size without a lack of memory is
then done in every larger one, and leaves the same behind (`evalAll_roomier`).
-/

namespace Scriptlet

/-! ### The constructs -/

theorem World.scales_ask (world : World) {size : Nat} (question : Question) :
    Eval.Scales size (world.ask question) := by
  intro m fits
  have asked : (m.resize size).asked = m.asked := rfl
  unfold World.ask
  rw [asked]
  cases world m.asked question with
  | some answer => exact .inr ⟨rfl, fits.congr rfl⟩
  | none => exact .inr ⟨rfl, fits⟩

structure Reentry.Scales (size : Nat) (r : Reentry) : Prop where
  expression : Eval.Scales size r.expression
  body : ∀ body topLevel duplicate, Eval.Scales size (r.body body topLevel duplicate)

namespace Reentry.Scales

open Eval.Scales

variable {size : Nat} {r : Reentry} (h : r.Scales size)

include h

theorem text (t : String) (duplicate topLevel : Bool) :
    Eval.Scales size (Eval.text r t duplicate topLevel) :=
  noting (reporting (holding
    (fun _ => entering ((h.body _ topLevel duplicate).bind fun _ => pure _)) _ _))

theorem file (path : String) : Eval.Scales size (Eval.file r path) := by
  refine (reporting ((r.world.scales_ask _).bind fun answer => ?_)).bind
    fun contents => h.text contents true true
  cases answer with
  | missing => exact fail _
  | unreadable => exact fail _
  | contents bytes =>
    refine (read fun _ => rfl).bind fun limit => ?_
    split
    · exact fail _
    · exact pure _

theorem perform {action : Action} (heedless : action.Alike false action) :
    Eval.Scales size (action.perform r) := by
  induction action with
  | give value => exact pure _
  | fail error => exact fail _
  | takeLiteral next ih =>
    cases heedless with
    | takeLiteral hnext =>
      exact Eval.Scales.takeLiteral.bind fun text? => ih text? (hnext text?)
  | write stream bytes next ih =>
    cases heedless with
    | write _ hnext =>
      exact (Eval.Scales.write stream bytes).bind fun _ => ih hnext
  | look next ih =>
    cases heedless with
    | look strict => cases strict
  | define name tag value next ih =>
    cases heedless with
    | define strict => cases strict
    | defineNative strict => cases strict
  | evalText t duplicate topLevel next ih =>
    cases heedless with
    | evalText strict => cases strict
  | evalFile path next ih =>
    cases heedless with
    | evalFile hmemory hok herror =>
      refine (h.file path).attempt_bind (fun ended => ih ended ?_) fun e m kind => ?_
      · cases ended with
        | ok => exact hok
        | error e => exact herror e e (.refl e)
      · rw [(hmemory rfl e kind).1]
        exact kind
  | ask question next ih =>
    cases heedless with
    | ask hnext => exact (r.world.scales_ask question).bind fun answer => ih answer (hnext answer)

theorem argument : Eval.Scales size (Call.argument r) := h.expression.bind fun value => push value

theorem argumentsInParens : Eval.Scales size (Call.argumentsInParens r) := by
  refine advance.bind fun _ => token.bind fun t => ?_
  split
  · exact pure _
  · refine Eval.Scales.loop (fun count => h.argument.bind fun _ => token.bind fun t => ?_) _ 0
    split
    · exact advance.bind fun _ => pure _
    · exact pure _
    · exact complain _

theorem argumentsAfterCallee : Eval.Scales size (Call.argumentsAfterCallee r) := by
  refine advance.bind fun _ => token.bind fun t => ?_
  split
  · exact h.argumentsInParens
  · exact complain _

theorem bareArguments : Eval.Scales size (Call.bareArguments r) := by
  refine startsExpression.bind fun starts => ?_
  split
  · refine Eval.Scales.loop (fun count => h.argument.bind fun _ => token.bind fun t => ?_) _ 0
    split
    · exact advance.bind fun _ => pure _
    · exact pure _
  · exact pure _

theorem argumentsAfterCommand : Eval.Scales size (Call.argumentsAfterCommand r) := by
  refine advance.bind fun _ => token.bind fun t => ?_
  split
  · exact h.argumentsInParens.bind fun _ => pure _
  · exact h.bareArguments.bind fun _ => pure _

theorem runRoutine (routine : Routine) (args : List Word) :
    Eval.Scales size (Call.runRoutine r routine args) :=
  inFrame ((bindParameters _).bind fun _ => (storeResult 0).bind fun _ =>
    (h.body _ false false).bind fun _ => read fun _ => rfl)

theorem runFunction (number : Word) (args : List Word) :
    Eval.Scales size (Call.runFunction r number args) := by
  refine noting ((read fun _ => rfl).bind fun routine? => ?_)
  cases routine? with
  | some routine => exact h.runRoutine routine args
  | none => exact fail _

theorem runCallee {callee : Symbol Native} (heedless : callee.Heedless) (args : List Word)
    (literals : Nat) : Eval.Scales size (Call.runCallee r callee args literals) := by
  unfold Call.runCallee
  split
  · exact fail _
  · split
    · next native arity htag => exact (h.perform (heedless htag args)).withPending literals
    · exact h.runFunction _ _
    · exact complain _

theorem handOver {callee : Symbol Native} (heedless : callee.Heedless) (count literals : Nat) :
    Eval.Scales size (Call.handOver r callee count literals) :=
  truncatingLiterals ((popOnto [] count).bind fun args => h.runCallee heedless args literals) literals

theorem inExpression {callee : Symbol Native} (heedless : callee.Heedless) :
    Eval.Scales size (Call.inExpression r callee) :=
  (read fun _ => rfl).bind fun literals =>
    (h.argumentsAfterCallee.withQuoting .argument).unwinding.bind fun count =>
      (h.handOver heedless count literals).bind fun _ => advance.bind fun _ => pure _

theorem asStatement {callee : Symbol Native} (heedless : callee.Heedless) :
    Eval.Scales size (Call.asStatement r callee) := by
  refine (read fun _ => rfl).bind fun literals =>
    (h.argumentsAfterCommand.withQuoting .argument).unwinding.bind fun counted =>
      (h.handOver heedless counted.1 literals).bind fun _ => ?_
  split
  · exact advance
  · exact pure _

theorem symbolAtom {s : Symbol Native} (heedless : s.Heedless) :
    Eval.Scales size (Expression.symbolAtom r s) := by
  unfold Expression.symbolAtom
  split
  · exact advance.bind fun _ => pure _
  · exact h.inExpression heedless
  · exact h.inExpression heedless
  · exact advance.bind fun _ => h.expression.bind fun _ => ofExcept _
  · exact complain _

theorem group : Eval.Scales size (Expression.group r) := by
  refine advance.bind fun _ => h.expression.bind fun value => token.bind fun t => ?_
  split
  · exact pure _
  · exact complain _

theorem atom : Eval.Scales size (Expression.atom r) := by
  refine token.bind fun t => ?_
  split
  · exact advance.bind fun _ => pure _
  · exact (h.group.withQuoting .plain).bind fun _ => advance.bind fun _ => pure _
  · exact advance.bind fun _ => pure _
  · exact advance.bind fun _ => pure _
  · exact fail _
  · exact symbolAt_bind fun s heedless => h.symbolAtom heedless
  all_goals exact complain _

theorem upToLevel (level : Nat) : Eval.Scales size (Expression.upToLevel r level) := by
  induction level with
  | zero => exact h.atom
  | succ level ih =>
    refine ih.bind fun first => Eval.Scales.loop (fun value => Eval.Scales.bind ?_ fun op? => ?_) _ first
    · refine tokenTag?.bind fun tag? => ?_
      split <;> exact pure _
    · cases op? with
      | some op =>
        exact advance.bind fun _ => ih.bind fun operand => (ofExcept _).bind fun _ => pure _
      | none => exact pure _

theorem assign (index : Nat) : Eval.Scales size (Statement.assign r index) := by
  refine tokenTag?.bind fun tag? => ?_
  split
  · exact advance.bind fun _ => h.expression.bind fun value => setValue index value
  · exact complain _

theorem declareVariable : Eval.Scales size (Statement.declareVariable r) :=
  advanceRaw.bind fun _ => definedName.bind fun name =>
    (addSymbol name 0 fun _ _ h => by cases h).bind fun index => advance.bind fun _ => h.assign index

theorem nestedBody (body : Slice) : Eval.Scales size (Statement.nestedBody r body) :=
  noting ((h.body body false false).bind fun _ => pure _)

theorem branch : Eval.Scales size (Statement.branch r) := by
  refine advance.bind fun _ => h.expression.bind fun condition => takeBody.bind fun body =>
    takeAlternative.bind fun alternative => ?_
  split
  · exact (h.nestedBody body).bind fun _ => pure _
  · cases alternative with
    | some body => exact (h.nestedBody body).bind fun _ => pure _
    | none => exact pure _

theorem repeatBranch : Eval.Scales size (Statement.repeatBranch r) := by
  refine (read fun _ => rfl).bind fun start => Eval.Scales.loop (fun _ => h.branch.bind fun held => ?_) _ ()
  split
  · exact (moveTo start).bind fun _ => pure _
  · exact pure _

theorem setResult : Eval.Scales size (Statement.setResult r) := by
  refine advance.bind fun _ => startsExpression.bind fun starts => ?_
  split
  · exact h.expression.bind storeResult
  · exact (pure 0).bind storeResult

theorem ofKeyword (word : Keyword) : Eval.Scales size (Statement.ofKeyword r word) := by
  cases word with
  | var => exact h.declareVariable.bind fun _ => pure _
  | cond => exact h.branch.bind fun _ => pure _
  | loop => exact h.repeatBranch.bind fun _ => pure _
  | func => exact declareFunction.bind fun _ => pure _
  | leave => exact h.setResult.bind fun _ => pure _
  | otherwise => exact complain _

theorem statement : Eval.Scales size (Statement.statement r) := by
  refine token.bind fun t => ?_
  split
  · refine symbolAt_bind fun s heedless => ?_
    split
    · exact (advance.bind fun _ => h.assign _).bind fun _ => pure _
    · exact (h.asStatement heedless).bind fun _ => pure _
    · exact (h.inExpression heedless).bind fun _ => pure _
    · exact h.ofKeyword _
    · exact complain _
  · exact fail _
  · exact complain _

theorem statements : Eval.Scales size (Statement.statements r) := by
  refine Eval.Scales.loop (fun _ => token.bind fun t => ?_) _ ()
  split
  · exact pure _
  · exact advance.bind fun _ => pure _
  · refine h.statement.bind fun ending => ?_
    cases ending with
    | returned => exact pure _
    | ranOut => exact passSeparator.bind fun _ => pure _

theorem wholeBody (body : Slice) (topLevel duplicate : Bool) :
    Eval.Scales size (r.wholeBody body topLevel duplicate) :=
  inScope (inBody (locating (advance.bind fun _ => h.statements)) _ _) _

end Reentry.Scales

/-- Evaluation on a budget of fuel scales. -/
theorem Reentry.scales_ofFuel (size : Nat) (world : World) (fuel : Nat) :
    (Reentry.ofFuel world fuel).Scales size := by
  induction fuel with
  | zero => exact ⟨fun _ fits => .inr ⟨rfl, fits⟩, fun _ _ _ _ fits => .inr ⟨rfl, fits⟩⟩
  | succ fuel ih => exact ⟨ih.upToLevel _, ih.wholeBody⟩

/-! ### Sequences of scripts -/

/-- What a host can have evaluated: a text, or a file. -/
inductive Script where
  | text (t : String) (duplicate topLevel : Bool)
  | file (path : String)

def Script.eval (world : World) (fuel : Nat) : Script → Eval Unit
  | .text t duplicate topLevel => evalText world fuel t duplicate topLevel
  | .file path => evalFile world fuel path

/-- Evaluates scripts one after another, whether or not they fail. A script that is stopped is the
last. -/
def evalAll (world : World) (fuel : Nat) : List Script → Machine → List (Outcome Unit)
  | [], _ => []
  | script :: scripts, m =>
    let o := script.eval world fuel m
    o :: match o with
      | .stopped _ _ => []
      | _ => evalAll world fuel scripts o.machine

theorem Script.scales_eval (script : Script) (size : Nat) (world : World) (fuel : Nat) :
    Eval.Scales size (script.eval world fuel) := by
  have scales := Reentry.scales_ofFuel size world fuel
  cases script with
  | text t duplicate topLevel => exact scales.text t duplicate topLevel
  | file path => exact scales.file path

theorem evalAll_resize {size : Nat} (world : World) (fuel : Nat) {scripts : List Script}
    {m : Machine} (fits : m.Fits size)
    (enough : ∀ o ∈ evalAll world fuel scripts m, ¬ o.OutOfMemory) :
    evalAll world fuel scripts (m.resize size) =
      (evalAll world fuel scripts m).map (·.adjust (Machine.resize size)) := by
  induction scripts generalizing m with
  | nil => rfl
  | cons script scripts ih =>
    obtain ⟨same, fits⟩ : script.eval world fuel (m.resize size) =
        (script.eval world fuel m).adjust (Machine.resize size) ∧
          (script.eval world fuel m).machine.Fits size :=
      (script.scales_eval size world fuel fits).resolve_left (enough _ List.mem_cons_self)
    unfold evalAll at enough ⊢
    dsimp only at enough ⊢
    rw [same]
    generalize script.eval world fuel m = o at enough fits ⊢
    have more := ih fits
    cases o with
    | stopped why m' => rfl
    | done a m' =>
      exact congrArg (_ :: ·) (more fun o ho => enough o (List.mem_cons_of_mem _ ho))
    | failed e m' =>
      exact congrArg (_ :: ·) (more fun o ho => enough o (List.mem_cons_of_mem _ ho))

/-- All that can be told of a machine, the size of its arena apart: what it has written to each
stream, the result register, the symbols, and the figures of its memory. -/
structure Machine.SameInside (m m' : Machine) : Prop where
  written : ∀ stream, m'.written stream = m.written stream
  result : m'.result = m.result
  symbols : m'.symbolList = m.symbolList
  lowEnd : m'.arena.lowEnd = m.arena.lowEnd
  depth : m'.arena.depth = m.arena.depth
  reserved : m'.arena.reserved = m.arena.reserved

theorem Machine.sameInside_resize (size : Nat) (m : Machine) : m.SameInside (m.resize size) where
  written _ := rfl
  result := rfl
  symbols := m.symbolList_resize size
  lowEnd := rfl
  depth := rfl
  reserved := rfl

/-- Two outcomes with the same value, the very same error or the same reason to stop, and machines
that are related. -/
inductive Outcome.Same {α : Type} (R : Machine → Machine → Prop) : Outcome α → Outcome α → Prop where
  | done (a : α) {m m' : Machine} (h : R m m') : Same R (.done a m) (.done a m')
  | failed (e : Error) {m m' : Machine} (h : R m m') : Same R (.failed e m) (.failed e m')
  | stopped (why : Stop) {m m' : Machine} (h : R m m') : Same R (.stopped why m) (.stopped why m')

theorem Machine.new_resize {options : Options} {size : Nat} {m m' : Machine}
    (made : Machine.new options = .ok m)
    (made' : Machine.new { options with arenaSize := size } = .ok m') : m' = m.resize size := by
  have arena := (Machine.new_eq_ok made).1
  have arena' := (Machine.new_eq_ok made').1
  unfold Machine.new at made made'
  split at made <;> cases made
  split at made' <;> cases made'
  have same : _ = Arena.resize size _ := arena'.trans (congrArg (Arena.resize size) arena).symm
  simp only [Machine.note] at same
  rw [Machine.resize_note, same]
  simp only [Machine.resize, History.resize_empty]

theorem Machine.fits_new {options : Options} {size : Nat} (le : options.arenaSize ≤ size)
    {m : Machine} (made : Machine.new options = .ok m) : m.Fits size where
  size := by
    rw [(Machine.new_eq_ok made).1]
    exact le
  natives s hs native arity htag args := by
    obtain ⟨i, found⟩ := Array.getElem?_of_mem hs
    obtain ⟨entry, hmem, rfl⟩ := onlyBuiltins_new made found htag
    exact Builtin.alike_of_mem hmem args

/-- More room changes nothing. Of two new machines with the same settings, but for an arena that is
at least as large, the same scripts are asked. As long as the first does not run out of memory, they
come to the same, script by script, and are the same inside. -/
theorem evalAll_roomier {options : Options} {size : Nat} (le : options.arenaSize ≤ size)
    {m m' : Machine} (made : Machine.new options = .ok m)
    (made' : Machine.new { options with arenaSize := size } = .ok m') (world : World) (fuel : Nat)
    (scripts : List Script) (enough : ∀ o ∈ evalAll world fuel scripts m, ¬ o.OutOfMemory) :
    List.Forall₂ (Outcome.Same Machine.SameInside) (evalAll world fuel scripts m)
      (evalAll world fuel scripts m') := by
  rw [Machine.new_resize made made', evalAll_resize world fuel (Machine.fits_new le made) enough,
    List.forall₂_map_right_iff]
  refine List.forall₂_same.mpr fun o _ => ?_
  cases o with
  | done a n => exact .done a (n.sameInside_resize size)
  | failed e n => exact .failed e (n.sameInside_resize size)
  | stopped why n => exact .stopped why (n.sameInside_resize size)

/-- A function, a call of it, and a file that calls it and then fails. -/
def callingScripts : List Script :=
  [.text "func f(n) \x7b print n ; return n - 1 \x7d" true true, .text "f(3)" false true, .file "more"]

def callingWorld : World
  | _, .fileContents _ => some (.contents (Text.encode "var z = 1 / f(1)"))
  | _, _ => none

theorem evalAll_roomier_calling :
    ∃ m m', Machine.new { arenaSize := 2048 } = .ok m ∧ Machine.new { arenaSize := 65536 } = .ok m' ∧
      (∀ o ∈ evalAll callingWorld 20 callingScripts m, ¬ o.OutOfMemory) ∧
      (evalAll callingWorld 20 callingScripts m).length = 3 ∧
      List.Forall₂ (Outcome.Same Machine.SameInside) (evalAll callingWorld 20 callingScripts m)
        (evalAll callingWorld 20 callingScripts m') := by
  have run : ((Machine.new { arenaSize := 2048 }).toOption.map fun m =>
      decide ((∀ o ∈ evalAll callingWorld 20 callingScripts m, ¬ o.OutOfMemory) ∧
        (evalAll callingWorld 20 callingScripts m).length = 3)) = some true := by
    decide +kernel
  have roomy : ((Machine.new { arenaSize := 65536 }).toOption.map fun m => m.arena.size) =
      some 65536 := by
    decide +kernel
  obtain ⟨m, made, holds⟩ := Machine.exists_new run
  obtain ⟨m', made', -⟩ := Machine.exists_new roomy
  obtain ⟨enough, length⟩ := of_decide_eq_true holds
  have le : 2048 ≤ 65536 := by decide
  exact ⟨m, m', made, made', enough, length,
    evalAll_roomier le made made' callingWorld 20 callingScripts enough⟩

end Scriptlet
