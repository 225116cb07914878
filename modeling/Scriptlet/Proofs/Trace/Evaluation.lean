import Scriptlet.Evaluation.Run

/-!
Evaluation with an account of it. What an evaluation leaves behind does not tell what it went through:
which symbols it asked for, what the machine was like when a native started. A `Traced` computation is
a computation together with the events in the course of it, in order, each with the machine of that
moment. The constructs below are those of evaluation once more, with the events put in.

The account changes nothing: a traced construct runs as the construct does (`run_ofFuel`,
`run_perform`). It is told of every time that evaluation

* asks for the symbol of an index, or meets a name that stands for nothing;
* stores a value in a variable;
* hands words over to a callee, runs the routine of a number, or starts a native;
* is left by a native with an error of the native's own, or by a text that failed.
-/

namespace Scriptlet

inductive CallForm where
  | parenthesised
  | command
  deriving DecidableEq, Repr

/-- What there is to tell. -/
inductive Occasion where
  /-- The symbol of an index is asked for. -/
  | seeking (index : Nat)
  /-- A name that stands for nothing is met where a symbol is due. -/
  | unresolved (name : Slice)
  /-- A value is stored in the variable of an index; `since` is the machine on which the statement
  found or made the variable. -/
  | storing (index : Nat) (since : Machine)
  /-- A callee is handed some words. -/
  | dispatching (callee : Symbol Native) (count : Nat)
  /-- The routine of a number is called. -/
  | running (number : Word) (args : List Word)
  /-- A native starts; what the machine read after the name of the native began at `list`. -/
  | starting (form : CallForm) (list : Scanner)
  /-- A native, or the host, ends with an error. -/
  | refused (error : Error)
  /-- An evaluation that a native or the host has started ends with an error. -/
  | failed (error : Error)

/-- Something that happened, and the machine of that moment. -/
structure Event where
  what : Occasion
  machine : Machine

def Outcome.thenTold {α : Type} (o : Outcome α) (next : α → Machine → List Event) : List Event :=
  match o with
  | done value m => next value m
  | failed _ _ => []
  | stopped _ _ => []

def Outcome.toldOf {α : Type} (o : Outcome α) : List Event :=
  match o with
  | failed error m => [⟨.failed error, m⟩]
  | done _ _ | stopped _ _ => []

/-- A computation with what happens in the course of it, on each machine. -/
@[ext]
structure Traced (α : Type) where
  run : Eval α
  events : Machine → List Event

namespace Traced

variable {α β σ : Type}

/-! ### Combinators -/

/-- A computation of which there is nothing to tell. -/
def quiet (x : Eval α) : Traced α := ⟨x, fun _ => []⟩

def tell (what : Occasion) : Traced Unit := ⟨pure (), fun m => [⟨what, m⟩]⟩

protected def bind (x : Traced α) (next : α → Traced β) : Traced β where
  run := x.run >>= fun a => (next a).run
  events m := x.events m ++ (x.run m).thenTold fun a m' => (next a).events m'

instance : Monad Traced where
  pure a := quiet (pure a)
  bind := Traced.bind

instance : MonadLift Eval Traced := ⟨quiet⟩

def eventsOfLoop (turn : σ → Traced (Turn σ α)) : Nat → σ → Machine → List Event
  | 0, _, _ => []
  | passes + 1, state, m =>
    (turn state).events m ++ ((turn state).run m).thenTold fun next m' =>
      match next with
      | .again state => eventsOfLoop turn passes state m'
      | .finish _ => []

def loop (turn : σ → Traced (Turn σ α)) (passes : Nat) (state : σ) : Traced α where
  run := Eval.loop (fun state => (turn state).run) passes state
  events := eventsOfLoop turn passes state

def afterTurn (turn : σ → Traced (Turn σ α)) (passes : Nat) : Turn σ α → Traced α
  | .again state => loop turn passes state
  | .finish value => quiet (pure value)

/-- A loop is a turn and what comes after it. -/
theorem loop_succ (turn : σ → Traced (Turn σ α)) (passes : Nat) (state : σ) :
    loop turn (passes + 1) state = Traced.bind (turn state) (afterTurn turn passes) := by
  refine Traced.ext (funext fun m => ?_) (funext fun m => ?_)
  · change Eval.loop (fun state => (turn state).run) (passes + 1) state m =
      ((turn state).run m).andThen _
    rw [Eval.loop]
    cases (turn state).run m with
    | done next m' => cases next <;> rfl
    | _ => rfl
  · change (turn state).events m ++ _ = (turn state).events m ++ _
    cases (turn state).run m with
    | done next m' => cases next <;> rfl
    | _ => rfl

/-- Runs a computation inside something that starts it on another machine, or changes its outcome. -/
def within (around : Eval α → Eval β) (start : Machine → Machine) (x : Traced α) : Traced β where
  run m := around (fun _ => x.run (start m)) m
  events m := x.events (start m)

def noting (x : Traced α) : Traced α := within Eval.noting Machine.note x

def attempt (x : Traced α) : Traced (Except Error α) := within Eval.attempt id x

def withQuoting (quoting : Quoting) (x : Traced α) : Traced α :=
  within (Eval.withQuoting quoting) (fun m => { m with quoting }) x

def unwinding (x : Traced α) : Traced α := within Eval.unwinding id x

def truncatingLiterals (count : Nat) (x : Traced α) : Traced α :=
  within (Eval.truncatingLiterals count) id x

def withPending (count : Nat) (x : Traced α) : Traced α :=
  within (Eval.withPending count) (fun m => { m with literals := (m.literals.openFrame count).2 }) x

def inFrame (x : Traced α) : Traced α := within Call.inFrame id x

def inBody (body : Slice) (duplicate : Bool) (x : Traced α) : Traced α :=
  within (Eval.inBody body duplicate)
    (fun m => { m with cursor := m.cursorAt body, quoting := .plain, duplicate }) x

def inScope (topLevel : Bool) (x : Traced α) : Traced α := within (Eval.inScope topLevel) id x

def locating (x : Traced α) : Traced α := within Eval.locating id x

def reporting (x : Traced α) : Traced α := within Eval.reporting id x

def entering (x : Traced α) : Traced α :=
  within Eval.entering (fun m => { m with depth := m.depth + 1 }) x

def holding (text : Text.Bytes) (forGood : Bool) (x : Nat → Traced α) : Traced α where
  run := Eval.holding text forGood fun slot => (x slot).run
  events m := (x (m.texts.retain text.toArray).1).events
    (m.withTexts (m.texts.retain text.toArray).2)

end Traced

/-- How to evaluate what is nested in a construct, with an account. -/
structure TracedReentry where
  world : World
  passes : Nat
  expression : Traced Word
  body : (body : Slice) → (topLevel duplicate : Bool) → Traced Ending

def TracedReentry.run (r : TracedReentry) : Reentry :=
  ⟨r.world, r.passes, r.expression.run, fun body topLevel duplicate =>
    (r.body body topLevel duplicate).run⟩

namespace Traced

open Eval (token advance advanceRaw complain fail read update ofExcept allocate push popWords)
open Statement (definedName takeBody declareFunction)

variable (r : TracedReentry)

/-! ### Symbols -/

def symbolAt (index : Nat) : Traced (Symbol Native) := do
  tell (.seeking index)
  Eval.symbolAt index

def tokenTag? : Traced (Option (Tag Native)) := do
  match ← token with
  | .symbol index => return some (← symbolAt index).tag
  | _ => return none

def startsExpression : Traced Bool := do
  match ← token with
  | .number _ | .openParen | .text _ | .literal | .name _ => return true
  | .symbol index =>
    match (← symbolAt index).tag with
    | .keyword _ => return false
    | _ => return true
  | .eof | .separator | .comma | .closeParen => return false

def unknown {α : Type} (name : Slice) : Traced α := do
  tell (.unresolved name)
  fail .unknownSymbol

/-! ### Texts and natives -/

def text (text : String) (duplicate topLevel : Bool) : Traced Unit :=
  let bytes := Text.encode text
  noting <| reporting <| holding bytes (!duplicate && topLevel) fun slot => entering do
    let _ ← r.body ⟨.text slot, 0, bytes.length⟩ topLevel duplicate

def file (path : String) : Traced Unit := do
  let contents ← Eval.reporting (Eval.readScript r.world path)
  text r contents true true

def judged {α : Type} (x : Traced α) : Traced (Except Error α) := do
  let ended ← attempt x
  match ended with
  | .ok _ => return ended
  | .error error => do
    tell (.failed error)
    return ended

def perform : Action → Traced Word
  | .give value => return value
  | .fail error => do
    tell (.refused error)
    fail error
  | .takeLiteral next => do
    let text? ← Eval.takeLiteral
    perform (next text?)
  | .write stream bytes next => do
    Eval.write stream bytes
    perform next
  | .look next => do
    let view ← Eval.look
    perform (next view)
  | .define name tag value next => do
    let index ← Eval.attempt (Eval.define name tag value)
    perform (next index)
  | .evalText text duplicate topLevel next => do
    let ended ← judged (Traced.text r text duplicate topLevel)
    perform (next ended)
  | .evalFile path next => do
    let ended ← judged (file r path)
    perform (next ended)
  | .ask question next => do
    let answer ← r.world.ask question
    perform (next answer)

/-! ### Calls -/

def argument : Traced Unit := do
  let value ← r.expression
  push value

def parensTurn (count : Nat) : Traced (Turn Nat Nat) := do
  argument r
  Call.behindArgument count

def argumentsInParens : Traced Nat := do
  advance
  if (← token) = .closeParen then return 0 else loop (parensTurn r) r.passes 0

def argumentsAfterCallee : Traced Nat := do
  advance
  if (← token) = .openParen then argumentsInParens r else complain .expectedOpen

def bareTurn (count : Nat) : Traced (Turn Nat Nat) := do
  argument r
  Call.behindBare count

def bareArguments : Traced Nat := do
  if ← startsExpression then loop (bareTurn r) r.passes 0 else return 0

def argumentsAfterCommand : Traced (Nat × Bool) := do
  advance
  if (← token) = .openParen then return (← argumentsInParens r, true)
  else return (← bareArguments r, false)

def runRoutine (routine : Routine) (args : List Word) : Traced Word :=
  inFrame do
    Call.bindParameters (routine.params.zip args)
    update fun m => { m with result := 0 }
    let _ ← r.body routine.body false false
    read (·.result)

def runFunction (number : Word) (args : List Word) : Traced Word := noting do
  tell (.running number args)
  match ← read fun m => number.index?.bind (m.arena.routines[·]?) with
  | some routine => runRoutine r routine args
  | none => fail .unknownSymbol

def runNativeWith (native : Native) (args : List Word) (literals : Nat) (form : CallForm)
    (list : Scanner) : Traced Word :=
  withPending literals do
    tell (.starting form list)
    perform r (native args)

def runCallee (callee : Symbol Native) (args : List Word) (literals : Nat) (form : CallForm)
    (list : Scanner) : Traced Word := do
  tell (.dispatching callee args.length)
  if args.length ≠ callee.tag.arity?.getD 0 then fail .argumentMismatch
  else
    match callee.tag with
    | .native native _ => runNativeWith r native args literals form list
    | .func _ => runFunction r callee.value args
    | _ => complain .expectedFunction

def handOver (callee : Symbol Native) (count literals : Nat) (form : CallForm) (list : Scanner) :
    Traced Word :=
  truncatingLiterals literals do
    let args ← popWords count
    runCallee r callee args literals form list

def inExpression (callee : Symbol Native) : Traced Word := do
  let list ← read (·.cursor.scanner)
  let literals ← read (·.literals.size)
  let count ← unwinding (withQuoting .argument (argumentsAfterCallee r))
  let value ← handOver r callee count literals .parenthesised list
  advance
  return value

def asStatement (callee : Symbol Native) : Traced Unit := do
  let list ← read (·.cursor.scanner)
  let literals ← read (·.literals.size)
  let (count, inParens) ← unwinding (withQuoting .argument (argumentsAfterCommand r))
  let _ ← handOver r callee count literals (if inParens then .parenthesised else .command) list
  if inParens then advance

/-! ### Expressions -/

def operatorOfLevel (level : Nat) : Traced (Option Operator) := do
  match ← tokenTag? with
  | some (.operator op) => return if op.level = level then some op else none
  | _ => return none

def group : Traced Word := do
  advance
  let value ← r.expression
  if (← token) = .closeParen then return value else complain .expectedClose

def symbolAtom (s : Symbol Native) : Traced Word := do
  match s.tag with
  | .var => do advance; return s.value
  | .native _ _ | .func _ => inExpression r s
  | .operator op => do
    advance
    let value ← r.expression
    ofExcept (op.apply 0 value)
  | .keyword _ => complain .expectedExpression

def atom : Traced Word := do
  match ← token with
  | .number value => do advance; return value
  | .openParen => do
    let value ← withQuoting .plain (group r)
    advance
    return value
  | .text _ => do advance; return 0
  | .literal => do advance; return Word.literalMark
  | .name name => unknown name
  | .symbol index => do
    let s ← symbolAt index
    symbolAtom r s
  | .eof | .separator | .comma | .closeParen => complain .expectedExpression

def levelTurn (level : Nat) (operand : Traced Word) (value : Word) : Traced (Turn Word Word) := do
  match ← operatorOfLevel level with
  | some op => do
    advance
    let operand ← operand
    let value ← ofExcept (op.apply value operand)
    return .again value
  | none => return .finish value

def upToLevel : (level : Nat) → Traced Word
  | 0 => atom r
  | level + 1 => do
    let first ← upToLevel level
    loop (levelTurn (level + 1) (upToLevel level)) r.passes first

def wholeExpression : Traced Word := upToLevel r Operator.maxLevel

/-! ### Statements -/

def assign (index : Nat) (since : Machine) : Traced Unit := do
  match ← tokenTag? with
  | some (.operator .equal) => do
    advance
    let value ← r.expression
    tell (.storing index since)
    update fun m => m.withArena (m.arena.setValue index value)
  | _ => complain .expectedEquals

def reassign (index : Nat) : Traced Unit := do
  let since ← read id
  advance
  assign r index since

def declareVariable : Traced Unit := do
  advanceRaw
  let name ← definedName
  let index ← allocate (·.addSymbol name .var 0)
  let since ← read id
  advance
  assign r index since

def takeAlternative : Traced (Option Slice) := do
  match ← tokenTag? with
  | some (.keyword .otherwise) => do
    advance
    return some (← takeBody)
  | _ => return none

def nestedBody (body : Slice) : Traced Unit := noting do
  let _ ← r.body body false false

/-- The part of a branch behind its word: the condition and the bodies it chooses from. -/
def choice : Traced Bool := do
  let condition ← r.expression
  let body ← takeBody
  let alternative ← takeAlternative
  if condition ≠ 0 then do
    nestedBody r body
    return true
  else do
    match alternative with
    | some body => nestedBody r body
    | none => pure ()
    return false

def branch : Traced Bool := do
  advance
  choice r

def branchTurn (start : Cursor) (_ : Unit) : Traced (Turn Unit Unit) := do
  if ← branch r then do
    update fun m => { m with cursor := start }
    return .again ()
  else return .finish ()

def repeatBranch : Traced Unit := do
  let start ← read (·.cursor)
  loop (branchTurn r start) r.passes ()

def setResult : Traced Unit := do
  advance
  let value ← if ← startsExpression then r.expression else pure 0
  update fun m => { m with result := value }

def ofKeyword : Keyword → Traced Ending
  | .var => do declareVariable r; return .ranOut
  | .cond => do let _ ← branch r; return .ranOut
  | .loop => do repeatBranch r; return .ranOut
  | .func => do declareFunction; return .ranOut
  | .leave => do setResult r; return .returned
  | .otherwise => complain .unexpectedElse

def statement : Traced Ending := do
  match ← token with
  | .symbol index => do
    let s ← symbolAt index
    match s.tag with
    | .var => do reassign r index; return .ranOut
    | .native _ _ => do asStatement r s; return .ranOut
    | .func _ => do let _ ← inExpression r s; return .ranOut
    | .keyword word => ofKeyword r word
    | .operator _ => complain .expectedStatement
  | .name name => unknown name
  | _ => complain .expectedStatement

def passSeparator : Traced Unit := do
  match ← token with
  | .eof | .name _ => pure ()
  | .separator => advance
  | .symbol index =>
    match (← symbolAt index).tag with
    | .var | .native _ _ | .func _ => pure ()
    | .keyword word => if word = .otherwise then complain .expectedEndOfStatement else pure ()
    | .operator _ => complain .expectedEndOfStatement
  | _ => complain .expectedEndOfStatement

def statementTurn : Traced (Turn Unit Ending) := do
  match ← statement r with
  | .returned => return .finish .returned
  | .ranOut => do passSeparator; return .again ()

def turn (_ : Unit) : Traced (Turn Unit Ending) := do
  match ← token with
  | .eof => return .finish .ranOut
  | .separator => do advance; return .again ()
  | _ => statementTurn r

def statements : Traced Ending := loop (turn r) r.passes ()

def wholeBody (body : Slice) (topLevel duplicate : Bool) : Traced Ending :=
  inScope topLevel <| inBody body duplicate <| locating do
    advance
    statements r

end Traced

/-! ### Evaluation as a whole -/

def TracedReentry.ofFuel (world : World) : Nat → TracedReentry
  | 0 => ⟨world, 0, .quiet fun m => .stopped .outOfFuel m, fun _ _ _ =>
      .quiet fun m => .stopped .outOfFuel m⟩
  | fuel + 1 => ⟨world, fuel + 1, Traced.wholeExpression (ofFuel world fuel),
      Traced.wholeBody (ofFuel world fuel)⟩

/-! ### The account changes nothing -/

namespace Traced

variable {α β σ : Type}

theorem run_bind {x : Traced α} {f : α → Traced β} {y : Eval α} {g : α → Eval β} (hx : x.run = y)
    (hf : ∀ a, (f a).run = g a) : (x >>= f).run = y >>= g := by
  subst hx
  exact congrArg (x.run >>= ·) (funext hf)

/-- An event that is told of changes nothing in the run. -/
theorem run_tell_bind {what : Occasion} {f : Unit → Traced β} {y : Eval β} (hf : (f ()).run = y) :
    (tell what >>= f).run = y := hf

theorem run_read_bind {g : Machine → α} {f : α → Traced β} {y : Eval β}
    (hf : ∀ a, (f a).run = y) : ((Eval.read g : Traced α) >>= f).run = y := by
  funext m
  exact congrFun (hf (g m)) m

theorem run_loop {turn : σ → Traced (Turn σ α)} {turn' : σ → Eval (Turn σ α)}
    (h : ∀ s, (turn s).run = turn' s) (passes : Nat) (s : σ) :
    (loop turn passes s).run = Eval.loop turn' passes s :=
  congrArg (Eval.loop · passes s) (funext h)

theorem run_holding {x : Nat → Traced α} {y : Nat → Eval α} (h : ∀ slot, (x slot).run = y slot)
    (text : Text.Bytes) (forGood : Bool) :
    (holding text forGood x).run = Eval.holding text forGood y :=
  congrArg (Eval.holding text forGood) (funext h)

section

variable {x : Traced α} {y : Eval α} (h : x.run = y)

include h

theorem run_noting : (noting x).run = Eval.noting y := h ▸ rfl

theorem run_attempt : (attempt x).run = Eval.attempt y := h ▸ rfl

theorem run_withQuoting (quoting : Quoting) :
    (withQuoting quoting x).run = Eval.withQuoting quoting y := h ▸ rfl

theorem run_unwinding : (unwinding x).run = Eval.unwinding y := h ▸ rfl

theorem run_truncatingLiterals (count : Nat) :
    (truncatingLiterals count x).run = Eval.truncatingLiterals count y := h ▸ rfl

theorem run_withPending (count : Nat) :
    (withPending count x).run = Eval.withPending count y := h ▸ rfl

theorem run_inBody (body : Slice) (duplicate : Bool) :
    (inBody body duplicate x).run = Eval.inBody body duplicate y := h ▸ rfl

theorem run_inScope (topLevel : Bool) : (inScope topLevel x).run = Eval.inScope topLevel y := h ▸ rfl

theorem run_locating : (locating x).run = Eval.locating y := h ▸ rfl

theorem run_reporting : (reporting x).run = Eval.reporting y := h ▸ rfl

theorem run_entering : (entering x).run = Eval.entering y := h ▸ rfl

end

theorem run_tokenTag? : tokenTag?.run = Eval.tokenTag? := by
  refine run_bind rfl fun t => ?_
  cases t <;> rfl

theorem run_startsExpression : startsExpression.run = Eval.startsExpression := by
  refine run_bind rfl fun t => ?_
  cases t with
  | symbol index =>
    refine run_bind rfl fun s => ?_
    cases s.tag <;> rfl
  | _ => rfl

theorem run_operatorOfLevel (level : Nat) :
    (operatorOfLevel level).run = Expression.operatorOfLevel level := by
  refine run_bind run_tokenTag? fun tag? => ?_
  rcases tag? with - | tag
  · rfl
  · cases tag <;> rfl

theorem run_takeAlternative : takeAlternative.run = Statement.takeAlternative := by
  refine run_bind run_tokenTag? fun tag? => ?_
  rcases tag? with - | tag
  · rfl
  · cases tag with
    | keyword word => cases word <;> rfl
    | _ => rfl

theorem run_passSeparator : passSeparator.run = Statement.passSeparator := by
  refine run_bind rfl fun t => ?_
  cases t with
  | symbol index =>
    refine run_bind rfl fun s => ?_
    cases s.tag with
    | keyword word => cases word <;> rfl
    | _ => rfl
  | _ => rfl

theorem run_judged {x : Traced α} {y : Eval α} (h : x.run = y) :
    (judged x).run = Eval.attempt y := by
  funext m
  change ((attempt x).run >>= _) m = _
  rw [run_attempt h, Eval.bind_apply]
  unfold Eval.attempt
  cases y m <;> rfl

theorem events_judged (x : Traced α) (m : Machine) :
    (judged x).events m = x.events m ++ (x.run m).toldOf := by
  change x.events m ++ (Eval.attempt x.run m).thenTold _ = _
  unfold Eval.attempt
  cases x.run m <;> rfl

variable (r : TracedReentry)

theorem run_text (t : String) (duplicate topLevel : Bool) :
    (text r t duplicate topLevel).run = Eval.text r.run t duplicate topLevel :=
  run_noting (run_reporting (run_holding (fun _ => run_entering (run_bind rfl fun _ => rfl)) _ _))

theorem run_file (path : String) : (file r path).run = Eval.file r.run path :=
  run_bind rfl fun t => run_text r t true true

theorem run_perform (action : Action) : (perform r action).run = action.perform r.run := by
  induction action with
  | give value => rfl
  | fail error => rfl
  | takeLiteral next ih => exact run_bind rfl ih
  | write stream bytes next ih => exact run_bind rfl fun _ => ih
  | look next ih => exact run_bind rfl ih
  | define name tag value next ih => exact run_bind rfl ih
  | evalText t duplicate topLevel next ih =>
    exact run_bind (run_judged (run_text r t duplicate topLevel)) ih
  | evalFile path next ih => exact run_bind (run_judged (run_file r path)) ih
  | ask question next ih => exact run_bind rfl ih

theorem run_argument : (argument r).run = Call.argument r.run := rfl

theorem run_argumentsInParens : (argumentsInParens r).run = Call.argumentsInParens r.run := by
  refine run_bind rfl fun _ => run_bind rfl fun t => ?_
  split
  · rfl
  · exact run_loop (fun count => run_bind (run_argument r) fun _ => rfl) _ _

theorem run_argumentsAfterCallee :
    (argumentsAfterCallee r).run = Call.argumentsAfterCallee r.run := by
  refine run_bind rfl fun _ => run_bind rfl fun t => ?_
  split
  · exact run_argumentsInParens r
  · rfl

theorem run_bareArguments : (bareArguments r).run = Call.bareArguments r.run := by
  refine run_bind run_startsExpression fun starts => ?_
  split
  · exact run_loop (fun count => run_bind (run_argument r) fun _ => rfl) _ _
  · rfl

theorem run_argumentsAfterCommand :
    (argumentsAfterCommand r).run = Call.argumentsAfterCommand r.run := by
  refine run_bind rfl fun _ => run_bind rfl fun t => ?_
  split
  · exact run_bind (run_argumentsInParens r) fun _ => rfl
  · exact run_bind (run_bareArguments r) fun _ => rfl

theorem run_runFunction (number : Word) (args : List Word) :
    (runFunction r number args).run = Call.runFunction r.run number args := by
  refine run_noting (run_tell_bind (run_bind rfl fun routine? => ?_))
  cases routine? <;> rfl

theorem run_runCallee (callee : Symbol Native) (args : List Word) (literals : Nat) (form : CallForm)
    (list : Scanner) :
    (runCallee r callee args literals form list).run =
      Call.runCallee r.run callee args literals := by
  unfold Call.runCallee
  change Traced.run (ite _ _ _) = _
  split
  · rfl
  · cases callee.tag with
    | native native arity =>
      exact run_withPending (run_bind rfl fun _ => run_perform r (native args)) literals
    | func arity => exact run_runFunction r callee.value args
    | _ => rfl

theorem run_handOver (callee : Symbol Native) (count literals : Nat) (form : CallForm)
    (list : Scanner) :
    (handOver r callee count literals form list).run =
      Call.handOver r.run callee count literals :=
  run_truncatingLiterals (run_bind rfl fun args => run_runCallee r callee args literals form list) _

theorem run_inExpression (callee : Symbol Native) :
    (inExpression r callee).run = Call.inExpression r.run callee :=
  run_read_bind fun _ => run_bind rfl fun literals =>
    run_bind (run_unwinding (run_withQuoting (run_argumentsAfterCallee r) .argument)) fun count =>
      run_bind (run_handOver r callee count literals .parenthesised _) fun _ => rfl

theorem run_asStatement (callee : Symbol Native) :
    (asStatement r callee).run = Call.asStatement r.run callee := by
  refine run_read_bind fun _ => run_bind rfl fun literals =>
    run_bind (run_unwinding (run_withQuoting (run_argumentsAfterCommand r) .argument)) fun counted =>
      run_bind (run_handOver r callee counted.1 literals _ _) fun _ => ?_
  cases counted.2 <;> rfl

theorem run_symbolAtom (s : Symbol Native) :
    (symbolAtom r s).run = Expression.symbolAtom r.run s := by
  unfold symbolAtom Expression.symbolAtom
  cases s.tag with
  | native native arity => exact run_inExpression r s
  | func arity => exact run_inExpression r s
  | _ => rfl

theorem run_group : (group r).run = Expression.group r.run := by
  refine run_bind rfl fun _ => run_bind rfl fun _ => run_bind rfl fun t => ?_
  split <;> rfl

theorem run_atom : (atom r).run = Expression.atom r.run := by
  refine run_bind rfl fun t => ?_
  cases t with
  | openParen => exact run_bind (run_withQuoting (run_group r) .plain) fun _ => rfl
  | symbol index => exact run_bind rfl fun s => run_symbolAtom r s
  | _ => rfl

theorem run_levelTurn {operand : Traced Word} {operand' : Eval Word} (same : operand.run = operand')
    (level : Nat) (value : Word) :
    (levelTurn level operand value).run = Expression.levelTurn level operand' value := by
  refine run_bind (run_operatorOfLevel _) fun op? => ?_
  cases op? with
  | some op => exact run_bind rfl fun _ => run_bind same fun _ => rfl
  | none => rfl

theorem run_upToLevel (level : Nat) :
    (upToLevel r level).run = Expression.upToLevel r.run level := by
  induction level with
  | zero => exact run_atom r
  | succ level ih => exact run_bind ih fun first => run_loop (run_levelTurn ih _) _ _

theorem run_assign (index : Nat) (since : Machine) :
    (assign r index since).run = Statement.assign r.run index := by
  refine run_bind run_tokenTag? fun tag? => ?_
  rcases tag? with - | tag
  · rfl
  · cases tag with
    | operator op => cases op <;> rfl
    | _ => rfl

theorem run_reassign (index : Nat) : (reassign r index).run = Statement.reassign r.run index :=
  run_read_bind fun since => run_bind rfl fun _ => run_assign r index since

theorem run_declareVariable : (declareVariable r).run = Statement.declareVariable r.run :=
  run_bind rfl fun _ => run_bind rfl fun _ => run_bind rfl fun index =>
    run_read_bind fun since => run_bind rfl fun _ => run_assign r index since

theorem run_branch : (branch r).run = Statement.branch r.run := by
  refine run_bind rfl fun _ => run_bind rfl fun condition => run_bind rfl fun body =>
    run_bind run_takeAlternative fun alternative => ?_
  split
  · rfl
  · cases alternative <;> rfl

theorem run_repeatBranch : (repeatBranch r).run = Statement.repeatBranch r.run := by
  refine run_bind rfl fun _ => run_loop (fun _ => run_bind (run_branch r) fun held => ?_) _ _
  cases held <;> rfl

theorem run_setResult : (setResult r).run = Statement.setResult r.run := by
  refine run_bind rfl fun _ => run_bind run_startsExpression fun starts => ?_
  cases starts <;> rfl

theorem run_ofKeyword (word : Keyword) : (ofKeyword r word).run = Statement.ofKeyword r.run word := by
  cases word with
  | var => exact run_bind (run_declareVariable r) fun _ => rfl
  | cond => exact run_bind (run_branch r) fun _ => rfl
  | loop => exact run_bind (run_repeatBranch r) fun _ => rfl
  | func => rfl
  | leave => exact run_bind (run_setResult r) fun _ => rfl
  | otherwise => rfl

theorem run_statement : (statement r).run = Statement.statement r.run := by
  refine run_bind rfl fun t => ?_
  cases t with
  | symbol index =>
    refine run_bind rfl fun s => ?_
    cases s.tag with
    | var => exact run_bind (run_reassign r index) fun _ => rfl
    | native native arity => exact run_bind (run_asStatement r s) fun _ => rfl
    | func arity => exact run_bind (run_inExpression r s) fun _ => rfl
    | keyword word => exact run_ofKeyword r word
    | operator op => rfl
  | _ => rfl

theorem run_statementTurn : (statementTurn r).run = Statement.statementTurn r.run := by
  refine run_bind (run_statement r) fun ending => ?_
  cases ending with
  | returned => rfl
  | ranOut => exact run_bind run_passSeparator fun _ => rfl

theorem run_turn (u : Unit) : (turn r u).run = Statement.turn r.run u := by
  refine run_bind rfl fun t => ?_
  cases t with
  | eof => rfl
  | separator => rfl
  | _ => exact run_statementTurn r

theorem run_statements : (statements r).run = Statement.statements r.run := run_loop (run_turn r) _ _

theorem run_wholeBody (body : Slice) (topLevel duplicate : Bool) :
    (wholeBody r body topLevel duplicate).run = r.run.wholeBody body topLevel duplicate :=
  run_inScope (run_inBody (run_locating (run_bind rfl fun _ => run_statements r)) _ _) _

end Traced

/-- Evaluation with an account runs as evaluation does. -/
theorem TracedReentry.run_ofFuel (world : World) (fuel : Nat) :
    (TracedReentry.ofFuel world fuel).run = Reentry.ofFuel world fuel := by
  induction fuel with
  | zero => rfl
  | succ fuel ih =>
    have expression := Traced.run_upToLevel (.ofFuel world fuel) Operator.maxLevel
    have body := Traced.run_wholeBody (.ofFuel world fuel)
    rw [ih] at expression body
    unfold TracedReentry.run
    congr 1
    · funext b topLevel duplicate
      exact body b topLevel duplicate

theorem Traced.run_evalText (world : World) (fuel : Nat) (t : String) (duplicate topLevel : Bool) :
    (Traced.text (.ofFuel world fuel) t duplicate topLevel).run =
      evalText world fuel t duplicate topLevel := by
  rw [run_text, TracedReentry.run_ofFuel]
  rfl

end Scriptlet
