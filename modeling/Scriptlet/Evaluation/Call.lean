import Scriptlet.Evaluation.Script

/-!
Calls. The arguments are evaluated from left to right and stacked; when their number fits
the callee, they are taken off the stack again and handed over. A native is given the
literals of its own argument list, a function written in a script gets a symbol for each
parameter and a result register of its own.

At the start of a statement a native may be called without parentheses.
-/

namespace Scriptlet

namespace Eval

def push (word : Word) : Eval Unit := allocate fun arena => (arena.push word).map ((), ·)

def pop : Eval Word := fun m =>
  let (word, arena) := m.arena.pop
  .done word (m.withArena arena)

/-- Pops words, the last pushed first, and puts them before others. -/
def popOnto (words : List Word) : (count : Nat) → Eval (List Word)
  | 0 => return words
  | count + 1 => do
    let word ← pop
    popOnto (word :: words) count

def popWords (count : Nat) : Eval (List Word) := popOnto [] count

/-- Drops, however the computation ends, all stacked literals but the first `count`. -/
def truncatingLiterals {α : Type} (count : Nat) (x : Eval α) : Eval α := fun m =>
  (x m).adjust fun m => { m with literals := m.literals.truncate count }

/-- Makes the literals above the first `count` the pending ones while a computation runs. -/
def withPending {α : Type} (count : Nat) (x : Eval α) : Eval α := fun m =>
  let (outer, literals) := m.literals.openFrame count
  (x { m with literals }).adjust fun m => { m with literals := m.literals.closeFrame outer }

def startsExpression : Eval Bool := do
  match ← token with
  | .number _ | .openParen | .text _ | .literal | .name _ => return true
  | .symbol index =>
    match (← symbolAt index).tag with
    | .keyword _ => return false
    | _ => return true
  | .eof | .separator | .comma | .closeParen => return false

end Eval

namespace Call

open Eval

/-! ### Arguments -/

def argument (r : Reentry) : Eval Unit := do
  let value ← r.expression
  push value

def behindArgument (count : Nat) : Eval (Turn Nat Nat) := do
  match ← token with
  | .comma => do advance; return .again (count + 1)
  | .closeParen => return .finish (count + 1)
  | _ => complain .expectedClose

def parensTurn (r : Reentry) (count : Nat) : Eval (Turn Nat Nat) := do
  argument r
  behindArgument count

def insideParens (r : Reentry) : Eval Nat := do
  if (← token) = .closeParen then return 0 else r.loop (parensTurn r) 0

/-- Evaluates and pushes the arguments in parentheses, and counts them. The opening
parenthesis is the current token, and the closing one becomes it. -/
def argumentsInParens (r : Reentry) : Eval Nat := do
  advance
  insideParens r

def argumentsAfterCallee (r : Reentry) : Eval Nat := do
  advance
  if (← token) = .openParen then argumentsInParens r else complain .expectedOpen

def behindBare (count : Nat) : Eval (Turn Nat Nat) := do
  match ← token with
  | .comma => do advance; return .again (count + 1)
  | _ => return .finish (count + 1)

def bareTurn (r : Reentry) (count : Nat) : Eval (Turn Nat Nat) := do
  argument r
  behindBare count

def bareArguments (r : Reentry) : Eval Nat := do
  if ← startsExpression then r.loop (bareTurn r) 0 else return 0

/-- Evaluates and pushes the arguments of a command, and tells whether they stood in
parentheses. -/
def argumentsAfterCommand (r : Reentry) : Eval (Nat × Bool) := do
  advance
  if (← token) = .openParen then return (← argumentsInParens r, true)
  else return (← bareArguments r, false)

/-! ### The callee -/

def bindParameters : List (Slice × Word) → Eval Unit
  | [] => return ()
  | (name, value) :: rest => do
    let _ ← allocate (·.addSymbol name .var value)
    bindParameters rest

/-- Runs a computation with a result register of its own, and drops the symbols it defines. -/
def inFrame {α : Type} (x : Eval α) : Eval α :=
  restoring (fun m => (m.arena.symbols.size, m.result))
    (fun (count, result) m => { m.withArena (m.arena.rollback count) with result }) x

/-- Runs a routine on its arguments; its value is what it returns. -/
def runRoutine (r : Reentry) (routine : Routine) (args : List Word) : Eval Word :=
  inFrame do
    bindParameters (routine.params.zip args)
    update fun m => { m with result := 0 }
    let _ ← r.body routine.body false false
    read (·.result)

def runFunction (r : Reentry) (number : Word) (args : List Word) : Eval Word := noting do
  match ← read fun m => number.index?.bind (m.arena.routines[·]?) with
  | some routine => runRoutine r routine args
  | none => fail .unknownSymbol

/-- Calls a native, for which the literals above the first `literals` are pending. -/
def runNativeWith (r : Reentry) (native : Native) (args : List Word) (literals : Nat) : Eval Word :=
  withPending literals ((native args).perform r)

/-- Runs a callee on arguments, if it takes as many. Of the literals, those above the first
`literals` belong to this call. -/
def runCallee (r : Reentry) (callee : Symbol Native) (args : List Word) (literals : Nat) :
    Eval Word := do
  if args.length ≠ callee.tag.arity?.getD 0 then fail .argumentMismatch
  else
    match callee.tag with
    | .native native _ => runNativeWith r native args literals
    | .func _ => runFunction r callee.value args
    | _ => complain .expectedFunction

theorem runCallee_of_misfit {r : Reentry} {callee : Symbol Native} {args : List Word} (literals : Nat)
    (misfit : args.length ≠ callee.tag.arity?.getD 0) :
    runCallee r callee args literals = fail .argumentMismatch := if_pos misfit

theorem runCallee_of_native {r : Reentry} {callee : Symbol Native} {args : List Word} (literals : Nat)
    {native : Native} {arity : Nat} (tag : callee.tag = .native native arity)
    (fits : args.length = arity) :
    runCallee r callee args literals = runNativeWith r native args literals := by
  unfold runCallee
  rw [tag, if_neg (fun misfit => misfit fits)]

theorem runCallee_of_func {r : Reentry} {callee : Symbol Native} {args : List Word} (literals : Nat)
    {arity : Nat} (tag : callee.tag = .func arity) (fits : args.length = arity) :
    runCallee r callee args literals = runFunction r callee.value args := by
  unfold runCallee
  rw [tag, if_neg (fun misfit => misfit fits)]

/-- Hands the `count` words on top of the stack to a callee. -/
def handOver (r : Reentry) (callee : Symbol Native) (count literals : Nat) : Eval Word :=
  truncatingLiterals literals do
    let args ← popWords count
    runCallee r callee args literals

/-! ### The two forms -/

def inExpression (r : Reentry) (callee : Symbol Native) : Eval Word := do
  let literals ← read (·.literals.size)
  let count ← unwinding (withQuoting .argument (argumentsAfterCallee r))
  let value ← handOver r callee count literals
  advance
  return value

/-- Calls a native, which is the current token, as a statement. -/
def asStatement (r : Reentry) (callee : Symbol Native) : Eval Unit := do
  let literals ← read (·.literals.size)
  let (count, inParens) ← unwinding (withQuoting .argument (argumentsAfterCommand r))
  let _ ← handOver r callee count literals
  if inParens then advance

end Call

end Scriptlet
