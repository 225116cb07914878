import Scriptlet.Evaluation.Expression

/-!
Statements and bodies. A body is a sequence of statements with separators between them,
where a separator may be left out before a token that can only begin a statement. A body
that is not at the top level drops the symbols it defines, and an error that leaves a body
is told where it is.
-/

namespace Scriptlet

open Eval

namespace Statement

/-! ### Declarations and assignments -/

/-- The name that is the current token, kept for a definition. -/
def definedName : Eval Slice := do
  match ← token with
  | .name name => keep name
  | _ => complain .expectedName

def assign (r : Reentry) (index : Nat) : Eval Unit := do
  match ← tokenTag? with
  | some (.operator .equal) => do
    advance
    let value ← r.expression
    update fun m => m.withArena (m.arena.setValue index value)
  | _ => complain .expectedEquals

def reassign (r : Reentry) (index : Nat) : Eval Unit := do
  advance
  assign r index

def declareVariable (r : Reentry) : Eval Unit := do
  advanceRaw
  let name ← definedName
  let index ← allocate (·.addSymbol name .var 0)
  advance
  assign r index

/-! ### Branches and loops -/

def takeBody : Eval Slice := do
  match ← token with
  | .text body => do advance; return body
  | _ => complain .expectedBody

def takeAlternative : Eval (Option Slice) := do
  match ← tokenTag? with
  | some (.keyword .otherwise) => do
    advance
    return some (← takeBody)
  | _ => return none

/-- Evaluates a nested body. A return inside it ends that body only. -/
def nestedBody (r : Reentry) (body : Slice) : Eval Unit := noting do
  let _ ← r.body body false false

/-- Reads a condition with its bodies, then runs the body that the condition selects; tells
whether the condition held. -/
def branch (r : Reentry) : Eval Bool := do
  advance
  let condition ← r.expression
  let body ← takeBody
  let alternative ← takeAlternative
  if condition ≠ 0 then do
    nestedBody r body
    return true
  else do
    match alternative with
    | some body => nestedBody r body
    | none => pure ()
    return false

def branchTurn (r : Reentry) (start : Cursor) (_ : Unit) : Eval (Turn Unit Unit) := do
  if ← branch r then do
    update fun m => { m with cursor := start }
    return .again ()
  else return .finish ()

/-- Reads and runs a branch again and again, until its condition does not hold. -/
def repeatBranch (r : Reentry) : Eval Unit := do
  let start ← read (·.cursor)
  r.loop (branchTurn r start) ()

/-! ### Functions -/

/-- Takes parameter names up to the closing parenthesis, at most `room` of them. -/
def parameters : (room : Nat) → Eval (List Slice)
  | 0 => do
    match ← token with
    | .closeParen => return []
    | .name _ => fail .tooManyArguments
    | _ => complain .expectedName
  | room + 1 => do
    if (← token) = .closeParen then return []
    else
      let name ← definedName
      advanceRaw
      match ← token with
      | .comma => advanceRaw
      | .closeParen => pure ()
      | _ => complain .expectedClose
      return name :: (← parameters room)

def parameterList : Eval (List Slice) := do
  if (← token) = .openParen then do
    advanceRaw
    let params ← parameters maxArguments
    advanceRaw
    return params
  else return []

def definedBody : Eval Slice := do
  match ← token with
  | .text body => keep body
  | _ => complain .expectedBody

def declareFunction : Eval Unit := do
  advanceRaw
  let name ← definedName
  advanceRaw
  let params ← parameterList
  let body ← definedBody
  let number ← allocate (·.addRoutine ⟨params, body⟩)
  let _ ← allocate (·.addSymbol name (.func params.length) (Int64.ofNat number))
  advance

def setResult (r : Reentry) : Eval Unit := do
  advance
  let value ← if ← startsExpression then r.expression else pure 0
  update fun m => { m with result := value }

/-! ### Sequences of statements -/

def ofKeyword (r : Reentry) : Keyword → Eval Ending
  | .var => do declareVariable r; return .ranOut
  | .cond => do let _ ← branch r; return .ranOut
  | .loop => do repeatBranch r; return .ranOut
  | .func => do declareFunction; return .ranOut
  | .leave => do setResult r; return .returned
  | .otherwise => complain .unexpectedElse

def statement (r : Reentry) : Eval Ending := do
  match ← token with
  | .symbol index => do
    let s ← symbolAt index
    match s.tag with
    | .var => do reassign r index; return .ranOut
    | .native _ _ => do Call.asStatement r s; return .ranOut
    | .func _ => do let _ ← Call.inExpression r s; return .ranOut
    | .keyword word => ofKeyword r word
    | .operator _ => complain .expectedStatement
  | .name _ => fail .unknownSymbol
  | _ => complain .expectedStatement

/-- Passes the separator after a statement, which may be missing before a token that can
only begin another one. -/
def passSeparator : Eval Unit := do
  match ← token with
  | .eof | .name _ => pure ()
  | .separator => advance
  | .symbol index =>
    match (← symbolAt index).tag with
    | .var | .native _ _ | .func _ => pure ()
    | .keyword word => if word = .otherwise then complain .expectedEndOfStatement else pure ()
    | .operator _ => complain .expectedEndOfStatement
  | _ => complain .expectedEndOfStatement

def statementTurn (r : Reentry) : Eval (Turn Unit Ending) := do
  match ← statement r with
  | .returned => return .finish .returned
  | .ranOut => do passSeparator; return .again ()

def turn (r : Reentry) (_ : Unit) : Eval (Turn Unit Ending) := do
  match ← token with
  | .eof => return .finish .ranOut
  | .separator => do advance; return .again ()
  | _ => statementTurn r

theorem turn_eof (r : Reentry) {m : Machine} (htoken : m.token = .eof) :
    turn r () m = .done (.finish .ranOut) m := by
  rw [turn, token_bind, htoken]
  rfl

theorem turn_separator (r : Reentry) {m : Machine} (htoken : m.token = .separator) :
    turn r () m = (do advance; return .again () : Eval (Turn Unit Ending)) m := by
  rw [turn, token_bind, htoken]

theorem turn_statement (r : Reentry) {m : Machine} (running : m.token ≠ .eof)
    (apart : m.token ≠ .separator) : turn r () m = statementTurn r m := by
  rw [turn, token_bind]
  cases htoken : m.token with
  | eof => exact absurd htoken running
  | separator => exact absurd htoken apart
  | _ => rfl

/-- Evaluates statements up to the end of the body or a return. -/
def statements (r : Reentry) : Eval Ending := r.loop (turn r) ()

end Statement

/-- Runs a computation at the start of a body, and comes back to where the machine was
reading. -/
def Eval.inBody {α : Type} (body : Slice) (duplicate : Bool) (x : Eval α) : Eval α :=
  restoring (fun m => (m.cursor, m.token, m.quoting, m.duplicate))
    (fun (cursor, token, quoting, duplicate) m => { m with cursor, token, quoting, duplicate })
    fun m => x { m with cursor := m.cursorAt body, quoting := .plain, duplicate }

/-- Runs a computation and drops the symbols it defines, unless it is at the top level. -/
def Eval.inScope {α : Type} (topLevel : Bool) (x : Eval α) : Eval α :=
  restoring (·.arena.symbols.size)
    (fun count m => if topLevel then m else m.withArena (m.arena.rollback count)) x

/-- Tells an error that leaves a computation where it is. -/
def Eval.locating {α : Type} (x : Eval α) : Eval α := fun m => (x m).adjustError Machine.locate

def Reentry.wholeBody (r : Reentry) (body : Slice) (topLevel duplicate : Bool) : Eval Ending :=
  inScope topLevel <| inBody body duplicate <| locating do
    advance
    Statement.statements r

end Scriptlet
