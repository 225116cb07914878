import Scriptlet.Evaluation.Statement

/-!
Evaluation as a whole. Expressions and bodies are evaluated on a budget of fuel: each
evaluation nested in another has one less, and a loop may go round as often as the fuel that
is left. A budget that is too small shows as a computation that stopped; it never changes a
result.
-/

namespace Scriptlet

mutual

/-- Evaluates the expression that starts with the current token. -/
def evalExpression (world : World) : Nat → Eval Word
  | 0, m => .stopped .outOfFuel m
  | fuel + 1, m =>
    Reentry.wholeExpression ⟨world, fuel, evalExpression world fuel, evalBody world fuel⟩ m

def evalBody (world : World) : Nat → Slice → Bool → Bool → Eval Ending
  | 0, _, _, _, m => .stopped .outOfFuel m
  | fuel + 1, body, topLevel, duplicate, m =>
    Reentry.wholeBody ⟨world, fuel, evalExpression world fuel, evalBody world fuel⟩ body topLevel
      duplicate m

end

def Reentry.ofFuel (world : World) (fuel : Nat) : Reentry :=
  ⟨world, fuel, evalExpression world fuel, evalBody world fuel⟩

/-- With fuel left, an expression is evaluated over evaluation with one less. -/
theorem evalExpression_succ (world : World) (fuel : Nat) :
    evalExpression world (fuel + 1) = (Reentry.ofFuel world fuel).wholeExpression := rfl

/-- With fuel left, a body is evaluated over evaluation with one less. -/
theorem evalBody_succ (world : World) (fuel : Nat) (body : Slice) (topLevel duplicate : Bool) :
    evalBody world (fuel + 1) body topLevel duplicate =
      (Reentry.ofFuel world fuel).wholeBody body topLevel duplicate := rfl

def evalText (world : World) (fuel : Nat) (text : String) (duplicate topLevel : Bool) : Eval Unit :=
  Eval.text (.ofFuel world fuel) text duplicate topLevel

def evalFile (world : World) (fuel : Nat) (path : String) : Eval Unit :=
  Eval.file (.ofFuel world fuel) path

def runNative (world : World) (fuel : Nat) (native : Native) (args : List Word) : Eval Word :=
  (native args).perform (.ofFuel world fuel)

end Scriptlet
