import Scriptlet.Machine.Reading

/-!
What evaluation needs of itself. Expressions hold calls, calls run bodies, and bodies hold
expressions. Each construct is defined on its own, over a `Reentry` that says how to
evaluate the constructs nested in it; the knot is tied in one place, on a budget.
-/

namespace Scriptlet

inductive Ending where
  | ranOut
  | returned
  deriving DecidableEq, Repr

/-- How to evaluate what is nested in a construct. -/
structure Reentry where
  world : World
  /-- How many times a loop may go round. -/
  passes : Nat
  /-- Evaluates the expression that starts with the current token. -/
  expression : Eval Word
  /-- Evaluates a body. -/
  body : (body : Slice) → (topLevel duplicate : Bool) → Eval Ending

def Reentry.loop {σ α : Type} (r : Reentry) (turn : σ → Eval (Turn σ α)) (state : σ) : Eval α :=
  Eval.loop turn r.passes state

def World.ask (w : World) (q : Question) : Eval q.Answer := fun m =>
  match w m.asked q with
  | some answer => .done answer { m with asked := m.asked + 1 }
  | none => .stopped (.unanswered q) m

end Scriptlet
