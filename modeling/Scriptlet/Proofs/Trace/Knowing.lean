import Scriptlet.Proofs.Trace.Lists

/-!
Computations that do not fail for an unknown symbol, whatever the machine: reading tokens, allocating,
defining, asking the world. An unknown symbol is left to those that look one up.
-/

namespace Scriptlet

open Eval

/-- The computation does not fail for an unknown symbol. -/
def Eval.Knowing {α : Type} (x : Eval α) : Prop :=
  ∀ ⦃m error m'⦄, x m = .failed error m' → error.kind ≠ .unknownSymbol

section

variable {α β : Type}

theorem knowing_pure (a : α) : Knowing (pure a : Eval α) := fun _ _ _ h => by cases h

theorem knowing_read (f : Machine → α) : Knowing (read f) := fun _ _ _ h => by cases h

theorem knowing_update (f : Machine → Machine) : Knowing (update f) := fun _ _ _ h => by cases h

theorem knowing_fail {error : Error} (h : error.kind ≠ .unknownSymbol) :
    Knowing (fail error : Eval α) := by
  intro m error m' h'
  cases h'
  exact h

theorem knowing_complain (c : Complaint) : Knowing (complain c : Eval α) :=
  knowing_fail fun h => by cases h

theorem Eval.Knowing.bind {x : Eval α} {f : α → Eval β} (hx : Knowing x) (hf : ∀ a, Knowing (f a)) :
    Knowing (x >>= f) := by
  intro m error m' h
  change (x m).andThen f = _ at h
  cases hm : x m with
  | done a m₁ =>
    rw [hm] at h
    exact hf a h
  | failed e m₁ =>
    rw [hm] at h
    cases h
    exact hx hm
  | stopped why m₁ =>
    rw [hm] at h
    cases h

theorem knowing_attempt (x : Eval α) : Knowing (attempt x) := by
  intro m error m' h
  unfold attempt at h
  cases hm : x m <;> (rw [hm] at h; cases h)

theorem knowing_allocate (f : Arena Native → Option (α × Arena Native)) : Knowing (allocate f) := by
  intro m error m' h
  unfold allocate at h
  split at h <;> cases h
  exact fun kind => by cases kind

theorem knowing_advanceBy (raw : Bool) : Knowing (advanceBy raw) := by
  refine Knowing.bind (fun m error m' h => ?_) fun lexeme => Knowing.bind (fun m error m' h => ?_)
    fun token => knowing_update _
  · rcases readLexeme_eq m with ⟨_, _, -, read⟩ | ⟨_, _, -, read⟩
    all_goals
      rw [read] at h
      cases h
    exact fun kind => by cases kind
  · rcases resolve_eq raw lexeme m with ⟨_, _, resolved, -⟩ | resolved
    all_goals
      rw [resolved] at h
      cases h
    exact fun kind => by cases kind

theorem knowing_advance : Knowing advance := knowing_advanceBy false

theorem knowing_popOnto (words : List Word) (count : Nat) : Knowing (popOnto words count) := by
  intro m error m' h
  obtain ⟨args, arena, history, popped⟩ := popOnto_elsewhere words count m
  rw [popped] at h
  cases h

theorem knowing_apply (op : Operator) (x y : Word) : Knowing (Eval.ofExcept (op.apply x y)) := by
  intro m error m' h
  cases op with
  | divide =>
    unfold Operator.apply Eval.ofExcept at h
    dsimp only at h
    split at h
    · cases h
    · next refused =>
      split at refused
      · cases refused
        cases h
        exact fun kind => by cases kind
      · cases refused
  | _ => cases h

theorem knowing_keep (s : Slice) : Knowing (keep s) := by
  intro m error m' h
  unfold keep at h
  split at h
  · split at h
    · exact knowing_allocate _ h
    · cases h
  · cases h

theorem knowing_definedName : Knowing Statement.definedName := by
  refine (knowing_read _).bind fun t => ?_
  split
  · exact knowing_keep _
  · exact knowing_complain _

theorem knowing_definedBody : Knowing Statement.definedBody := by
  refine (knowing_read _).bind fun t => ?_
  split
  · exact knowing_keep _
  · exact knowing_complain _

theorem knowing_takeBody : Knowing Statement.takeBody := by
  refine (knowing_read _).bind fun t => ?_
  split
  · exact knowing_advance.bind fun _ => knowing_pure _
  · exact knowing_complain _

theorem knowing_behindArgument (count : Nat) : Knowing (Call.behindArgument count) := by
  refine (knowing_read _).bind fun t => ?_
  split
  · exact knowing_advance.bind fun _ => knowing_pure _
  · exact knowing_pure _
  · exact knowing_complain _

theorem knowing_behindBare (count : Nat) : Knowing (Call.behindBare count) := by
  refine (knowing_read _).bind fun t => ?_
  split
  · exact knowing_advance.bind fun _ => knowing_pure _
  · exact knowing_pure _

theorem knowing_parameters (room : Nat) : Knowing (Statement.parameters room) := by
  induction room with
  | zero =>
    refine (knowing_read _).bind fun t => ?_
    split
    · exact knowing_pure _
    · exact knowing_fail fun h => by cases h
    · exact knowing_complain _
  | succ room ih =>
    have rest : ∀ name, Knowing (do return name :: (← Statement.parameters room)) :=
      fun name => ih.bind fun _ => knowing_pure _
    refine (knowing_read _).bind fun t => ?_
    split
    · exact knowing_pure _
    · refine knowing_definedName.bind fun name => (knowing_advanceBy true).bind fun _ => ?_
      refine (knowing_read _).bind fun t => ?_
      split
      · exact (knowing_advanceBy true).bind fun _ => rest name
      · exact rest name
      · exact (knowing_complain _).bind fun _ => rest name

theorem knowing_parameterList : Knowing Statement.parameterList := by
  refine (knowing_read _).bind fun t => ?_
  split
  · refine (knowing_advanceBy true).bind fun _ => (knowing_parameters _).bind fun params => ?_
    exact (knowing_advanceBy true).bind fun _ => knowing_pure _
  · exact knowing_pure _

theorem knowing_declareFunction : Knowing Statement.declareFunction := by
  refine (knowing_advanceBy true).bind fun _ => knowing_definedName.bind fun name => ?_
  refine (knowing_advanceBy true).bind fun _ => knowing_parameterList.bind fun params => ?_
  refine knowing_definedBody.bind fun body => (knowing_allocate _).bind fun number => ?_
  exact (knowing_allocate _).bind fun _ => knowing_advance

theorem knowing_bindParameters (bindings : List (Slice × Word)) :
    Knowing (Call.bindParameters bindings) := by
  induction bindings with
  | nil => exact knowing_pure _
  | cons binding rest ih => exact (knowing_allocate _).bind fun _ => ih

theorem knowing_ask (world : World) (question : Question) : Knowing (world.ask question) := by
  intro m error m' h
  unfold World.ask at h
  split at h <;> cases h

theorem knowing_reporting {x : Eval α} (hx : Knowing x) : Knowing (reporting x) := by
  intro m error m' h
  unfold reporting at h
  cases hm : x m with
  | failed e m₁ =>
    rw [hm] at h
    dsimp only at h
    split at h <;>
    · cases h
      exact hx hm
  | _ =>
    rw [hm] at h
    cases h

theorem knowing_readScript (world : World) (path : String) : Knowing (readScript world path) := by
  refine (knowing_ask world _).bind fun reading => ?_
  split
  · exact knowing_fail fun h => by cases h
  · exact knowing_fail fun h => by cases h
  · refine (knowing_read _).bind fun limit => ?_
    split
    · exact knowing_fail fun h => by cases h
    · exact knowing_pure _

end

end Scriptlet
