import Scriptlet.Proofs.Tree.Walk

/-!
The clock of a walk does not matter. A walk that has come to a result comes to the same one on a
clock that runs longer, so a script comes to one result at most; that result is what it means.
-/

namespace Scriptlet.Tree

variable {F : Name → Bool} {α β : Type}

open Walk

/-- A walk does as another one does, wherever it comes to a result. -/
def Walk.Below (x y : Walk F α) : Prop := ∀ s, (x s).isFinished = true → y s = x s

namespace Walk.Below

theorem refl (x : Walk F α) : x.Below x := fun _ _ => rfl

theorem of_unfinished (y : Walk F α) : (unfinished : Walk F α).Below y := fun _ h => by cases h

theorem bind {x y : Walk F α} {f g : α → Walk F β} (h : x.Below y) (hf : ∀ a, (f a).Below (g a)) :
    (x >>= f).Below (y >>= g) := by
  intro s finished
  show (y s).andThen g = (x s).andThen f
  change ((x s).andThen f).isFinished = true at finished
  cases hx : x s with
  | done a s' =>
    rw [hx] at finished
    rw [h s (by rw [hx]; rfl), hx]
    exact hf a s' finished
  | failed fault s' =>
    rw [h s (by rw [hx]; rfl), hx]
    rfl
  | unfinished =>
    -- nothing can come after a first part that has no result
    rw [hx] at finished
    cases finished

theorem bind_right (x : Walk F α) {f g : α → Walk F β} (hf : ∀ a, (f a).Below (g a)) :
    (x >>= f).Below (x >>= g) := (refl x).bind hf

theorem bind_left {x y : Walk F α} (h : x.Below y) (f : α → Walk F β) :
    (x >>= f).Below (y >>= f) := h.bind fun _ => refl _

/-- Changing the state that a success leaves makes no difference. -/
theorem adjust {x y : Walk F α} (h : x.Below y) (f : State F → State F → State F) :
    Below (fun s => (x s).adjust (f s)) (fun s => (y s).adjust (f s)) := by
  intro s finished
  have same : y s = x s := h s (by cases hx : x s <;> simp_all [Result.adjust, Result.isFinished])
  show (y s).adjust (f s) = (x s).adjust (f s)
  rw [same]

theorem block {x y : Walk F Ending} (h : x.Below y) : (block x).Below (block y) :=
  (h.adjust fun s s' => s'.cut s.bindings.length).bind_left _

theorem otherwise {run run' : List (Stmt F) → Walk F Ending} (h : ∀ body, (run body).Below (run' body))
    (alternative : Option (List (Stmt F))) :
    (otherwise run alternative).Below (otherwise run' alternative) := by
  cases alternative with
  | some body => exact (h body).block
  | none => exact refl _

theorem apply (params : List (Variable F)) {x y : Walk F Ending} (h : x.Below y)
    (values : List Word) : (Walk.apply params x values).Below (Walk.apply params y values) := by
  unfold Walk.apply
  split
  · exact refl _
  · exact adjust (bind_right _ fun _ => bind_right _ fun _ => h.block.bind_left _) fun s s' =>
      (s'.cut s.bindings.length).withResult s.result

theorem choose {condition condition' : Walk F Word} {body body' alternative alternative' : Walk F Unit}
    (hc : condition.Below condition') (hb : body.Below body') (ha : alternative.Below alternative') :
    (choose condition body alternative).Below (choose condition' body' alternative') := by
  refine hc.bind fun value => ?_
  split
  · exact hb.bind_left _
  · exact ha.bind_left _

end Walk.Below

/-- Walks on one clock do as walks on another, wherever they come to a result. -/
structure Outrun (F : Name → Bool) (clock more : Nat) : Prop where
  evaluate : ∀ e : Expr F, (evaluate clock e).Below (evaluate more e)
  evaluateAll : ∀ args : List (Expr F), (evaluateAll clock args).Below (evaluateAll more args)
  invoke : ∀ (f : Function F) (args : List (Expr F)), (invoke clock f args).Below (invoke more f args)
  execute : ∀ s : Stmt F, (execute clock s).Below (execute more s)
  executeAll : ∀ body : List (Stmt F), (executeAll clock body).Below (executeAll more body)

namespace Outrun

open Walk.Below

variable {clock more : Nat} (h : Outrun F clock more)

include h

theorem evaluate_succ (e : Expr F) : (Tree.evaluate (clock + 1) e).Below (Tree.evaluate (more + 1) e) := by
  cases e with
  | number n => exact refl _
  | var x => exact refl _
  | unary op e => exact (h.evaluate e).bind_left _
  | binary op l r => exact (h.evaluate l).bind fun x => (h.evaluate r).bind_left _
  | call f args => exact h.invoke f args

theorem evaluateAll_succ (args : List (Expr F)) :
    (Tree.evaluateAll (clock + 1) args).Below (Tree.evaluateAll (more + 1) args) := by
  cases args with
  | nil => exact refl _
  | cons e rest => exact (h.evaluate e).bind fun value => (h.evaluateAll rest).bind_left _

theorem invoke_succ (f : Function F) (args : List (Expr F)) :
    (Tree.invoke (clock + 1) f args).Below (Tree.invoke (more + 1) f args) :=
  bind_right _ fun function => (h.evaluateAll args).bind fun values =>
    apply function.1 (h.executeAll function.2) values

theorem execute_succ (s : Stmt F) :
    (Tree.execute (clock + 1) s).Below (Tree.execute (more + 1) s) := by
  have chosen : ∀ (e : Expr F) (body alternative), (Walk.choose (Tree.evaluate clock e)
      (Walk.block (Tree.executeAll clock body))
      (Walk.otherwise (Tree.executeAll clock) alternative)).Below (Walk.choose (Tree.evaluate more e)
        (Walk.block (Tree.executeAll more body))
        (Walk.otherwise (Tree.executeAll more) alternative)) :=
    fun e body alternative =>
      choose (h.evaluate e) (h.executeAll body).block (otherwise h.executeAll alternative)
  cases s with
  | declare x e => exact bind_right _ fun _ => (h.evaluate e).bind_left _
  | assign x e => exact bind_right _ fun _ => (h.evaluate e).bind_left _
  | branch e body alternative => exact (chosen e body alternative).bind_left _
  | loop e body alternative =>
    refine (chosen e body alternative).bind fun held => ?_
    split
    · exact h.execute _
    · exact refl _
  | define f params few body => exact refl _
  | leave e =>
    cases e with
    | none => exact refl _
    | some e => exact (h.evaluate e).bind_left _
  | call f args => exact (h.invoke f args).bind_left _
  | print e => exact (h.evaluate e).bind_left _

theorem executeAll_succ (body : List (Stmt F)) :
    (Tree.executeAll (clock + 1) body).Below (Tree.executeAll (more + 1) body) := by
  cases body with
  | nil => exact refl _
  | cons s rest =>
    refine (h.execute s).bind fun ending => ?_
    cases ending with
    | ranOut => exact h.executeAll rest
    | returned => exact refl _

end Outrun

theorem outrun_of_le {clock more : Nat} (le : clock ≤ more) : Outrun F clock more := by
  induction clock generalizing more with
  | zero =>
    exact ⟨fun _ => .of_unfinished _, fun _ => .of_unfinished _, fun _ _ => .of_unfinished _,
      fun _ => .of_unfinished _, fun _ => .of_unfinished _⟩
  | succ clock ih =>
    obtain ⟨more, rfl⟩ : ∃ k, more = k + 1 := ⟨more - 1, by omega⟩
    have h : Outrun F clock more := ih (by omega)
    exact ⟨h.evaluate_succ, h.evaluateAll_succ, h.invoke_succ, h.execute_succ, h.executeAll_succ⟩

theorem walk_of_le {clock more : Nat} (le : clock ≤ more) {program : List (Stmt F)}
    (finished : (walk clock program).isFinished = true) : walk more program = walk clock program :=
  (outrun_of_le le).executeAll program {} finished

/-- A script comes to a result: the walk over it does, on some clock. -/
def ComesTo (program : List (Stmt F)) (w : Result F Ending) : Prop :=
  w.isFinished = true ∧ ∃ clock, walk clock program = w

/-- A script comes to one result at most. -/
theorem ComesTo.unique {program : List (Stmt F)} {w w' : Result F Ending} (h : ComesTo program w)
    (h' : ComesTo program w') : w = w' := by
  obtain ⟨finished, clock, rfl⟩ := h
  obtain ⟨finished', clock', rfl⟩ := h'
  rcases Nat.le_total clock clock' with le | le
  · exact (walk_of_le le finished).symm
  · exact walk_of_le le finished'

end Scriptlet.Tree
