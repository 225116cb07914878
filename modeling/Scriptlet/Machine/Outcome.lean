import Scriptlet.Machine.Basic

/-!
Computations on a machine. A computation finishes with a value, fails with an error, or
stops before it is done; in each case there is a machine left. An error does not undo what
was done before it, so whatever has to be put back afterwards is put back explicitly, by the
combinators at the end.

Stopping is not failing: it happens when the budget for recursion and loops is used up, or
when the world does not know an answer, and no computation can catch it.
-/

namespace Scriptlet

/-- Why a computation stopped before it was done. -/
inductive Stop where
  | outOfFuel
  | unanswered (question : Question)
  deriving DecidableEq, Repr

inductive Outcome (α : Type) where
  | done (value : α) (after : Machine)
  | failed (error : Error) (after : Machine)
  | stopped (why : Stop) (after : Machine)

namespace Outcome

variable {α β : Type}

def machine : Outcome α → Machine
  | done _ m => m
  | failed _ m => m
  | stopped _ m => m

@[inline] def adjust (f : Machine → Machine) : Outcome α → Outcome α
  | done value m => done value (f m)
  | failed error m => failed error (f m)
  | stopped why m => stopped why (f m)

/-- Changes the machine that is left by a computation that is not done. -/
@[inline] def adjustUndone (f : Machine → Machine) : Outcome α → Outcome α
  | done value m => done value m
  | failed error m => failed error (f m)
  | stopped why m => stopped why (f m)

/-- Changes the error of a failure, which may depend on the machine it leaves. -/
@[inline] def adjustError (f : Machine → Error → Error) : Outcome α → Outcome α
  | done value m => done value m
  | failed error m => failed (f m error) m
  | stopped why m => stopped why m

@[inline] def andThen (o : Outcome α) (next : α → Machine → Outcome β) : Outcome β :=
  match o with
  | done value m => next value m
  | failed error m => failed error m
  | stopped why m => stopped why m

end Outcome

/-- A computation on a machine. -/
def Eval (α : Type) := Machine → Outcome α

/-- Whether a loop goes round again or is finished. -/
inductive Turn (σ α : Type) where
  | again (state : σ)
  | finish (value : α)

namespace Eval

variable {α β σ : Type}

@[inline] protected def pure (value : α) : Eval α := fun m => .done value m

@[inline] protected def bind (x : Eval α) (next : α → Eval β) : Eval β :=
  fun m => (x m).andThen next

instance : Monad Eval where
  pure := Eval.pure
  bind := Eval.bind

theorem bind_apply (x : Eval α) (next : α → Eval β) (m : Machine) :
    (x >>= next) m = (x m).andThen next := rfl

theorem bind_of_done {x : Eval α} {m n : Machine} {a : α} (h : x m = .done a n)
    (next : α → Eval β) : (x >>= next) m = next a n := by
  rw [bind_apply, h]
  rfl

theorem bind_of_failed {x : Eval α} {m n : Machine} {e : Error} (h : x m = .failed e n)
    (next : α → Eval β) : (x >>= next) m = .failed e n := by
  rw [bind_apply, h]
  rfl

protected theorem id_map (x : Eval α) : id <$> x = x := by
  funext m
  change (x m).andThen _ = x m
  cases x m <;> rfl

protected theorem bind_assoc {γ : Type} (x : Eval α) (f : α → Eval β) (g : β → Eval γ) :
    x >>= f >>= g = x >>= fun a => f a >>= g := by
  funext m
  change ((x m).andThen f).andThen g = (x m).andThen _
  cases x m <;> rfl

instance : LawfulMonad Eval := LawfulMonad.mk' Eval Eval.id_map (fun _ _ => rfl) Eval.bind_assoc

@[inline] def fail (error : Error) : Eval α := fun m => .failed error m

@[inline] def complain (c : Complaint) : Eval α := fail (.ofComplaint c)

@[inline] def read (f : Machine → α) : Eval α := fun m => .done (f m) m

@[inline] def update (f : Machine → Machine) : Eval Unit := fun m => .done () (f m)

@[inline] def noting (x : Eval α) : Eval α := fun m => x m.note

@[inline] def ofExcept (x : Except Error α) : Eval α := fun m =>
  match x with
  | .ok value => .done value m
  | .error error => .failed error m

@[inline] def attempt (x : Eval α) : Eval (Except Error α) := fun m =>
  match x m with
  | .done value m => .done (.ok value) m
  | .failed error m => .done (.error error) m
  | .stopped why m => .stopped why m

/-- Runs an allocation; one that is refused leaves the arena alone. -/
@[inline] def allocate (f : Arena Native → Option (α × Arena Native)) : Eval α := fun m =>
  match f m.arena with
  | some (value, arena) => .done value (m.withArena arena)
  | none => .failed .outOfMemory m

theorem allocate_of_some {f : Arena Native → Option (α × Arena Native)} {m : Machine} {value : α}
    {arena : Arena Native} (h : f m.arena = some (value, arena)) :
    allocate f m = .done value (m.withArena arena) := by
  unfold allocate
  rw [h]

theorem allocate_of_none {f : Arena Native → Option (α × Arena Native)} {m : Machine}
    (h : f m.arena = none) : allocate f m = .failed .outOfMemory m := by
  unfold allocate
  rw [h]

/-- Goes round until a turn finishes, at most `passes` times. -/
def loop (turn : σ → Eval (Turn σ α)) : Nat → σ → Eval α
  | 0, _, m => .stopped .outOfFuel m
  | passes + 1, state, m =>
    match turn state m with
    | .done (.again state) m => loop turn passes state m
    | .done (.finish value) m => .done value m
    | .failed error m => .failed error m
    | .stopped why m => .stopped why m

/-! ### Putting things back -/

/-- Puts back, however the computation ends, what `restore` puts back, given the machine of
before. -/
@[inline] def restoring (keep : Machine → σ) (restore : σ → Machine → Machine) (x : Eval α) :
    Eval α :=
  fun m => let kept := keep m; (x m).adjust (restore kept)

def withQuoting (quoting : Quoting) (x : Eval α) : Eval α :=
  restoring (·.quoting) (fun quoting m => { m with quoting }) fun m => x { m with quoting }

/-- Drops, unless the computation is done, what it left on the stack and among the literals. -/
def unwinding (x : Eval α) : Eval α := fun m =>
  let depth := m.arena.depth
  let literals := m.literals.size
  (x m).adjustUndone fun m =>
    { m.withArena (m.arena.unwind depth) with literals := m.literals.truncate literals }

end Eval

end Scriptlet
