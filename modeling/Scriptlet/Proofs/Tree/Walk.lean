import Scriptlet.Evaluation.Reentry
import Scriptlet.Proofs.Tree.Syntax

/-!
What a script tree means. A walk over the tree works on a list of bindings, the newest first, a
result register and the bytes written so far; it reads no text and knows no memory budget.

Names are bound dynamically: a function is run among the bindings that are there when it is
called. A block drops the bindings made in it, and a return ends the block it stands in and no
more. A declaration binds its variable to zero before the expression is evaluated, and an
assignment looks its variable up before.

A walk is on a clock, from which every step into a part of the tree or on to the next takes one.
A clock that runs out gives no result.
-/

namespace Scriptlet.Tree

open Text (Bytes)

variable {F : Name → Bool} {α β : Type}

/-! ### States -/

inductive Binding (F : Name → Bool) where
  | var (x : Variable F) (value : Word)
  | func (f : Function F) (params : List (Variable F)) (body : List (Stmt F))

def Binding.name : Binding F → Name
  | .var x _ => x.val
  | .func f _ _ => f.val

structure State (F : Name → Bool) where
  /-- The bindings, newest first. -/
  bindings : List (Binding F) := []
  /-- What the last return left. -/
  result : Word := 0
  out : Bytes := []

def setNewest (x : Variable F) (value : Word) : List (Binding F) → List (Binding F)
  | [] => []
  | b :: older =>
    if b.name = x.val then .var x value :: older else b :: setNewest x value older

namespace State

def newest? (s : State F) (name : Name) : Option (Binding F) :=
  s.bindings.find? (·.name = name)

def value? (s : State F) (x : Variable F) : Option Word :=
  match s.newest? x.val with
  | some (.var _ value) => some value
  | _ => none

def function? (s : State F) (f : Function F) : Option (List (Variable F) × List (Stmt F)) :=
  match s.newest? f.val with
  | some (.func _ params body) => some (params, body)
  | _ => none

def bind (s : State F) (b : Binding F) : State F := { s with bindings := b :: s.bindings }

def assign (s : State F) (x : Variable F) (value : Word) : State F :=
  { s with bindings := setNewest x value s.bindings }

def withResult (s : State F) (value : Word) : State F := { s with result := value }

def emit (s : State F) (bytes : Bytes) : State F := { s with out := s.out ++ bytes }

def cut (s : State F) (count : Nat) : State F :=
  { s with bindings := s.bindings.drop (s.bindings.length - count) }

def names (s : State F) : List Name := s.bindings.map Binding.name

end State

/-! ### Walks -/

inductive Fault where
  | unknownSymbol
  | argumentMismatch
  | divisionByZero
  deriving DecidableEq

def Fault.kind : Fault → ErrorKind
  | unknownSymbol => .unknownSymbol
  | argumentMismatch => .argumentMismatch
  | divisionByZero => .divisionByZero

inductive Result (F : Name → Bool) (α : Type) where
  | done (value : α) (after : State F)
  | failed (fault : Fault) (after : State F)
  | unfinished

def Result.isFinished : Result F α → Bool
  | unfinished => false
  | _ => true

def Result.andThen (w : Result F α) (next : α → State F → Result F β) : Result F β :=
  match w with
  | done value s => next value s
  | failed fault s => failed fault s
  | unfinished => unfinished

def Result.adjust (f : State F → State F) : Result F α → Result F α
  | done value s => done value (f s)
  | failed fault s => failed fault s
  | unfinished => unfinished

def Walk (F : Name → Bool) (α : Type) := State F → Result F α

namespace Walk

instance : Monad (Walk F) where
  pure value := fun s => .done value s
  bind x next := fun s => (x s).andThen next

def unfinished : Walk F α := fun _ => .unfinished

def fault (f : Fault) : Walk F α := fun s => .failed f s

def read (f : State F → α) : Walk F α := fun s => .done (f s) s

def update (f : State F → State F) : Walk F Unit := fun s => .done () (f s)

/-- Takes what was found, or fails because the name is not known. -/
def known (find : State F → Option α) : Walk F α := fun s =>
  match find s with
  | some a => .done a s
  | none => .failed .unknownSymbol s

theorem known_of_some {find : State F → Option α} {s : State F} {a : α} (h : find s = some a) :
    known find s = .done a s := by
  simp only [known, h]

theorem known_of_none {find : State F → Option α} {s : State F} (h : find s = none) :
    known find s = .failed .unknownSymbol s := by
  simp only [known, h]

def operate (op : Operator) (x y : Word) : Walk F Word :=
  match op.apply x y with
  | .ok value => pure value
  | .error _ => fault .divisionByZero

def inScope (x : Walk F α) : Walk F α := fun s => (x s).adjust (·.cut s.bindings.length)

/-- Runs a walk with a result register of its own, and drops the bindings it makes. -/
def inFrame (x : Walk F α) : Walk F α := fun s =>
  (x s).adjust fun s' => (s'.cut s.bindings.length).withResult s.result

/-- Walks a block. It does not matter to what stands around it how the block is left. -/
def block (x : Walk F Ending) : Walk F Unit := do
  let _ ← inScope x

def otherwise (run : List (Stmt F) → Walk F Ending) : Option (List (Stmt F)) → Walk F Unit
  | some body => block (run body)
  | none => return ()

def bindAll : List (Variable F × Word) → Walk F Unit
  | [] => return ()
  | (x, value) :: rest => do
    update (·.bind (.var x value))
    bindAll rest

/-- Runs the body of a function on arguments, if they are as many as its parameters. Its value is
what it returns. -/
def apply (params : List (Variable F)) (body : Walk F Ending) (values : List Word) : Walk F Word :=
  if values.length ≠ params.length then fault .argumentMismatch
  else inFrame do
    bindAll (params.zip values)
    update (·.withResult 0)
    block body
    read (·.result)

/-- Walks the body if the condition holds and the alternative if not; tells which. -/
def choose (condition : Walk F Word) (body alternative : Walk F Unit) : Walk F Bool := do
  if (← condition) ≠ 0 then do
    body
    return true
  else do
    alternative
    return false

end Walk

open Walk

mutual

def evaluate : Nat → Expr F → Walk F Word
  | 0, _ => unfinished
  | _ + 1, .number n => return Int64.ofNat n
  | _ + 1, .var x => known (·.value? x)
  | clock + 1, .unary op e => do
    let y ← evaluate clock e
    operate op 0 y
  | clock + 1, .binary op l r => do
    let x ← evaluate clock l
    let y ← evaluate clock r
    operate op x y
  | clock + 1, .call f args => invoke clock f args

def evaluateAll : Nat → List (Expr F) → Walk F (List Word)
  | 0, _ => unfinished
  | _ + 1, [] => return []
  | clock + 1, e :: rest => do
    let value ← evaluate clock e
    let values ← evaluateAll clock rest
    return value :: values

def invoke : Nat → Function F → List (Expr F) → Walk F Word
  | 0, _, _ => unfinished
  | clock + 1, f, args => do
    let (params, body) ← known (·.function? f)
    let values ← evaluateAll clock args
    Walk.apply params (executeAll clock body) values

def execute : Nat → Stmt F → Walk F Ending
  | 0, _ => unfinished
  | clock + 1, .declare x e => do
    update (·.bind (.var x 0))
    let value ← evaluate clock e
    update (·.assign x value)
    return .ranOut
  | clock + 1, .assign x e => do
    let _ ← known (·.value? x)
    let value ← evaluate clock e
    update (·.assign x value)
    return .ranOut
  | clock + 1, .branch e body alternative => do
    let _ ← choose (evaluate clock e) (block (executeAll clock body))
      (otherwise (executeAll clock) alternative)
    return .ranOut
  | clock + 1, .loop e body alternative => do
    if ← choose (evaluate clock e) (block (executeAll clock body))
      (otherwise (executeAll clock) alternative)
    then execute clock (.loop e body alternative)
    else return .ranOut
  | _ + 1, .define f params _ body => do
    update (·.bind (.func f params body))
    return .ranOut
  | clock + 1, .leave e => do
    let value ← e.elim (pure 0) (evaluate clock)
    update (·.withResult value)
    return .returned
  | clock + 1, .call f args => do
    let _ ← invoke clock f args
    return .ranOut
  | clock + 1, .print e => do
    let value ← evaluate clock e
    update (·.emit (Text.encode (value.decimal ++ "\n")))
    return .ranOut

/-- Carries out statements up to a return or the last one. -/
def executeAll : Nat → List (Stmt F) → Walk F Ending
  | 0, _ => unfinished
  | _ + 1, [] => return .ranOut
  | clock + 1, s :: rest => do
    match ← execute clock s with
    | .ranOut => executeAll clock rest
    | .returned => return .returned

end

/-- A call of a function that is not bound fails before anything is evaluated. -/
theorem invoke_of_none (clock : Nat) {f : Function F} (args : List (Expr F)) {s : State F}
    (h : s.function? f = none) : invoke (clock + 1) f args s = .failed .unknownSymbol s := by
  rw [invoke]
  show (known _ s).andThen _ = _
  rw [known_of_none h]
  rfl

theorem evaluateAll_singleton (clock : Nat) (e : Expr F) :
    evaluateAll (clock + 1) [e] = do
      let value ← evaluate clock e
      return [value] := by
  cases clock with
  | zero => rfl
  | succ clock => rfl

/-- Walks a whole script, with nothing bound at the start. -/
def walk (clock : Nat) (program : List (Stmt F)) : Result F Ending := executeAll clock program {}

/-! ### What stays bound

Expressions leave the same names bound. Statements may bind more, on top of those. -/

namespace State

theorem names_setNewest (x : Variable F) (value : Word) (bindings : List (Binding F)) :
    (setNewest x value bindings).map Binding.name = bindings.map Binding.name := by
  induction bindings with
  | nil => rfl
  | cons b older ih =>
    unfold setNewest
    split
    · next same =>
      rw [List.map_cons, List.map_cons, same]
      rfl
    · rw [List.map_cons, List.map_cons, ih]

@[simp] theorem names_assign (s : State F) (x : Variable F) (value : Word) :
    (s.assign x value).names = s.names := names_setNewest x value s.bindings

/-- Cutting back to the bindings of before leaves the names of before. -/
theorem names_cut {s s' : State F} (h : s.names <:+ s'.names) :
    (s'.cut s.bindings.length).names = s.names := by
  have count : s.bindings.length = s.names.length := by simp [names]
  have count' : s'.bindings.length = s'.names.length := by simp [names]
  -- what is cut off is what has been bound on top
  have dropped : s.names = s'.names.drop (s'.names.length - s.names.length) :=
    List.suffix_iff_eq_drop.mp h
  rw [dropped, names, cut, List.map_drop, count, count']
  rfl

end State

/-- A walk binds nothing and drops no binding. -/
def Walk.Level (x : Walk F α) : Prop := ∀ ⦃s a s'⦄, x s = .done a s' → s'.names = s.names

def Walk.Mounts (x : Walk F α) : Prop := ∀ ⦃s a s'⦄, x s = .done a s' → s.names <:+ s'.names

namespace Walk

theorem bind_eq_done {x : Walk F α} {f : α → Walk F β} {s s' : State F} {b : β}
    (h : (x >>= f) s = .done b s') : ∃ a s₁, x s = .done a s₁ ∧ f a s₁ = .done b s' := by
  change (x s).andThen f = _ at h
  cases hx : x s with
  | done a s₁ =>
    rw [hx] at h
    exact ⟨a, s₁, rfl, h⟩
  | failed fault s₁ =>
    rw [hx] at h
    cases h
  | unfinished =>
    rw [hx] at h
    cases h

theorem adjust_eq_done {w : Result F α} {f : State F → State F} {a : α} {s' : State F}
    (h : w.adjust f = .done a s') : ∃ s₁, w = .done a s₁ ∧ s' = f s₁ := by
  cases w with
  | done b s₁ =>
    cases h
    exact ⟨s₁, rfl, rfl⟩
  | failed fault s₁ => cases h
  | unfinished => cases h

theorem Level.mounts {x : Walk F α} (h : x.Level) : x.Mounts :=
  fun _ _ _ run => h run ▸ List.suffix_rfl

theorem Level.bind {x : Walk F α} {f : α → Walk F β} (hx : x.Level) (hf : ∀ a, (f a).Level) :
    (x >>= f).Level := by
  intro s b s' run
  obtain ⟨a, s₁, first, second⟩ := bind_eq_done run
  rw [hf a second, hx first]

theorem Mounts.bind {x : Walk F α} {f : α → Walk F β} (hx : x.Mounts) (hf : ∀ a, (f a).Mounts) :
    (x >>= f).Mounts := by
  intro s b s' run
  obtain ⟨a, s₁, first, second⟩ := bind_eq_done run
  exact (hx first).trans (hf a second)

theorem level_pure (a : α) : (pure a : Walk F α).Level := fun _ _ _ run => by
  cases run
  rfl

theorem level_unfinished : (unfinished : Walk F α).Level := fun _ _ _ run => by cases run

theorem level_fault (f : Fault) : (fault f : Walk F α).Level := fun _ _ _ run => by cases run

theorem level_read (f : State F → α) : (read f).Level := fun _ _ _ run => by
  cases run
  rfl

theorem level_update {f : State F → State F} (h : ∀ s, (f s).names = s.names) :
    (update f).Level := fun _ _ _ run => by
  cases run
  exact h _

theorem level_withResult (value : Word) : (update (·.withResult value) : Walk F Unit).Level :=
  level_update fun _ => rfl

theorem level_emit (bytes : Bytes) : (update (·.emit bytes) : Walk F Unit).Level :=
  level_update fun _ => rfl

theorem mounts_bind (b : Binding F) : (update (·.bind b)).Mounts := fun _ _ _ run => by
  cases run
  exact List.suffix_cons _ _

theorem level_known (find : State F → Option α) : (known find).Level := by
  intro s a s' run
  unfold known at run
  split at run
  · cases run
    rfl
  · cases run

theorem level_operate (op : Operator) (x y : Word) : (operate op x y : Walk F Word).Level := by
  unfold operate
  split
  · exact level_pure _
  · exact level_fault _

theorem level_inScope {x : Walk F α} (hx : x.Mounts) : (inScope x).Level := by
  intro s a s' run
  obtain ⟨s₁, first, rfl⟩ := adjust_eq_done run
  exact State.names_cut (hx first)

theorem level_inFrame {x : Walk F α} (hx : x.Mounts) : (inFrame x).Level := by
  intro s a s' run
  obtain ⟨s₁, first, rfl⟩ := adjust_eq_done run
  exact State.names_cut (hx first)

theorem level_block {x : Walk F Ending} (hx : x.Mounts) : (block x).Level :=
  (level_inScope hx).bind fun _ => level_pure ()

theorem level_otherwise {run : List (Stmt F) → Walk F Ending} (h : ∀ body, (run body).Mounts)
    (alternative : Option (List (Stmt F))) : (otherwise run alternative).Level := by
  cases alternative with
  | some body => exact level_block (h body)
  | none => exact level_pure ()

theorem mounts_bindAll (values : List (Variable F × Word)) : (bindAll values).Mounts := by
  induction values with
  | nil => exact (level_pure ()).mounts
  | cons value rest ih => exact (mounts_bind _).bind fun _ => ih

theorem level_apply (params : List (Variable F)) {body : Walk F Ending} (h : body.Mounts)
    (values : List Word) : (Walk.apply params body values).Level := by
  unfold Walk.apply
  split
  · exact level_fault _
  · refine level_inFrame ((mounts_bindAll _).bind fun _ => ?_)
    refine (level_withResult 0).mounts.bind fun _ => ?_
    exact ((level_block h).bind fun _ => level_read _).mounts

theorem level_choose {condition : Walk F Word} {body alternative : Walk F Unit}
    (hc : condition.Level) (hb : body.Level) (ha : alternative.Level) :
    (choose condition body alternative).Level := by
  refine hc.bind fun value => ?_
  split
  · exact hb.bind fun _ => level_pure _
  · exact ha.bind fun _ => level_pure _

end Walk

/-- What walks on a clock leave bound. -/
structure Steady (F : Name → Bool) (clock : Nat) : Prop where
  evaluate : ∀ e : Expr F, (evaluate clock e).Level
  evaluateAll : ∀ args : List (Expr F), (evaluateAll clock args).Level
  invoke : ∀ (f : Function F) (args : List (Expr F)), (invoke clock f args).Level
  execute : ∀ s : Stmt F, (execute clock s).Mounts
  executeAll : ∀ body : List (Stmt F), (executeAll clock body).Mounts

theorem steady_zero : Steady F 0 where
  evaluate _ := level_unfinished
  evaluateAll _ := level_unfinished
  invoke _ _ := level_unfinished
  execute _ := level_unfinished.mounts
  executeAll _ := level_unfinished.mounts

namespace Steady

variable {clock : Nat} (h : Steady F clock)

include h

theorem evaluate_succ (e : Expr F) : (Tree.evaluate (clock + 1) e).Level := by
  cases e with
  | number n => exact level_pure _
  | var x => exact level_known _
  | unary op e => exact (h.evaluate e).bind fun y => level_operate op 0 y
  | binary op l r =>
    exact (h.evaluate l).bind fun x => (h.evaluate r).bind fun y => level_operate op x y
  | call f args => exact h.invoke f args

theorem evaluateAll_succ (args : List (Expr F)) : (Tree.evaluateAll (clock + 1) args).Level := by
  cases args with
  | nil => exact level_pure _
  | cons e rest =>
    exact (h.evaluate e).bind fun _ => (h.evaluateAll rest).bind fun _ => level_pure _

theorem invoke_succ (f : Function F) (args : List (Expr F)) :
    (Tree.invoke (clock + 1) f args).Level := by
  exact (level_known _).bind fun function => (h.evaluateAll args).bind fun values =>
    level_apply function.1 (h.executeAll function.2) values

theorem execute_succ (s : Stmt F) : (Tree.execute (clock + 1) s).Mounts := by
  -- storing a value is the last step of two statements
  have store : ∀ (x : Variable F) (e : Expr F), Level (do
      let value ← Tree.evaluate clock e
      update (·.assign x value)
      return Ending.ranOut) := fun x e =>
    (h.evaluate e).bind fun value => (level_update fun s => s.names_assign x value).bind fun _ =>
      level_pure _
  have chosen : ∀ (e : Expr F) (body alternative), Level (choose (Tree.evaluate clock e)
      (block (Tree.executeAll clock body)) (otherwise (Tree.executeAll clock) alternative)) :=
    fun e body alternative => level_choose (h.evaluate e) (level_block (h.executeAll body))
      (level_otherwise h.executeAll alternative)
  cases s with
  | declare x e => exact (mounts_bind _).bind fun _ => (store x e).mounts
  | assign x e => exact ((level_known _).bind fun _ => store x e).mounts
  | branch e body alternative => exact ((chosen e body alternative).bind fun _ => level_pure _).mounts
  | loop e body alternative =>
    refine (chosen e body alternative).mounts.bind fun held => ?_
    split
    · exact h.execute _
    · exact (level_pure _).mounts
  | define f params few body => exact (mounts_bind _).bind fun _ => (level_pure _).mounts
  | leave e =>
    have value : Level (e.elim (pure 0) (Tree.evaluate clock) : Walk F Word) := by
      cases e with
      | none => exact level_pure _
      | some e => exact h.evaluate e
    exact (value.bind fun _ => (level_withResult _).bind fun _ => level_pure _).mounts
  | call f args => exact ((h.invoke f args).bind fun _ => level_pure _).mounts
  | print e =>
    exact ((h.evaluate e).bind fun _ => (level_emit _).bind fun _ => level_pure _).mounts

theorem executeAll_succ (body : List (Stmt F)) : (Tree.executeAll (clock + 1) body).Mounts := by
  cases body with
  | nil => exact (level_pure _).mounts
  | cons s rest =>
    refine (h.execute s).bind fun ending => ?_
    cases ending with
    | ranOut => exact h.executeAll rest
    | returned => exact (level_pure _).mounts

end Steady

theorem steady (clock : Nat) : Steady F clock := by
  induction clock with
  | zero => exact steady_zero
  | succ clock h =>
    exact ⟨h.evaluate_succ, h.evaluateAll_succ, h.invoke_succ, h.execute_succ, h.executeAll_succ⟩

end Scriptlet.Tree
