import Scriptlet.Proofs.Tree.Facing

/-!
When a computation on a machine refines a walk. If the walk comes to a result, so does the
computation: it succeeds where the walk does, with related values and on a machine related to the
state, and it fails with the same kind of error and the same output where the walk fails. A walk
knows no budget, so the computation may always fail for want of memory instead. A walk whose clock
runs out says nothing.

The rules follow the two monads: a step of the walk is matched by a step of the computation, and a
computation may take steps of its own in between.
-/

namespace Scriptlet.Tree

open Text (Bytes)
open Eval

variable {F : Name → Bool} {α β γ δ σ : Type}

/-- A computation that came to `o` refines a walk that came to `w`. -/
inductive Refines (R : α → β → State F → Machine → Prop) : Outcome α → Result F β → Prop where
  | unfinished {o : Outcome α} : Refines R o .unfinished
  | exhausted {e : Error} {m : Machine} {w : Result F β} (kind : e.kind = .outOfMemory) :
      Refines R (.failed e m) w
  | done {a : α} {b : β} {s : State F} {m : Machine} (h : R a b s m) :
      Refines R (.done a m) (.done b s)
  | failed {e : Error} {m : Machine} {fault : Fault} {s : State F} (kind : e.kind = fault.kind)
      (out : m.written .out = s.out) : Refines R (.failed e m) (.failed fault s)

theorem outcome_andThen_done (o : Outcome α) : o.andThen .done = o := by cases o <;> rfl

theorem result_andThen_done (w : Result F β) : w.andThen .done = w := by cases w <;> rfl

namespace Refines

variable {R : α → β → State F → Machine → Prop} {R' : γ → δ → State F → Machine → Prop}
  {o : Outcome α} {w : Result F β} {m : Machine} {s : State F}

theorem chain {f : α → Machine → Outcome γ} {g : β → State F → Result F δ} (h : Refines R o w)
    (next : ∀ {a b s m}, R a b s m → Refines R' (f a m) (g b s)) :
    Refines R' (o.andThen f) (w.andThen g) := by
  cases h with
  | unfinished => exact .unfinished
  | exhausted kind => exact .exhausted kind
  | done h => exact next h
  | failed kind out => exact .failed kind out

theorem imp {Q : α → β → State F → Machine → Prop} (h : Refines R o w)
    (hR : ∀ {a b s m}, R a b s m → Q a b s m) : Refines Q o w := by
  rw [← outcome_andThen_done o, ← result_andThen_done w]
  exact h.chain fun r => .done (hR r)

/-! ### Sequences -/

theorem bind {x : Eval α} {f : α → Eval γ} {y : Walk F β} {g : β → Walk F δ}
    (h : Refines R (x m) (y s))
    (next : ∀ {a b s' m'}, R a b s' m' → Refines R' (f a m') (g b s')) :
    Refines R' ((x >>= f) m) ((y >>= g) s) := h.chain next

theorem step {x : Eval α} {f : α → Eval γ} {a : α} {m' : Machine} {w : Result F δ}
    (hx : x m = .done a m') (next : Refines R' (f a m') w) : Refines R' ((x >>= f) m) w := by
  show Refines R' ((x m).andThen f) w
  rw [hx]
  exact next

theorem step_walk {y : Walk F β} {g : β → Walk F δ} {b : β} {s' : State F} {o : Outcome γ}
    (hy : y s = .done b s') (next : Refines R' o (g b s')) : Refines R' o ((y >>= g) s) := by
  show Refines R' o ((y s).andThen g)
  rw [hy]
  exact next

theorem token {f : Token → Eval γ} {t : Token} {w : Result F δ} (ht : m.token = t)
    (next : Refines R' (f t m) w) : Refines R' ((Eval.token >>= f) m) w := by
  subst ht
  exact next

theorem symbolAt {f : Symbol Native → Eval γ} {i : Nat} {symbol : Symbol Native} {w : Result F δ}
    (found : m.arena.symbols[i]? = some symbol) (next : Refines R' (f symbol m) w) :
    Refines R' ((Eval.symbolAt i >>= f) m) w := by
  exact step (symbolAt_of_some found) next

theorem andThen {x : Eval α} {f : α → Eval γ} {Q : γ → β → State F → Machine → Prop}
    (h : Refines R (x m) w) (next : ∀ {a b s' m'}, R a b s' m' → ∃ c m'', f a m' = .done c m'' ∧
      Q c b s' m'') : Refines Q ((x >>= f) m) w := by
  rw [← result_andThen_done w]
  refine h.chain fun r => ?_
  obtain ⟨c, m'', hf, hQ⟩ := next r
  rw [hf]
  exact .done hQ

/-- A walk that ends with a step that changes its value alone. -/
theorem map_walk {Q : α → δ → State F → Machine → Prop} {y : Walk F β} {f : β → δ}
    (h : Refines R o (y s)) (hR : ∀ {a b s m}, R a b s m → Q a (f b) s m) :
    Refines Q o ((y >>= fun b => pure (f b)) s) := by
  rw [← outcome_andThen_done o]
  exact h.chain fun r => .done (hR r)

theorem of_map_walk {Q : α → δ → State F → Machine → Prop} {y : Walk F β} {f : β → δ}
    (h : Refines Q o ((y >>= fun b => pure (f b)) s)) :
    Refines (fun a b => Q a (f b)) o (y s) := by
  change Refines Q o ((y s).andThen fun b s' => .done (f b) s') at h
  cases hy : y s with
  | done b s' =>
    rw [hy] at h
    cases h with
    | exhausted kind => exact .exhausted kind
    | done h => exact .done h
  | failed fault s' =>
    rw [hy] at h
    cases h with
    | exhausted kind => exact .exhausted kind
    | failed kind out => exact .failed kind out
  | unfinished => exact .unfinished

/-- What the computation keeps is known of where it arrives. -/
theorem and_keeps {G : Machine → Machine → Prop} {x : Eval α} (h : Refines R (x m) w)
    (keeps : Keeps G x) : Refines (fun a b s' m' => R a b s' m' ∧ G m m') (x m) w := by
  have kept := keeps m
  generalize x m = o at h kept ⊢
  cases h with
  | unfinished => exact .unfinished
  | exhausted kind => exact .exhausted kind
  | done h => exact .done ⟨h, kept⟩
  | failed kind out => exact .failed kind out

/-- Where the computation arrives, the walk has come to its state. -/
theorem and_walked (h : Refines R o w) :
    Refines (fun a b s' m' => R a b s' m' ∧ w = .done b s') o w := by
  cases h with
  | unfinished => exact .unfinished
  | exhausted kind => exact .exhausted kind
  | done h => exact .done ⟨h, rfl⟩
  | failed kind out => exact .failed kind out

/-- An allocation is granted, or the computation fails for want of memory. -/
theorem allocate {f : Arena Native → Option (α × Arena Native)} {g : α → Eval γ} {w : Result F δ}
    (next : ∀ {a arena}, f m.arena = some (a, arena) → Refines R' (g a (m.withArena arena)) w) :
    Refines R' ((Eval.allocate f >>= g) m) w := by
  show Refines R' ((Eval.allocate f m).andThen g) w
  unfold Eval.allocate
  cases granted : f m.arena with
  | some pair => exact next granted
  | none => exact .exhausted rfl

/-! ### Loops -/

def afterTurn (turn : σ → Eval (Turn σ α)) (passes : Nat) : Turn σ α → Eval α
  | .again state => Eval.loop turn passes state
  | .finish value => pure value

theorem loop_succ (turn : σ → Eval (Turn σ α)) (passes : Nat) (state : σ) :
    Eval.loop turn (passes + 1) state = turn state >>= afterTurn turn passes := by
  funext m
  rw [bind_apply]
  unfold Eval.loop
  cases turn state m with
  | done t m' => cases t <;> rfl
  | failed e m' => rfl
  | stopped why m' => rfl

/-- A loop that has a pass left takes a turn and goes on from there. -/
theorem loop {turn : σ → Eval (Turn σ γ)} {passes : Nat} {state : σ} {w : Result F δ}
    (h : Refines R' ((turn state >>= afterTurn turn passes) m) w) :
    Refines R' (Eval.loop turn (passes + 1) state m) w := by
  rw [loop_succ]
  exact h

/-! ### Adjusting -/

theorem adjust {Q : α → β → State F → Machine → Prop} (h : Refines R o w)
    {f : Machine → Machine} {g : State F → State F}
    (out : ∀ m, (f m).written .out = m.written .out)
    (hR : ∀ {a b s m}, R a b s m → Q a b (g s) (f m)) : Refines Q (o.adjust f) (w.adjust g) := by
  cases h with
  | unfinished => exact .unfinished
  | exhausted kind => exact .exhausted kind
  | done h => exact .done (hR h)
  | failed kind same => exact .failed kind ((out _).trans same)

theorem adjust_machine {Q : α → β → State F → Machine → Prop} (h : Refines R o w)
    {f : Machine → Machine} (out : ∀ m, (f m).written .out = m.written .out)
    (hR : ∀ {a b s m}, R a b s m → Q a b s (f m)) : Refines Q (o.adjust f) w := by
  cases h with
  | unfinished => exact .unfinished
  | exhausted kind => exact .exhausted kind
  | done h => exact .done (hR h)
  | failed kind same => exact .failed kind ((out _).trans same)

theorem withQuoting {Q : α → β → State F → Machine → Prop} {x : Eval α} {quoting : Quoting}
    (h : Refines R (x { m with quoting }) w)
    (hR : ∀ {a b s m'}, R a b s m' → ∀ quoting, Q a b s { m' with quoting }) :
    Refines Q (Eval.withQuoting quoting x m) w :=
  h.adjust_machine (fun _ => rfl) fun h => hR h m.quoting

/-- A computation may change how it fails, but for the kind of error and the output. -/
theorem refail {f : Outcome α → Outcome α} (h : Refines R o w)
    (done : ∀ a m, f (.done a m) = .done a m)
    (failed : ∀ e m, ∃ e' m', f (.failed e m) = .failed e' m' ∧ e'.kind = e.kind ∧
      m'.written .out = m.written .out) : Refines R (f o) w := by
  cases h with
  | unfinished => exact .unfinished
  | @exhausted e m _ kind =>
    obtain ⟨e', m', eq, same, -⟩ := failed e m
    rw [eq]
    exact .exhausted (same.trans kind)
  | done h =>
    rw [done]
    exact .done h
  | @failed e m _ _ kind out =>
    obtain ⟨e', m', eq, same, written⟩ := failed e m
    rw [eq]
    exact .failed (same.trans kind) (written.trans out)

theorem unwinding {x : Eval α} (h : Refines R (x m) w) : Refines R (Eval.unwinding x m) w :=
  h.refail (f := fun o => Eval.unwinding (fun _ => o) m) (fun _ _ => rfl) fun e _ =>
    ⟨e, _, rfl, rfl, rfl⟩

theorem locating {x : Eval α} (h : Refines R (x m) w) : Refines R (Eval.locating x m) w :=
  h.refail (f := fun o => Eval.locating (fun _ => o) m) (fun _ _ => rfl) fun e m =>
    ⟨m.locate e, m, rfl, m.kind_locate e, rfl⟩

theorem reporting {x : Eval α} (h : Refines R (x m) w) : Refines R (Eval.reporting x m) w := by
  refine h.refail (f := fun o => Eval.reporting (fun _ => o) m) (fun _ _ => rfl) fun e m' => ?_
  by_cases outermost : m'.depth = 0
  · refine ⟨e, _, if_pos outermost, rfl, ?_⟩
    simp [Machine.write, Machine.written]
  · exact ⟨e, _, if_neg outermost, rfl, rfl⟩

/-- A text that is held for good is where it was put. -/
theorem holding {x : Nat → Eval α} {text : Bytes}
    (h : Refines R (x (m.texts.retain text.toArray).1
      (m.withTexts (m.texts.retain text.toArray).2)) w) :
    Refines R (Eval.holding text true x m) w := h.adjust_machine (fun _ => rfl) id

theorem entering {Q : α → β → State F → Machine → Prop} {x : Eval α}
    (h : Refines R (x { m with depth := m.depth + 1 }) w)
    (hR : ∀ {a b s m'}, R a b s m' → ∀ depth, Q a b s { m' with depth }) :
    Refines Q (Eval.entering x m) w :=
  h.adjust_machine (fun _ => rfl) fun h => hR h _

/-! ### Operators -/

theorem apply_eq_error {op : Operator} {x y : Word} {e : Error} (h : op.apply x y = .error e) :
    e = .divisionByZero := by
  cases op with
  | divide =>
    unfold Operator.apply at h
    dsimp only at h
    split at h
    · cases h
      rfl
    · cases h
  | _ => cases h

theorem operate (op : Operator) (x y : Word) (out : m.written .out = s.out) :
    Refines (fun value value' s' m' => value = value' ∧ s' = s ∧ m' = m)
      (Eval.ofExcept (op.apply x y) m) (Walk.operate op x y s) := by
  unfold Eval.ofExcept Walk.operate
  cases applied : op.apply x y with
  | ok value => exact .done ⟨rfl, rfl, rfl⟩
  | error e =>
    rw [apply_eq_error applied]
    exact .failed rfl out

end Refines

end Scriptlet.Tree
