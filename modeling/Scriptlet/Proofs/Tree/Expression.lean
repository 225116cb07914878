import Scriptlet.Proofs.Tree.Call

/-!
Expressions follow the tree. The operands of a laid out expression are atoms, so at every level
but that of the one operator there is nothing to be done. What remains is one turn of one loop for
a binary operator, the rest of the expression for a prefix operator, and the atoms themselves.
-/

namespace Scriptlet.Tree

open Eval

variable {F : Name → Bool} {page : Page} {stack : Array Word} {s : State F} {m : Machine}
  {tail : List Item}

/-! ### What comes behind an operand -/

theorem tokenTag?_of_symbol {i : Nat} {symbol : Symbol Native} (token : m.token = .symbol i)
    (symbolAt : m.arena.symbols[i]? = some symbol) : tokenTag? m = .done (some symbol.tag) m := by
  rw [tokenTag?, token_bind, token]
  exact bind_of_done (symbolAt_of_some symbolAt) _

theorem tokenTag?_of_other (other : ∀ i, m.token ≠ .symbol i) : tokenTag? m = .done none m := by
  rw [tokenTag?, token_bind]
  cases token : m.token with
  | symbol i => exact absurd token (other i)
  | _ => rfl

/-- What ends an expression is not read as a symbol. -/
theorem Facing.ne_symbol (facing : Facing page false stack s m tail) (closing : Closing tail)
    (i : Nat) : m.token ≠ .symbol i := by
  obtain ⟨item, rest, rfl, closes⟩ := closing
  have ahead : item.ReadAs page false m m.token := facing.ahead
  intro token
  rw [token] at ahead
  cases item with
  | block inside =>
    obtain ⟨slice, eq, -⟩ := ahead
    cases eq
  | newline => cases ahead
  | comma => cases ahead
  | closeParen => cases ahead
  | _ => cases closes

/-- No operator of a level up to the given one comes first. -/
def Ends (level : Nat) (items : List Item) : Prop :=
  Closing items ∨ ∃ op rest, items = .operator op :: rest ∧ level < op.level

theorem Ends.mono {level level' : Nat} (h : Ends level tail) (le : level' ≤ level) :
    Ends level' tail := by
  rcases h with closing | ⟨op, rest, hitems, lt⟩
  · exact .inl closing
  · exact .inr ⟨op, rest, hitems, by omega⟩

theorem operatorOfLevel_of_operator {op : Operator}
    (facing : Facing page false stack s m (.operator op :: tail)) (level : Nat) :
    Expression.operatorOfLevel level m =
      .done (if op.level = level then some op else none) m := by
  obtain ⟨i, symbol, token, symbolAt, tag⟩ := facing.operator
  unfold Expression.operatorOfLevel
  rw [bind_apply, tokenTag?_of_symbol token symbolAt, tag]
  rfl

theorem operatorOfLevel_of_ends {level : Nat} (facing : Facing page false stack s m tail)
    (ends : Ends level tail) : Expression.operatorOfLevel level m = .done none m := by
  rcases ends with closing | ⟨op, rest, rfl, lt⟩
  · unfold Expression.operatorOfLevel
    rw [bind_apply, tokenTag?_of_other (facing.ne_symbol closing)]
    rfl
  · rw [operatorOfLevel_of_operator facing, if_neg (by omega)]

/-! ### Levels -/

/-- The loop over the operators of a level ends where none comes next. -/
theorem operators_loop_of_ends {passes level : Nat} {operand : Eval Word} {value : Word}
    (facing : Facing page false stack s m tail) (ends : Ends (level + 1) tail) :
    Eval.loop (Expression.levelTurn (level + 1) operand) (passes + 1) value m = .done value m := by
  rw [Refines.loop_succ, bind_apply, Expression.levelTurn, bind_apply, operatorOfLevel_of_ends facing ends]
  rfl

/-- Levels at which no operator comes next make no difference. -/
theorem upToLevel_of_le {r : Reentry} (passes : 1 ≤ r.passes) {level level' : Nat}
    (le : level ≤ level') (ends : Ends level' tail) {w : Result F Word}
    (h : Refines (Arrives page stack tail) (Expression.upToLevel r level m) w) :
    Refines (Arrives page stack tail) (Expression.upToLevel r level' m) w := by
  induction le with
  | refl => exact h
  | @step level' le ih =>
    -- the one turn of this level finds no operator
    rw [Expression.upToLevel_succ]
    refine Refines.andThen (ih (ends.mono (by omega))) ?_
    rintro value _ s' m' ⟨rfl, facing⟩
    obtain ⟨passes, hpasses⟩ : ∃ k, r.passes = k + 1 := ⟨r.passes - 1, by omega⟩
    refine ⟨value, m', ?_, rfl, facing⟩
    rw [Reentry.loop, hpasses]
    exact operators_loop_of_ends facing ends

/-! ### Atoms -/

variable {r : Reentry} {limit : Nat}

theorem atom_of_symbol {i : Nat} {symbol : Symbol Native} {w : Result F Word}
    {R : Word → Word → State F → Machine → Prop} (token : m.token = .symbol i)
    (symbolAt : m.arena.symbols[i]? = some symbol)
    (next : Refines R (Expression.symbolAtom r symbol m) w) :
    Refines R (Expression.atom r m) w := Refines.token token (Refines.symbolAt symbolAt next)

theorem refines_advance {value : Word} (standing : Standing page stack s m tail) :
    Refines (Arrives page stack tail) ((do advance; return value : Eval Word) m)
      (.done value s : Result F Word) := by
  obtain ⟨m', advanced, facing⟩ := standing.advance_pure value
  rw [advanced]
  exact .done ⟨rfl, facing⟩

theorem atom_number {clock n : Nat} (facing : Facing page false stack s m (.number n :: tail)) :
    Refines (Arrives page stack tail) (Expression.atom r m) (evaluate clock (.number n) s) := by
  cases clock with
  | zero => exact .unfinished
  | succ clock => exact Refines.token facing.ahead (refines_advance facing.standing)

theorem atom_var {clock : Nat} {x : Variable F}
    (facing : Facing page false stack s m (.name x.val :: tail)) :
    Refines (Arrives page stack tail) (Expression.atom r m) (evaluate clock (.var x) s) := by
  cases clock with
  | zero => exact .unfinished
  | succ clock =>
    rw [evaluate]
    cases hx : s.value? x with
    | none =>
      obtain ⟨slice, token⟩ := facing.unbound (newest?_eq_none_of_value? hx)
      rw [Walk.known_of_none hx]
      exact Refines.token token (.failed rfl facing.state.out)
    | some value =>
      obtain ⟨depth, symbol, -, token, symbolAt, tag, rfl⟩ := facing.variable_ hx
      rw [Walk.known_of_some hx]
      refine atom_of_symbol token symbolAt ?_
      unfold Expression.symbolAtom
      rw [tag]
      exact refines_advance facing.standing

theorem atom_call (h : Follows F page r limit) {clock : Nat} (hclock : clock ≤ limit + 1)
    {f : Function F} {args : List (Expr F)}
    (facing : Facing page false stack s m (callItems f args ++ tail)) :
    Refines (Arrives page stack tail) (Expression.atom r m) (invoke clock f args s) := by
  cases clock with
  | zero => exact .unfinished
  | succ clock =>
    cases hf : s.function? f with
    | none =>
      obtain ⟨slice, token⟩ := facing.unbound (newest?_eq_none_of_function? hf)
      rw [invoke_of_none clock args hf]
      exact Refines.token token (.failed rfl facing.state.out)
    | some function =>
      obtain ⟨i, symbol, token, symbolAt, represents⟩ := facing.function hf
      refine atom_of_symbol token symbolAt ?_
      unfold Expression.symbolAtom
      rw [represents.2.1]
      refine inExpression_refines h (by omega) hf represents ?_
      have standing := facing.standing
      simpa [callItems] using standing

theorem atom_group {clock : Nat} {e : Expr F}
    (inner : ∀ {m}, Facing page false stack s m (e.items ++ .closeParen :: tail) →
      Refines (Arrives page stack (.closeParen :: tail)) (r.expression m) (evaluate clock e s))
    (facing : Facing page false stack s m (.openParen :: e.items ++ .closeParen :: tail)) :
    Refines (Arrives page stack tail) (Expression.atom r m) (evaluate clock e s) := by
  refine Refines.token facing.ahead ?_
  refine Refines.andThen (R := fun value value' s' m' => value = value' ∧
    Standing page stack s' m' tail) (Refines.withQuoting (R := fun value value' s' m' =>
      value = value' ∧ Standing page stack s' m' tail) ?_ ?_) ?_
  · have standing : Standing page stack s { m with quoting := .plain } _ :=
      ⟨facing.state.congr rfl, facing.cursor⟩
    obtain ⟨m₁, advanced, facing₁⟩ := standing.advance
    refine Refines.step advanced (Refines.andThen (inner facing₁) ?_)
    rintro value _ s₂ m₂ ⟨rfl, facing₂⟩
    refine ⟨value, m₂, ?_, rfl, facing₂.standing⟩
    have close : m₂.token = .closeParen := facing₂.ahead
    rw [token_bind, if_pos close]
    rfl
  · rintro value _ s' m' ⟨rfl, standing⟩ quoting
    exact ⟨rfl, standing.state.congr rfl, standing.cursor⟩
  · rintro value _ s' m' ⟨rfl, standing⟩
    obtain ⟨m'', advanced, facing⟩ := standing.advance_pure value
    exact ⟨value, m'', advanced, rfl, facing⟩

/-- An expression with no operator at the top is an atom. -/
theorem atom_simple (h : Follows F page r limit) {clock : Nat} (hclock : clock ≤ limit + 2)
    {e : Expr F} (simple : e.isCompound = false)
    (facing : Facing page false stack s m (e.items ++ tail)) :
    Refines (Arrives page stack tail) (Expression.atom r m) (evaluate clock e s) := by
  cases e with
  | number n => exact atom_number (by simpa [Expr.items] using facing)
  | var x => exact atom_var (by simpa [Expr.items] using facing)
  | unary op e => cases simple
  | binary op left right => cases simple
  | call f args =>
    rw [Expr.items_call] at facing
    cases clock with
    | zero => exact .unfinished
    | succ clock => exact atom_call h (by omega) facing

/-- An operand is an atom: it is simple, or it stands in parentheses. -/
theorem atom_operand (h : Follows F page r limit) {clock : Nat} (hclock : clock ≤ limit + 2)
    (e : Expr F)
    (inner : ∀ {m}, Facing page false stack s m (e.items ++ .closeParen :: tail) →
      Refines (Arrives page stack (.closeParen :: tail)) (r.expression m) (evaluate clock e s))
    (facing : Facing page false stack s m (e.operand ++ tail)) :
    Refines (Arrives page stack tail) (Expression.atom r m) (evaluate clock e s) := by
  cases compound : e.isCompound with
  | true =>
    rw [Expr.operand_of_compound compound] at facing
    exact atom_group inner (by simpa using facing)
  | false =>
    rw [Expr.operand_of_simple compound] at facing
    exact atom_simple h hclock compound facing

/-! ### Operators -/

/-- An operand is evaluated at every level up to that of the operator behind it. -/
theorem upToLevel_operand (h : Follows F page r limit) {clock level : Nat} (hclock : clock ≤ limit)
    (e : Expr F) (ends : Ends level tail)
    (facing : Facing page false stack s m (e.operand ++ tail)) :
    Refines (Arrives page stack tail) (Expression.upToLevel r level m) (evaluate clock e s) := by
  have passes := h.passes
  refine upToLevel_of_le (by omega) (Nat.zero_le level) ends (atom_operand h (by omega) e ?_ facing)
  exact h.expression e hclock ⟨_, _, rfl, rfl⟩

/-- A prefix operator takes all of the rest of the expression. -/
theorem atom_unary (h : Follows F page r limit) {clock : Nat} (hclock : clock ≤ limit + 1)
    {op : Operator} {e : Expr F} (closing : Closing tail)
    (facing : Facing page false stack s m ((Expr.unary op e).items ++ tail)) :
    Refines (Arrives page stack tail) (Expression.atom r m) (evaluate clock (.unary op e) s) := by
  cases clock with
  | zero => exact .unfinished
  | succ clock =>
    rw [Expr.items_unary] at facing
    obtain ⟨i, symbol, token, symbolAt, tag⟩ := facing.operator
    refine atom_of_symbol token symbolAt ?_
    unfold Expression.symbolAtom
    rw [tag]
    obtain ⟨m₁, advanced, facing₁⟩ := facing.standing.advance
    refine Refines.step advanced (Refines.bind (h.operand e (by omega) closing facing₁) ?_)
    rintro value _ s₂ m₂ ⟨rfl, facing₂⟩
    refine Refines.imp (Refines.operate op 0 value facing₂.state.out) ?_
    rintro value value' s₃ m₃ ⟨same, rfl, rfl⟩
    exact ⟨same, facing₂⟩

/-- A binary operator is taken at its level, in one turn. -/
theorem upToLevel_binary (h : Follows F page r limit) {clock : Nat} (hclock : clock ≤ limit + 1)
    {op : Operator} {left right : Expr F} (closing : Closing tail)
    (facing : Facing page false stack s m ((Expr.binary op left right).items ++ tail)) :
    Refines (Arrives page stack tail) (Expression.upToLevel r op.level m)
      (evaluate clock (.binary op left right) s) := by
  cases clock with
  | zero => exact .unfinished
  | succ clock =>
    rw [Expr.items_binary, List.append_assoc, List.cons_append] at facing
    obtain ⟨level, hlevel⟩ : ∃ k, op.level = k + 1 := by cases op <;> exact ⟨_, rfl⟩
    have passes := h.passes
    obtain ⟨passes, hpasses⟩ : ∃ k, r.passes = k + 2 := ⟨r.passes - 2, by omega⟩
    -- to the left operand, the operator is one of a looser level
    have before : Ends level (.operator op :: (right.operand ++ tail)) :=
      .inr ⟨op, _, rfl, by omega⟩
    rw [hlevel, Expression.upToLevel_succ]
    refine Refines.bind (upToLevel_operand h (by omega) left before facing) ?_
    rintro x _ s₁ m₁ ⟨rfl, facing₁⟩
    rw [Reentry.loop, hpasses]
    have found := operatorOfLevel_of_operator facing₁ (level + 1)
    rw [if_pos hlevel] at found
    refine Refines.loop ?_
    rw [Expression.levelTurn, bind_assoc]
    refine Refines.step found ?_
    obtain ⟨m₂, advanced, facing₂⟩ := facing₁.standing.advance
    simp only [bind_assoc]
    refine Refines.step advanced ?_
    refine Refines.bind (upToLevel_operand h (by omega) right (.inl closing) facing₂) ?_
    rintro y _ s₃ m₃ ⟨rfl, facing₃⟩
    -- the next turn finds no operator
    refine Refines.andThen (Refines.operate op x y facing₃.state.out) ?_
    rintro value _ s₄ m₄ ⟨rfl, rfl, rfl⟩
    exact ⟨value, m₄, operators_loop_of_ends facing₃ (.inl closing), rfl, facing₃⟩

/-! ### Whole expressions -/

/-- Over what follows trees, an expression follows the tree one step further. -/
theorem wholeExpression_items (h : Follows F page r limit) {clock : Nat}
    (hclock : clock ≤ limit + 1) (e : Expr F) (closing : Closing tail)
    (facing : Facing page false stack s m (e.items ++ tail)) :
    Refines (Arrives page stack tail) (r.wholeExpression m) (evaluate clock e s) := by
  have passes := h.passes
  have ofAtom : Refines (Arrives page stack tail) (Expression.atom r m) (evaluate clock e s) →
      Refines (Arrives page stack tail) (r.wholeExpression m) (evaluate clock e s) :=
    upToLevel_of_le (by omega) (Nat.zero_le _) (.inl closing)
  cases compound : e.isCompound with
  | false => exact ofAtom (atom_simple h (by omega) compound facing)
  | true =>
    cases e with
    | unary op e => exact ofAtom (atom_unary h hclock closing facing)
    | binary op left right =>
      have level : op.level ≤ Operator.maxLevel := by cases op <;> decide
      exact upToLevel_of_le (by omega) level (.inl closing)
        (upToLevel_binary h hclock closing facing)
    | number n => cases compound
    | var x => cases compound
    | call f args => cases compound

/-- An operand that makes up an expression follows the tree as far as what it is evaluated over. -/
theorem wholeExpression_operand (h : Follows F page r limit) {clock : Nat}
    (hclock : clock ≤ limit + 2) (e : Expr F)
    (inner : ∀ {m}, Facing page false stack s m (e.items ++ .closeParen :: tail) →
      Refines (Arrives page stack (.closeParen :: tail)) (r.expression m) (evaluate clock e s))
    (closing : Closing tail) (facing : Facing page false stack s m (e.operand ++ tail)) :
    Refines (Arrives page stack tail) (r.wholeExpression m) (evaluate clock e s) := by
  have passes := h.passes
  exact upToLevel_of_le (by omega) (Nat.zero_le _) (.inl closing)
    (atom_operand h hclock e inner facing)

end Scriptlet.Tree
