import Scriptlet.Proofs.Tree.Refines

/-!
Calls follow the tree. A way of evaluating follows trees up to a clock if its expressions and its
nested bodies refine the walks on that clock. What stands in parentheses after a callee is then
evaluated and stacked as the walk evaluates the arguments, and running the callee refines the walk
over its body.
-/

namespace Scriptlet.Tree

open Text (Bytes)
open Eval

variable {F : Name → Bool} {page : Page} {stack : Array Word} {s : State F} {m : Machine}

/-! ### What follows trees -/

/-- Whether an item ends an expression that stands before it. -/
def Item.closes : Item → Bool
  | .newline | .comma | .closeParen | .block _ => true
  | _ => false

def Closing (items : List Item) : Prop := ∃ item rest, items = item :: rest ∧ item.closes = true

/-- The value is that of the walk, and the machine faces what stands behind. -/
def Arrives {α : Type} (page : Page) (stack : Array Word) (tail : List Item) (value value' : α)
    (s : State F) (m : Machine) : Prop :=
  value = value' ∧ Facing page false stack s m tail

/-- The machine matches the state and reads on where another one does. -/
structure Resting (page : Page) (stack : Array Word) (m₀ : Machine) (s : State F) (m : Machine) :
    Prop where
  state : Matches page stack s m
  cursor : m.cursor = m₀.cursor
  token : m.token = m₀.token

/-- A way of evaluating that follows trees on the page, up to a clock. -/
structure Follows (F : Name → Bool) (page : Page) (r : Reentry) (limit : Nat) : Prop where
  passes : 2 * limit + 2 ≤ r.passes
  expression : ∀ {clock stack s m} {tail : List Item} (e : Expr F), clock ≤ limit → Closing tail →
    Facing page false stack s m (e.items ++ tail) →
    Refines (Arrives page stack tail) (r.expression m) (evaluate clock e s)
  operand : ∀ {clock stack s m} {tail : List Item} (e : Expr F), clock ≤ limit → Closing tail →
    Facing page false stack s m (e.operand ++ tail) →
    Refines (Arrives page stack tail) (r.expression m) (evaluate clock e s)
  body : ∀ {clock stack s m slice} (body : List (Stmt F)), clock ≤ limit →
    page.Shows slice (bytesOf (.newline :: lines body)) → Matches page stack s m →
    Refines (fun _ _ => Resting page stack m) (r.body slice false false m)
      (Walk.inScope (executeAll clock body) s)
  grows : Keeps Grows r.expression
  growsBody : ∀ body topLevel duplicate, Keeps Grows (r.body body topLevel duplicate)

/-! ### How expressions start -/

def Item.Starts : Item → Prop
  | .number _ | .openParen | .operator _ => True
  | .word w => ∃ x : Name, w = x.toSpelled
  | _ => False

theorem items_of_simple {e : Expr F} (h : e.isCompound = false) :
    ∃ item rest, e.items = item :: rest ∧ item.Starts := by
  cases e with
  | number n => exact ⟨_, _, rfl, trivial⟩
  | var x => exact ⟨_, _, rfl, x.val, rfl⟩
  | unary op e => cases h
  | binary op l r => cases h
  | call f args => exact ⟨_, _, Expr.items_call f args, f.val, rfl⟩

theorem operand_eq_cons (e : Expr F) : ∃ item rest, e.operand = item :: rest ∧ item.Starts := by
  cases h : e.isCompound with
  | true => exact ⟨_, _, Expr.operand_of_compound h, trivial⟩
  | false =>
    rw [Expr.operand_of_simple h]
    exact items_of_simple h

theorem items_eq_cons (e : Expr F) : ∃ item rest, e.items = item :: rest ∧ item.Starts := by
  cases e with
  | unary op e => exact ⟨_, _, Expr.items_unary op e, trivial⟩
  | binary op l r =>
    obtain ⟨item, rest, hl, starts⟩ := operand_eq_cons l
    refine ⟨item, rest ++ .operator op :: r.operand, ?_, starts⟩
    rw [Expr.items_binary, hl, List.cons_append]
  | number n => exact items_of_simple rfl
  | var x => exact items_of_simple rfl
  | call f args => exact items_of_simple rfl

/-- The symbol of a name that is found is that of a variable or of a function. -/
theorem Matches.tag_of_index? (h : Matches page stack s m) {x : Name} {i : Nat}
    (found : m.index? x.bytes = some i) :
    ∃ symbol, m.arena.symbols[i]? = some symbol ∧
      (symbol.tag = .var ∨ ∃ arity, symbol.tag = .func arity) := by
  cases hx : s.newest? x with
  | none =>
    rw [h.index?_unbound hx] at found
    cases found
  | some b =>
    obtain ⟨same, newer, older, hs, hnewer, -⟩ := boundAt_of_newest? hx
    obtain ⟨symbol, index, symbolAt, represents⟩ := h.index?_bound hs (same ▸ hnewer)
    rw [same, found] at index
    cases index
    refine ⟨symbol, symbolAt, ?_⟩
    cases b with
    | var y value => exact .inl represents.2.1
    | func g params body => exact .inr ⟨_, represents.2.1⟩

theorem Facing.starts_of_item {item : Item} {rest : List Item} (starts : item.Starts)
    (h : Facing page false stack s m (item :: rest)) : Eval.startsExpression m = .done true m := by
  unfold Eval.startsExpression
  rw [token_bind]
  cases item with
  | number n =>
    rw [show m.token = _ from h.ahead]
    rfl
  | openParen =>
    rw [show m.token = _ from h.ahead]
    rfl
  | operator op =>
    obtain ⟨i, symbol, token, symbolAt, tag⟩ := h.operator
    rw [token]
    dsimp only
    rw [bind_of_done (symbolAt_of_some symbolAt), tag]
    rfl
  | word w =>
    obtain ⟨x, rfl⟩ := starts
    cases found : m.index? (Text.encode x.text) with
    | none =>
      have ahead := h.ahead
      simp only [ReadAhead, Item.ReadAs, found] at ahead
      obtain ⟨slice, token, -⟩ := ahead
      rw [token]
      rfl
    | some i =>
      obtain ⟨symbol, symbolAt, tag⟩ := h.state.tag_of_index? found
      rw [h.token_of_index? found]
      dsimp only
      rw [bind_of_done (symbolAt_of_some symbolAt)]
      rcases tag with tag | ⟨arity, tag⟩ <;> rw [tag] <;> rfl
  | newline => exact starts.elim
  | comma => exact starts.elim
  | closeParen => exact starts.elim
  | block inside => exact starts.elim

theorem Facing.startsExpression {e : Expr F} {tail : List Item}
    (h : Facing page false stack s m (e.items ++ tail)) :
    Eval.startsExpression m = .done true m := by
  obtain ⟨item, rest, hitems, starts⟩ := items_eq_cons e
  rw [hitems, List.cons_append] at h
  exact h.starts_of_item starts

/-- The token that an expression starts with is no closing parenthesis. -/
theorem ne_closeParen_of_startsExpression (h : startsExpression m = .done true m) :
    m.token ≠ .closeParen := by
  intro token
  unfold Eval.startsExpression at h
  rw [token_bind, token] at h
  cases h

/-! ### Arguments -/

/-- The values are stacked and counted, and the machine is at the closing parenthesis. -/
structure Stacked (page : Page) (stack : Array Word) (count : Nat) (tail : List Item) (total : Nat)
    (values : List Word) (s : State F) (m : Machine) : Prop where
  total : total = count + values.length
  token : m.token = .closeParen
  standing : Standing page (stack ++ values.toArray) s m tail

theorem closing_further (rest : List (Expr F)) (tail : List Item) :
    Closing (furtherArguments rest ++ .closeParen :: tail) := by
  cases rest with
  | nil => exact ⟨_, _, rfl, rfl⟩
  | cons e rest => exact ⟨_, _, rfl, rfl⟩

/-- A value that is pushed is on top of the stack, unless there is no room. -/
theorem Refines.push {γ δ : Type} {R : γ → δ → State F → Machine → Prop} {w : Result F δ}
    {f : Unit → Eval γ} (value : Word) (state : Matches page stack s m)
    (next : ∀ {m'}, m'.token = m.token → m'.cursor = m.cursor →
      Matches page (stack.push value) s m' → Refines R (f () m') w) :
    Refines R ((Eval.push value >>= f) m) w := by
  refine Refines.allocate fun {a arena} granted => ?_
  obtain ⟨arena', pushed, hpair⟩ := Option.map_eq_some_iff.mp granted
  cases hpair
  obtain ⟨-, rfl⟩ := Arena.push_eq_some pushed
  have pushed := state.withStack (stack.push value)
  rw [← state.stack] at pushed
  exact next rfl rfl (state.stack ▸ pushed)

section

variable {r : Reentry} {limit : Nat} (h : Follows F page r limit)

include h

/-- The loop over arguments stacks what the walk evaluates. -/
theorem arguments_loop {clock passes count : Nat} {e : Expr F} {rest : List (Expr F)}
    {tail : List Item} (hclock : clock ≤ limit) (hpasses : clock ≤ passes)
    (facing : Facing page false stack s m
      (e.items ++ (furtherArguments rest ++ .closeParen :: tail))) :
    Refines (Stacked page stack count tail) (Eval.loop (Call.parensTurn r) passes count m)
      (evaluateAll clock (e :: rest) s) := by
  -- every turn takes one from the clock and adds one word to the stack
  induction clock generalizing passes count e rest stack s m with
  | zero => exact .unfinished
  | succ clock ih =>
    obtain ⟨passes, rfl⟩ : ∃ k, passes = k + 1 := ⟨passes - 1, by omega⟩
    refine Refines.loop ?_
    rw [Call.parensTurn, Call.argument, Call.behindArgument]
    simp only [bind_assoc]
    refine Refines.bind (h.expression e (by omega) (closing_further rest tail) facing) ?_
    rintro value _ s₁ m₁ ⟨rfl, facing₁⟩
    refine Refines.push value facing₁.state fun {m₂} token cursor state => ?_
    cases rest with
    | nil =>
      have close : m₂.token = .closeParen := token.trans facing₁.ahead
      refine Refines.token close ?_
      cases clock with
      | zero => exact .unfinished
      | succ clock =>
        refine .done ⟨rfl, close, ?_, cursor ▸ facing₁.cursor⟩
        simpa using state
    | cons e' rest =>
      have comma : m₂.token = .comma := token.trans facing₁.ahead
      refine Refines.token comma ?_
      have standing : Standing page (stack.push value) s₁ m₂
          (e'.items ++ (furtherArguments rest ++ .closeParen :: tail)) := by
        refine ⟨state, cursor ▸ ?_⟩
        simpa [furtherArguments] using facing₁.cursor
      obtain ⟨m₃, advanced, facing₃⟩ := standing.advance
      simp only [bind_assoc]
      refine Refines.step advanced ?_
      have others : Refines (Stacked page (stack.push value) (count + 1) tail) _ _ :=
        ih (by omega) (Nat.le_of_succ_le_succ hpasses) facing₃
      refine Refines.map_walk others fun stacked => ⟨?_, stacked.token, ?_⟩
      · rw [stacked.total, List.length_cons]
        omega
      · have standing := stacked.standing
        simpa using standing

/-- Arguments in parentheses are stacked as the walk evaluates them. -/
theorem arguments_inParens {clock : Nat} {args : List (Expr F)} {tail : List Item}
    (hclock : clock ≤ limit)
    (standing : Standing page stack s m (argumentItems args ++ .closeParen :: tail)) :
    Refines (Stacked page stack 0 tail) (Call.argumentsInParens r m) (evaluateAll clock args s) := by
  rw [Call.argumentsInParens]
  obtain ⟨m₁, advanced, facing⟩ := standing.advance
  refine Refines.step advanced ?_
  cases args with
  | nil =>
    have close : m₁.token = .closeParen := facing.ahead
    refine Refines.token close ?_
    cases clock with
    | zero => exact .unfinished
    | succ clock =>
      have standing : Standing page stack s m₁ tail := facing.standing
      exact .done ⟨rfl, close, by simpa using standing⟩
  | cons e rest =>
    have facing' : Facing page false stack s m₁
        (e.items ++ (furtherArguments rest ++ .closeParen :: tail)) := by
      simpa [argumentItems] using facing
    have notClose := ne_closeParen_of_startsExpression facing'.startsExpression
    refine Refines.token rfl ?_
    rw [if_neg notClose]
    have passes := h.passes
    exact arguments_loop h hclock (by omega) facing'

omit h in
theorem popOnto_stacked (values words : List Word)
    (state : Matches page (stack ++ values.toArray) s m) :
    ∃ m', popOnto words values.length m = .done (values ++ words) m' ∧ Resting page stack m s m' ∧
      Grows m m' := by
  induction values using List.reverseRecOn generalizing words m with
  | nil => exact ⟨m, rfl, ⟨by simpa using state, rfl, rfl⟩, grows_track.refl m⟩
  | append_singleton values value ih =>
    -- the value that was stacked last comes off first, and goes before the words taken so far
    have top : m.arena.stack = (stack ++ values.toArray).push value := by
      rw [state.stack]
      simp
    have popped : m.arena.pop = (value, { m.arena with stack := stack ++ values.toArray }) := by
      unfold Arena.pop
      rw [top]
      simp
    have first : Grows m (m.withArena { m.arena with stack := stack ++ values.toArray }) :=
      Memory.Grows.of_eq rfl rfl rfl rfl
    obtain ⟨m', run, resting, grown⟩ :=
      ih (value :: words) (state.withStack (stack ++ values.toArray))
    refine ⟨m', ?_, ⟨resting.state, resting.cursor, resting.token⟩, grows_track.trans first grown⟩
    rw [List.length_append, List.length_singleton, popOnto, bind_apply]
    unfold Eval.pop
    rw [popped, List.append_assoc]
    exact run

/-! ### The callee -/

omit h in
theorem bindParameters_refines {params : List (Variable F)} {slices : List Slice}
    (shown : List.Forall₂ (fun x slice => page.Shows slice x.val.bytes) params slices)
    (values : List Word) {m₀ : Machine} (resting : Resting page stack m₀ s m) :
    Refines (fun _ _ => Resting page stack m₀) (Call.bindParameters (slices.zip values) m)
      (Walk.bindAll (params.zip values) s) := by
  induction shown generalizing values s m with
  | nil => exact .done resting
  | @cons x slice params slices first rest ih =>
    cases values with
    | nil => exact .done resting
    | cons value values =>
      refine Refines.allocate fun {index arena} granted => ?_
      have binding : Represents page m.arena.routines (.var x value) ⟨slice, .var, value⟩ :=
        ⟨first, rfl, rfl⟩
      obtain ⟨-, state⟩ := resting.state.addSymbol granted binding
      exact ih values ⟨state, resting.cursor, resting.token⟩

/-- Calling a function by its number refines the walk over its body. -/
theorem runFunction_refines {clock : Nat} (hclock : clock ≤ limit) {f : Function F}
    {params : List (Variable F)} {body : List (Stmt F)} {symbol : Symbol Native}
    (represents : Represents page m.arena.routines (.func f params body) symbol)
    (values : List Word) (state : Matches page stack s m) :
    Refines (fun value value' s' m' => value = value' ∧ Resting page stack m s' m')
      (Call.runFunction r symbol.value values m)
      (Walk.inFrame (do
        Walk.bindAll (params.zip values)
        Walk.update (·.withResult 0)
        Walk.block (executeAll clock body)
        Walk.read (·.result)) s) := by
  obtain ⟨-, -, routine, found, shown, shownBody⟩ := represents
  refine Refines.step (congrArg (Outcome.done · m.note) found) ?_
  refine Refines.adjust (R := fun value value' s' m' => value = value' ∧
    Resting page stack m s' m') ?_ (fun _ => rfl) ?_
  · refine Refines.bind (bindParameters_refines shown values ⟨state.congr rfl, rfl, rfl⟩) ?_
    intro _ _ s₁ m₁ resting
    refine Refines.bind (R := fun _ _ => Resting page stack m)
      (.done ⟨resting.state.withResult 0, resting.cursor, resting.token⟩) ?_
    intro _ _ s₂ m₂ resting
    refine Refines.bind (Refines.map_walk (f := fun _ => ()) (Q := fun _ _ => Resting page stack m₂)
      (h.body body hclock shownBody resting.state) fun left => left) ?_
    intro _ _ s₃ m₃ left
    have back : Resting page stack m s₃ m₃ :=
      ⟨left.state, left.cursor.trans resting.cursor, left.token.trans resting.token⟩
    exact .done ⟨left.state.result, back⟩
  · -- the frame is left with the table and the result of before
    rintro value _ s₁ m₁ ⟨rfl, resting⟩
    have left := (resting.state.rollback s.bindings.length).withResult m.result
    rw [← state.size_symbols] at left
    refine ⟨rfl, ?_, resting.cursor, resting.token⟩
    rw [← state.result]
    exact left

/-- A callee is handed the stacked arguments, if they are as many as its parameters. -/
theorem handOver_refines {clock : Nat} (hclock : clock ≤ limit) {f : Function F}
    {params : List (Variable F)} {body : List (Stmt F)} {symbol : Symbol Native}
    (represents : Represents page m.arena.routines (.func f params body) symbol)
    {values : List Word} (state : Matches page (stack ++ values.toArray) s m) :
    Refines (fun value value' s' m' => value = value' ∧ Resting page stack m s' m')
      (Call.handOver r symbol values.length 0 m)
      (Walk.apply params (executeAll clock body) values s) := by
  obtain ⟨m₁, popped, resting, grown⟩ := popOnto_stacked values [] state
  rw [List.append_nil] at popped
  refine Refines.adjust_machine (R := fun value value' s' m' => value = value' ∧
    Resting page stack m s' m') ?_ (fun _ => rfl) ?_
  · refine Refines.step popped ?_
    have tag : symbol.tag = .func params.length := represents.2.1
    rw [Walk.apply]
    by_cases fits : values.length = params.length
    · rw [Call.runCallee_of_func 0 tag fits, if_neg (not_not.mpr fits)]
      refine Refines.imp (runFunction_refines h hclock (represents.mono grown.routines) values
        resting.state) ?_
      rintro value value' s' m' ⟨same, left⟩
      exact ⟨same, left.state, left.cursor.trans resting.cursor, left.token.trans resting.token⟩
    · rw [Call.runCallee_of_misfit 0 (by rw [tag]; exact fits), if_pos fits]
      exact .failed rfl resting.state.out
  · rintro value value' s' m' ⟨same, resting⟩
    refine ⟨same, resting.state.congr ?_, resting.cursor, resting.token⟩
    simp only [contents, resting.state.literals]
    rfl

/-! ### Calls -/

/-- A call that stands in an expression refines the walk over it. -/
theorem inExpression_refines {clock : Nat} (hclock : clock ≤ limit) {f : Function F}
    {params : List (Variable F)} {body : List (Stmt F)} {symbol : Symbol Native}
    (hf : s.function? f = some (params, body))
    (represents : Represents page m.arena.routines (.func f params body) symbol)
    {args : List (Expr F)} {tail : List Item}
    (standing : Standing page stack s m (.openParen :: argumentItems args ++ .closeParen :: tail)) :
    Refines (Arrives page stack tail) (Call.inExpression r symbol m)
      (invoke (clock + 1) f args s) := by
  have evaluated : Refines (fun total values s' m' => Stacked page stack 0 tail total values s' m' ∧
      Grows m m') ((unwinding (withQuoting .argument (Call.argumentsAfterCallee r))) m)
      (evaluateAll clock args s) := by
    have loose := expanding_grows.loose h.grows h.growsBody
    refine Refines.and_keeps ?_ (loose.unwinding (loose.withQuoting _
      loose.arguments.argumentsAfterCallee))
    refine Refines.unwinding (Refines.withQuoting (R := Stacked page stack 0 tail) ?_ ?_)
    · have standing : Standing page stack s { m with quoting := .argument } _ :=
        ⟨standing.state.congr rfl, standing.cursor⟩
      obtain ⟨m₁, advanced, facing⟩ := standing.advance
      refine Refines.step advanced (Refines.token facing.ahead ?_)
      exact arguments_inParens h hclock facing.standing
    · intro total values s' m' stacked quoting
      exact ⟨stacked.total, stacked.token, stacked.standing.state.congr rfl, stacked.standing.cursor⟩
  rw [Call.inExpression_apply, standing.state.literals, invoke]
  refine Refines.step_walk (Walk.known_of_some hf) (Refines.bind evaluated ?_)
  rintro total values s₁ m₁ ⟨⟨rfl, token, standing₁⟩, grown⟩
  rw [Nat.zero_add]
  -- the callee was looked up before its arguments were evaluated, and its routine is still there
  have handed := handOver_refines h hclock (represents.mono grown.routines) standing₁.state
  refine Refines.andThen handed ?_
  rintro value _ s₂ m₂ ⟨rfl, resting⟩
  have standing₂ : Standing page stack s₂ m₂ tail :=
    ⟨resting.state, resting.cursor ▸ standing₁.cursor⟩
  obtain ⟨m₃, advanced, facing⟩ := standing₂.advance_pure value
  exact ⟨value, m₃, advanced, rfl, facing⟩

end

end Scriptlet.Tree
