import Scriptlet.Proofs.Tree.Expression

/-!
Statements follow the tree. Every statement is followed by the end of its line, and that is what a
machine faces when it is done with one; the exception is a return, which ends the body at once.

A loop reads its condition and its bodies anew in every turn, from the place where the first turn
started. The states of the walk change from turn to turn, the page does not.
-/

namespace Scriptlet.Tree

open Eval

variable {F : Name → Bool} {page : Page} {stack : Array Word} {s : State F} {m : Machine}
  {rest : List Item} {r : Reentry} {limit : Nat}

/-! ### Declarations and assignments -/

/-- What is on the page need not be copied. -/
theorem keep_of_shows {slice : Slice} {bytes : Text.Bytes} (shown : page.Shows slice bytes)
    (state : Matches page stack s m) : keep slice m = .done slice m := by
  obtain ⟨before, after, -, rfl⟩ := shown
  unfold Eval.keep
  simp [state.duplicate]

/-- A name that is defined is taken from the page. -/
theorem definedName_of_facing {x : Name} (facing : Facing page true stack s m (.name x :: rest)) :
    ∃ slice, Statement.definedName m = .done slice m ∧ page.Shows slice x.bytes := by
  obtain ⟨slice, token, shown⟩ := facing.raw
  refine ⟨slice, ?_, shown⟩
  rw [Statement.definedName, token_bind, token]
  exact keep_of_shows shown facing.state

/-- An assignment stores the value at the newest binding of the variable. Evaluating the expression
does not move it. -/
theorem assign_refines (h : Follows F page r limit) {clock : Nat} (hclock : clock ≤ limit)
    {x : Variable F} {e : Expr F} {depth : Nat} (bound : s.BoundAt x.val depth)
    (facing : Facing page false stack s m (.operator .equal :: e.items ++ .newline :: rest)) :
    Refines (Arrives page stack (.newline :: rest))
      ((do Statement.assign r (vocabularySymbols.length + depth); return Ending.ranOut) m)
      ((do
        let value ← evaluate clock e
        Walk.update (·.assign x value)
        return Ending.ranOut : Walk F Ending) s) := by
  obtain ⟨i, symbol, token, symbolAt, tag⟩ := facing.operator
  obtain ⟨m₁, advanced, facing₁⟩ := facing.standing.advance
  unfold Statement.assign
  simp only [bind_assoc]
  refine Refines.step (tokenTag?_of_symbol token symbolAt) ?_
  rw [tag]
  simp only [bind_assoc]
  refine Refines.step advanced ?_
  refine Refines.bind (Refines.and_walked (h.expression e hclock ⟨_, _, rfl, rfl⟩ facing₁)) ?_
  rintro value _ s₂ m₂ ⟨⟨rfl, facing₂⟩, walked⟩
  -- the variable is where it was, whatever the expression has called
  have names : s₂.names = s.names := (steady clock).evaluate e walked
  have bound₂ : s₂.BoundAt x.val depth := by
    unfold State.BoundAt
    rw [names]
    exact bound
  exact .done ⟨rfl, facing₂.state.setValue bound₂ value, facing₂.ahead, facing₂.cursor⟩

theorem declareVariable_refines (h : Follows F page r limit) {clock : Nat} (hclock : clock ≤ limit + 1)
    {x : Variable F} {e : Expr F}
    (standing : Standing page stack s m
      (.name x.val :: .operator .equal :: e.items ++ .newline :: rest)) :
    Refines (Arrives page stack (.newline :: rest))
      ((do Statement.declareVariable r; return Ending.ranOut) m) (execute clock (.declare x e) s) := by
  cases clock with
  | zero => exact .unfinished
  | succ clock =>
    obtain ⟨m₁, advanced, facing₁⟩ := standing.advanceRaw
    obtain ⟨slice, named, shown⟩ := definedName_of_facing facing₁
    unfold Statement.declareVariable
    simp only [bind_assoc]
    refine Refines.step advanced (Refines.step named (Refines.allocate fun {index arena} granted => ?_))
    have binding : Represents page m₁.arena.routines (.var x 0) ⟨slice, .var, 0⟩ := ⟨shown, rfl, rfl⟩
    obtain ⟨rfl, state⟩ := facing₁.state.addSymbol granted binding
    have standing₂ : Standing page stack (s.bind (.var x 0)) (m₁.withArena arena) _ :=
      ⟨state, facing₁.cursor⟩
    obtain ⟨m₃, advanced₃, facing₃⟩ := standing₂.advance
    refine Refines.step advanced₃ ?_
    -- the new variable is bound while its value is computed
    have bound : (s.bind (.var x 0)).BoundAt x.val s.bindings.length :=
      ⟨[], s.names, rfl, by simp [State.names], by simp⟩
    exact Refines.step_walk rfl (assign_refines h (by omega) bound facing₃)

theorem reassign_refines (h : Follows F page r limit) {clock : Nat} (hclock : clock ≤ limit + 1)
    {x : Variable F} {e : Expr F}
    (facing : Facing page false stack s m
      (.name x.val :: .operator .equal :: e.items ++ .newline :: rest)) :
    Refines (Arrives page stack (.newline :: rest)) (Statement.statement r m)
      (execute clock (.assign x e) s) := by
  cases clock with
  | zero => exact .unfinished
  | succ clock =>
    cases hx : s.value? x with
    | none =>
      obtain ⟨slice, token⟩ := facing.unbound (newest?_eq_none_of_value? hx)
      have failed : execute (clock + 1) (.assign x e) s = .failed .unknownSymbol s := by
        rw [execute]
        show (Walk.known _ s).andThen _ = _
        rw [Walk.known_of_none hx]
        rfl
      rw [failed]
      exact Refines.token token (.failed rfl facing.state.out)
    | some value =>
      obtain ⟨depth, symbol, bound, token, symbolAt, tag, -⟩ := facing.variable_ hx
      refine Refines.step_walk (Walk.known_of_some hx) ?_
      refine Refines.token token (Refines.symbolAt symbolAt ?_)
      rw [tag]
      obtain ⟨m₁, advanced, facing₁⟩ := facing.standing.advance
      unfold Statement.reassign
      simp only [bind_assoc]
      exact Refines.step advanced (assign_refines h (by omega) bound facing₁)

/-! ### Branches and loops -/

theorem takeBody_of_facing {inside tail : List Item}
    (facing : Facing page false stack s m (.block inside :: tail)) :
    ∃ slice m', Statement.takeBody m = .done slice m' ∧ page.Shows slice (bytesOf inside) ∧
      Facing page false stack s m' tail := by
  obtain ⟨slice, token, shown⟩ := facing.block
  obtain ⟨m', advanced, facing'⟩ := facing.standing.advance_pure slice
  refine ⟨slice, m', ?_, shown, facing'⟩
  rw [Statement.takeBody, token_bind, token]
  exact advanced

theorem takeAlternative_of_facing {alternative : Option (List (Stmt F))}
    (facing : Facing page false stack s m (alternativeItems alternative ++ .newline :: rest)) :
    ∃ slice? m', Statement.takeAlternative m = .done slice? m' ∧
      Option.Rel (fun body slice => page.Shows slice (bytesOf (.newline :: lines body)))
        alternative slice? ∧
      Facing page false stack s m' (.newline :: rest) := by
  unfold Statement.takeAlternative
  cases alternative with
  | none =>
    have other := facing.ne_symbol ⟨.newline, rest, by simp [alternativeItems], rfl⟩
    refine ⟨none, m, ?_, .none, by simpa [alternativeItems] using facing⟩
    rw [bind_apply, tokenTag?_of_other other]
    rfl
  | some body =>
    rw [alternativeItems] at facing
    obtain ⟨i, symbol, token, symbolAt, tag⟩ := facing.keyword
    obtain ⟨m₁, advanced, facing₁⟩ := facing.standing.advance
    obtain ⟨slice, m₂, taken, shown, facing₂⟩ := takeBody_of_facing facing₁
    refine ⟨some slice, m₂, ?_, .some shown, facing₂⟩
    rw [bind_apply, tokenTag?_of_symbol token symbolAt, tag]
    show (advance m).andThen _ = _
    rw [advanced]
    show (Statement.takeBody m₁).andThen _ = _
    rw [taken]
    rfl

theorem nestedBody_refines (h : Follows F page r limit) {clock : Nat} (hclock : clock ≤ limit)
    {body : List (Stmt F)} {slice : Slice} (shown : page.Shows slice (bytesOf (.newline :: lines body)))
    (facing : Facing page false stack s m (.newline :: rest)) :
    Refines (Arrives page stack (.newline :: rest)) (Statement.nestedBody r slice m)
      (Walk.block (executeAll clock body) s) := by
  have noted : Matches page stack s m.note := facing.state.congr rfl
  refine Refines.bind (h.body body hclock shown noted) ?_
  intro _ _ s' m' resting
  exact .done ⟨rfl, resting.state, resting.token.trans facing.ahead, resting.cursor ▸ facing.cursor⟩

def branchItems (e : Expr F) (body : List (Stmt F)) (alternative : Option (List (Stmt F))) :
    List Item :=
  e.items ++ .block (.newline :: lines body) :: alternativeItems alternative

/-- A branch chooses as the walk does. -/
theorem branch_refines (h : Follows F page r limit) {clock : Nat} (hclock : clock ≤ limit)
    {e : Expr F} {body : List (Stmt F)} {alternative : Option (List (Stmt F))}
    (standing : Standing page stack s m (branchItems e body alternative ++ .newline :: rest)) :
    Refines (Arrives page stack (.newline :: rest)) (Statement.branch r m)
      (Walk.choose (evaluate clock e) (Walk.block (executeAll clock body))
        (Walk.otherwise (executeAll clock) alternative) s) := by
  obtain ⟨m₁, advanced, facing₁⟩ := standing.advance
  rw [branchItems, List.append_assoc] at facing₁
  refine Refines.step advanced ?_
  refine Refines.bind (h.expression e hclock ⟨_, _, rfl, rfl⟩ facing₁) ?_
  rintro value _ s₂ m₂ ⟨rfl, facing₂⟩
  obtain ⟨slice, m₃, taken, shown, facing₃⟩ := takeBody_of_facing facing₂
  obtain ⟨slice?, m₄, taken₄, shown?, facing₄⟩ := takeAlternative_of_facing facing₃
  refine Refines.step taken (Refines.step taken₄ ?_)
  by_cases holds : value ≠ 0
  · rw [if_pos holds, if_pos holds]
    refine Refines.bind (nestedBody_refines h hclock shown facing₄) ?_
    rintro _ _ s₅ m₅ ⟨-, facing₅⟩
    exact .done ⟨rfl, facing₅⟩
  · rw [if_neg holds, if_neg holds]
    cases shown? with
    | none => exact .done ⟨rfl, facing₄⟩
    | some shown =>
      refine Refines.bind (nestedBody_refines h hclock shown facing₄) ?_
      rintro _ _ s₅ m₅ ⟨-, facing₅⟩
      exact .done ⟨rfl, facing₅⟩

/-- Every turn of a loop starts before the condition, on the clock that the turns before have
left. -/
theorem repeat_refines (h : Follows F page r limit) {clock passes : Nat} (hclock : clock ≤ limit + 1)
    (hpasses : clock ≤ passes) {e : Expr F} {body : List (Stmt F)}
    {alternative : Option (List (Stmt F))}
    (standing : Standing page stack s m (branchItems e body alternative ++ .newline :: rest)) :
    Refines (fun _ => Arrives page stack (.newline :: rest) Ending.ranOut)
      (Eval.loop (Statement.branchTurn r m.cursor) passes () m)
      (execute clock (.loop e body alternative) s) := by
  -- the cursor of the first turn is where every turn starts
  have start : page.OpenAt m.cursor _ := standing.cursor
  generalize m.cursor = cursor at start ⊢
  induction clock generalizing passes s m with
  | zero => exact .unfinished
  | succ clock ih =>
    obtain ⟨passes, rfl⟩ : ∃ k, passes = k + 1 := ⟨passes - 1, by omega⟩
    refine Refines.loop ?_
    unfold Statement.branchTurn
    rw [bind_assoc]
    refine Refines.bind (branch_refines h (by omega) standing) ?_
    rintro held _ s₁ m₁ ⟨rfl, facing⟩
    cases held with
    | false => exact .done ⟨rfl, facing⟩
    | true =>
      -- the body may have changed the state, but the condition is read from the same page
      have again : Standing page stack s₁ { m₁ with cursor } _ := ⟨facing.state.congr rfl, start⟩
      exact ih (by omega) (by omega) again

theorem repeatBranch_refines (h : Follows F page r limit) {clock : Nat} (hclock : clock ≤ limit + 1)
    {e : Expr F} {body : List (Stmt F)} {alternative : Option (List (Stmt F))}
    (standing : Standing page stack s m (branchItems e body alternative ++ .newline :: rest)) :
    Refines (fun _ => Arrives page stack (.newline :: rest) Ending.ranOut)
      (Statement.repeatBranch r m) (execute clock (.loop e body alternative) s) := by
  have passes := h.passes
  exact repeat_refines h hclock (by omega) standing

/-! ### Functions -/

theorem parameters_of_facing {tail : List Item} (params : List (Variable F)) {room : Nat}
    (few : params.length ≤ room)
    (facing : Facing page true stack s m (parameterItems params ++ .closeParen :: tail)) :
    ∃ slices m', Statement.parameters room m = .done slices m' ∧
      List.Forall₂ (fun x slice => page.Shows slice x.val.bytes) params slices ∧
      Standing page stack s m' tail := by
  induction params generalizing room m with
  | nil =>
    have close : m.token = .closeParen := facing.ahead
    refine ⟨[], m, ?_, .nil, facing.standing⟩
    cases room with
    | zero =>
      rw [Statement.parameters, token_bind, close]
      rfl
    | succ room =>
      rw [Statement.parameters, token_bind, if_pos close]
      rfl
  | cons x params ih =>
    obtain ⟨room, rfl⟩ : ∃ k, room = k + 1 := ⟨room - 1, by simp at few; omega⟩
    rw [parameterItems, List.cons_append] at facing
    obtain ⟨slice, named, shown⟩ := definedName_of_facing facing
    obtain ⟨_, written, -⟩ := facing.raw
    have other : m.token ≠ .closeParen := by simp [written]
    obtain ⟨m₁, advanced, facing₁⟩ := facing.standing.advanceRaw
    -- the closing parenthesis comes next, or a comma and another parameter
    cases params with
    | nil =>
      have close : m₁.token = .closeParen := facing₁.ahead
      obtain ⟨slices, m₂, taken, shown₂, standing⟩ := ih (by simp) facing₁
      refine ⟨slice :: slices, m₂, ?_, .cons shown shown₂, standing⟩
      rw [Statement.parameters, token_bind, if_neg other, bind_apply, named]
      show (advanceRaw m).andThen _ = _
      rw [advanced]
      show (token >>= _ : Eval (List Slice)) m₁ = _
      rw [token_bind, close]
      show (Statement.parameters room m₁).andThen _ = _
      rw [taken]
      rfl
    | cons y params =>
      have comma : m₁.token = .comma := facing₁.ahead
      obtain ⟨m₂, advanced₂, facing₂⟩ := facing₁.standing.advanceRaw
      obtain ⟨slices, m₃, taken, shown₃, standing⟩ := ih (by simpa using few) facing₂
      refine ⟨slice :: slices, m₃, ?_, .cons shown shown₃, standing⟩
      rw [Statement.parameters, token_bind, if_neg other, bind_apply, named]
      show (advanceRaw m).andThen _ = _
      rw [advanced]
      show (token >>= _ : Eval (List Slice)) m₁ = _
      rw [token_bind, comma]
      show (advanceRaw m₁).andThen _ = _
      rw [advanced₂]
      show (Statement.parameters room m₂).andThen _ = _
      rw [taken]
      rfl

/-- A function that is defined is bound with what the page shows of it. -/
theorem declareFunction_refines {clock : Nat} {f : Function F} {params : List (Variable F)}
    (few : params.length ≤ maxArguments) {body : List (Stmt F)}
    (standing : Standing page stack s m (.name f.val :: .openParen :: parameterItems params ++
      .closeParen :: .block (.newline :: lines body) :: .newline :: rest)) :
    Refines (Arrives page stack (.newline :: rest))
      ((do Statement.declareFunction; return Ending.ranOut) m)
      (execute (clock + 1) (.define f params few body) s) := by
  obtain ⟨m₁, advanced₁, facing₁⟩ := standing.advanceRaw
  obtain ⟨name, named, shownName⟩ := definedName_of_facing facing₁
  obtain ⟨m₂, advanced₂, facing₂⟩ := facing₁.standing.advanceRaw
  obtain ⟨m₃, advanced₃, facing₃⟩ := facing₂.standing.advanceRaw
  obtain ⟨slices, m₄, taken, shownParams, standing₄⟩ := parameters_of_facing params few facing₃
  obtain ⟨m₅, advanced₅, facing₅⟩ := standing₄.advanceRaw
  obtain ⟨slice, token, shownBody⟩ := facing₅.block
  have listed : Statement.parameterList m₂ = .done slices m₅ := by
    have opened : m₂.token = .openParen := facing₂.ahead
    rw [Statement.parameterList, token_bind, if_pos opened, bind_apply, advanced₃]
    show (Statement.parameters maxArguments m₃).andThen _ = _
    rw [taken]
    show (advanceRaw m₄).andThen _ = _
    rw [advanced₅]
    rfl
  have kept : Statement.definedBody m₅ = .done slice m₅ := by
    rw [Statement.definedBody, token_bind, token]
    exact keep_of_shows shownBody facing₅.state
  unfold Statement.declareFunction
  simp only [bind_assoc]
  refine Refines.step advanced₁ (Refines.step named (Refines.step advanced₂ ?_))
  refine Refines.step listed (Refines.step kept ?_)
  -- the routine comes first, so that the symbol can have its number for a value
  refine Refines.allocate fun {number arena} granted => ?_
  obtain ⟨state₆, found⟩ := facing₅.state.addRoutine granted
  refine Refines.allocate fun {index arena'} granted' => ?_
  have binding : Represents page (m₅.withArena arena).arena.routines (.func f params body)
      ⟨name, .func slices.length, Int64.ofNat number⟩ :=
    ⟨shownName, by rw [shownParams.length_eq], _, found, shownParams, shownBody⟩
  obtain ⟨-, state₇⟩ := state₆.addSymbol granted' binding
  have standing₇ : Standing page stack (s.bind (.func f params body))
      ((m₅.withArena arena).withArena arena') (.newline :: rest) := ⟨state₇, facing₅.cursor⟩
  obtain ⟨m₈, advanced₈, facing₈⟩ := standing₇.advance
  exact Refines.step advanced₈ (.done ⟨rfl, facing₈⟩)

/-- A return leaves the value of its expression, or zero, in the result register. -/
theorem setResult_refines (h : Follows F page r limit) {clock : Nat} (hclock : clock ≤ limit + 1)
    {e : Option (Expr F)}
    (standing : Standing page stack s m (returnedItems e ++ .newline :: rest)) :
    Refines (Arrives page stack (.newline :: rest))
      ((do Statement.setResult r; return Ending.returned) m) (execute clock (.leave e) s) := by
  cases clock with
  | zero => exact .unfinished
  | succ clock =>
    obtain ⟨m₁, advanced, facing⟩ := standing.advance
    unfold Statement.setResult
    simp only [bind_assoc]
    refine Refines.step advanced ?_
    cases e with
    | none =>
      have starts : startsExpression m₁ = .done false m₁ := by
        have separator : m₁.token = .separator := facing.ahead
        rw [startsExpression, token_bind, separator]
        rfl
      refine Refines.step starts ?_
      exact .done ⟨rfl, facing.state.withResult 0, facing.ahead, facing.cursor⟩
    | some e =>
      have evaluated : Refines (Arrives page stack (.newline :: rest)) (r.expression m₁)
          (evaluate clock e s) := h.expression e (by omega) ⟨_, _, rfl, rfl⟩ facing
      refine Refines.step facing.startsExpression ?_
      rw [if_pos rfl]
      simp only [bind_assoc]
      refine Refines.bind evaluated ?_
      rintro value _ s₂ m₂ ⟨rfl, facing₂⟩
      exact .done ⟨rfl, facing₂.state.withResult value, facing₂.ahead, facing₂.cursor⟩

/-! ### Calls -/

theorem callStatement_refines (h : Follows F page r limit) {clock : Nat} (hclock : clock ≤ limit + 2)
    {f : Function F} {args : List (Expr F)}
    (facing : Facing page false stack s m (callItems f args ++ .newline :: rest)) :
    Refines (Arrives page stack (.newline :: rest)) (Statement.statement r m)
      (execute clock (.call f args) s) := by
  match clock with
  | 0 => exact .unfinished
  | 1 => exact .unfinished
  | clock + 2 =>
    rw [execute]
    cases hf : s.function? f with
    | none =>
      obtain ⟨slice, token⟩ := facing.unbound (newest?_eq_none_of_function? hf)
      refine Refines.token token ?_
      show Refines _ _ ((invoke (clock + 1) f args s).andThen _)
      rw [invoke_of_none clock args hf]
      exact .failed rfl facing.state.out
    | some function =>
      obtain ⟨i, symbol, token, symbolAt, represents⟩ := facing.function hf
      refine Refines.token token (Refines.symbolAt symbolAt ?_)
      rw [represents.2.1]
      have standing : Standing page stack s m (.openParen :: argumentItems args ++
          .closeParen :: .newline :: rest) := by
        have standing := facing.standing
        simpa [callItems] using standing
      refine Refines.bind (inExpression_refines h (by omega) hf represents standing) ?_
      rintro _ _ s' m' ⟨rfl, facing'⟩
      exact .done ⟨rfl, facing'⟩

/-- With no literal pending, the native that prints writes the word in decimal form; the mark of a
literal is then a word like others. -/
theorem perform_print (r : Reentry) (value : Word) (empty : m.literals.pending = []) :
    (Builtin.print [value]).perform r m =
      .done 0 (m.write .out (Text.encode (value.decimal ++ "\n"))) := by
  unfold Builtin.print Builtin.takeLiteralFor Builtin.firstArgument
  split
  · have taken : takeLiteral m = .done none m := by
      unfold Eval.takeLiteral Literals.takeOldest
      simp only [empty]
    rw [Action.perform, bind_apply, taken]
    rfl
  · rfl

theorem handOver_print {symbol : Symbol Native} {value : Word}
    (tag : symbol.tag = .native Builtin.print 1)
    (state : Matches page (stack ++ [value].toArray) s m) :
    ∃ m', Call.handOver r symbol 1 0 m = .done 0 m' ∧
      Resting page stack m (s.emit (Text.encode (value.decimal ++ "\n"))) m' := by
  obtain ⟨m₁, popped, resting, -⟩ := popOnto_stacked [value] [] state
  have written := resting.state.write (Text.encode (value.decimal ++ "\n"))
  have ran : Call.runNativeWith r Builtin.print [value] 0 m₁ =
      ((Builtin.print [value]).perform r { m₁ with literals := {} }).adjust fun m =>
        { m with literals := m.literals.closeFrame [] } := by
    unfold Call.runNativeWith withPending
    rw [resting.state.literals]
    rfl
  rw [perform_print r value rfl] at ran
  have handed : Call.handOver r symbol 1 0 m =
      .done 0 { m₁.write .out (Text.encode (value.decimal ++ "\n")) with literals := {} } := by
    unfold Call.handOver truncatingLiterals
    rw [bind_apply, popWords, show popOnto [] 1 m = _ from popped]
    show (Call.runCallee r symbol [value] 0 m₁).adjust _ = _
    rw [Call.runCallee_of_native 0 tag rfl, ran]
    rfl
  refine ⟨_, handed, written.congr ?_, resting.cursor, resting.token⟩
  simp only [contents, Machine.write, resting.state.literals]

/-- The one argument of a command in parentheses is stacked. -/
theorem argument_inParens (h : Follows F page r limit) {clock : Nat} (hclock : clock < limit)
    {e : Expr F} (standing : Standing page stack s m
      (.openParen :: e.items ++ .closeParen :: .newline :: rest)) :
    Refines (fun counted value s' m' => counted = (1, true) ∧
        Standing page (stack ++ [value].toArray) s' m' (.newline :: rest))
      (Call.argumentsAfterCommand r m) (evaluate clock e s) := by
  obtain ⟨m₁, advanced, facing⟩ := standing.advance
  refine Refines.step advanced (Refines.token facing.ahead ?_)
  have inside : Standing page stack s m₁
      (argumentItems [e] ++ .closeParen :: .newline :: rest) := by
    have standing := facing.standing
    simpa [argumentItems, furtherArguments] using standing
  have stacked := arguments_inParens h hclock inside
  rw [evaluateAll_singleton] at stacked
  refine Refines.andThen (Refines.of_map_walk stacked) ?_
  rintro total value s' m' ⟨rfl, -, standing'⟩
  exact ⟨_, m', rfl, rfl, standing'⟩

/-- What is printed is the value that the walk evaluates. -/
theorem print_refines (h : Follows F page r limit) {clock : Nat} (hclock : clock ≤ limit)
    {e : Expr F} (facing : Facing page false stack s m
      (.word .print :: .openParen :: e.items ++ .closeParen :: .newline :: rest)) :
    Refines (Arrives page stack (.newline :: rest)) (Statement.statement r m)
      (execute clock (.print e) s) := by
  cases clock with
  | zero => exact .unfinished
  | succ clock =>
    obtain ⟨i, symbol, token, symbolAt, tag⟩ := facing.print
    have stacked : Refines (fun counted value s' m' => counted = (1, true) ∧
        Standing page (stack ++ [value].toArray) s' m' (.newline :: rest))
        (unwinding (withQuoting .argument (Call.argumentsAfterCommand r)) m) (evaluate clock e s) := by
      have standing : Standing page stack s { m with quoting := .argument }
          (.openParen :: e.items ++ .closeParen :: .newline :: rest) :=
        ⟨facing.state.congr rfl, facing.cursor⟩
      refine Refines.unwinding (Refines.withQuoting (argument_inParens h hclock standing) ?_)
      rintro _ value s' m' ⟨rfl, standing⟩ quoting
      exact ⟨rfl, standing.state.congr rfl, standing.cursor⟩
    refine Refines.token token (Refines.symbolAt symbolAt ?_)
    rw [tag]
    show Refines _ ((Call.asStatement r symbol m).andThen _) _
    rw [Call.asStatement_apply, facing.state.literals]
    show Refines _ ((_ >>= fun _ => pure Ending.ranOut : Eval Ending) m) _
    simp only [bind_assoc]
    refine Refines.bind stacked ?_
    rintro _ value s₁ m₁ ⟨rfl, standing⟩
    obtain ⟨m₂, handed, resting⟩ := handOver_print tag standing.state
    have standing₂ : Standing page stack _ m₂ (.newline :: rest) :=
      ⟨resting.state, resting.cursor ▸ standing.cursor⟩
    obtain ⟨m₃, advanced, facing₃⟩ := standing₂.advance
    exact Refines.step handed (Refines.step advanced (.done ⟨rfl, facing₃⟩))

/-! ### Sequences of statements -/

theorem statement_of_keyword {word : Keyword} {items : List Item} {w : Result F Ending}
    {R : Ending → Ending → State F → Machine → Prop}
    (facing : Facing page false stack s m (.keyword word :: items))
    (next : Refines R (Statement.ofKeyword r word m) w) :
    Refines R (Statement.statement r m) w := by
  obtain ⟨i, symbol, token, symbolAt, tag⟩ := facing.keyword
  refine Refines.token token (Refines.symbolAt symbolAt ?_)
  rw [tag]
  exact next

/-- A statement follows the tree, up to the end of its line. -/
theorem statement_refines (h : Follows F page r limit) {clock : Nat} (hclock : clock ≤ limit)
    (st : Stmt F) (facing : Facing page false stack s m (st.items ++ .newline :: rest)) :
    Refines (Arrives page stack (.newline :: rest)) (Statement.statement r m)
      (execute clock st s) := by
  cases st with
  | declare x e =>
    rw [Stmt.items] at facing
    exact statement_of_keyword facing (declareVariable_refines h (by omega) facing.standing)
  | assign x e =>
    rw [Stmt.items] at facing
    exact reassign_refines h (by omega) facing
  | branch e body alternative =>
    rw [Stmt.items] at facing
    refine statement_of_keyword facing ?_
    cases clock with
    | zero => exact .unfinished
    | succ clock =>
      refine Refines.bind (branch_refines h (by omega) facing.standing) ?_
      rintro _ _ s' m' ⟨rfl, facing'⟩
      exact .done ⟨rfl, facing'⟩
  | loop e body alternative =>
    rw [Stmt.items] at facing
    refine statement_of_keyword facing ?_
    have standing : Standing page stack s m (branchItems e body alternative ++ .newline :: rest) :=
      facing.standing
    refine Refines.andThen (repeatBranch_refines h (by omega) standing) ?_
    rintro _ _ s' m' ⟨rfl, facing'⟩
    exact ⟨_, m', rfl, rfl, facing'⟩
  | define f params few body =>
    rw [Stmt.items] at facing
    refine statement_of_keyword facing ?_
    cases clock with
    | zero => exact .unfinished
    | succ clock =>
      refine declareFunction_refines few ?_
      have standing := facing.standing
      simpa using standing
  | leave e =>
    rw [Stmt.items] at facing
    exact statement_of_keyword facing (setResult_refines h (by omega) facing.standing)
  | call f args =>
    rw [Stmt.items] at facing
    exact callStatement_refines h (by omega) facing
  | print e =>
    rw [Stmt.items] at facing
    exact print_refines h hclock (by simpa using facing)

theorem Stmt.items_eq_cons (st : Stmt F) : ∃ w items, st.items = .word w :: items := by
  cases st with
  | call f args => exact ⟨_, _, by rw [Stmt.items, callItems]; rfl⟩
  | _ => exact ⟨_, _, by rw [Stmt.items]; rfl⟩

/-- A word is read as a symbol or as a name. -/
theorem Facing.symbol_or_name {w : Spelled} {items : List Item}
    (facing : Facing page false stack s m (.word w :: items)) :
    (∃ i, m.token = .symbol i) ∨ ∃ slice, m.token = .name slice := by
  have ahead := facing.ahead
  simp only [ReadAhead, Item.ReadAs] at ahead
  split at ahead
  · exact .inl ⟨_, ahead⟩
  · obtain ⟨slice, token, -⟩ := ahead
    exact .inr ⟨slice, token⟩

/-- At a statement, a turn carries it out and passes the end of its line. -/
theorem turn_of_word {w : Spelled} {items : List Item}
    (facing : Facing page false stack s m (.word w :: items)) :
    Statement.turn r () m = Statement.statementTurn r m := by
  rcases facing.symbol_or_name with ⟨i, token⟩ | ⟨slice, token⟩ <;>
    exact Statement.turn_statement r (by simp [token]) (by simp [token])

/-- Where a walk over statements leads: how they ended, and the state. -/
def Leaves (page : Page) (stack : Array Word) (ending ending' : Ending) (s : State F)
    (m : Machine) : Prop :=
  ending = ending' ∧ Matches page stack s m

/-- Statements follow the tree, in one turn each. -/
theorem statements_loop (h : Follows F page r limit) {clock passes : Nat} (hclock : clock ≤ limit + 1)
    (hpasses : clock ≤ passes) (body : List (Stmt F))
    (facing : Facing page false stack s m (lines body)) :
    Refines (Leaves page stack) (Eval.loop (Statement.turn r) passes () m)
      (executeAll clock body s) := by
  induction clock generalizing passes body s m with
  | zero => exact .unfinished
  | succ clock ih =>
    obtain ⟨passes, rfl⟩ : ∃ k, passes = k + 1 := ⟨passes - 1, by omega⟩
    refine Refines.loop ?_
    cases body with
    | nil =>
      have eof : m.token = .eof := facing.ahead
      rw [Statement.turn, bind_assoc]
      exact Refines.token eof (.done ⟨rfl, facing.state⟩)
    | cons st body =>
      rw [lines] at facing
      obtain ⟨w, items, hitems⟩ := st.items_eq_cons
      have word : Facing page false stack s m (.word w :: (items ++ .newline :: lines body)) := by
        rw [hitems] at facing
        exact facing
      rw [bind_apply, turn_of_word word, ← bind_apply, Statement.statementTurn]
      simp only [bind_assoc]
      refine Refines.bind (statement_refines h (by omega) st facing) ?_
      rintro ending _ s₁ m₁ ⟨rfl, facing₁⟩
      cases ending with
      | returned => exact .done ⟨rfl, facing₁.state⟩
      | ranOut =>
        -- the end of the line is passed, and the next turn is at the next statement
        obtain ⟨m₂, advanced, facing₂⟩ := facing₁.standing.advance
        have passed : Statement.passSeparator m₁ = .done () m₂ := by
          have separator : m₁.token = .separator := facing₁.ahead
          rw [Statement.passSeparator, token_bind, separator]
          exact advanced
        show Refines _ (((do Statement.passSeparator; return .again ()) >>=
          Refines.afterTurn (Statement.turn r) passes : Eval Ending) m₁) (executeAll clock body s₁)
        rw [bind_assoc]
        exact Refines.step passed (ih (by omega) (by omega) body facing₂)

/-! ### Bodies -/

theorem lines_refines (h : Follows F page r limit) {clock : Nat} (hclock : clock ≤ limit + 1)
    {body : List (Stmt F)} (standing : Standing page stack s m (lines body)) :
    Refines (Leaves page stack) ((do advance; Statement.statements r) m)
      (executeAll clock body s) := by
  have passes := h.passes
  obtain ⟨m₁, advanced, facing⟩ := standing.advance
  exact Refines.step advanced (statements_loop h hclock (by omega) body facing)

/-- The end of line that a block starts with takes a turn of its own. -/
theorem block_refines (h : Follows F page r limit) {clock : Nat} (hclock : clock ≤ limit + 1)
    {body : List (Stmt F)} (standing : Standing page stack s m (.newline :: lines body)) :
    Refines (Leaves page stack) ((do advance; Statement.statements r) m)
      (executeAll clock body s) := by
  have passes := h.passes
  obtain ⟨passes, hpasses⟩ : ∃ k, r.passes = k + 1 := ⟨r.passes - 1, by omega⟩
  obtain ⟨m₁, advanced, facing⟩ := standing.advance
  have separator : m₁.token = .separator := facing.ahead
  obtain ⟨m₂, advanced₂, facing₂⟩ := facing.standing.advance
  refine Refines.step advanced ?_
  rw [Statement.statements, Reentry.loop, hpasses]
  refine Refines.loop ?_
  rw [Statement.turn, bind_assoc]
  refine Refines.token separator ?_
  rw [bind_assoc]
  exact Refines.step advanced₂ (statements_loop h hclock (by omega) body facing₂)

/-- Over what follows trees, a nested body follows the tree one step further. -/
theorem wholeBody_refines (h : Follows F page r limit) {clock : Nat} (hclock : clock ≤ limit + 1)
    {body : List (Stmt F)} {slice : Slice}
    (shown : page.Shows slice (bytesOf (.newline :: lines body))) (state : Matches page stack s m) :
    Refines (fun _ _ => Resting page stack m) (r.wholeBody slice false false m)
      (Walk.inScope (executeAll clock body) s) := by
  refine Refines.adjust (R := fun _ _ => Resting page stack m) ?_ (fun _ => rfl) ?_
  · refine Refines.adjust_machine (R := Leaves page stack) ?_ (fun _ => rfl) ?_
    · refine Refines.locating (block_refines h hclock ⟨state.congr ?_, shown.openAt state.text⟩)
      simp only [contents, state.duplicate]
    · rintro ending _ s' m' ⟨rfl, state'⟩
      refine ⟨state'.congr ?_, rfl, rfl⟩
      simp only [contents, state.duplicate, state'.duplicate]
  · intro _ _ s' m' resting
    have cut := resting.state.rollback s.bindings.length
    rw [← state.size_symbols] at cut
    exact ⟨cut, resting.cursor, resting.token⟩

end Scriptlet.Tree
