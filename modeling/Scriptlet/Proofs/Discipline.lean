import Scriptlet.Evaluation.Run

/-!
What every evaluation keeps, in general. A property of evaluation is mostly a relation between
the machine a computation starts on and the machine it leaves, whether it is done, fails or
stops. `Eval.Keeps R x` says that the computation `x` establishes the relation `R`.

Expressions and statements are put together from a few units: reading a token, running a nested
body, calling, assigning, defining. `Discipline R r` lists what the units have to satisfy, over a
way `r` of evaluating what is nested; the rest of this module shows, once for all relations, that
then every expression and every sequence of statements keeps `R`. A relation that does not look
at the stack, the literals and the quoting has it easier with calls too (`LooseDiscipline`), and
natives are a matter of their requests (`ActingDiscipline`). One that does not mind where a machine
reads has nothing to do for frames, scopes and bodies (`Roaming`).
-/

namespace Scriptlet

/-- A relation that holds of no change at all, and of one change after another. -/
structure Track (R : Machine → Machine → Prop) : Prop where
  refl : ∀ m, R m m
  trans : ∀ {a b c}, R a b → R b c → R a c

@[simp] theorem Outcome.machine_adjust {α : Type} (f : Machine → Machine) (o : Outcome α) :
    (o.adjust f).machine = f o.machine := by
  cases o <;> rfl

@[simp] theorem Outcome.machine_adjustError {α : Type} (f : Machine → Error → Error)
    (o : Outcome α) : (o.adjustError f).machine = o.machine := by
  cases o <;> rfl

theorem Outcome.adjust_eq_done {α : Type} {f : Machine → Machine} {o : Outcome α} {a : α}
    {m : Machine} (h : o.adjust f = .done a m) : ∃ m₁, o = .done a m₁ ∧ m = f m₁ := by
  cases o with
  | done b m₁ =>
    cases h
    exact ⟨m₁, rfl, rfl⟩
  | failed e m₁ => cases h
  | stopped why m₁ => cases h

theorem Outcome.adjust_eq_failed {α : Type} {f : Machine → Machine} {o : Outcome α} {error : Error}
    {m : Machine} (h : o.adjust f = .failed error m) : ∃ m', o = .failed error m' ∧ m = f m' := by
  cases o <;> cases h
  exact ⟨_, rfl, rfl⟩

namespace Eval

variable {α β σ : Type} {R : Machine → Machine → Prop}

/-- However the computation ends, the machine it leaves is related to the one it started on. -/
def Keeps (R : Machine → Machine → Prop) (x : Eval α) : Prop := ∀ m, R m (x m).machine

/-- The computation leaves the machine it started on. -/
def Still (x : Eval α) : Prop := ∀ m, (x m).machine = m

theorem Keeps.done {x : Eval α} (h : Keeps R x) {m m' : Machine} {a : α}
    (done : x m = .done a m') : R m m' := by
  have kept := h m
  rw [done] at kept
  exact kept

theorem Still.done {x : Eval α} (h : Still x) {m m' : Machine} {a : α}
    (done : x m = .done a m') : m' = m := by
  have same := h m
  rw [done] at same
  exact same

/-! ### Computations that change nothing -/

theorem still_pure (a : α) : Still (pure a : Eval α) := fun _ => rfl

theorem still_fail (e : Error) : Still (fail e : Eval α) := fun _ => rfl

theorem still_read (f : Machine → α) : Still (read f) := fun _ => rfl

theorem still_ofExcept (x : Except Error α) : Still (ofExcept x) := by
  intro m
  cases x <;> rfl

theorem still_symbolAt (index : Nat) : Still (symbolAt index) := by
  intro m
  unfold symbolAt
  split <;> rfl

theorem Still.bind {x : Eval α} {f : α → Eval β} (hx : Still x) (hf : ∀ a, Still (f a)) :
    Still (x >>= f) := by
  intro m
  change ((x m).andThen f).machine = m
  have hm := hx m
  cases h : x m with
  | done a m' =>
    rw [h] at hm
    exact (hf a m').trans hm
  | failed e m' =>
    rw [h] at hm
    exact hm
  | stopped why m' =>
    rw [h] at hm
    exact hm

theorem still_tokenTag? : Still tokenTag? := by
  refine (still_read _).bind fun t => ?_
  split
  · exact (still_symbolAt _).bind fun _ => still_pure _
  · exact still_pure _

theorem still_startsExpression : Still startsExpression := by
  refine (still_read _).bind fun t => ?_
  split
  case h_6 index =>
    refine (still_symbolAt index).bind fun s => ?_
    split <;> exact still_pure _
  all_goals exact still_pure _

theorem still_operatorOfLevel (level : Nat) : Still (Expression.operatorOfLevel level) := by
  refine still_tokenTag?.bind fun tag? => ?_
  split <;> exact still_pure _

/-- A symbol is found where it is in the table. -/
theorem symbolAt_eq_done {index : Nat} {s : Symbol Native} {m m' : Machine}
    (h : symbolAt index m = .done s m') : m' = m ∧ m.arena.symbols[index]? = some s := by
  unfold symbolAt at h
  split at h
  · next s' found =>
    cases h
    exact ⟨rfl, found⟩
  · cases h

/-! ### One computation after another -/

/-- What follows a computation may make use of how that was done. -/
theorem related_bind {x : Eval α} {f : α → Eval β} {m₀ m : Machine} (hx : R m₀ (x m).machine)
    (hf : ∀ a m', x m = .done a m' → R m₀ m' → R m₀ (f a m').machine) :
    R m₀ ((x >>= f) m).machine := by
  change R m₀ ((x m).andThen f).machine
  cases hm : x m with
  | done a m' =>
    rw [hm] at hx
    exact hf a m' hm hx
  | failed e m' =>
    rw [hm] at hx
    exact hx
  | stopped why m' =>
    rw [hm] at hx
    exact hx

theorem related_bind_still {x : Eval α} {f : α → Eval β} {m₀ m : Machine}
    (hx : R m₀ (x m).machine) (hf : ∀ a, Still (f a)) : R m₀ ((x >>= f) m).machine := by
  refine related_bind hx fun a m' _ kept => ?_
  rw [hf a m']
  exact kept

/-- A loop whose turns stay related to a machine of before ends related to it. -/
theorem related_loop {turn : σ → Eval (Turn σ α)} {m₀ : Machine}
    (hturn : ∀ s m, R m₀ m → R m₀ (turn s m).machine) (passes : Nat) (s : σ) {m : Machine}
    (hm : R m₀ m) : R m₀ (Eval.loop turn passes s m).machine := by
  induction passes generalizing s m with
  | zero => exact hm
  | succ passes ih =>
    have step := hturn s m hm
    unfold Eval.loop
    cases ht : turn s m with
    | done next m' =>
      rw [ht] at step
      cases next with
      | again s' => exact ih s' step
      | finish a => exact step
    | failed e m' =>
      rw [ht] at step
      exact step
    | stopped why m' =>
      rw [ht] at step
      exact step

theorem bind_eq_done {x : Eval α} {f : α → Eval β} {m m' : Machine} {b : β}
    (h : (x >>= f) m = .done b m') : ∃ a m₁, x m = .done a m₁ ∧ f a m₁ = .done b m' := by
  change (x m).andThen f = _ at h
  cases hx : x m with
  | done a m₁ =>
    rw [hx] at h
    exact ⟨a, m₁, rfl, h⟩
  | failed e m₁ =>
    rw [hx] at h
    cases h
  | stopped why m₁ =>
    rw [hx] at h
    cases h

/-- A loop that is done has a last turn, and each turn before it went round again. -/
theorem loop_eq_done {turn : σ → Eval (Turn σ α)} {I : σ → Machine → Prop}
    (again : ∀ {s m s' m'}, I s m → turn s m = .done (.again s') m' → I s' m')
    {passes : Nat} {s : σ} {m m' : Machine} {a : α} (hI : I s m)
    (h : Eval.loop turn passes s m = .done a m') :
    ∃ s₁ m₁, I s₁ m₁ ∧ turn s₁ m₁ = .done (.finish a) m' := by
  induction passes generalizing s m with
  | zero => cases h
  | succ passes ih =>
    unfold Eval.loop at h
    cases ht : turn s m with
    | done next m₁ =>
      rw [ht] at h
      cases next with
      | again s' => exact ih (again hI ht) h
      | finish a' =>
        cases h
        exact ⟨s, m, hI, ht⟩
    | failed e m₁ =>
      rw [ht] at h
      cases h
    | stopped why m₁ =>
      rw [ht] at h
      cases h

theorem Keeps.attempt {x : Eval α} (hx : Keeps R x) : Keeps R x.attempt := by
  intro m
  have hm := hx m
  unfold Eval.attempt
  cases hxm : x m <;> (rw [hxm] at hm; exact hm)

end Eval

open Eval

namespace Track

variable {α β σ : Type} {R : Machine → Machine → Prop} (h : Track R)

include h

theorem still {x : Eval α} (hx : Still x) : Keeps R x := by
  intro m
  rw [hx m]
  exact h.refl m

theorem bind {x : Eval α} {f : α → Eval β} (hx : Keeps R x) (hf : ∀ a, Keeps R (f a)) :
    Keeps R (x >>= f) := by
  intro m
  exact related_bind (hx m) fun a m' _ kept => h.trans kept (hf a m')

theorem bind_still {x : Eval α} {f : α → Eval β} (hx : Still x) (hf : ∀ a, Keeps R (f a)) :
    Keeps R (x >>= f) := h.bind (h.still hx) hf

theorem loop {turn : σ → Eval (Turn σ α)} (hturn : ∀ s, Keeps R (turn s)) (passes : Nat) (s : σ) :
    Keeps R (Eval.loop turn passes s) := fun m =>
  related_loop (fun s m' hm => h.trans hm (hturn s m')) passes s (h.refl m)

/-! ### What reads tokens and does nothing else -/

section

variable (advance : Keeps R Eval.advance)

include advance

theorem takeBody : Keeps R Statement.takeBody := by
  refine h.bind_still (still_read _) fun t => ?_
  split
  · exact h.bind advance fun _ => h.still (still_pure _)
  · exact h.still (still_fail _)

theorem takeAlternative : Keeps R Statement.takeAlternative := by
  refine h.bind_still still_tokenTag? fun tag? => ?_
  split
  · exact h.bind advance fun _ => h.bind (h.takeBody advance) fun _ => h.still (still_pure _)
  · exact h.still (still_pure _)

theorem passSeparator : Keeps R Statement.passSeparator := by
  refine h.bind_still (still_read _) fun t => ?_
  split
  · exact h.still (still_pure _)
  · exact h.still (still_pure _)
  · exact advance
  · refine h.bind_still (still_symbolAt _) fun s => ?_
    split
    · exact h.still (still_pure _)
    · exact h.still (still_pure _)
    · exact h.still (still_pure _)
    · split
      · exact h.still (still_fail _)
      · exact h.still (still_pure _)
    · exact h.still (still_fail _)
  · exact h.still (still_fail _)

theorem behindArgument (count : Nat) : Keeps R (Call.behindArgument count) := by
  refine h.bind_still (still_read _) fun t => ?_
  split
  · exact h.bind advance fun _ => h.still (still_pure _)
  · exact h.still (still_pure _)
  · exact h.still (still_fail _)

theorem behindBare (count : Nat) : Keeps R (Call.behindBare count) := by
  refine h.bind_still (still_read _) fun t => ?_
  split
  · exact h.bind advance fun _ => h.still (still_pure _)
  · exact h.still (still_pure _)

theorem levelTurn {operand : Eval Word} (hoperand : Keeps R operand) (level : Nat) (value : Word) :
    Keeps R (Expression.levelTurn level operand value) := by
  refine h.bind_still (still_operatorOfLevel _) fun op? => ?_
  cases op? with
  | some op =>
    refine h.bind advance fun _ => h.bind hoperand fun operand => ?_
    exact h.bind_still (still_ofExcept _) fun _ => h.still (still_pure _)
  | none => exact h.still (still_pure _)

end

/-! ### What keeps names and bodies -/

section

variable (keep : ∀ s, Keeps R (Eval.keep s))

include keep

theorem definedName : Keeps R Statement.definedName := by
  refine h.bind_still (still_read _) fun t => ?_
  split
  · exact keep _
  · exact h.still (still_fail _)

theorem definedBody : Keeps R Statement.definedBody := by
  refine h.bind_still (still_read _) fun t => ?_
  split
  · exact keep _
  · exact h.still (still_fail _)

variable (advanceRaw : Keeps R Eval.advanceRaw)

include advanceRaw

theorem parameters (room : Nat) : Keeps R (Statement.parameters room) := by
  induction room with
  | zero =>
    refine h.bind_still (still_read _) fun t => ?_
    split
    · exact h.still (still_pure _)
    · exact h.still (still_fail _)
    · exact h.still (still_fail _)
  | succ room ih =>
    have rest : ∀ name, Keeps R (do return name :: (← Statement.parameters room)) :=
      fun name => h.bind ih fun _ => h.still (still_pure _)
    refine h.bind_still (still_read _) fun t => ?_
    split
    · exact h.still (still_pure _)
    · refine h.bind (h.definedName keep) fun name => h.bind advanceRaw fun _ => ?_
      refine h.bind_still (still_read _) fun t => ?_
      split
      · exact h.bind advanceRaw fun _ => rest name
      · exact rest name
      · exact h.bind (h.still (still_fail _)) fun _ => rest name

theorem parameterList : Keeps R Statement.parameterList := by
  refine h.bind_still (still_read _) fun t => ?_
  split
  · refine h.bind advanceRaw fun _ => h.bind (h.parameters keep advanceRaw _) fun params => ?_
    exact h.bind advanceRaw fun _ => h.still (still_pure _)
  · exact h.still (still_pure _)

end

theorem and {S : Machine → Machine → Prop} (k : Track S) : Track fun m m' => R m m' ∧ S m m' :=
  ⟨fun m => ⟨h.refl m, k.refl m⟩, fun hab hbc => ⟨h.trans hab.1 hbc.1, k.trans hab.2 hbc.2⟩⟩

end Track

/-! ### What the units do -/

def Machine.readTo (m : Machine) (after : Scanner) : Machine :=
  { m with cursor := { m.cursor with scanner := after, mark := m.cursor.scanner.pos } }

/-- Reading a lexeme moves the scanner and the mark of the cursor. -/
theorem readLexeme_eq (m : Machine) :
    (∃ lexeme after, m.cursor.scanner.next m.quoting = (.ok lexeme, after) ∧
        Eval.readLexeme m = .done lexeme (m.readTo after)) ∨
      ∃ complaint after, m.cursor.scanner.next m.quoting = (.error complaint, after) ∧
        Eval.readLexeme m = .failed (.ofComplaint complaint) { m with
          cursor := { m.cursor with mark := m.cursor.scanner.pos } } := by
  rcases next : m.cursor.scanner.next m.quoting with ⟨lexeme | complaint, after⟩
  · exact .inr ⟨_, _, rfl, readLexeme_of_error next⟩
  · exact .inl ⟨_, _, rfl, readLexeme_of_ok next⟩

/-- Resolving a lexeme leaves a literal, if it is a quotation in an argument list. -/
theorem resolve_eq (raw : Bool) (lexeme : Lexeme) (m : Machine) :
    (∃ token literals, resolve raw lexeme m = .done token { m with literals } ∧
      (literals = m.literals ∨
        m.quoting = .argument ∧ ∃ text, literals = m.literals.push text)) ∨
      resolve raw lexeme m = .failed (.ofComplaint .unknownOperator) m := by
  cases lexeme with
  | name place =>
    simp only [resolve]
    split
    · exact .inl ⟨_, _, rfl, .inl rfl⟩
    · split <;> exact .inl ⟨_, _, rfl, .inl rfl⟩
  | operator place =>
    simp only [resolve]
    split
    · exact .inl ⟨_, _, rfl, .inl rfl⟩
    · exact .inr rfl
  | quote inside =>
    simp only [resolve]
    split
    · exact .inl ⟨_, _, rfl, .inl rfl⟩
    · next hq => exact .inl ⟨_, _, rfl, .inr ⟨hq, _, rfl⟩⟩
  | eof => exact .inl ⟨_, _, rfl, .inl rfl⟩
  | newline => exact .inl ⟨_, _, rfl, .inl rfl⟩
  | semicolon => exact .inl ⟨_, _, rfl, .inl rfl⟩
  | comma => exact .inl ⟨_, _, rfl, .inl rfl⟩
  | openParen => exact .inl ⟨_, _, rfl, .inl rfl⟩
  | closeParen => exact .inl ⟨_, _, rfl, .inl rfl⟩
  | number value => exact .inl ⟨_, _, rfl, .inl rfl⟩
  | block inside => exact .inl ⟨_, _, rfl, .inl rfl⟩

/-- What is found of a name depends on memory alone. -/
theorem index?_congr {m m' : Machine} (same : m'.memory = m.memory) (name : Text.Bytes) :
    m'.index? name = m.index? name := by
  have arena : m'.arena = m.arena := congrArg Memory.arena same
  have below : ∀ count, m'.newestBelow? name count = m.newestBelow? name count := by
    intro count
    induction count with
    | zero => rfl
    | succ count ih =>
      unfold Machine.newestBelow? Machine.store
      rw [arena, same, ih]
  unfold Machine.index?
  rw [arena, below]

theorem resolve_withToken (raw : Bool) (lexeme : Lexeme) (m : Machine) (token : Token) :
    resolve raw lexeme { m with token } = (resolve raw lexeme m).adjust fun m => { m with token } := by
  have found : ∀ slice, Machine.index? { m with token } (Machine.bytes { m with token } slice) =
      m.index? (m.bytes slice) :=
    fun slice => @index?_congr m { m with token } rfl (m.bytes slice)
  cases lexeme with
  | name place =>
    cases raw with
    | true => rfl
    | false =>
      simp only [resolve, found]
      cases m.index? (m.bytes (.ofSpan m.cursor.source place)) <;> rfl
  | operator place =>
    simp only [resolve, found]
    cases m.index? (m.bytes (.ofSpan m.cursor.source place)) <;> rfl
  | quote inside =>
    rcases m with ⟨_, _, _, _, _, _, quoting, _⟩
    cases quoting <;> rfl
  | _ => rfl

/-- The ways to read a token: a lexeme is one, or is an operator that is not known, or there is
no lexeme. -/
theorem advanceBy_cases (raw : Bool) (m : Machine) :
    (∃ lexeme after token literals, m.cursor.scanner.next m.quoting = (.ok lexeme, after) ∧
        resolve raw lexeme (m.readTo after) = .done token { m.readTo after with literals } ∧
        (literals = m.literals ∨ m.quoting = .argument ∧ ∃ text, literals = m.literals.push text) ∧
        advanceBy raw m = .done () { m.readTo after with token, literals }) ∨
      (∃ lexeme after, m.cursor.scanner.next m.quoting = (.ok lexeme, after) ∧
        advanceBy raw m = .failed (.ofComplaint .unknownOperator) (m.readTo after)) ∨
      ∃ complaint after, m.cursor.scanner.next m.quoting = (.error complaint, after) ∧
        advanceBy raw m = .failed (.ofComplaint complaint) { m with
          cursor := { m.cursor with mark := m.cursor.scanner.pos } } := by
  unfold advanceBy
  rcases readLexeme_eq m with ⟨lexeme, after, next, read⟩ | ⟨complaint, after, next, read⟩
  · rw [bind_of_done read]
    rcases resolve_eq raw lexeme (m.readTo after) with ⟨token, literals, resolved, left⟩ | unknown
    · exact .inl ⟨lexeme, after, token, literals, next, resolved, left, bind_of_done resolved _⟩
    · exact .inr (.inl ⟨lexeme, after, next, bind_of_failed unknown _⟩)
  · exact .inr (.inr ⟨complaint, after, next, bind_of_failed read _⟩)

/-- What a token that was read came from. -/
theorem advanceBy_eq_done {raw : Bool} {m m' : Machine} (h : advanceBy raw m = .done () m') :
    ∃ lexeme after token literals,
      m.cursor.scanner.next m.quoting = (.ok lexeme, after) ∧
      resolve raw lexeme (m.readTo after) = .done token { m.readTo after with literals } ∧
      m' = { m.readTo after with token, literals } := by
  rcases advanceBy_cases raw m with ⟨lexeme, after, token, literals, next, resolved, -, done⟩ |
    ⟨_, _, _, failed⟩ | ⟨_, _, _, failed⟩
  · cases h.symm.trans done
    exact ⟨lexeme, after, token, literals, next, resolved, rfl⟩
  · cases h.symm.trans failed
  · cases h.symm.trans failed

/-- Reading a token moves the cursor within its body, and may leave a literal in an argument
list. -/
theorem advanceBy_machine (raw : Bool) (m : Machine) :
    ∃ cursor token literals, (advanceBy raw m).machine = { m with cursor, token, literals } ∧
      cursor.source = m.cursor.source ∧ cursor.stop = m.cursor.stop ∧
      (literals = m.literals ∨ m.quoting = .argument ∧ ∃ text, literals = m.literals.push text) := by
  rcases advanceBy_cases raw m with ⟨_, _, token, literals, -, -, left, h⟩ | ⟨_, _, -, h⟩ |
    ⟨_, _, -, h⟩ <;> rw [h]
  · exact ⟨_, token, literals, rfl, rfl, rfl, left⟩
  · exact ⟨_, m.token, m.literals, rfl, rfl, rfl, .inl rfl⟩
  · exact ⟨_, m.token, m.literals, rfl, rfl, rfl, .inl rfl⟩

/-- An allocation that is done was granted. -/
theorem allocate_eq_done {α : Type} {f : Arena Native → Option (α × Arena Native)} {m m' : Machine}
    {a : α} (h : allocate f m = .done a m') :
    ∃ arena, f m.arena = some (a, arena) ∧ m' = m.withArena arena := by
  unfold allocate at h
  split at h
  · next granted =>
    cases h
    exact ⟨_, granted, rfl⟩
  · cases h

/-- An allocation that is granted changes the arena, and one that is refused changes nothing. -/
theorem related_allocate {α : Type} {R : Machine → Machine → Prop} (h : Track R)
    {f : Arena Native → Option (α × Arena Native)} {m : Machine}
    (hf : ∀ a arena, f m.arena = some (a, arena) → R m (m.withArena arena)) :
    R m (allocate f m).machine := by
  unfold allocate
  cases hm : f m.arena with
  | some granted => exact hf granted.1 granted.2 hm
  | none => exact h.refl m

namespace Track

variable {R : Machine → Machine → Prop} (h : Track R)

include h

theorem allocate {α : Type} {f : Arena Native → Option (α × Arena Native)}
    (hf : ∀ {m : Machine} {a arena}, f m.arena = some (a, arena) → R m (m.withArena arena)) :
    Keeps R (Eval.allocate f) := fun _ => related_allocate h fun _ _ => hf

theorem ask (asked : ∀ m asked, R m { m with asked }) (world : World) (question : Question) :
    Keeps R (world.ask question) := by
  intro m
  unfold World.ask
  split
  · exact asked m _
  · exact h.refl m

theorem push {word : Word}
    (pushed : ∀ m, R m (m.withArena { m.arena with stack := m.arena.stack.push word })) :
    Keeps R (Eval.push word) := by
  refine h.allocate fun {m _ _} granted => ?_
  obtain ⟨_, room, same⟩ := Option.map_eq_some_iff.mp granted
  cases same
  obtain ⟨-, rfl⟩ := Arena.push_eq_some room
  exact pushed m

theorem popOnto (popped : Keeps R pop) (words : List Word) (count : Nat) :
    Keeps R (Eval.popOnto words count) := by
  induction count generalizing words with
  | zero => exact h.still (still_pure _)
  | succ count ih => exact h.bind popped fun word => ih (word :: words)

theorem define {name : String} {tag : Tag Native} {value : Word}
    (addBytes : Keeps R (Eval.allocate (·.addBytes (Text.encode name))))
    (addSymbol : ∀ slice, Keeps R (Eval.allocate (·.addSymbol slice tag value))) :
    Keeps R (Eval.define name tag value) := by
  unfold Eval.define
  split
  · exact h.still (still_fail _)
  · exact h.bind addBytes addSymbol

theorem bindParameters
    (addSymbol : ∀ name value, Keeps R (Eval.allocate (·.addSymbol name .var value)))
    (bindings : List (Slice × Word)) : Keeps R (Call.bindParameters bindings) := by
  induction bindings with
  | nil => exact h.still (still_pure _)
  | cons binding rest ih => exact h.bind (addSymbol _ _) fun _ => ih

end Track

/-! ### Expressions and statements -/

/-- What the units of expressions and statements have to satisfy for a relation to be kept, as long as no
function is defined. A symbol that is called or assigned to is one of the table. -/
structure UndeclaringDiscipline (R : Machine → Machine → Prop) (r : Reentry) : Prop
    extends Track R where
  advanceBy : ∀ raw, Keeps R (advanceBy raw)
  rewind : ∀ {m m'}, R m m' → R m { m' with cursor := m.cursor }
  result : ∀ m value, R m { m with result := value }
  plain : ∀ {x : Eval Word}, Keeps R x → Keeps R (withQuoting .plain x)
  expression : Keeps R r.expression
  nestedBody : ∀ body, Keeps R (Statement.nestedBody r body)
  inExpression : ∀ {m} {index : Nat} {s}, m.arena.symbols[index]? = some s →
    R m (Call.inExpression r s m).machine
  asStatement : ∀ {m} {index : Nat} {s}, m.arena.symbols[index]? = some s →
    R m (Call.asStatement r s m).machine
  reassign : ∀ {m} {index : Nat} {s}, m.arena.symbols[index]? = some s → s.tag = .var →
    R m (Statement.reassign r index m).machine
  declareVariable : Keeps R (Statement.declareVariable r)

/-- What the units of expressions and statements have to satisfy for a relation to be kept. -/
structure Discipline (R : Machine → Machine → Prop) (r : Reentry) : Prop
    extends UndeclaringDiscipline R r where
  declareFunction : Keeps R Statement.declareFunction

namespace UndeclaringDiscipline

variable {R : Machine → Machine → Prop} {r : Reentry} (h : UndeclaringDiscipline R r)

include h

theorem advance : Keeps R advance := h.advanceBy false

theorem fail {α : Type} (e : Error) : Keeps R (fail e : Eval α) := h.still (still_fail e)

theorem group : Keeps R (Expression.group r) := by
  refine h.bind h.advance fun _ => h.bind h.expression fun value => ?_
  refine h.bind_still (still_read _) fun t => ?_
  split
  · exact h.still (still_pure _)
  · exact h.fail _

theorem symbolAtom {m : Machine} {index : Nat} {s : Symbol Native}
    (found : m.arena.symbols[index]? = some s) : R m (Expression.symbolAtom r s m).machine := by
  unfold Expression.symbolAtom
  cases s.tag with
  | var => exact h.bind h.advance (fun _ => h.still (still_pure _)) m
  | native action arity => exact h.inExpression found
  | func arity => exact h.inExpression found
  | operator op =>
    exact h.bind h.advance (fun _ => h.bind h.expression fun _ => h.still (still_ofExcept _)) m
  | keyword word => exact h.fail _ m

/-- Goes on with the symbol of an index, on the machine that holds it. -/
theorem withSymbol {α : Type} {index : Nat} {f : Symbol Native → Eval α}
    (hf : ∀ {m s}, m.arena.symbols[index]? = some s → R m (f s m).machine) :
    Keeps R (symbolAt index >>= f) := by
  intro m
  refine related_bind (h.still (still_symbolAt index) m) fun s m' hm _ => ?_
  obtain ⟨rfl, found⟩ := symbolAt_eq_done hm
  exact hf found

theorem atom : Keeps R (Expression.atom r) := by
  refine h.bind_still (still_read _) fun t => ?_
  split
  · exact h.bind h.advance fun _ => h.still (still_pure _)
  · exact h.bind (h.plain h.group) fun _ => h.bind h.advance fun _ => h.still (still_pure _)
  · exact h.bind h.advance fun _ => h.still (still_pure _)
  · exact h.bind h.advance fun _ => h.still (still_pure _)
  · exact h.fail _
  · exact h.withSymbol h.symbolAtom
  all_goals exact h.fail _

theorem upToLevel (level : Nat) : Keeps R (Expression.upToLevel r level) := by
  induction level with
  | zero => exact h.atom
  | succ level ih => exact h.bind ih fun first => h.loop (h.toTrack.levelTurn h.advance ih _) _ first

/-- Every expression keeps the relation. -/
theorem wholeExpression : Keeps R r.wholeExpression := h.upToLevel _

theorem takeBody : Keeps R Statement.takeBody := h.toTrack.takeBody h.advance

theorem takeAlternative : Keeps R Statement.takeAlternative := h.toTrack.takeAlternative h.advance

theorem branch : Keeps R (Statement.branch r) := by
  refine h.bind h.advance fun _ => h.bind h.expression fun condition => ?_
  refine h.bind h.takeBody fun body => h.bind h.takeAlternative fun alternative => ?_
  split
  · exact h.bind (h.nestedBody body) fun _ => h.still (still_pure _)
  · cases alternative with
    | some body => exact h.bind (h.nestedBody body) fun _ => h.still (still_pure _)
    | none => exact h.still (still_pure _)

/-- The cursor that a loop goes back to is the one of its start, so the turns are followed from
there. -/
theorem repeatBranch : Keeps R (Statement.repeatBranch r) := by
  intro m₀
  refine related_loop (fun _ m hm => ?_) _ () (h.refl m₀)
  refine related_bind (h.trans hm (h.branch m)) fun held m' _ passed => ?_
  cases held with
  | true => exact h.rewind passed
  | false => exact passed

theorem setResult : Keeps R (Statement.setResult r) := by
  refine h.bind h.advance fun _ => h.bind_still still_startsExpression fun starts => ?_
  split
  · exact h.bind h.expression fun value m => h.result m value
  · exact h.bind_still (still_pure _) fun value m => h.result m value

theorem ofKeyword {word : Keyword} (other : word ≠ .func) : Keeps R (Statement.ofKeyword r word) := by
  cases word with
  | var => exact h.bind h.declareVariable fun _ => h.still (still_pure _)
  | cond => exact h.bind h.branch fun _ => h.still (still_pure _)
  | loop => exact h.bind h.repeatBranch fun _ => h.still (still_pure _)
  | func => exact absurd rfl other
  | leave => exact h.bind h.setResult fun _ => h.still (still_pure _)
  | otherwise => exact h.fail _

/-- A statement keeps the relation, if the keyword that it may start with does. -/
theorem statement {m : Machine} (keyword : ∀ {index s word}, m.token = .symbol index →
    m.arena.symbols[index]? = some s → s.tag = .keyword word →
      R m (Statement.ofKeyword r word m).machine) : R m (Statement.statement r m).machine := by
  rw [Statement.statement, token_bind]
  cases token : m.token with
  | symbol index =>
    refine related_bind (h.still (still_symbolAt index) m) fun s m' hm _ => ?_
    obtain ⟨rfl, found⟩ := symbolAt_eq_done hm
    -- an assignment may rely on the symbol being a variable
    cases htag : s.tag with
    | var => exact related_bind_still (h.reassign found htag) fun _ => still_pure _
    | native action arity => exact related_bind_still (h.asStatement found) fun _ => still_pure _
    | func arity => exact related_bind_still (h.inExpression found) fun _ => still_pure _
    | keyword word => exact keyword token found htag
    | operator op => exact h.fail _ _
  | _ => exact h.fail _ m

theorem passSeparator : Keeps R Statement.passSeparator := h.toTrack.passSeparator h.advance

/-- A turn keeps the relation, if the keyword that its statement may start with does. -/
theorem turn {m : Machine} (keyword : ∀ {index s word}, m.token = .symbol index →
    m.arena.symbols[index]? = some s → s.tag = .keyword word →
      R m (Statement.ofKeyword r word m).machine) : R m (Statement.turn r () m).machine := by
  have statement : R m (Statement.statementTurn r m).machine := by
    refine related_bind (h.statement keyword) fun ending m' _ kept => ?_
    cases ending with
    | returned => exact kept
    | ranOut => exact h.trans kept (h.bind h.passSeparator (fun _ => h.still (still_pure _)) m')
  rw [Statement.turn, token_bind]
  cases m.token with
  | eof => exact h.refl m
  | separator => exact h.bind h.advance (fun _ => h.still (still_pure _)) m
  | _ => exact statement

end UndeclaringDiscipline

namespace Discipline

variable {R : Machine → Machine → Prop} {r : Reentry} (h : Discipline R r)

include h

theorem ofKeyword (word : Keyword) : Keeps R (Statement.ofKeyword r word) := by
  by_cases func : word = .func
  · subst func
    exact h.bind h.declareFunction fun _ => h.still (still_pure _)
  · exact h.toUndeclaringDiscipline.ofKeyword func

theorem statement : Keeps R (Statement.statement r) := fun m =>
  h.toUndeclaringDiscipline.statement fun _ _ _ => h.ofKeyword _ m

theorem turn : Keeps R (Statement.turn r ()) := fun m =>
  h.toUndeclaringDiscipline.turn fun _ _ _ => h.ofKeyword _ m

/-- Every sequence of statements keeps the relation. -/
theorem statements : Keeps R (Statement.statements r) := h.loop (fun _ => h.turn) _ ()

theorem and {S : Machine → Machine → Prop} (k : Discipline S r) :
    Discipline (fun m m' => R m m' ∧ S m m') r where
  toTrack := h.toTrack.and k.toTrack
  advanceBy raw m := ⟨h.advanceBy raw m, k.advanceBy raw m⟩
  rewind hm := ⟨h.rewind hm.1, k.rewind hm.2⟩
  result m value := ⟨h.result m value, k.result m value⟩
  plain hx m := ⟨h.plain (fun m => (hx m).1) m, k.plain (fun m => (hx m).2) m⟩
  expression m := ⟨h.expression m, k.expression m⟩
  nestedBody body m := ⟨h.nestedBody body m, k.nestedBody body m⟩
  inExpression found := ⟨h.inExpression found, k.inExpression found⟩
  asStatement found := ⟨h.asStatement found, k.asStatement found⟩
  reassign found hvar := ⟨h.reassign found hvar, k.reassign found hvar⟩
  declareVariable m := ⟨h.declareVariable m, k.declareVariable m⟩
  declareFunction m := ⟨h.declareFunction m, k.declareFunction m⟩

end Discipline

/-! ### Assignments and definitions -/

/-- What is left to satisfy where assignments are concerned. The variable that is assigned to is
one that the table held when the assignment began. -/
structure AssigningDiscipline (R : Machine → Machine → Prop) (r : Reentry) : Prop
    extends Track R where
  advanceBy : ∀ raw, Keeps R (advanceBy raw)
  expression : Keeps R r.expression
  setValue : ∀ {m m' : Machine} {index : Nat} {s}, m.arena.symbols[index]? = some s →
    s.tag = .var → R m m' → ∀ value, R m (m'.withArena (m'.arena.setValue index value))

namespace AssigningDiscipline

variable {R : Machine → Machine → Prop} {r : Reentry} (h : AssigningDiscipline R r)

include h

theorem advance : Keeps R advance := h.advanceBy false

theorem assign {m m' : Machine} {index : Nat} {s : Symbol Native}
    (found : m.arena.symbols[index]? = some s) (hvar : s.tag = .var) (hm : R m m') :
    R m (Statement.assign r index m').machine := by
  refine related_bind (x := tokenTag?) (h.trans hm (h.still still_tokenTag? m'))
    fun tag? m₁ _ hm₁ => ?_
  split
  · refine related_bind (h.trans hm₁ (h.advance m₁)) fun _ m₂ _ hm₂ => ?_
    refine related_bind (h.trans hm₂ (h.expression m₂)) fun value m₃ _ hm₃ => ?_
    exact h.setValue found hvar hm₃ value
  · exact hm₁

theorem reassign {m : Machine} {index : Nat} {s : Symbol Native}
    (found : m.arena.symbols[index]? = some s) (hvar : s.tag = .var) :
    R m (Statement.reassign r index m).machine :=
  related_bind (h.advance m) fun _ _ _ hm => h.assign found hvar hm

theorem assignNew {m : Machine} {name : Slice}
    (hnew : ∀ {index arena}, m.arena.addSymbol name .var 0 = some (index, arena) →
      R m (m.withArena arena)) :
    R m ((do
      let index ← allocate (·.addSymbol name .var 0)
      Eval.advance
      Statement.assign r index : Eval Unit) m).machine := by
  refine related_bind (related_allocate h.toTrack fun _ _ granted => hnew granted)
    fun index m₁ added hm₁ => ?_
  -- from here on the new symbol is in the table, and is a variable
  have found : m₁.arena.symbols[index]? = some ⟨name, .var, 0⟩ := by
    obtain ⟨arena, granted, rfl⟩ := allocate_eq_done added
    obtain ⟨-, rfl, rfl⟩ := Arena.addSymbol_eq_some granted
    exact Array.getElem?_push_size
  exact h.trans hm₁
    (related_bind (h.advance m₁) fun _ _ _ hm₂ => h.assign found rfl hm₂)

end AssigningDiscipline

/-- What is left to satisfy where the names and bodies of definitions are kept. -/
structure NamingDiscipline (R : Machine → Machine → Prop) : Prop extends Track R where
  advanceBy : ∀ raw, Keeps R (advanceBy raw)
  addBytes : ∀ {m : Machine} {bytes slice arena}, m.arena.addBytes bytes = some (slice, arena) →
    R m (m.withArena arena)

namespace NamingDiscipline

variable {R : Machine → Machine → Prop} (h : NamingDiscipline R)

include h

theorem advanceRaw : Keeps R advanceRaw := h.advanceBy true

theorem keep (s : Slice) : Keeps R (keep s) := by
  intro m
  unfold Eval.keep
  split
  · split
    · exact h.allocate h.addBytes m
    · exact h.refl m
  · exact h.refl m

theorem definedName : Keeps R Statement.definedName := h.toTrack.definedName h.keep

theorem definedBody : Keeps R Statement.definedBody := h.toTrack.definedBody h.keep

theorem parameterList : Keeps R Statement.parameterList := h.toTrack.parameterList h.keep h.advanceRaw

theorem declareVariable {r : Reentry} (assigning : AssigningDiscipline R r)
    (addSymbol : ∀ {m : Machine} {name index arena},
      m.arena.addSymbol name .var 0 = some (index, arena) → R m (m.withArena arena)) :
    Keeps R (Statement.declareVariable r) :=
  h.bind h.advanceRaw fun _ => h.bind h.definedName fun _ _ =>
    assigning.assignNew fun granted => addSymbol granted

/-- A function is its parts, a routine and a symbol. -/
theorem declareFunction
    (addRoutine : ∀ routine, Keeps R (allocate (·.addRoutine routine)))
    (addSymbol : ∀ name arity value, Keeps R (allocate (·.addSymbol name (.func arity) value))) :
    Keeps R Statement.declareFunction := by
  refine h.bind h.advanceRaw fun _ => h.bind h.definedName fun name => ?_
  refine h.bind h.advanceRaw fun _ => h.bind h.parameterList fun params => ?_
  refine h.bind h.definedBody fun body => h.bind (addRoutine _) fun number => ?_
  exact h.bind (addSymbol _ _ _) fun _ => h.advanceBy false

end NamingDiscipline

/-- What is left to satisfy, where definitions are concerned, by a relation that admits new bytes,
routines and symbols without a condition. -/
structure DefiningDiscipline (R : Machine → Machine → Prop) (r : Reentry) : Prop
    extends AssigningDiscipline R r where
  addBytes : ∀ {m : Machine} {bytes slice arena}, m.arena.addBytes bytes = some (slice, arena) →
    R m (m.withArena arena)
  addRoutine : ∀ {m : Machine} {routine number arena},
    m.arena.addRoutine routine = some (number, arena) → R m (m.withArena arena)
  addSymbol : ∀ {m : Machine} {name tag value index arena},
    m.arena.addSymbol name tag value = some (index, arena) → R m (m.withArena arena)

namespace DefiningDiscipline

variable {R : Machine → Machine → Prop} {r : Reentry} (h : DefiningDiscipline R r)

include h

theorem naming : NamingDiscipline R := ⟨h.toTrack, h.advanceBy, h.addBytes⟩

theorem declareVariable : Keeps R (Statement.declareVariable r) :=
  h.naming.declareVariable h.toAssigningDiscipline h.addSymbol

theorem declareFunction : Keeps R Statement.declareFunction :=
  h.naming.declareFunction (fun _ => h.allocate h.addRoutine) fun _ _ _ => h.allocate h.addSymbol

end DefiningDiscipline

/-! ### Argument lists -/

/-- What is to satisfy by a relation that argument lists keep. -/
structure ArgumentDiscipline (R : Machine → Machine → Prop) (r : Reentry) : Prop extends Track R where
  advance : Keeps R advance
  expression : Keeps R r.expression
  push : ∀ word, Keeps R (push word)

namespace ArgumentDiscipline

variable {R : Machine → Machine → Prop} {r : Reentry} (h : ArgumentDiscipline R r)

include h

theorem argument : Keeps R (Call.argument r) := h.bind h.expression h.push

theorem parensTurn (count : Nat) : Keeps R (Call.parensTurn r count) :=
  h.bind h.argument fun _ => h.toTrack.behindArgument h.advance count

theorem bareTurn (count : Nat) : Keeps R (Call.bareTurn r count) :=
  h.bind h.argument fun _ => h.toTrack.behindBare h.advance count

theorem insideParens : Keeps R (Call.insideParens r) := by
  refine h.bind_still (still_read _) fun t => ?_
  split
  · exact h.still (still_pure _)
  · exact h.loop h.parensTurn _ 0

theorem argumentsInParens : Keeps R (Call.argumentsInParens r) := h.bind h.advance fun _ => h.insideParens

theorem argumentsAfterCallee : Keeps R (Call.argumentsAfterCallee r) := by
  refine h.bind h.advance fun _ => h.bind_still (still_read _) fun t => ?_
  split
  · exact h.argumentsInParens
  · exact h.still (still_fail _)

theorem bareArguments : Keeps R (Call.bareArguments r) := by
  refine h.bind_still still_startsExpression fun starts => ?_
  split
  · exact h.loop h.bareTurn _ 0
  · exact h.still (still_pure _)

theorem argumentsAfterCommand : Keeps R (Call.argumentsAfterCommand r) := by
  refine h.bind h.advance fun _ => h.bind_still (still_read _) fun t => ?_
  split
  · exact h.bind h.argumentsInParens fun _ => h.still (still_pure _)
  · exact h.bind h.bareArguments fun _ => h.still (still_pure _)

end ArgumentDiscipline

/-! ### Calls -/

/-- A call, once the number of literals before it is known. -/
theorem Call.inExpression_apply (r : Reentry) (s : Symbol Native) (m : Machine) :
    Call.inExpression r s m =
      ((do
        let count ← unwinding (withQuoting .argument (Call.argumentsAfterCallee r))
        let value ← Call.handOver r s count m.literals.size
        advance
        return value) : Eval Word) m := rfl

/-- A command, once the number of literals before it is known. -/
theorem Call.asStatement_apply (r : Reentry) (s : Symbol Native) (m : Machine) :
    Call.asStatement r s m =
      ((do
        let (count, inParens) ← unwinding (withQuoting .argument (Call.argumentsAfterCommand r))
        let _ ← Call.handOver r s count m.literals.size
        if inParens then advance) : Eval Unit) m := rfl

/-- What is left to satisfy, where calls are concerned, by a relation that does not look at the
stack, the literals and the quoting. The callee is a symbol that the table held when the call
began, before the arguments were evaluated. -/
structure LooseDiscipline (R : Machine → Machine → Prop) (r : Reentry) : Prop extends Track R where
  stack : ∀ m stack, R m (m.withArena { m.arena with stack })
  literals : ∀ m literals, R m { m with literals }
  quoting : ∀ m quoting, R m { m with quoting }
  advanceBy : ∀ raw, Keeps R (advanceBy raw)
  expression : Keeps R r.expression
  perform : ∀ {m m'} {index : Nat} {s native arity}, m.arena.symbols[index]? = some s →
    s.tag = .native native arity → R m m' → ∀ args, R m ((native args).perform r m').machine
  runFunction : ∀ {m m'} {index : Nat} {s arity}, m.arena.symbols[index]? = some s →
    s.tag = .func arity → R m m' → ∀ args, R m (Call.runFunction r s.value args m').machine

namespace LooseDiscipline

variable {R : Machine → Machine → Prop} {r : Reentry} (h : LooseDiscipline R r)

include h

theorem push (word : Word) : Keeps R (push word) := h.toTrack.push fun m => h.stack m _

theorem popOnto (words : List Word) (count : Nat) : Keeps R (popOnto words count) :=
  h.toTrack.popOnto (fun m => h.stack m _) words count

theorem withQuoting {α : Type} (quoting : Quoting) {x : Eval α} (hx : Keeps R x) :
    Keeps R (withQuoting quoting x) := by
  intro m
  unfold Eval.withQuoting restoring
  rw [Outcome.machine_adjust]
  exact h.trans (h.trans (h.quoting m quoting) (hx _)) (h.quoting _ _)

theorem unwinding {α : Type} {x : Eval α} (hx : Keeps R x) : Keeps R (unwinding x) := by
  intro m
  have kept := hx m
  have unwound : ∀ m' : Machine, R m m' → R m
      { m'.withArena (m'.arena.unwind m.arena.depth) with
        literals := m'.literals.truncate m.literals.size } := fun m' hm =>
    h.trans (h.trans hm (h.stack m' _)) (h.literals _ _)
  unfold Eval.unwinding
  cases hm : x m with
  | done a m' =>
    rw [hm] at kept
    exact kept
  | failed e m' =>
    rw [hm] at kept
    exact unwound m' kept
  | stopped why m' =>
    rw [hm] at kept
    exact unwound m' kept

theorem advance : Keeps R advance := h.advanceBy false

theorem arguments : ArgumentDiscipline R r :=
  ⟨h.toTrack, h.advance, h.expression, h.push⟩

theorem runCallee {m m₁ : Machine} {index : Nat} {s : Symbol Native}
    (found : m.arena.symbols[index]? = some s) (hm : R m m₁) (args : List Word) (literals : Nat) :
    R m (Call.runCallee r s args literals m₁).machine := by
  unfold Call.runCallee
  split
  · exact hm
  · cases htag : s.tag with
    | native native arity =>
      change R m (withPending literals ((native args).perform r) m₁).machine
      unfold withPending
      rw [Outcome.machine_adjust]
      have opened := h.trans hm (h.literals m₁ (m₁.literals.openFrame literals).2)
      exact h.trans (h.perform found htag opened args) (h.literals _ _)
    | func arity => exact h.runFunction found htag hm args
    | var => exact hm
    | operator op => exact hm
    | keyword word => exact hm

theorem handOver {m m₁ : Machine} {index : Nat} {s : Symbol Native}
    (found : m.arena.symbols[index]? = some s) (hm : R m m₁) (count literals : Nat) :
    R m (Call.handOver r s count literals m₁).machine := by
  unfold Call.handOver truncatingLiterals
  rw [Outcome.machine_adjust]
  refine h.trans ?_ (h.literals _ _)
  exact related_bind (h.trans hm (h.popOnto [] count m₁)) fun args m₂ _ popped =>
    h.runCallee found popped args literals

theorem inExpression {m : Machine} {index : Nat} {s : Symbol Native}
    (found : m.arena.symbols[index]? = some s) : R m (Call.inExpression r s m).machine := by
  rw [Call.inExpression_apply]
  refine related_bind (h.unwinding (h.withQuoting .argument h.arguments.argumentsAfterCallee) m)
    fun count m₁ _ args => ?_
  refine related_bind (h.handOver found args count _) fun value m₂ _ handed => ?_
  exact related_bind_still (h.trans handed (h.advance m₂)) fun _ => still_pure _

theorem asStatement {m : Machine} {index : Nat} {s : Symbol Native}
    (found : m.arena.symbols[index]? = some s) : R m (Call.asStatement r s m).machine := by
  rw [Call.asStatement_apply]
  refine related_bind (h.unwinding (h.withQuoting .argument h.arguments.argumentsAfterCommand) m)
    fun counted m₁ _ args => ?_
  refine related_bind (h.handOver found args counted.1 _) fun _ m₂ _ handed => ?_
  cases counted.2 with
  | true => exact h.trans handed (h.advance m₂)
  | false => exact handed

theorem and {S : Machine → Machine → Prop} (k : LooseDiscipline S r) :
    LooseDiscipline (fun m m' => R m m' ∧ S m m') r where
  toTrack := h.toTrack.and k.toTrack
  stack m stack := ⟨h.stack m stack, k.stack m stack⟩
  literals m literals := ⟨h.literals m literals, k.literals m literals⟩
  quoting m quoting := ⟨h.quoting m quoting, k.quoting m quoting⟩
  advanceBy raw m := ⟨h.advanceBy raw m, k.advanceBy raw m⟩
  expression m := ⟨h.expression m, k.expression m⟩
  perform found htag hm args := ⟨h.perform found htag hm.1 args, k.perform found htag hm.2 args⟩
  runFunction found htag hm args :=
    ⟨h.runFunction found htag hm.1 args, k.runFunction found htag hm.2 args⟩

end LooseDiscipline

/-! ### Files and natives -/

/-- What is left to satisfy, where files are concerned. -/
structure OuterDiscipline (R : Machine → Machine → Prop) (r : Reentry) : Prop extends Track R where
  write : ∀ stream bytes, Keeps R (Eval.write stream bytes)
  ask : ∀ question, Keeps R (r.world.ask question)
  text : ∀ text duplicate topLevel, Keeps R (Eval.text r text duplicate topLevel)

theorem keeps_reporting {α : Type} {R : Machine → Machine → Prop} (h : Track R)
    (hwrite : ∀ bytes, Keeps R (Eval.write .err bytes)) {x : Eval α} (hx : Keeps R x) :
    Keeps R (reporting x) := by
  intro m
  have kept := hx m
  unfold reporting
  cases hm : x m with
  | done a m' =>
    rw [hm] at kept
    exact kept
  | failed e m' =>
    rw [hm] at kept
    dsimp only
    split
    · exact h.trans kept (hwrite _ m')
    · exact kept
  | stopped why m' =>
    rw [hm] at kept
    exact kept

/-- A script file is asked for, and that is all that is done. -/
theorem keeps_readScript {R : Machine → Machine → Prop} {world : World} (h : Track R)
    (hask : ∀ question, Keeps R (world.ask question)) (path : String) :
    Keeps R (readScript world path) := by
  refine h.bind (hask _) fun reading => ?_
  split
  · exact h.still (still_fail _)
  · exact h.still (still_fail _)
  · refine h.bind_still (still_read _) fun limit => ?_
    split
    · exact h.still (still_fail _)
    · exact h.still (still_pure _)

/-- A text is evaluated in a slot of its own, while one more evaluation is under way. -/
theorem Track.text {R : Machine → Machine → Prop} {r : Reentry} (h : Track R)
    (note : ∀ m, R m m.note) (depth : ∀ m depth, R m { m with depth })
    (write : ∀ bytes, Keeps R (Eval.write .err bytes))
    (hold : ∀ {x : Nat → Eval Unit} (text forGood), (∀ slot, Keeps R (x slot)) →
      Keeps R (holding text forGood x))
    (hbody : ∀ body topLevel duplicate, Keeps R (r.body body topLevel duplicate))
    (text : String) (duplicate topLevel : Bool) : Keeps R (Eval.text r text duplicate topLevel) := by
  have inside : ∀ slot, Keeps R (entering (do
      let _ ← r.body ⟨.text slot, 0, (Text.encode text).length⟩ topLevel duplicate)) := by
    intro slot m
    unfold entering
    rw [Outcome.machine_adjust]
    have ran := h.bind (hbody ⟨.text slot, 0, (Text.encode text).length⟩ topLevel duplicate)
      (fun _ => h.still (still_pure ())) { m with depth := m.depth + 1 }
    exact h.trans (h.trans (depth m _) ran) (depth _ _)
  exact fun m => h.trans (note m) (keeps_reporting h write (hold _ _ inside) m.note)

theorem OuterDiscipline.readScript {R : Machine → Machine → Prop} {r : Reentry}
    (h : OuterDiscipline R r) (path : String) : Keeps R (reporting (readScript r.world path)) :=
  keeps_reporting h.toTrack (h.write .err) (keeps_readScript h.toTrack h.ask path)

theorem OuterDiscipline.file {R : Machine → Machine → Prop} {r : Reentry} (h : OuterDiscipline R r)
    (path : String) : Keeps R (Eval.file r path) :=
  h.bind (h.readScript path) fun contents => h.text contents true true

/-- What is left to satisfy, where natives are concerned, by a relation that admits every
definition. -/
structure ActingDiscipline (R : Machine → Machine → Prop) (r : Reentry) : Prop
    extends OuterDiscipline R r where
  takeLiteral : Keeps R takeLiteral
  look : Keeps R look
  define : ∀ name tag value, Keeps R (define name tag value)

/-- Whatever a native does, it keeps the relation. -/
theorem ActingDiscipline.perform {R : Machine → Machine → Prop} {r : Reentry}
    (h : ActingDiscipline R r) (action : Action) : Keeps R (action.perform r) := by
  induction action with
  | give value => exact h.still (still_pure _)
  | fail error => exact h.still (still_fail _)
  | takeLiteral next ih => exact h.bind h.takeLiteral fun text? => ih text?
  | write stream bytes next ih => exact h.bind (h.write stream bytes) fun _ => ih
  | look next ih => exact h.bind h.look fun view => ih view
  | define name tag value next ih =>
    exact h.bind (h.define name tag value).attempt fun index => ih index
  | evalText text duplicate topLevel next ih =>
    exact h.bind (h.text text duplicate topLevel).attempt fun ended => ih ended
  | evalFile path next ih => exact h.bind (h.file path).attempt fun ended => ih ended
  | ask question next ih => exact h.bind (h.ask question) fun answer => ih answer

/-! ### Frames, scopes and bodies -/

/-- A relation that minds neither where a machine reads nor what it holds for a result, and admits
that a scope drops its symbols. -/
structure Roaming (R : Machine → Machine → Prop) : Prop extends Track R where
  elsewhere : ∀ {m m'}, m'.memory = m.memory → m'.history = m.history → m'.depth = m.depth →
    m'.transcript = m.transcript → R m m'
  note : ∀ m, R m m.note
  rollback : ∀ {m m'}, R m m' → R m (m'.withArena (m'.arena.rollback m.arena.symbols.size))

namespace Roaming

variable {R : Machine → Machine → Prop} (h : Roaming R)

include h

theorem advanceBy (raw : Bool) : Keeps R (advanceBy raw) := by
  intro m
  obtain ⟨cursor, token, literals, hm, -⟩ := advanceBy_machine raw m
  rw [hm]
  exact h.elsewhere rfl rfl rfl rfl

theorem ask (world : World) (question : Question) : Keeps R (world.ask question) :=
  h.toTrack.ask (fun _ _ => h.elsewhere rfl rfl rfl rfl) world question

theorem inFrame {α : Type} {x : Eval α} (hx : Keeps R x) : Keeps R (Call.inFrame x) := by
  intro m
  unfold Call.inFrame restoring
  rw [Outcome.machine_adjust]
  exact h.trans (h.rollback (hx m)) (h.elsewhere rfl rfl rfl rfl)

theorem inScope {α : Type} {x : Eval α} (hx : Keeps R x) (topLevel : Bool) :
    Keeps R (inScope topLevel x) := by
  intro m
  unfold Eval.inScope restoring
  rw [Outcome.machine_adjust]
  cases topLevel with
  | true => exact hx m
  | false => exact h.rollback (hx m)

/-- What runs in a body, before the scope is left. -/
theorem inBody {x : Eval Ending} (hx : Keeps R x) (body : Slice) (duplicate : Bool) :
    Keeps R (inBody body duplicate (locating do advance; x)) := by
  intro m
  unfold Eval.inBody restoring locating
  rw [Outcome.machine_adjust, Outcome.machine_adjustError]
  have started : R m { m with cursor := m.cursorAt body, quoting := .plain, duplicate } :=
    h.elsewhere rfl rfl rfl rfl
  have ran := h.bind (h.advanceBy false) (fun _ => hx)
    { m with cursor := m.cursorAt body, quoting := .plain, duplicate }
  exact h.trans (h.trans started ran) (h.elsewhere rfl rfl rfl rfl)

theorem wholeBody {r : Reentry} (statements : Keeps R (Statement.statements r)) (body : Slice)
    (topLevel duplicate : Bool) : Keeps R (r.wholeBody body topLevel duplicate) :=
  h.inScope (h.inBody statements body duplicate) topLevel

section

variable {r : Reentry}
  (hbody : ∀ body topLevel duplicate, Keeps R (r.body body topLevel duplicate))

include hbody

theorem nestedBody (body : Slice) : Keeps R (Statement.nestedBody r body) := fun m =>
  h.trans (h.note m) (h.bind (hbody body false false) (fun _ => h.still (still_pure _)) m.note)

/-- Statements, where calls mind neither the stack nor the literals. -/
theorem undeclaring (loose : LooseDiscipline R r) (assigning : AssigningDiscipline R r)
    (declareVariable : Keeps R (Statement.declareVariable r)) : UndeclaringDiscipline R r where
  toTrack := h.toTrack
  advanceBy := h.advanceBy
  rewind hm := h.trans hm (h.elsewhere rfl rfl rfl rfl)
  result _ _ := h.elsewhere rfl rfl rfl rfl
  plain hx := loose.withQuoting .plain hx
  expression := loose.expression
  nestedBody := h.nestedBody hbody
  inExpression := loose.inExpression
  asStatement := loose.asStatement
  reassign := assigning.reassign
  declareVariable := declareVariable

variable (bind : ∀ bindings, Keeps R (Call.bindParameters bindings))

include bind

theorem framed (routine : Routine) (args : List Word) :
    Keeps R (do
      Call.bindParameters (routine.params.zip args)
      update fun m => { m with result := 0 }
      let _ ← r.body routine.body false false
      read (·.result)) := by
  refine h.bind (bind _) fun _ => ?_
  refine h.bind (fun _ => h.elsewhere rfl rfl rfl rfl) fun _ => ?_
  exact h.bind (hbody _ false false) fun _ => h.still (still_read _)

theorem runFunction (number : Word) (args : List Word) :
    Keeps R (Call.runFunction r number args) := by
  intro m
  refine h.trans (h.note m) ?_
  refine h.bind_still (still_read _) (fun routine? => ?_) m.note
  cases routine? with
  | none => exact h.still (still_fail _)
  | some routine => exact h.inFrame (h.framed hbody bind routine args)

end

end Roaming

/-! ### Every budget -/

/-- The knot of evaluation, tied for two relations at once: one is kept by expressions and the other by
bodies, as long as what is nested in them keeps both. -/
theorem keeps_ofFuel {R S : Machine → Machine → Prop} (hR : Track R) (hS : Track S) (world : World)
    (expression : ∀ {r : Reentry}, Keeps R r.expression →
      (∀ body topLevel duplicate, Keeps S (r.body body topLevel duplicate)) →
        Keeps R r.wholeExpression)
    (body : ∀ {r : Reentry}, Keeps R r.expression →
      (∀ body topLevel duplicate, Keeps S (r.body body topLevel duplicate)) →
        ∀ body topLevel duplicate, Keeps S (r.wholeBody body topLevel duplicate))
    (fuel : Nat) :
    Keeps R (evalExpression world fuel) ∧
      ∀ body topLevel duplicate, Keeps S (evalBody world fuel body topLevel duplicate) := by
  induction fuel with
  | zero => exact ⟨fun m => hR.refl m, fun _ _ _ m => hS.refl m⟩
  | succ fuel ih =>
    exact ⟨expression (r := .ofFuel world fuel) ih.1 ih.2, body (r := .ofFuel world fuel) ih.1 ih.2⟩

end Scriptlet
