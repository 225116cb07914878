import Scriptlet.Proofs.Tandem.Calls

/-!
Statements and bodies on two machines side by side, in a level comparison. What a definition keeps on one
machine goes with what it keeps on the other. A loop goes back to the same place on both.

A statement may be the last one on one machine only. What comes between statements tells the end from a
separator, so sequences of statements are followed where the machines are never apart like that.
-/

namespace Scriptlet

open Eval

variable {α : Type} {m m' n n' : Machine}

namespace Tandem.Discipline

variable {T : Tandem} {r : Reentry} (d : T.Discipline r) (level : T.Level)

include d level

/-! ### Assignments -/

theorem assign {index : Nat} {s : Symbol Native} (h : T.Abreast m m')
    (found : m.arena.symbols[index]? = some s) (hvar : s.tag = .var) :
    T.Rel T.OnBoth m m' (Statement.assign r index m) (Statement.assign r index m') := by
  have unequal : T.Rel T.OnBoth m m' ((complain .expectedEquals : Eval Unit) m)
      ((complain .expectedEquals : Eval Unit) m') := d.fail h _
  refine d.tokenTag h (fun {tag tag'} tags other => ?_) unequal
    fun atClose => absurd level (d.not_level atClose)
  cases tags with
  | native => exact unequal
  | same =>
    cases tag with
    | operator op =>
      cases op with
      | equal =>
        refine d.bind (d.advance h other) (.inl level) fun {_ _ n n'} since abreast => ?_
        refine d.bind (d.expression abreast) (.inl level) fun {value value' k k'} later ⟨same, abreast⟩ => ?_
        subst same
        obtain ⟨s₁, found₁, lasts⟩ := (d.grows (d.trans since later)).1.symbols found
        obtain ⟨set, abreast⟩ := d.setValue value' abreast found₁ (lasts.tag.trans hvar)
        exact d.done set abreast
      | _ => exact unequal
    | _ => exact unequal

theorem reassign {index : Nat} {s : Symbol Native} (h : T.Abreast m m') (other : m.token ≠ .eof)
    (found : m.arena.symbols[index]? = some s) (hvar : s.tag = .var) :
    T.Rel T.OnBoth m m' (Statement.reassign r index m) (Statement.reassign r index m') := by
  refine d.bind (d.advance h other) (.inl level) fun since abreast => ?_
  obtain ⟨s₁, found₁, lasts⟩ := (d.grows since).1.symbols found
  exact d.assign level abreast found₁ (lasts.tag.trans hvar)

/-! ### Names that are defined -/

theorem definedName (h : T.Abreast m m') :
    T.Rel (fun name name' n n' => T.Standing n n' ∧ T.Kept n n' name name') m m' (Statement.definedName m)
      (Statement.definedName m') := by
  have nameless : ∀ e, T.Rel (fun name name' n n' => T.Standing n n' ∧ T.Kept n n' name name') m m'
      ((Eval.fail e : Eval Slice) m) ((Eval.fail e : Eval Slice) m') := d.fail h
  refine d.token h (fun {t} plain _ _ => ?_)
    (fun ht ht' => d.keep level h (by rw [ht]; rfl) (by rw [ht']; rfl)) (fun _ _ => nameless _)
    (fun _ _ => nameless _) fun atClose => absurd level (d.not_level atClose)
  cases t with
  | name slice => cases plain
  | _ => exact nameless _

theorem definedBody (h : T.Abreast m m') :
    T.Rel (fun body body' n n' => T.Standing n n' ∧ T.Kept n n' body body') m m' (Statement.definedBody m)
      (Statement.definedBody m') := by
  have bodiless : ∀ e, T.Rel (fun body body' n n' => T.Standing n n' ∧ T.Kept n n' body body') m m'
      ((Eval.fail e : Eval Slice) m) ((Eval.fail e : Eval Slice) m') := d.fail h
  refine d.token h (fun {t} plain _ _ => ?_) (fun _ _ => bodiless _)
    (fun ht ht' => d.keep level h (by rw [ht]; rfl) (by rw [ht']; rfl)) (fun _ _ => bodiless _)
    fun atClose => absurd level (d.not_level atClose)
  cases t with
  | text slice => cases plain
  | _ => exact bodiless _

theorem declareVariable (h : T.Abreast m m') (other : m.token ≠ .eof) :
    T.Rel T.OnBoth m m' (Statement.declareVariable r m) (Statement.declareVariable r m') := by
  refine d.bind (d.advanceBy true h other) (.inl level) fun _ abreast => ?_
  refine d.bind (d.definedName level abreast) (.inl level) fun {name name' n n'} _ ⟨standing, kept⟩ => ?_
  refine d.bind (d.addVariable standing kept) (.inl level)
    fun {index index' n n'} _ ⟨same, found, standing⟩ => ?_
  subst same
  refine d.bind (d.readOn false standing) (.inl level) fun since abreast => ?_
  obtain ⟨s, found, lasts⟩ := (d.grows since).1.symbols found
  exact d.assign level abreast found lasts.tag

/-! ### Branches and loops -/

theorem takeBody (h : T.Abreast m m') :
    T.Rel (fun body body' n n' => T.Held n n' body body' ∧ T.Abreast n n') m m' (Statement.takeBody m)
      (Statement.takeBody m') := by
  have bodiless : ∀ e, T.Rel (fun body body' n n' => T.Held n n' body body' ∧ T.Abreast n n') m m'
      ((Eval.fail e : Eval Slice) m) ((Eval.fail e : Eval Slice) m') := d.fail h
  refine d.token h (fun {t} plain _ _ => ?_) (fun _ _ => bodiless _) (fun {slice slice'} ht ht' => ?_)
    (fun _ _ => bodiless _) fun atClose => absurd level (d.not_level atClose)
  · cases t with
    | text slice => cases plain
    | _ => exact bodiless _
  · have held : T.Held m m' slice slice' := d.takes level h (by rw [ht]; rfl) (by rw [ht']; rfl)
    exact d.bind (d.advance h (by rw [ht]; exact nofun)) (.inl level) fun since abreast =>
      d.pure abreast ⟨d.held held since, abreast⟩

theorem takeAlternative (h : T.Abreast m m') :
    T.Rel (fun body? body?' n n' => Option.Rel (T.Held n n') body? body?' ∧ T.Abreast n n') m m'
      (Statement.takeAlternative m) (Statement.takeAlternative m') := by
  have without : T.Rel (fun body? body?' n n' => Option.Rel (T.Held n n') body? body?' ∧ T.Abreast n n') m m'
      ((pure none : Eval (Option Slice)) m) ((pure none : Eval (Option Slice)) m') := d.pure h ⟨.none, h⟩
  refine d.tokenTag h (fun {tag tag'} tags other => ?_) without
    fun atClose => absurd level (d.not_level atClose)
  cases tags with
  | native => exact without
  | same =>
    cases tag with
    | keyword word =>
      cases word with
      | otherwise =>
        refine d.bind (d.advance h other) (.inl level) fun _ abreast => ?_
        exact d.bind (d.takeBody level abreast) (.inl level) fun _ ⟨held, abreast⟩ =>
          d.pure abreast ⟨.some held, abreast⟩
      | _ => exact without
    | _ => exact without

theorem branch (h : T.Standing m m') :
    T.Rel (Equally T.Abreast) m m' (Statement.branch r m) (Statement.branch r m') := by
  refine d.bind (d.readOn false h) (.inl level) fun _ abreast => ?_
  refine d.bind (d.expression abreast) (.inl level) fun {value value' n n'} _ ⟨same, abreast⟩ => ?_
  subst same
  refine d.bind (d.takeBody level abreast) (.inl level) fun {body body' _ _} _ ⟨held, abreast⟩ => ?_
  refine d.bind (d.takeAlternative level abreast) (.inl level)
    fun {body? body?' n n'} since ⟨held?, abreast⟩ => ?_
  have run : ∀ {body body'} (held? : Bool), T.Held n n' body body' →
      T.Rel (Equally T.Abreast) n n' ((do Statement.nestedBody r body; return held? : Eval Bool) n)
        ((do Statement.nestedBody r body'; return held? : Eval Bool) n') := fun held? held =>
    d.bind (d.nestedBody abreast held) (.inl level) fun _ abreast => d.pure abreast ⟨rfl, abreast⟩
  split
  · exact run true (d.held held since)
  · cases held? with
    | none => exact d.pure abreast ⟨rfl, abreast⟩
    | some held => exact run false held

/-- If the branch was taken, both machines go back to where the loop began. -/
theorem branchTurn (h : T.Standing m m') (since : T.Since m m' n n') (standing : T.Standing n n') :
    T.Rel (Turns (fun (_ : Unit) k k' => T.Standing k k') T.OnBoth) m m'
      (Statement.branchTurn r m.cursor () n) (Statement.branchTurn r m'.cursor () n') := by
  refine d.bindFrom (d.since since (d.branch level standing)) (.inl level)
    fun {held held' k k'} sofar ⟨same, abreast⟩ => ?_
  subst same
  cases held' with
  | true =>
    obtain ⟨rewound, standing⟩ := d.rewind h sofar abreast
    exact d.done rewound (.again standing)
  | false => exact d.done sofar (.finish abreast)

theorem repeatBranch (h : T.Standing m m') :
    T.Rel T.OnBoth m m' (Statement.repeatBranch r m) (Statement.repeatBranch r m') :=
  d.loop (I := fun _ n n' => T.Standing n n') (.inl level)
    (fun since standing => d.branchTurn level h since standing) r.passes (d.standing h) h

/-! ### Functions -/

/-- Parameter names are kept in the same way on both sides, up to the closing parenthesis. -/
theorem parameters (room : Nat) (h : T.Abreast m m') :
    T.Rel (fun params params' n n' => List.Forall₂ (T.Kept n n') params params' ∧ n.token = .closeParen ∧
      T.Abreast n n') m m' (Statement.parameters room m) (Statement.parameters room m') := by
  induction room generalizing m m' with
  | zero =>
    have unclosed : ∀ e, T.Rel (fun params params' n n' => List.Forall₂ (T.Kept n n') params params' ∧
        n.token = .closeParen ∧ T.Abreast n n') m m' ((Eval.fail e : Eval (List Slice)) m)
        ((Eval.fail e : Eval (List Slice)) m') := d.fail h
    refine d.token h (fun {t} _ ht _ => ?_) (fun _ _ => unclosed _) (fun _ _ => unclosed _)
      (fun _ _ => unclosed _) fun atClose => absurd level (d.not_level atClose)
    cases t with
    | closeParen => exact d.pure h ⟨.nil, ht, h⟩
    | _ => exact unclosed _
  | succ room ih =>
    refine d.tokenIs .closeParen rfl ⟨nofun, nofun⟩ h (fun ht => d.pure h ⟨.nil, ht, h⟩) ?_
      fun atClose => absurd level (d.not_level atClose)
    refine d.bind (d.definedName level h) (.inl level) fun {name name' n n'} _ ⟨standing, kept⟩ => ?_
    refine d.bind (d.readOn true standing) (.inl level) fun {_ _ k k'} since abreast => ?_
    have rest : ∀ {l l'}, T.Since k k' l l' → T.Abreast l l' →
        T.Rel (fun params params' n n' => List.Forall₂ (T.Kept n n') params params' ∧ n.token = .closeParen ∧
          T.Abreast n n') l l' ((do return name :: (← Statement.parameters room) : Eval (List Slice)) l)
          ((do return name' :: (← Statement.parameters room) : Eval (List Slice)) l') := by
      intro l l' later abreast
      refine d.bind (ih abreast) (.inl level) fun last ⟨params, token, abreast⟩ => ?_
      exact d.pure abreast ⟨.cons (d.kept kept (d.trans (d.trans since later) last)) params, token, abreast⟩
    have unclosed : T.Rel (fun params params' n n' => List.Forall₂ (T.Kept n n') params params' ∧
        n.token = .closeParen ∧ T.Abreast n n') k k' ((complain .expectedClose : Eval (List Slice)) k)
        ((complain .expectedClose : Eval (List Slice)) k') := d.fail abreast _
    refine d.token abreast (fun {t} _ ht _ => ?_) (fun _ _ => unclosed) (fun _ _ => unclosed)
      (fun _ _ => unclosed) fun atClose => absurd level (d.not_level atClose)
    cases t with
    | comma =>
      exact d.bind (d.advanceBy true abreast (by rw [ht]; exact nofun)) (.inl level) fun later abreast =>
        rest later abreast
    | closeParen => exact rest (d.begun abreast) abreast
    | _ => exact unclosed

theorem parameterList (h : T.Abreast m m') :
    T.Rel (fun params params' n n' => List.Forall₂ (T.Kept n n') params params' ∧ T.Abreast n n') m m'
      (Statement.parameterList m) (Statement.parameterList m') := by
  refine d.tokenIs .openParen rfl ⟨nofun, nofun⟩ h (fun ht => ?_) (d.pure h ⟨.nil, h⟩)
    fun atClose => absurd level (d.not_level atClose)
  refine d.bind (d.advanceBy true h (by rw [ht]; exact nofun)) (.inl level) fun _ abreast => ?_
  refine d.bind (d.parameters level maxArguments abreast) (.inl level)
    fun _ ⟨params, token, abreast⟩ => ?_
  refine d.bind (d.advanceBy true abreast (by rw [token]; exact nofun)) (.inl level) fun since abreast => ?_
  exact d.pure abreast ⟨params.imp fun _ _ kept => d.kept kept since, abreast⟩

theorem declareFunction (h : T.Abreast m m') (other : m.token ≠ .eof) :
    T.Rel T.OnBoth m m' (Statement.declareFunction m) (Statement.declareFunction m') := by
  refine d.bind (d.advanceBy true h other) (.inl level) fun _ abreast => ?_
  refine d.bind (d.definedName level abreast) (.inl level) fun {name name' _ _} _ ⟨standing, keptName⟩ => ?_
  refine d.bind (d.readOn true standing) (.inl level) fun since₁ abreast => ?_
  refine d.bind (d.parameterList level abreast) (.inl level)
    fun {params params' _ _} since₂ ⟨kept, abreast⟩ => ?_
  refine d.bind (d.definedBody level abreast) (.inl level)
    fun {body body' n n'} since₃ ⟨standing, keptBody⟩ => ?_
  rw [← kept.length_eq, ← bind_assoc, ← bind_assoc]
  have keptAll : List.Forall₂ (T.Kept n n') (body :: params) (body' :: params') :=
    .cons keptBody (kept.imp fun _ _ kept => d.kept kept since₃)
  have added := d.addFunction ⟨params, body⟩ ⟨params', body'⟩ params.length standing
    (d.kept keptName (d.trans (d.trans since₁ since₂) since₃)) keptAll
  exact d.bind added (.inl level) fun _ standing => d.readOn false standing

/-! ### Commands -/

theorem bareTurn (count : Nat) (h : T.Abreast m m') :
    T.Rel (Turns (fun (_ : Nat) n n' => T.Abreast n n') (Equally T.Abreast)) m m' (Call.bareTurn r count m)
      (Call.bareTurn r count m') := by
  refine d.bind (d.argument h) (.inl level) fun {_ _ n n'} _ abreast => ?_
  have last : T.Rel (Turns (fun (_ : Nat) k k' => T.Abreast k k') (Equally T.Abreast)) n n'
      ((pure (.finish (count + 1)) : Eval (Turn Nat Nat)) n) ((pure (.finish (count + 1)) : Eval _) n') :=
    d.pure abreast (.finish ⟨rfl, abreast⟩)
  refine d.token abreast (fun {t} _ ht _ => ?_) (fun _ _ => last) (fun _ _ => last) (fun _ _ => last)
    fun atClose => absurd level (d.not_level atClose)
  cases t with
  | comma =>
    exact d.bind (d.advance abreast (by rw [ht]; exact nofun)) (.inl level) fun _ abreast =>
      d.pure abreast (.again abreast)
  | _ => exact last

theorem bareArguments (h : T.Abreast m m') :
    T.Rel (Equally T.Abreast) m m' (Call.bareArguments r m) (Call.bareArguments r m') := by
  refine d.startsExpression level h fun starts => ?_
  cases starts with
  | false => exact d.pure h ⟨rfl, h⟩
  | true =>
    exact d.loop (I := fun _ n n' => T.Abreast n n') (.inl level) (fun {count _ _} since abreast =>
      d.since since (d.bareTurn level count abreast)) r.passes (d.begun h) h

/-- The arguments of a command end at the closing parenthesis, if they stand in parentheses. -/
theorem argumentsAfterCommand (h : T.Abreast m m') (other : m.token ≠ .eof) :
    T.Rel (T.At fun counted t => counted.2 = true → t = .closeParen) m m' (Call.argumentsAfterCommand r m)
      (Call.argumentsAfterCommand r m') := by
  refine d.bind (d.advance h other) (.inl level) fun {_ _ n n'} _ abreast => ?_
  refine d.tokenIs .openParen rfl ⟨nofun, nofun⟩ abreast (fun ht => ?_) ?_
    fun atClose => absurd level (d.not_level atClose)
  · exact d.bind (d.argumentsInParens abreast (by rw [ht]; exact nofun)) (.inl level)
      fun _ ⟨same, token, abreast⟩ => d.pure abreast ⟨congrArg (·, true) same, fun _ => token, abreast⟩
  · exact d.bind (d.bareArguments level abreast) (.inl level)
      fun _ ⟨same, abreast⟩ => d.pure abreast ⟨congrArg (·, false) same, nofun, abreast⟩

theorem asStatement {index : Nat} {s s' : Symbol Native} (h : T.Abreast m m') (other : m.token ≠ .eof)
    (found : m.arena.symbols[index]? = some s) (found' : m'.arena.symbols[index]? = some s')
    (tags : s.tag.Counterpart s'.tag) (hvar : s.tag ≠ .var) :
    T.Rel T.OnBoth m m' (Call.asStatement r s m) (Call.asStatement r s' m') := by
  rw [Call.asStatement_apply, Call.asStatement_apply, d.literals h]
  refine d.bind (d.unwinding h (d.withQuoting .argument h fun quoting =>
    d.argumentsAfterCommand level quoting other)) (.inl level)
    fun {counted counted' n n'} since ⟨same, token, abreast⟩ => ?_
  subst same
  obtain ⟨count, inParens⟩ := counted'
  obtain ⟨grows, grows'⟩ := d.grows since
  refine d.bind (d.handOver abreast (grows.callee found hvar) (grows'.callee found' (tags.ne_var hvar)) hvar
    count _) (.inl level) fun {value value' k k'} _ ⟨_, token', abreast⟩ => ?_
  cases inParens with
  | true => exact d.advance abreast (by rw [token', token rfl]; exact nofun)
  | false => exact d.pure abreast abreast

/-! ### Statements -/

theorem setResult (h : T.Abreast m m') (other : m.token ≠ .eof) :
    T.Rel T.OnBoth m m' (Statement.setResult r m) (Statement.setResult r m') := by
  refine d.bind (d.advance h other) (.inl level) fun {_ _ n n'} _ abreast => ?_
  refine d.startsExpression level abreast fun starts => ?_
  cases starts with
  | true =>
    refine d.bind (d.expression abreast) (.inl level) fun {value value' k k'} _ ⟨same, abreast⟩ => ?_
    subst same
    obtain ⟨set, abreast⟩ := d.withResult value' abreast
    exact d.done set abreast
  | false =>
    obtain ⟨set, abreast⟩ := d.withResult 0 abreast
    exact d.done set abreast

theorem ofKeyword (word : Keyword) (h : T.Abreast m m') (other : m.token ≠ .eof) :
    T.Rel (Equally T.Abreast) m m' (Statement.ofKeyword r word m) (Statement.ofKeyword r word m') := by
  have standing := d.stands level h other
  cases word with
  | var =>
    exact d.bind (d.declareVariable level h other) (.inl level) fun _ abreast => d.pure abreast ⟨rfl, abreast⟩
  | cond =>
    exact d.bind (d.branch level standing) (.inl level) fun _ ⟨_, abreast⟩ => d.pure abreast ⟨rfl, abreast⟩
  | loop =>
    exact d.bind (d.repeatBranch level standing) (.inl level) fun _ abreast => d.pure abreast ⟨rfl, abreast⟩
  | func =>
    exact d.bind (d.declareFunction level h other) (.inl level) fun _ abreast => d.pure abreast ⟨rfl, abreast⟩
  | leave =>
    exact d.bind (d.setResult level h other) (.inl level) fun _ abreast => d.pure abreast ⟨rfl, abreast⟩
  | otherwise => exact d.fail h _

/-- A statement does the same on both machines, also if it is the last one on one of them. -/
theorem statement (h : T.Abreast m m') :
    T.Rel (Equally T.Abreast) m m' (Statement.statement r m) (Statement.statement r m') := by
  have unexpected : ∀ e, T.Rel (Equally T.Abreast) m m' ((Eval.fail e : Eval Ending) m)
      ((Eval.fail e : Eval Ending) m') := d.fail h
  refine d.token h (fun {t} _ ht _ => ?_) (fun _ _ => unexpected _) (fun _ _ => unexpected _)
    (fun _ _ => unexpected _) fun atClose => absurd level (d.not_level atClose)
  cases t with
  | symbol index =>
    have other : m.token ≠ .eof := by
      rw [ht]
      exact nofun
    refine d.symbolAt h fun {s s'} found found' counterpart => ?_
    have tags := counterpart.tag
    have command : s.tag ≠ .var → T.Rel T.OnBoth m m' (Call.asStatement r s m) (Call.asStatement r s' m') :=
      d.asStatement level h other found found' tags
    have call : s.tag ≠ .var → T.Rel (Equally T.Abreast) m m' (Call.inExpression r s m)
        (Call.inExpression r s' m') := d.inExpression h other found found' tags
    have assignment : s.tag = .var → T.Rel T.OnBoth m m' (Statement.reassign r index m)
        (Statement.reassign r index m') := d.reassign level h other found
    generalize s.tag = tag at tags command call assignment ⊢
    generalize s'.tag = tag' at tags ⊢
    cases tags with
    | native => exact d.bind (command nofun) (.inl level) fun _ abreast => d.pure abreast ⟨rfl, abreast⟩
    | same plain =>
      cases tag with
      | var => exact d.bind (assignment rfl) (.inl level) fun _ abreast => d.pure abreast ⟨rfl, abreast⟩
      | native native arity => exact absurd rfl (plain native arity)
      | func arity =>
        exact d.bind (call nofun) (.inl level) fun _ ⟨_, abreast⟩ => d.pure abreast ⟨rfl, abreast⟩
      | keyword word => exact d.ofKeyword level word h other
      | operator op => exact unexpected _
  | name slice => exact unexpected _
  | _ => exact unexpected _

/-- What comes between statements is the same on both sides, unless the first machine is at its end and the
second at a separator. -/
theorem passSeparator (h : T.Abreast m m') (away : ¬ (m.token = .eof ∧ m'.token = .separator)) :
    T.Rel T.OnBoth m m' (Statement.passSeparator m) (Statement.passSeparator m') := by
  have passed : T.Rel T.OnBoth m m' ((pure () : Eval Unit) m) ((pure () : Eval Unit) m') := d.pure h h
  have unexpected : ∀ e, T.Rel T.OnBoth m m' ((Eval.fail e : Eval Unit) m) ((Eval.fail e : Eval Unit) m') :=
    d.fail h
  refine d.token h (fun {t} _ ht _ => ?_) (fun _ _ => passed) (fun _ _ => unexpected _)
    (fun eof separator => absurd ⟨eof, separator⟩ away) fun atClose => absurd level (d.not_level atClose)
  cases t with
  | eof => exact passed
  | separator => exact d.advance h (by rw [ht]; exact nofun)
  | name slice => exact passed
  | symbol index =>
    refine d.symbolAt h fun {s s'} _ _ counterpart => ?_
    have tags := counterpart.tag
    generalize s.tag = tag at tags ⊢
    generalize s'.tag = tag' at tags ⊢
    cases tags with
    | native => exact passed
    | same plain =>
      cases tag with
      | keyword word =>
        dsimp only
        split
        · exact unexpected _
        · exact passed
      | operator op => exact unexpected _
      | _ => exact passed
  | _ => exact unexpected _

/-! ### Sequences of statements -/

variable (even : ∀ {m m'}, T.Abreast m m' → ¬ (m.token = .eof ∧ m'.token = .separator))

include even

theorem statementTurn (h : T.Abreast m m') :
    T.Rel (Turns (fun (_ : Unit) n n' => T.Abreast n n') (Equally T.Abreast)) m m'
      (Statement.statementTurn r m) (Statement.statementTurn r m') := by
  refine d.bind (d.statement level h) (.inl level) fun {ending ending' n n'} _ ⟨equal, abreast⟩ => ?_
  subst equal
  cases ending' with
  | returned => exact d.pure abreast (.finish ⟨rfl, abreast⟩)
  | ranOut =>
    exact d.bind (d.passSeparator level abreast (even abreast)) (.inl level) fun _ abreast =>
      d.pure abreast (.again abreast)

/-- Where the texts end in the same way, the machines take a turn together. -/
theorem turn (h : T.Abreast m m') :
    T.Rel (Turns (fun (_ : Unit) n n' => T.Abreast n n') (Equally T.Abreast)) m m' (Statement.turn r () m)
      (Statement.turn r () m') := by
  have statement := d.statementTurn level even h
  refine d.token h (fun {t} _ ht _ => ?_) (fun _ _ => statement) (fun _ _ => statement)
    (fun eof separator => absurd ⟨eof, separator⟩ (even h)) fun atClose => absurd level (d.not_level atClose)
  cases t with
  | eof => exact d.pure h (.finish ⟨rfl, h⟩)
  | separator =>
    exact d.bind (d.advance h (by rw [ht]; exact nofun)) (.inl level) fun _ abreast =>
      d.pure abreast (.again abreast)
  | _ => exact statement

theorem turns (passes : Nat) (h : T.Abreast m m') :
    T.Rel (Equally T.Abreast) m m' (Eval.loop (Statement.turn r) passes () m)
      (Eval.loop (Statement.turn r) passes () m') :=
  d.loop (I := fun _ n n' => T.Abreast n n') (.inl level)
    (fun since abreast => d.since since (d.turn level even abreast)) passes (d.begun h) h

end Tandem.Discipline

end Scriptlet
