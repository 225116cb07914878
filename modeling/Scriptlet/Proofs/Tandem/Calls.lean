import Scriptlet.Proofs.Tandem.Steps

/-!
Calls and expressions on two machines side by side. An expression ends at tokens that go together, with the
same value. In a call the arguments are read in lockstep; then the callee is run outside the script, and
leaves the machines where they were reading.

Where the first machine is behind the end of what the two have in common, it may go on as if it were not.
So each part of an expression has to show, of all that comes after the first token it takes, that it reads
on.
-/

namespace Scriptlet

open Eval

variable {α β : Type} {m m' n n' : Machine}

namespace Tandem

/-- What is known, on two machines side by side, of what is nested in a construct. -/
structure Discipline (T : Tandem) (r : Reentry) : Prop extends T.Definitions where
  onward : T.Level ∨
    Keeps Ahead r.expression ∧ ∀ body topLevel duplicate, Keeps Bracketed (r.body body topLevel duplicate)
  expression : ∀ {m m'}, T.Abreast m m' → T.Rel (Equally T.Abreast) m m' (r.expression m) (r.expression m')
  handOver : ∀ {m m'} {index : Nat} {s s'}, T.Abreast m m' → m.arena.symbols[index]? = some s →
    m'.arena.symbols[index]? = some s' → s.tag ≠ .var → ∀ count literals,
    T.Rel (T.At fun _ t => t = m.token) m m' (Call.handOver r s count literals m)
      (Call.handOver r s' count literals m')
  nestedBody : ∀ {m m' body body'}, T.Abreast m m' → T.Held m m' body body' →
    T.Rel T.OnBoth m m' (Statement.nestedBody r body m) (Statement.nestedBody r body' m')
  looseAtom : ∀ {m m'}, T.AtClose m → T.Loose m m' (Expression.atom r m)
  looseArguments : ∀ {m m'}, T.AtClose m → T.Loose m m' (r.loop (Call.parensTurn r) 0 m)

namespace Discipline

variable {T : Tandem} {r : Reentry} (d : T.Discipline r)

include d

/-- What reads on if expressions do, and bodies come back, is no obstacle. -/
theorem reading {ι : Type} {f : ι → Eval α}
    (ahead : Keeps Ahead r.expression →
      (∀ body topLevel duplicate, Keeps Bracketed (r.body body topLevel duplicate)) →
      ∀ i, Keeps Ahead (f i)) : T.Onward f := d.onward.imp_right fun known => ahead known.1 known.2

/-! ### Argument lists -/

theorem argument (h : T.Abreast m m') :
    T.Rel T.OnBoth m m' (Call.argument r m) (Call.argument r m') := by
  refine d.bind (d.expression h) (.inr fun _ => ahead_allocate _)
    fun {value value' n n'} _ ⟨same, abreast⟩ => ?_
  subst same
  exact d.push value' abreast

theorem behindArgument (count : Nat) (h : T.Abreast m m') :
    T.Rel (Turns (fun (_ : Nat) n n' => T.Abreast n n') (T.At fun _ t => t = .closeParen)) m m'
      (Call.behindArgument count m) (Call.behindArgument count m') := by
  have unclosed : T.Rel (Turns (fun (_ : Nat) n n' => T.Abreast n n') (T.At fun _ t => t = .closeParen)) m m'
      ((complain .expectedClose : Eval (Turn Nat Nat)) m) ((complain .expectedClose : Eval _) m') :=
    d.fail h _
  refine d.token h (fun {t} _ ht _ => ?_) (fun _ _ => unclosed) (fun _ _ => unclosed) (fun _ _ => unclosed)
    fun atClose _ => ?_
  · cases t with
    | comma =>
      exact d.bind (d.advance h (by rw [ht]; exact nofun)) (.inr fun _ => ahead_track.still (still_pure _))
        fun _ abreast => d.pure abreast (.again abreast)
    | closeParen => exact d.pure h (.finish ⟨rfl, ht, h⟩)
    | _ => exact unclosed
  · cases ht : m.token with
    | comma => exact d.astray atClose (.inr fun _ => ahead_track.still (still_pure _)) _ _
    | closeParen => exact d.pure h (.finish ⟨rfl, ht, h⟩)
    | _ => exact d.refused atClose (.inl rfl) _ _

theorem parensTurn (count : Nat) (h : T.Abreast m m') :
    T.Rel (Turns (fun (_ : Nat) n n' => T.Abreast n n') (T.At fun _ t => t = .closeParen)) m m'
      (Call.parensTurn r count m) (Call.parensTurn r count m') :=
  d.bind (d.argument h) (.inr fun _ => ahead_track.behindArgument (ahead_advanceBy false) count)
    fun _ abreast => d.behindArgument count abreast

/-- The arguments in parentheses end at the closing one. -/
theorem insideParens (h : T.Abreast m m') :
    T.Rel (T.At fun _ t => t = .closeParen) m m' (Call.insideParens r m) (Call.insideParens r m') := by
  refine d.tokenIs .closeParen rfl ⟨nofun, nofun⟩ h (fun ht => d.pure h ⟨rfl, ht, h⟩) ?_ fun atClose => ?_
  · refine d.loop (I := fun _ n n' => T.Abreast n n') (d.reading fun expression bracket => ?_)
      (fun {count _ _} since abreast => d.since since (d.parensTurn count abreast)) r.passes (d.begun h) h
    exact (ahead_loose expression bracket).arguments.parensTurn
  · rw [if_pos rfl]
    exact d.looseArguments atClose

theorem argumentsInParens (h : T.Abreast m m') (other : m.token ≠ .eof) :
    T.Rel (T.At fun _ t => t = .closeParen) m m' (Call.argumentsInParens r m)
      (Call.argumentsInParens r m') :=
  d.bind (d.advance h other)
    (d.reading fun expression bracket _ => (ahead_loose expression bracket).arguments.insideParens)
    fun _ abreast => d.insideParens abreast

theorem argumentsAfterCallee (h : T.Abreast m m') (other : m.token ≠ .eof) :
    T.Rel (T.At fun _ t => t = .closeParen) m m' (Call.argumentsAfterCallee r m)
      (Call.argumentsAfterCallee r m') := by
  refine d.bind (d.advance h other) (d.reading fun expression bracket _ => ahead_opening expression bracket)
    fun _ abreast => ?_
  refine d.tokenIs .openParen rfl ⟨nofun, nofun⟩ abreast
    (fun ht => d.argumentsInParens abreast (by rw [ht]; exact nofun)) (d.fail abreast _) fun atClose => ?_
  rw [if_neg nofun]
  exact d.astray atClose
    (d.reading fun expression bracket _ => (ahead_loose expression bracket).arguments.insideParens)

/-! ### Calls -/

theorem inExpression {index : Nat} {s s' : Symbol Native} (h : T.Abreast m m') (other : m.token ≠ .eof)
    (found : m.arena.symbols[index]? = some s) (found' : m'.arena.symbols[index]? = some s')
    (tags : s.tag.Counterpart s'.tag) (hvar : s.tag ≠ .var) :
    T.Rel (Equally T.Abreast) m m' (Call.inExpression r s m) (Call.inExpression r s' m') := by
  have still : ∀ value : Word, Keeps Ahead (do advance; return value : Eval Word) := fun value =>
    ahead_track.bind (ahead_advanceBy false) fun _ => ahead_track.still (still_pure _)
  rw [Call.inExpression_apply, Call.inExpression_apply, d.literals h]
  refine d.bind (d.unwinding h (d.withQuoting .argument h fun quoting =>
      d.argumentsAfterCallee quoting other)) (d.reading fun _ bracket count => ?_)
    fun {count count' n n'} since ⟨same, token, abreast⟩ => ?_
  · exact ahead_track.bind (ahead_handOver bracket s count _) still
  · subst same
    obtain ⟨grows, grows'⟩ := d.grows since
    refine d.bind (d.handOver abreast (grows.callee found hvar) (grows'.callee found' (tags.ne_var hvar)) hvar
      count' _) (.inr still) fun {value value' k k'} _ ⟨same, token', abreast⟩ => ?_
    refine d.bind (d.advance abreast (by rw [token', token]; exact nofun))
      (.inr fun _ => ahead_track.still (still_pure _)) fun _ abreast => d.pure abreast ⟨same, abreast⟩

/-! ### Expressions -/

theorem group (h : T.Abreast m m') (other : m.token ≠ .eof) :
    T.Rel (T.At fun _ t => t = .closeParen) m m' (Expression.group r m) (Expression.group r m') := by
  refine d.bind (d.advance h other)
    (d.reading fun expression _ _ => ahead_track.bind expression ahead_closing) fun _ abreast => ?_
  refine d.bind (d.expression abreast) (.inr ahead_closing) fun {value value' n n'} _ ⟨same, abreast⟩ => ?_
  exact d.tokenIs .closeParen rfl ⟨nofun, nofun⟩ abreast (fun ht => d.pure abreast ⟨same, ht, abreast⟩)
    (d.fail abreast _) fun atClose => by rw [if_pos rfl]; exact d.refused atClose (.inl rfl)

theorem symbolAtom {index : Nat} {s s' : Symbol Native} (h : T.Abreast m m') (other : m.token ≠ .eof)
    (found : m.arena.symbols[index]? = some s) (found' : m'.arena.symbols[index]? = some s')
    (counterpart : s.Counterpart s') :
    T.Rel (Equally T.Abreast) m m' (Expression.symbolAtom r s m) (Expression.symbolAtom r s' m') := by
  have tags := counterpart.tag
  have call : s.tag ≠ .var → T.Rel (Equally T.Abreast) m m' (Call.inExpression r s m)
      (Call.inExpression r s' m') := d.inExpression h other found found' tags
  unfold Expression.symbolAtom
  generalize s.tag = tag at tags call ⊢
  generalize s'.tag = tag' at tags ⊢
  cases tags with
  | native => exact call nofun
  | same plain =>
    cases tag with
    | var =>
      exact d.bind (d.advance h other) (.inr fun _ => ahead_track.still (still_pure _)) fun _ abreast =>
        d.pure abreast ⟨counterpart.value, abreast⟩
    | native native arity => exact absurd rfl (plain native arity)
    | func arity => exact call nofun
    | operator op =>
      refine d.bind (d.advance h other) (d.reading fun expression _ _ =>
        ahead_track.bind expression fun _ => ahead_track.still (still_ofExcept _)) fun _ abreast => ?_
      refine d.bind (d.expression abreast) (.inr fun _ => ahead_track.still (still_ofExcept _))
        fun {value value' n n'} _ ⟨same, abreast⟩ => ?_
      subst same
      exact d.ofExcept abreast _
    | keyword word => exact d.fail h _

theorem atom (h : T.Abreast m m') :
    T.Rel (Equally T.Abreast) m m' (Expression.atom r m) (Expression.atom r m') := by
  -- most atoms are a token
  have passing : ∀ value : Word, m.token ≠ .eof →
      T.Rel (Equally T.Abreast) m m' ((do advance; return value : Eval Word) m)
        ((do advance; return value : Eval Word) m') := fun value other =>
    d.bind (d.advance h other) (.inr fun _ => ahead_track.still (still_pure _)) fun _ abreast =>
      d.pure abreast ⟨rfl, abreast⟩
  have unexpected : ∀ e, T.Rel (Equally T.Abreast) m m' ((Eval.fail e : Eval Word) m)
      ((Eval.fail e : Eval Word) m') := d.fail h
  refine d.token h (fun {t} _ ht _ => ?_) (fun _ _ => unexpected _)
    (fun ht _ => passing 0 (by rw [ht]; exact nofun)) (fun _ _ => unexpected _) fun atClose _ => ?_
  · have other : t ≠ .eof → m.token ≠ .eof := fun other => by rw [ht]; exact other
    cases t with
    | number value => exact passing value (other nofun)
    | openParen =>
      refine d.bind (d.withQuoting .plain h fun quoting => d.group quoting (other nofun))
        (.inr fun _ => ahead_track.bind (ahead_advanceBy false) fun _ => ahead_track.still (still_pure _))
        fun {value value' n n'} _ ⟨same, token, abreast⟩ => ?_
      exact d.bind (d.advance abreast (by rw [token]; exact nofun))
        (.inr fun _ => ahead_track.still (still_pure _)) fun _ abreast => d.pure abreast ⟨same, abreast⟩
    | text slice => exact passing 0 (other nofun)
    | literal => exact passing Word.literalMark (other nofun)
    | symbol index =>
      exact d.symbolAt h fun found found' counterpart => d.symbolAtom h (other nofun) found found' counterpart
    | name slice => exact unexpected _
    | _ => exact unexpected _
  · exact d.looseAtom atClose _ _

theorem levelTurn {operand : Eval Word} (level : Nat) (value : Word) (ahead : T.Level ∨ Keeps Ahead operand)
    (hoperand : ∀ {n n'}, T.Abreast n n' → T.Rel (Equally T.Abreast) n n' (operand n) (operand n'))
    (h : T.Abreast m m') :
    T.Rel (Turns (fun (_ : Word) n n' => T.Abreast n n') (Equally T.Abreast)) m m'
      (Expression.levelTurn level operand value m) (Expression.levelTurn level operand value m') := by
  have onward : ∀ op : Operator, T.Onward fun _ : Unit => (do
      let operand ← operand
      let value ← Eval.ofExcept (op.apply value operand)
      return (.again value : Turn Word Word)) := fun op => ahead.imp_right fun ahead _ =>
    ahead_track.bind ahead fun _ => ahead_track.bind_still (still_ofExcept _) fun _ =>
      ahead_track.still (still_pure _)
  refine d.operatorOfLevel level h (fun op other => ?_) (d.pure h (.finish ⟨rfl, h⟩))
    fun atClose op => d.astray atClose (onward op)
  refine d.bind (d.advance h other) (onward op) fun _ abreast => ?_
  refine d.bind (hoperand abreast) (.inr fun _ => ahead_track.bind_still (still_ofExcept _) fun _ =>
    ahead_track.still (still_pure _)) fun {operand operand' _ _} _ ⟨same, abreast⟩ => ?_
  subst same
  refine d.bind (d.ofExcept abreast _) (.inr fun _ => ahead_track.still (still_pure _))
    fun {value value' _ _} _ ⟨same, abreast⟩ => ?_
  subst same
  exact d.pure abreast (.again abreast)

/-- Operators of each level are taken in lockstep. -/
theorem upToLevel (level : Nat) (h : T.Abreast m m') :
    T.Rel (Equally T.Abreast) m m' (Expression.upToLevel r level m) (Expression.upToLevel r level m') := by
  induction level generalizing m m' with
  | zero => exact d.atom h
  | succ level ih =>
    have ahead : T.Level ∨ Keeps Ahead (Expression.upToLevel r level) :=
      d.onward.imp_right fun known => (ahead_discipline known.1 known.2).upToLevel level
    have turns : T.Onward (Expression.levelTurn (level + 1) (Expression.upToLevel r level)) :=
      ahead.imp_right fun ahead value => ahead_track.levelTurn (ahead_advanceBy false) ahead _ value
    rw [Expression.upToLevel_succ]
    refine d.bind (ih h) (turns.imp_right fun turns first => ahead_track.loop turns _ first)
      fun {first first' n n'} _ ⟨same, abreast⟩ => ?_
    subst same
    exact d.loop (I := fun _ k k' => T.Abreast k k') turns (fun {value _ _} since abreast =>
      d.since since (d.levelTurn (level + 1) value ahead ih abreast)) r.passes (d.begun abreast) abreast

end Discipline

end Tandem

end Scriptlet
