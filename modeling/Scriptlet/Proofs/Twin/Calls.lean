import Scriptlet.Proofs.Tandem.Statements
import Scriptlet.Proofs.Twin.Outer
import Scriptlet.Proofs.Twin.Steps

/-!
Calls and nested bodies on two machines that read the same. The arguments have piled up on both sides alike.
The callee is run outside the script, and it leaves the machines where they were reading; and so is a
nested body. With that the machines go through statements side by side (`Twins.discipline`).
-/

namespace Scriptlet

open Eval

variable {α : Type} {σ : Terms} {m m' n n' : Machine}

namespace Agree

variable {Q Q' : Post α} {P : α → Token → Prop} {x x' : Eval α}

theorem truncatingLiterals (count : Nat) (hx : Agree σ (σ.tandem.At P) m m' (x m) (x' m')) :
    Agree σ (σ.tandem.At P) m m' (Eval.truncatingLiterals count x m)
      (Eval.truncatingLiterals count x' m') := by
  refine adjust hx (fun {a a' n n'} ⟨same, token, abreast⟩ => ?_) fun {n n'} fell => ?_
  · rw [abreast.literals]
    have next := abreast.withLiterals (n.literals.truncate count)
    exact ⟨next.1, same, token, next.2⟩
  · rw [fell.literals]
    exact fell.withLiterals _

theorem withPending (count : Nat) (h : Abreast σ m m')
    (hx : ∀ {n n'}, n.token = m.token → Abreast σ n n' → Agree σ (σ.tandem.At P) n n' (x n) (x' n')) :
    Agree σ (σ.tandem.At P) m m' (Eval.withPending count x m) (Eval.withPending count x' m') := by
  unfold Eval.withPending
  dsimp only
  rw [h.literals]
  have begun := h.withLiterals (m.literals.openFrame count).2
  refine adjust (since begun.1 (hx rfl begun.2)) (fun {a a' n n'} ⟨same, token, abreast⟩ => ?_)
    fun {n n'} fell => ?_
  · rw [abreast.literals]
    have next := abreast.withLiterals (n.literals.closeFrame (m.literals.openFrame count).1)
    exact ⟨next.1, same, token, next.2⟩
  · rw [fell.literals]
    exact fell.withLiterals _

end Agree

theorem agree_popOnto (words : List Word) (count : Nat) (h : Abreast σ m m') :
    Agree σ (σ.tandem.At fun _ t => t = m.token) m m' (popOnto words count m) (popOnto words count m') := by
  induction count generalizing words m m' with
  | zero => exact .done ⟨h.since, rfl, rfl, h⟩
  | succ count ih =>
    have next := h.withStack m.arena.stack.pop
    change Agree σ _ m m'
      (popOnto (m.arena.stack.back?.getD 0 :: words) count
        (m.withArena { m.arena with stack := m.arena.stack.pop }))
      (popOnto (m'.arena.stack.back?.getD 0 :: words) count
        (m'.withArena { m'.arena with stack := m'.arena.stack.pop }))
    rw [h.stack]
    exact Agree.since next.1 (ih _ next.2)

/-! ### Callees -/

/-- What runs outside the script leaves the machines where they were reading. -/
theorem Concur.agree {o o' : Outcome α} (c : Concur σ.strict o o') (h : Abreast σ m m')
    (since : Since m m' o.machine o'.machine) (back : Returned m o.machine)
    (back' : Returned m' o'.machine) : Agree σ (σ.tandem.At fun _ t => t = m.token) m m' o o' := by
  cases c with
  | done c =>
    obtain ⟨same, core⟩ := c
    exact .done ⟨since, same, back.token, h.next core since back.cursor back'.cursor back.token back'.token⟩
  | failed he core =>
    exact .failed he (h.next core since back.cursor back'.cursor back.token back'.token).fell
  | stopped => exact .stopped
  | excused he => exact .excused (.inr he)
  | excused' he => exact .excused' he

section

variable {r : Reentry} (hbody : BodyDiscipline true r) (twins : Twins σ.strict r)

include hbody twins

theorem agree_perform {action action' : Action} (alike : action.Alike σ.strict action')
    (h : Abreast σ m m') :
    Agree σ (σ.tandem.At fun _ t => t = m.token) m m' (action.perform r m) (action'.perform r m') := by
  have back := (returned_acting hbody.bracket).perform action m
  have back' := (returned_acting hbody.bracket).perform action' m'
  have reached := (outer_perform hbody (fun _ => alike.honest.1) m h.sound).anywhere m.home
  have reached' := (outer_perform hbody (fun _ => alike.honest.2) m' h.sound').anywhere m'.home
  exact (concur_perform hbody twins alike h.toCore).agree h
    ⟨after_of_returned h.placed reached back, after_of_returned h.placed' reached' back'⟩ back back'

theorem agree_runFunction {index : Nat} {s s' : Symbol Native} (h : Abreast σ m m')
    (found : m.arena.symbols[index]? = some s) (found' : m'.arena.symbols[index]? = some s')
    {arity : Nat} (htag : s.tag = .func arity) (args : List Word) :
    Agree σ (σ.tandem.At fun _ t => t = m.token) m m' (Call.runFunction r s.value args m)
      (Call.runFunction r s'.value args m') := by
  have htag' : s'.tag = .func arity :=
    ((h.table.symbols found found').tag.eq (by simp [htag])).trans htag
  have back := (bracketed_runFunction hbody.bracket s.value args m).toReturned
  have back' := (bracketed_runFunction hbody.bracket s'.value args m').toReturned
  have reached : Reached true m.home m (Call.runFunction r s.value args m).machine :=
    reached_runFunction hbody h.sound s.value args fun _ _ hroutine =>
      h.sound.intact.holds_routine found htag hroutine _ List.mem_cons_self
  have reached' : Reached true m'.home m' (Call.runFunction r s'.value args m').machine :=
    reached_runFunction hbody h.sound' s'.value args fun _ _ hroutine =>
      h.sound'.intact.holds_routine found' htag' hroutine _ List.mem_cons_self
  exact (concur_runFunction twins h.toCore found found' htag args).agree h
    ⟨after_of_returned h.placed reached back, after_of_returned h.placed' reached' back'⟩ back back'

theorem agree_runCallee {index : Nat} {s s' : Symbol Native} (h : Abreast σ m m')
    (found : m.arena.symbols[index]? = some s) (found' : m'.arena.symbols[index]? = some s')
    (args : List Word) (literals : Nat) :
    Agree σ (σ.tandem.At fun _ t => t = m.token) m m' (Call.runCallee r s args literals m)
      (Call.runCallee r s' args literals m') := by
  have alike := (h.table.symbols found found').tag
  unfold Call.runCallee
  rw [alike.arity?]
  split
  · exact Agree.fail h.fell _
  · cases htag : s.tag with
    | native native arity =>
      rw [htag] at alike
      cases htag' : s'.tag with
      | native native' arity' =>
        rw [htag'] at alike
        cases alike with
        | same other => exact absurd rfl (other native arity)
        | native _ natives =>
          refine Agree.withPending literals h fun {n n'} ht abreast => ?_
          rw [← ht]
          exact agree_perform hbody twins (natives args) abreast
      | _ =>
        rw [htag'] at alike
        cases alike
    | func arity =>
      have htag' : s'.tag = .func arity := (alike.eq (by simp [htag])).trans htag
      rw [htag']
      exact agree_runFunction hbody twins h found found' htag args
    | _ =>
      rw [(alike.eq (by simp [htag])).trans htag]
      exact Agree.fail h.fell _

theorem agree_handOver {index : Nat} {s s' : Symbol Native} (h : Abreast σ m m')
    (found : m.arena.symbols[index]? = some s) (found' : m'.arena.symbols[index]? = some s')
    (hvar : s.tag ≠ .var) (count literals : Nat) :
    Agree σ (σ.tandem.At fun _ t => t = m.token) m m' (Call.handOver r s count literals m)
      (Call.handOver r s' count literals m') := by
  have hvar' := (h.table.symbols found found').tag.counterpart.ne_var hvar
  refine Agree.truncatingLiterals literals ?_
  refine Agree.bind (agree_popOnto [] count h) fun {args args' n n'} since ⟨same, token, abreast⟩ => ?_
  subst same
  have callee := since.after.grows.callee found hvar
  have callee' := since.after'.grows.callee found' hvar'
  rw [← token]
  exact agree_runCallee hbody twins abreast callee callee' args' literals

theorem agree_nestedBody {body body' : Slice} (h : Abreast σ m m') (held : HeldAlike σ m m' body body') :
    Agree σ (fun _ _ n n' => Abreast σ n n') m m' (Statement.nestedBody r body m)
      (Statement.nestedBody r body' m') := by
  have concur : Concur σ.strict (Statement.nestedBody r body m) (Statement.nestedBody r body' m') :=
    Concur.bind (twins.body false h.toCore.note held.held held.held' held.sight fun _ => rfl)
      fun core => .done ⟨rfl, core⟩
  exact Agree.imp (concur.agree h
    ⟨inner_nestedBody hbody body m h.sound h.placed, inner_nestedBody hbody body' m' h.sound' h.placed'⟩
    (bracketed_nestedBody hbody.bracket body m).toReturned
    (bracketed_nestedBody hbody.bracket body' m').toReturned) fun _ ⟨_, _, abreast⟩ => abreast

/-- Where bodies and expressions do alike on both sides, so does all that is nested in a construct. -/
theorem Twins.discipline : σ.tandem.Discipline r where
  toDefinitions := σ.definitions
  onward := .inl trivial
  expression h := twins.expression σ.more h
  handOver h found found' hvar count literals := agree_handOver hbody twins h found found' hvar count literals
  nestedBody h held := agree_nestedBody hbody twins h held
  looseAtom h := h.elim
  looseArguments h := h.elim

end

end Scriptlet
