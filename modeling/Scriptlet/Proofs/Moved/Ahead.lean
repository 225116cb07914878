import Scriptlet.Proofs.Bracket
import Scriptlet.Proofs.Twin.Lexing

/-!
Reading goes on. In the course of an expression a machine never comes back to a place it has left: the
scanner is where it was or further on, and so is the mark, unless no token has been read since. What runs
in between, a body or a native, brings the cursor back.
-/

namespace Scriptlet

open Eval

/-- The second cursor is where the first was, or further on. -/
structure Ahead (m m' : Machine) : Prop where
  source : m'.cursor.source = m.cursor.source
  pos : m.cursor.scanner.pos ≤ m'.cursor.scanner.pos
  mark : m'.cursor.mark = m.cursor.mark ∨ m.cursor.scanner.pos ≤ m'.cursor.mark

theorem Ahead.of_cursor {m m' : Machine} (same : m'.cursor = m.cursor) : Ahead m m' :=
  ⟨congrArg _ same, same ▸ Nat.le_refl _, .inl (congrArg _ same)⟩

theorem ahead_track : Track Ahead where
  refl _ := .of_cursor rfl
  trans h k := by
    refine ⟨k.source.trans h.source, Nat.le_trans h.pos k.pos, ?_⟩
    rcases k.mark with same | further
    · rw [same]
      exact h.mark
    · exact .inr (Nat.le_trans h.pos further)

theorem ahead_readLexeme : Keeps Ahead readLexeme := by
  intro m
  rcases readLexeme_eq m with ⟨lexeme, after, next, read⟩ | ⟨complaint, after, -, read⟩
  · obtain ⟨n, -, rfl⟩ := Scanner.further_next next
    rw [read]
    exact ⟨rfl, Nat.le_add_right _ _, .inr (Nat.le_refl _)⟩
  · rw [read]
    exact ⟨rfl, Nat.le_refl _, .inr (Nat.le_refl _)⟩

/-- What a lexeme means does not depend on reading on. -/
theorem ahead_resolve (raw : Bool) (lexeme : Lexeme) : Keeps Ahead (do
    let token ← resolve raw lexeme
    update fun m => { m with token }) := by
  refine ahead_track.bind (fun m => ?_) fun token _ => .of_cursor rfl
  rcases resolve_eq raw lexeme m with ⟨token, literals, resolved, -⟩ | resolved <;> rw [resolved] <;>
    exact .of_cursor rfl

theorem ahead_advanceBy (raw : Bool) : Keeps Ahead (advanceBy raw) :=
  ahead_track.bind ahead_readLexeme fun lexeme => ahead_resolve raw lexeme

theorem ahead_allocate {α : Type} (f : Arena Native → Option (α × Arena Native)) :
    Keeps Ahead (allocate f) := ahead_track.allocate fun _ => .of_cursor rfl

/-! ### Callees -/

/-- The second machine has read nothing more. -/
structure Unread (m m' : Machine) : Prop where
  cursor : m'.cursor = m.cursor
  token : m'.token = m.token

theorem Returned.unread {m m' : Machine} (h : Returned m m') : Unread m m' := ⟨h.cursor, h.token⟩

theorem unread_track : Track Unread where
  refl _ := ⟨rfl, rfl⟩
  trans h k := ⟨k.cursor.trans h.cursor, k.token.trans h.token⟩

section

variable {r : Reentry} (hbody : ∀ body topLevel duplicate, Keeps Bracketed (r.body body topLevel duplicate))

include hbody

theorem unread_runCallee (callee : Symbol Native) (args : List Word) (literals : Nat) :
    Keeps Unread (Call.runCallee r callee args literals) := by
  intro m
  unfold Call.runCallee
  split
  · exact ⟨rfl, rfl⟩
  · cases callee.tag with
    | native native arity =>
      change Unread m (withPending literals ((native args).perform r) m).machine
      unfold withPending
      rw [Outcome.machine_adjust]
      have back := (returned_acting hbody).perform (native args)
        { m with literals := (m.literals.openFrame literals).2 }
      exact ⟨back.cursor, back.token⟩
    | func arity => exact (bracketed_runFunction hbody callee.value args m).unread
    | var => exact ⟨rfl, rfl⟩
    | operator op => exact ⟨rfl, rfl⟩
    | keyword word => exact ⟨rfl, rfl⟩

/-- Handing words over reads nothing. -/
theorem unread_handOver (callee : Symbol Native) (count literals : Nat) :
    Keeps Unread (Call.handOver r callee count literals) := by
  have pops : ∀ words count, Keeps Unread (popOnto words count) := fun words count => by
    induction count generalizing words with
    | zero => exact unread_track.still (still_pure _)
    | succ count ih => exact unread_track.bind (fun _ => ⟨rfl, rfl⟩) fun word => ih (word :: words)
  intro m
  unfold Call.handOver truncatingLiterals
  rw [Outcome.machine_adjust]
  exact unread_track.trans
    (unread_track.bind (pops [] count) (fun args => unread_runCallee hbody callee args literals) m) ⟨rfl, rfl⟩

theorem ahead_handOver (callee : Symbol Native) (count literals : Nat) :
    Keeps Ahead (Call.handOver r callee count literals) := fun m =>
  .of_cursor (unread_handOver hbody callee count literals m).cursor

end

/-! ### Expressions -/

section

variable {r : Reentry} (hexpr : Keeps Ahead r.expression)
  (hbody : ∀ body topLevel duplicate, Keeps Bracketed (r.body body topLevel duplicate))

include hexpr

theorem ahead_definitions : DefiningDiscipline Ahead r where
  toTrack := ahead_track
  advanceBy := ahead_advanceBy
  expression := hexpr
  addBytes _ := .of_cursor rfl
  addRoutine _ := .of_cursor rfl
  addSymbol _ := .of_cursor rfl
  setValue _ _ hm _ := ahead_track.trans hm (.of_cursor rfl)

include hbody

theorem ahead_loose : LooseDiscipline Ahead r where
  toTrack := ahead_track
  stack _ _ := .of_cursor rfl
  literals _ _ := .of_cursor rfl
  quoting _ _ := .of_cursor rfl
  advanceBy := ahead_advanceBy
  expression := hexpr
  perform _ _ hm _ := ahead_track.trans hm
    (.of_cursor ((returned_acting hbody).perform _ _).cursor)
  runFunction _ _ hm args := ahead_track.trans hm
    (.of_cursor (bracketed_runFunction hbody _ args _).cursor)

theorem ahead_discipline : Discipline Ahead r where
  toTrack := ahead_track
  advanceBy := ahead_advanceBy
  rewind _ := .of_cursor rfl
  result _ _ := .of_cursor rfl
  plain := (ahead_loose hexpr hbody).withQuoting .plain
  expression := hexpr
  nestedBody body m := .of_cursor (bracketed_nestedBody hbody body m).cursor
  inExpression := (ahead_loose hexpr hbody).inExpression
  asStatement := (ahead_loose hexpr hbody).asStatement
  reassign := (ahead_definitions hexpr).reassign
  declareVariable := (ahead_definitions hexpr).declareVariable
  declareFunction := (ahead_definitions hexpr).declareFunction

theorem ahead_opening : Keeps Ahead (do
    if (← token) = .openParen then Call.argumentsInParens r else complain .expectedOpen) := by
  refine ahead_track.bind_still (still_read _) fun t => ?_
  split
  · exact (ahead_loose hexpr hbody).arguments.argumentsInParens
  · exact ahead_track.still (still_fail _)

omit hexpr hbody in
theorem ahead_closing (value : Word) : Keeps Ahead (do
    if (← token) = .closeParen then return value else complain .expectedClose) := by
  refine ahead_track.bind_still (still_read _) fun t => ?_
  split
  · exact ahead_track.still (still_pure _)
  · exact ahead_track.still (still_fail _)

end

/-- On every budget, an expression reads on. -/
theorem ahead_ofFuel (world : World) (fuel : Nat) : Keeps Ahead (evalExpression world fuel) := by
  induction fuel with
  | zero => exact fun m => ahead_track.refl m
  | succ fuel ih =>
    rw [evalExpression_succ]
    exact (ahead_discipline (r := .ofFuel world fuel) ih (bracketed_ofFuel world fuel).2).wholeExpression

end Scriptlet
