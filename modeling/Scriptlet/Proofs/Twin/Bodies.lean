import Scriptlet.Proofs.Twin.Calls

/-!
Bodies on two machines side by side. Two bodies that look the same are read in lockstep from their
first token on, whatever stores they are in; an error that leaves them quotes the same, and the machines
come back level. This ties the knot: on every budget, what is nested in a construct does alike
(`twins_ofFuel`), so whole texts do.
-/

namespace Scriptlet

open Eval

variable {α : Type} {σ : Terms} {strict : Bool} {m m' n n' : Machine}

/-! ### Sequences of statements -/

/-- The tokens tell where the seam is. -/
theorem Abreast.atSeam (h : Abreast σ m m') (eof : m.token = .eof) (separator : m'.token = .separator) :
    AtSeam σ m m' := by
  rcases h.place with before | seam
  · have tokens := before.tokens
    rw [eof, separator] at tokens
    cases tokens
  · exact seam

/-- Where the texts are the same, there is no seam. -/
theorem Abreast.even (same : σ.more = none) (h : Abreast σ m m') :
    ¬ (m.token = .eof ∧ m'.token = .separator) := fun tokens => by
  obtain ⟨more, hmore, -⟩ := (h.atSeam tokens.1 tokens.2).rest
  rw [same] at hmore
  cases hmore

theorem agree_turns {r : Reentry} (hbody : BodyDiscipline true r) (twins : Twins σ.strict r)
    (same : σ.more = none) (passes : Nat) (h : Abreast σ m m') :
    Agree σ (Equally (Abreast σ)) m m' (Eval.loop (Statement.turn r) passes () m)
      (Eval.loop (Statement.turn r) passes () m') :=
  (twins.discipline hbody).turns trivial (fun h => Abreast.even same h) passes h

/-! ### The start of a body -/

theorem Memory.window_min (x : Memory) (source : Source) (start stop : Nat) :
    x.window source (min start (x.store source).size) stop = x.window source start stop := by
  unfold Memory.window
  rcases Nat.le_total start (x.store source).size with inside | outside
  · rw [Nat.min_eq_left inside]
  · have short : ((x.store source).toList.take stop).length ≤ (x.store source).size := by
      rw [List.length_take, Array.length_toList]
      exact Nat.min_le_right _ _
    rw [Nat.min_eq_right outside, List.drop_eq_nil_of_le short,
      List.drop_eq_nil_of_le (Nat.le_trans short outside)]

theorem Machine.pos_cursorAt (m : Machine) (body : Slice) :
    (m.cursorAt body).scanner.pos = min body.start (m.store body.source).size := by
  have ordered : body.start ≤ body.stop := Nat.le_add_right _ _
  change min body.start (min body.stop (m.store body.source).size) = _
  omega

/-- An error at the start of a body would quote all of it. -/
theorem Machine.sight_cursorAt (m : Machine) (body : Slice) :
    m.memory.sight strict (m.cursorAt body).ahead = m.memory.sight strict body := by
  have ordered : body.start ≤ body.stop := Nat.le_add_right _ _
  have start : (m.cursorAt body).ahead.start = min body.start (m.store body.source).size := by
    change min (m.cursorAt body).scanner.pos body.stop = _
    rw [m.pos_cursorAt]
    omega
  have same := Memory.window_min m.memory body.source body.start body.stop
  simp only [Memory.sight, Cursor.stop_ahead, start]
  exact congrArg (Sight.mk · _ _) same

theorem Machine.open_cursorAt {body : Slice} (held : m.memory.Holds body) :
    (m.cursorAt body).Open m.memory where
  held := held.of_stop rfl (Cursor.stop_ahead _)
  rest := by
    rw [m.pos_cursorAt]
    exact (Memory.rest_ofWindow m.memory body.source body.start body.stop).trans
      (Memory.window_min m.memory body.source body.start body.stop).symm
  limit := by
    change (Scanner.ofWindow (m.store body.source) body.start body.stop).limit ≤ body.stop
    simp only [Scanner.ofWindow, Scanner.limit, Array.length_toList, Array.size_extract]
    omega
  mark := Nat.le_refl _

/-- The machine that is about to read a body. It has no token yet. -/
def Machine.before (m : Machine) (body : Slice) (duplicate : Bool) : Machine :=
  { m with cursor := m.cursorAt body, token := .eof, quoting := .plain, duplicate }

/-- Back at the place where another machine was reading. -/
def Machine.backAt (n m : Machine) : Machine :=
  { n with cursor := m.cursor, token := m.token, quoting := m.quoting, duplicate := m.duplicate }

theorem placed_before (m : Machine) (body : Slice) (duplicate : Bool) : Placed (m.before body duplicate) :=
  ⟨Scanner.limit_ofWindow_le _ _ _, nofun⟩

/-- The token that was there does not matter to reading on, unless that fails. -/
theorem advanceBy_withToken (raw : Bool) (m : Machine) (t : Token) :
    advanceBy raw { m with token := t } = (advanceBy raw m).adjustUndone fun n => { n with token := t } := by
  unfold advanceBy
  rw [bind_apply, bind_apply]
  generalize hnext : m.cursor.scanner.next m.quoting = next
  obtain ⟨result, after⟩ := next
  cases result with
  | error complaint =>
    rw [readLexeme_of_error hnext, readLexeme_of_error (m := { m with token := t }) hnext]
    rfl
  | ok lexeme =>
    rw [readLexeme_of_ok hnext, readLexeme_of_ok (m := { m with token := t }) hnext]
    simp only [Outcome.andThen, bind_apply]
    rw [show ({ m with token := t, cursor := { m.cursor with
        scanner := after, mark := m.cursor.scanner.pos } } : Machine) =
      { { m with cursor := { m.cursor with scanner := after, mark := m.cursor.scanner.pos } } with
        token := t } from rfl, resolve_withToken]
    cases resolve raw lexeme { m with cursor := { m.cursor with
      scanner := after, mark := m.cursor.scanner.pos } } <;> rfl

/-- A body is read from its start, and the machine comes back to where it was. -/
theorem inBody_apply (body : Slice) (duplicate : Bool) (x : Eval α) (m : Machine) :
    inBody body duplicate (locating (do advance; x)) m =
      (locating (do advance; x) (m.before body duplicate)).adjust (·.backAt m) := by
  have token := advanceBy_withToken false
    { m with cursor := m.cursorAt body, quoting := .plain, duplicate } .eof
  unfold inBody restoring locating Machine.before advance
  simp only [bind_apply]
  rw [token]
  cases advanceBy false { m with cursor := m.cursorAt body, quoting := .plain, duplicate } <;> rfl

theorem standing_before {body body' : Slice} {duplicate duplicate' : Bool} (h : Core strict m m')
    (held : m.memory.Holds body) (held' : m'.memory.Holds body')
    (sight : m'.memory.sight strict body' = m.memory.sight strict body)
    (hduplicate : strict = true → duplicate' = duplicate) :
    Standing ⟨strict, none⟩ (m.before body duplicate) (m'.before body' duplicate') := by
  have core : Core strict (m.before body duplicate) (m'.before body' duplicate') :=
    (h.withQuoting .plain).place _ _ _ _ _ _ m.depth m'.depth
  refine ⟨⟨core, placed_before m body duplicate, placed_before m' body' duplicate', hduplicate⟩, ?_⟩
  refine ⟨Machine.open_cursorAt held, Machine.open_cursorAt held', ?_, fun _ => ?_, fun hstrict => ?_,
    fun goesOn => absurd rfl goesOn⟩
  · change (Scanner.ofWindow (m'.memory.store body'.source) body'.start body'.stop).rest =
      (Scanner.ofWindow (m.memory.store body.source) body.start body.stop).rest ++ []
    rw [Memory.rest_ofWindow, Memory.rest_ofWindow, List.append_nil]
    exact congrArg Sight.bytes sight
  · exact (m'.sight_cursorAt body').trans (sight.trans (m.sight_cursorAt body).symm)
  · have inText := congrArg Sight.inText sight
    simp only [Memory.sight, show strict = true from hstrict, Bool.true_and] at inText
    exact inText

/-! ### Errors that leave a body -/

/-- An error keeps its kind, its message and a place that is known; to an unknown place comes what is
ahead. -/
theorem Machine.locate_eq (m : Machine) (e : Error) :
    (m.locate e).kind = e.kind ∧ (m.locate e).message = e.message ∧ (m.locate e).context =
      some (e.context.getD (Text.excerpt (Text.decode (m.bytes m.cursor.ahead)))) := by
  unfold Machine.locate
  cases known : e.context with
  | some context =>
    rw [if_pos Option.isSome_some]
    exact ⟨rfl, rfl, known⟩
  | none =>
    rw [if_neg nofun]
    dsimp only
    split <;> exact ⟨rfl, rfl, rfl⟩

/-- Machines that would quote the same tell an error the same, up to its line. -/
theorem Machine.locate_alike {e e' : Error}
    (spot : m'.memory.sight strict m'.cursor.ahead = m.memory.sight strict m.cursor.ahead)
    (he : e.Alike e') : (m.locate e).Alike (m'.locate e') := by
  have bytes : m'.bytes m'.cursor.ahead = m.bytes m.cursor.ahead := Memory.bytes_of_sight spot
  obtain ⟨kind, message, context⟩ := m.locate_eq e
  obtain ⟨kind', message', context'⟩ := m'.locate_eq e'
  refine ⟨?_, ?_, ?_⟩
  · rw [kind, kind', he.kind]
  · rw [message, message', he.message]
  · rw [context, context', he.context, bytes]

/-- What a part of a script does that has a body of its own, told from outside. -/
theorem Agree.leave {o o' : Outcome α} {g g' : Machine → Machine}
    (agree : Agree ⟨strict, none⟩ (Equally (Abreast ⟨strict, none⟩)) n n' o o')
    (back : ∀ {k k'}, o.machine = k → o'.machine = k' → Core strict k k' → Core strict (g k) (g' k')) :
    Concur strict ((o.adjustError Machine.locate).adjust g) ((o'.adjustError Machine.locate).adjust g') := by
  cases agree with
  | done done =>
    obtain ⟨_, same, abreast⟩ := done
    exact .done ⟨same, back rfl rfl abreast.toCore⟩
  | failed he fell => exact .failed (Machine.locate_alike (fell.spot rfl) he) (back rfl rfl fell.toCore)
  | stopped => exact .stopped
  | @excused e k o' he =>
    rcases he with impossible | scarce
    · cases impossible
    · exact .excused ⟨scarce.1, ((k.locate_eq e).1).trans scarce.2⟩
  | @excused' e k' o he => exact .excused' ⟨he.1, ((k'.locate_eq e).1).trans he.2⟩

/-- Machines that were level where they read before are level there again. -/
theorem Core.backAt (h : Core strict m m') (later : Core strict n n') :
    Core strict (n.backAt m) (n'.backAt m') := by
  have placed := (later.withQuoting m.quoting).place m.cursor m'.cursor m.token m'.token m.duplicate
    m'.duplicate n.depth n'.depth
  unfold Machine.backAt
  rw [h.quoting]
  exact placed

section

variable {r : Reentry} (hbody : BodyDiscipline true r) (twins : Twins strict r)

include hbody twins

/-- Bodies that look the same do the same, and leave level machines level. -/
theorem concur_wholeBody {body body' : Slice} (topLevel : Bool) {duplicate duplicate' : Bool}
    (h : Core strict m m') (held : m.memory.Holds body) (held' : m'.memory.Holds body')
    (sight : m'.memory.sight strict body' = m.memory.sight strict body)
    (hduplicate : strict = true → duplicate' = duplicate) :
    Concur strict (r.wholeBody body topLevel duplicate m) (r.wholeBody body' topLevel duplicate' m') := by
  unfold Reentry.wholeBody inScope
  refine Concur.restoring h.size_symbols ?_ fun {n n'} core => ?_
  · rw [inBody_apply, inBody_apply]
    refine Agree.leave (Agree.bind (agree_advanceBy false
      (standing_before h held held' sight hduplicate)) fun _ abreast => ?_) fun _ _ later => h.backAt later
    exact agree_turns hbody twins rfl r.passes abreast
  · cases topLevel with
    | true => exact core
    | false => exact core.rollback m.arena.symbols.size

end

/-! ### Every budget -/

/-- On every budget, what is nested in a construct does alike on two machines. -/
theorem twins_ofFuel (strict : Bool) (world : World) (fuel : Nat) : Twins strict (.ofFuel world fuel) := by
  induction fuel with
  | zero =>
    refine ⟨fun more {m m'} _ => ?_, fun {_ _ _ _} _ {_ _} _ _ _ _ _ => ?_⟩
    · exact .stopped
    · exact .stopped
  | succ fuel ih =>
    have hbody := (inner_ofFuel true world fuel).2
    refine ⟨fun more {m m'} h => ?_, fun {_ _ _ _} topLevel {_ _} h held held' sight hduplicate => ?_⟩
    · have nested : (Terms.tandem ⟨strict, more⟩).Discipline (.ofFuel world fuel) := ih.discipline hbody
      exact nested.upToLevel Operator.maxLevel h
    · exact concur_wholeBody hbody ih topLevel h held held' sight hduplicate

end Scriptlet
