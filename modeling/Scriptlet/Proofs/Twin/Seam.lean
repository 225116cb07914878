import Scriptlet.Proofs.Twin.Bodies

/-!
Two texts in one. A machine that reads a text, a line feed and another text does, up to the end of the
first, what a machine does that reads the first alone. There it stands at the line feed, which is a
separator. The other machine has come to its end; it closes its text and opens the next. From then on
both have the same before them, and the rest of the one text is read as the other.
-/

namespace Scriptlet

open Text (Bytes lineFeed)
open Eval

variable {α : Type} {σ : Terms} {strict : Bool} {m m' n n' k k' : Machine} {r : Reentry}

/-! ### Texts from inside -/

namespace Machine

def bodyOf (m : Machine) (text : Bytes) : Slice := ⟨.text (m.texts.retain text.toArray).1, 0, text.length⟩

/-- The machine with a text in a slot, and an evaluation more under way. -/
def opened (m : Machine) (text : Bytes) : Machine :=
  { m.note.withTexts (m.texts.retain text.toArray).2 with depth := m.depth + 1 }

def starting (m : Machine) (text : Bytes) (duplicate : Bool) : Machine :=
  (m.opened text).before (m.bodyOf text) duplicate

/-- The machine `n` that has read a text, back where the machine `m` was. -/
def closing (m : Machine) (text : Bytes) (duplicate : Bool) (n : Machine) : Machine :=
  let back := { n.backAt m with depth := n.depth - 1 }
  if !duplicate then back else back.withTexts (back.texts.release (m.texts.retain text.toArray).1)

/-- What becomes of a text, given what has become of its statements. -/
def conclude (m : Machine) (text : Bytes) (duplicate : Bool) (o : Outcome α) : Outcome α :=
  reporting (fun _ => (o.adjustError Machine.locate).adjust (m.closing text duplicate)) m

end Machine

/-- Reads the first token, and then statements for so many turns at most. -/
def Statement.sequence (r : Reentry) (passes : Nat) : Eval Ending := do
  advance
  Eval.loop (Statement.turn r) passes ()

/-- Evaluates a text at the top level, and tells how its body was left. -/
def evalTextEnding (world : World) (fuel : Nat) (text : String) (duplicate : Bool) : Eval Ending :=
  noting <| reporting <| holding (Text.encode text) (!duplicate) fun slot => entering
    (evalBody world fuel ⟨.text slot, 0, (Text.encode text).length⟩ true duplicate)

theorem wholeBody_topLevel (r : Reentry) (body : Slice) (duplicate : Bool) (m : Machine) :
    r.wholeBody body true duplicate m =
      inBody body duplicate (locating do advance; Statement.statements r) m := by
  unfold Reentry.wholeBody inScope restoring
  dsimp only
  cases inBody body duplicate (locating do advance; Statement.statements r) m <;> rfl

/-- A text in its slot is the sequence of its statements. -/
theorem holding_evalBody (world : World) (fuel : Nat) (text : Bytes) (duplicate : Bool) (m : Machine) :
    holding text (!duplicate) (fun slot => entering
      (evalBody world (fuel + 1) ⟨.text slot, 0, text.length⟩ true duplicate)) m.note =
      ((Statement.sequence (.ofFuel world fuel) fuel (m.starting text duplicate)).adjustError
        Machine.locate).adjust (m.closing text duplicate) := by
  have body := inBody_apply (m.bodyOf text) duplicate (Statement.statements (.ofFuel world fuel))
    (m.opened text)
  rw [← wholeBody_topLevel] at body
  change ((Reentry.wholeBody (.ofFuel world fuel) (m.bodyOf text) true duplicate
    (m.opened text)).adjust fun n => { n with depth := n.depth - 1 }).adjust _ = _
  rw [body]
  change ((Outcome.adjust _ (locating (Statement.sequence (.ofFuel world fuel) fuel)
    (m.starting text duplicate))).adjust _).adjust _ =
    (locating (Statement.sequence (.ofFuel world fuel) fuel) (m.starting text duplicate)).adjust _
  cases locating (Statement.sequence (.ofFuel world fuel) fuel) (m.starting text duplicate) <;> rfl

/-- With fuel left, a text is the sequence of its statements. -/
theorem evalTextEnding_succ (world : World) (fuel : Nat) (text : String) (duplicate : Bool)
    (m : Machine) :
    evalTextEnding world (fuel + 1) text duplicate m = m.conclude (Text.encode text) duplicate
      (Statement.sequence (.ofFuel world fuel) fuel (m.starting (Text.encode text) duplicate)) := by
  unfold evalTextEnding noting reporting Machine.conclude reporting
  rw [holding_evalBody]

theorem holding_ignore (text : Bytes) (forGood : Bool) (x : Nat → Eval α) (m : Machine) :
    holding text forGood (fun slot => entering do let _ ← x slot) m =
      (do let _ ← holding text forGood fun slot => entering (x slot)) m := by
  rw [bind_apply]
  unfold holding entering
  dsimp only
  rw [bind_apply]
  generalize x _ _ = o
  cases o <;> rfl

/-- Evaluating a text does not tell how its body was left. -/
theorem evalText_eq (world : World) (fuel : Nat) (text : String) (duplicate : Bool) (m : Machine) :
    evalText world fuel text duplicate true m = (do
      let _ ← evalTextEnding world fuel text duplicate) m := by
  have ignored := holding_ignore (Text.encode text) (!duplicate) (fun slot =>
    evalBody world fuel ⟨.text slot, 0, (Text.encode text).length⟩ true duplicate) m.note
  change reporting (holding (Text.encode text) (!duplicate && true) fun slot => entering do
    let _ ← evalBody world fuel ⟨.text slot, 0, (Text.encode text).length⟩ true duplicate) m.note =
      (reporting (holding (Text.encode text) (!duplicate) fun slot => entering
        (evalBody world fuel ⟨.text slot, 0, (Text.encode text).length⟩ true duplicate)) m.note).andThen _
  rw [Bool.and_true]
  unfold reporting
  rw [ignored, bind_apply]
  generalize holding _ _ _ _ = o
  cases o with
  | done ending n => rfl
  | failed e n =>
    dsimp only [Outcome.andThen]
    split <;> rfl
  | stopped why n => rfl

/-- A machine is sound when it has closed the text that it has read. -/
theorem sound_closing (world : World) (fuel : Nat) (sound : m.Sound true) (text : Bytes)
    (duplicate : Bool) :
    (m.closing text duplicate (Statement.sequence (.ofFuel world fuel) fuel
      (m.starting text duplicate)).machine).Sound true := by
  have held := (outer_holding (inner_ofFuel true world (fuel + 1)).2 text duplicate true m.note
    sound.note).sound
  have ignored := holding_ignore text (!duplicate) (fun slot =>
    evalBody world (fuel + 1) ⟨.text slot, 0, text.length⟩ true duplicate) m.note
  rw [Bool.and_true] at held
  have machine : ∀ o : Outcome Ending, (o.andThen fun _ => (pure () : Eval Unit)).machine = o.machine := by
    intro o
    cases o <;> rfl
  change (holding text (!duplicate) (fun slot => entering do
    let _ ← evalBody world (fuel + 1) ⟨.text slot, 0, text.length⟩ true duplicate) m.note).machine.Sound
      true at held
  rw [ignored, bind_apply, machine, holding_evalBody, Outcome.machine_adjust,
    Outcome.machine_adjustError] at held
  exact held

/-- Statements leave the way of reading quotations as they found it. -/
theorem quoting_sequence (world : World) (fuel : Nat) (m : Machine) :
    (Statement.sequence (.ofFuel world fuel) fuel m).machine.quoting = m.quoting := by
  obtain ⟨hexpr, hbody⟩ := bracketed_ofFuel world fuel
  have discipline := balanced_discipline (r := .ofFuel world fuel) hexpr hbody
  exact (discipline.bind discipline.advance (fun _ => discipline.statements) m).quoting

/-! ### Up to the seam -/

/-- Where the machines have the same room, what is done on the left is done on the right. -/
theorem Agree.of_done {Q : Post α} {a : α} {o' : Outcome α}
    (hstrict : σ.strict = true) (h : Agree σ Q m m' (.done a n) o') :
    ∃ a' n', o' = .done a' n' ∧ Since m m' n n' ∧ Q a a' n n' :=
  Paired.of_done h fun _ scarce => by cases hstrict.symm.trans scarce.1

/-- How the second machine takes a turn, where the first has taken it. They take it together, or the first
has come to its end and the second has the line feed to pass. -/
inductive SeamTurn (σ : Terms) (m m' : Machine) :
    Turn Unit Ending → Machine → Outcome (Turn Unit Ending) → Prop where
  | together {n n' : Machine} (since : Since m m' n n') (h : Abreast σ n n') :
    SeamTurn σ m m' (.again ()) n (.done (.again ()) n')
  | seam {turn : Turn Unit Ending} {n n' : Machine} (since : Since m m' n n') (h : Abreast σ n n')
    (atSeam : AtSeam σ n n') :
    SeamTurn σ m m' turn n ((do advance; return .again () : Eval (Turn Unit Ending)) n')
  | returned {n : Machine} {o' : Outcome (Turn Unit Ending)} :
    SeamTurn σ m m' (.finish .returned) n o'

/-- At the end of a body the turns are over. -/
theorem loop_eof {passes : Nat} {ending : Ending} (htoken : m.token = .eof)
    (ran : Eval.loop (Statement.turn r) passes () m = .done ending k) : k = m := by
  cases passes with
  | zero => cases ran
  | succ passes =>
    rw [Eval.loop, Statement.turn_eof r htoken] at ran
    cases ran
    rfl

theorem passSeparator_eof (htoken : m.token = .eof) : Statement.passSeparator m = .done () m := by
  rw [Statement.passSeparator, token_bind, htoken]
  rfl

theorem passSeparator_separator (htoken : m.token = .separator) :
    Statement.passSeparator m = advance m := by
  rw [Statement.passSeparator, token_bind, htoken]

/-- A token is the end, or a separator, on both sides or on none. -/
theorem Token.Alike.iff {t t' u : Token} {x x' : Memory} (h : t.Alike strict x x' t')
    (hu : u.slice? = none) : t' = u ↔ t = u := by
  cases h with
  | same _ => exact Iff.rfl
  | name _ =>
    constructor <;> (rintro rfl; cases hu)
  | text _ =>
    constructor <;> (rintro rfl; cases hu)

section

variable (hbody : BodyDiscipline true r) (twins : Twins σ.strict r) (hstrict : σ.strict = true)
  (goesOn : σ.more ≠ none)

include hbody twins hstrict

theorem seam_statementTurn (h : Abreast σ m m') {turn : Turn Unit Ending}
    (taken : Statement.statementTurn r m = .done turn n) :
    SeamTurn σ m m' turn n (Statement.statementTurn r m') := by
  obtain ⟨ending, n₁, ran, taken⟩ := bind_eq_done taken
  have agree := (twins.discipline hbody).statement trivial h
  rw [ran] at agree
  obtain ⟨ending', n₁', ran', since, same, abreast⟩ := agree.of_done hstrict
  unfold Statement.statementTurn
  rw [bind_apply, ran']
  subst same
  cases ending' with
  | returned =>
    cases taken
    exact .returned
  | ranOut =>
    by_cases seam : AtSeam σ n₁ n₁'
    · -- the end on the left, a separator on the right
      change (Statement.passSeparator n₁).andThen _ = _ at taken
      rw [passSeparator_eof seam.token] at taken
      cases taken
      change SeamTurn σ m m' _ _ ((Statement.passSeparator n₁').andThen _)
      rw [passSeparator_separator seam.token']
      exact .seam since abreast seam
    · obtain ⟨u, n₂, passed, again⟩ := bind_eq_done taken
      have agree := (twins.discipline hbody).passSeparator trivial abreast fun tokens =>
        seam (abreast.atSeam tokens.1 tokens.2)
      rw [passed] at agree
      obtain ⟨u', n₂', passed', later, abreast⟩ := agree.of_done hstrict
      cases again
      change SeamTurn σ m m' _ _ ((Statement.passSeparator n₁').andThen _)
      rw [passed']
      exact .together (since.trans later) abreast

include goesOn

theorem seam_turn (h : Abreast σ m m') {turn : Turn Unit Ending}
    (taken : Statement.turn r () m = .done turn n) : SeamTurn σ m m' turn n (Statement.turn r () m') := by
  rcases h.place with before | seam
  · have running : m.token ≠ .eof := fun ht => goesOn (before.ended ht)
    have running' : m'.token ≠ .eof := fun ht => running ((before.tokens.iff rfl).mp ht)
    by_cases apart : m.token = .separator
    · have apart' := (before.tokens.iff rfl).mpr apart
      rw [Statement.turn_separator r apart] at taken
      rw [Statement.turn_separator r apart', bind_apply]
      obtain ⟨u, n₁, advanced, again⟩ := bind_eq_done taken
      have agree := (twins.discipline hbody).advance h running
      rw [advanced] at agree
      obtain ⟨u', n₁', advanced', since, abreast⟩ := agree.of_done hstrict
      cases again
      rw [advanced']
      exact .together since abreast
    · rw [Statement.turn_statement r running apart] at taken
      rw [Statement.turn_statement r running' fun ht => apart ((before.tokens.iff rfl).mp ht)]
      exact seam_statementTurn hbody twins hstrict h taken
  · rw [Statement.turn_eof r seam.token] at taken
    rw [Statement.turn_separator r seam.token']
    cases taken
    exact .seam h.since h seam

/-- A sequence of statements, up to the seam. When the first machine has come to its end, the second has the
rest of its text before it, and it has used up no more turns than the first. -/
theorem seam_turns {passes : Nat} (h : Abreast σ m m')
    (ran : Eval.loop (Statement.turn r) passes () m = .done .ranOut k) :
    ∃ left ≤ passes, ∃ k', Since m m' k k' ∧ Abreast σ k k' ∧ AtSeam σ k k' ∧
      ∀ extra, Eval.loop (Statement.turn r) (passes + extra) () m' =
        Statement.sequence r (left + extra) k' := by
  induction passes generalizing m m' with
  | zero => cases ran
  | succ passes ih =>
    have more : ∀ extra, Eval.loop (Statement.turn r) (passes + 1 + extra) () m' =
        Eval.loop (Statement.turn r) (passes + extra + 1) () m' := fun extra => by
      rw [Nat.add_right_comm]
    unfold Eval.loop at ran
    cases taken : Statement.turn r () m with
    | failed e n =>
      rw [taken] at ran
      cases ran
    | stopped why n =>
      rw [taken] at ran
      cases ran
    | done turn n =>
      rw [taken] at ran
      have step := seam_turn hbody twins hstrict goesOn h taken
      generalize hturn : Statement.turn r () m' = o' at step
      cases step with
      | returned => cases ran
      | together since abreast =>
        obtain ⟨left, hleft, k', later, abreast, seam, rest⟩ := ih abreast ran
        refine ⟨left, Nat.le_succ_of_le hleft, k', since.trans later, abreast, seam, fun extra => ?_⟩
        rw [more, Eval.loop, hturn]
        exact rest extra
      | @seam turn n n' since abreast seam =>
        -- the first machine has nothing left to do
        have ended : k = n := by
          cases turn with
          | finish ending =>
            cases ran
            rfl
          | again => exact loop_eof seam.token ran
        subst ended
        refine ⟨passes, Nat.le_succ passes, n', since, abreast, seam, fun extra => ?_⟩
        rw [more, Eval.loop, hturn, Statement.sequence, bind_apply, bind_apply]
        cases advance n' <;> rfl

theorem seam_sequence {passes : Nat} (h : Standing σ m m')
    (ran : Statement.sequence r passes m = .done .ranOut k) :
    ∃ left ≤ passes, ∃ k', Since m m' k k' ∧ Abreast σ k k' ∧ AtSeam σ k k' ∧
      ∀ extra, Statement.sequence r (passes + extra) m' = Statement.sequence r (left + extra) k' := by
  obtain ⟨u, n, advanced, ran⟩ := bind_eq_done ran
  have agree := agree_advanceBy false h
  change Agree _ _ _ _ (advance m) (advance m') at agree
  rw [advanced] at agree
  obtain ⟨u', n', advanced', since, abreast⟩ := agree.of_done hstrict
  obtain ⟨left, hleft, k', later, abreast, seam, rest⟩ :=
    seam_turns hbody twins hstrict goesOn abreast ran
  refine ⟨left, hleft, k', since.trans later, abreast, seam, fun extra => ?_⟩
  rw [Statement.sequence, bind_apply, advanced']
  exact rest extra

end

/-! ### Opening and closing texts -/

@[simp] theorem Machine.arena_closing (m : Machine) (text : Bytes) (duplicate : Bool) (n : Machine) :
    (m.closing text duplicate n).arena = n.arena := by
  cases duplicate <;> rfl

/-- Opening a text is not seen, but for the quoting. -/
theorem quiet_starting (sound : m.Sound true) (text : Bytes) (duplicate : Bool) :
    Quiet strict { m with quoting := .plain } (m.starting text duplicate) := by
  have q : Quiet strict m.note _ := quiet_retain sound.note text.toArray
  exact ⟨rfl, rfl, rfl, rfl, rfl, rfl, rfl, rfl, rfl, rfl, q.sights, q.sound.intact, q.sound.told⟩

/-- Closing a text is not seen, but for the quoting. -/
theorem quiet_closing (sound : n.Sound true) {text : Bytes} {duplicate : Bool}
    (closed : (m.closing text duplicate n).Sound true) :
    Quiet strict { n with quoting := m.quoting } (m.closing text duplicate n) := by
  have q : Quiet strict { n.backAt m with depth := n.depth - 1 } (m.closing text duplicate n) :=
    quiet_unless (!duplicate) (m.texts.retain text.toArray).1 ⟨sound.intact, sound.told⟩ closed
  exact ⟨q.name, q.options, q.quoting, q.result, q.literals, q.asked, q.out, q.stack, q.size, q.symbols,
    q.sights, closed⟩

theorem Core.closing (h : Core strict n n') {text text' : Bytes} {duplicate duplicate' : Bool}
    (quoting : m'.quoting = m.quoting) (closed : (m.closing text duplicate n).Sound true)
    (closed' : (m'.closing text' duplicate' n').Sound true) :
    Core strict (m.closing text duplicate n) (m'.closing text' duplicate' n') := by
  have level := h.withQuoting m.quoting
  have quiet' : Quiet strict _ _ := quiet_closing h.sound' closed'
  rw [quoting] at quiet'
  refine level.quiet (quiet_closing h.sound closed) quiet' ?_ fun hstrict => ?_
  · rw [Machine.arena_closing, Machine.arena_closing]
    exact h.table.routines
  · rw [Machine.arena_closing, Machine.arena_closing]
    exact (h.room hstrict).2

/-- At the start of a text, all of it is there to be read. -/
structure Machine.AtStart (n : Machine) (text : Bytes) : Prop where
  fore : n.cursor.Open n.memory
  rest : n.cursor.scanner.rest = text
  ahead : ∀ strict, n.memory.sight strict n.cursor.ahead = ⟨text, true, strict⟩
  whole : n.cursor.stop ≤ (n.memory.store n.cursor.source).size
  inText : n.cursor.source.isText = true

theorem atStart_starting (m : Machine) (text : Bytes) (duplicate : Bool) :
    (m.starting text duplicate).AtStart text := by
  have sight : ∀ strict, (m.opened text).memory.sight strict (m.bodyOf text) = ⟨text, true, strict⟩ :=
    fun _ => sight_retain m.note text
  refine ⟨Machine.open_cursorAt (holds_retain m.note text), ?_, fun strict => ?_, ?_, rfl⟩
  · exact (Memory.rest_ofWindow (m.opened text).memory _ _ _).trans (congrArg Sight.bytes (sight false))
  · exact ((m.opened text).sight_cursorAt (m.bodyOf text)).trans (sight strict)
  · exact of_decide_eq_true (congrArg Sight.whole (sight false))

theorem Alongside.standing {text : Bytes} (h : Alongside σ m m') (start : m.AtStart text)
    (start' : m'.AtStart (text ++ σ.tail)) : Standing σ m m' := by
  refine ⟨h, start.fore, start'.fore, ?_, fun same => ?_, fun _ => start'.inText.trans start.inText.symm,
    fun _ => start'.whole⟩
  · rw [start.rest, start'.rest]
  · rw [start.ahead, start'.ahead, Terms.tail, same, List.append_nil]

/-- A text and a text that goes on are read alike. -/
theorem standing_starting (h : Core σ.strict m m') (text : Bytes) {duplicate duplicate' : Bool}
    (hduplicate : σ.strict = true → duplicate' = duplicate) :
    Standing σ (m.starting text duplicate) (m'.starting (text ++ σ.tail) duplicate') := by
  have core : Core σ.strict (m.starting text duplicate) (m'.starting (text ++ σ.tail) duplicate') :=
    (h.withQuoting .plain).quiet (quiet_starting h.sound text duplicate)
      (quiet_starting h.sound' (text ++ σ.tail) duplicate') h.table.routines fun hstrict => (h.room hstrict).2
  exact Alongside.standing ⟨core, placed_before _ _ _, placed_before _ _ _, hduplicate⟩
    (atStart_starting m text duplicate) (atStart_starting m' (text ++ σ.tail) duplicate')

/-! ### Behind the seam -/

/-- The machine with its next token for the one an error would quote. -/
def Machine.remarked (m : Machine) : Machine :=
  { m with cursor := { m.cursor with mark := m.cursor.scanner.pos } }

theorem sequence_remarked (r : Reentry) (passes : Nat) (m : Machine) :
    Statement.sequence r passes m.remarked = Statement.sequence r passes m := rfl

theorem atStart_remarked {more : Bytes} (hmore : σ.more = some more) (seam : AtSeam σ k k')
    (inText : k'.cursor.source.isText = true) : k'.remarked.AtStart more := by
  have fore : k'.remarked.cursor.Open k'.remarked.memory := seam.fore'.further ⟨0, Nat.zero_le _, rfl⟩
  have rest : k'.remarked.cursor.scanner.rest = more := by
    obtain ⟨more', hmore', rest⟩ := seam.rest
    rw [hmore] at hmore'
    cases hmore'
    exact rest
  refine ⟨fore, rest, fun strict => ?_, seam.whole', inText⟩
  have whole : k'.remarked.cursor.stop ≤ (k'.remarked.memory.store k'.remarked.cursor.source).size :=
    seam.whole'
  rw [fore.sight_ahead, decide_eq_true whole, show k'.remarked.cursor.source.isText = true from inText,
    Bool.and_true, ← rest, fore.rest]
  rfl

/-- The first machine has closed its text and opens the next. -/
theorem Core.reopen (h : Core strict k k') (plain : k.quoting = .plain) {text : Bytes} {duplicate : Bool}
    (closed : (m.closing text duplicate k).Sound true) (more : Bytes) :
    Core strict ((m.closing text duplicate k).starting more duplicate) k' := by
  have back := h.withQuoting m.quoting
  have shut : Core strict (m.closing text duplicate k) { k' with quoting := m.quoting } := by
    refine back.quiet (quiet_closing h.sound closed) (.refl back.sound') ?_ fun hstrict => ?_
    · rw [Machine.arena_closing]
      exact h.table.routines
    · rw [Machine.arena_closing]
      exact (h.room hstrict).2
  have level := shut.withQuoting .plain
  have opened : Core strict ((m.closing text duplicate k).starting more duplicate)
      { k' with quoting := .plain } :=
    level.quiet (quiet_starting closed more duplicate) (.refl level.sound') level.table.routines
      fun hstrict => (level.room hstrict).2
  have same : { k' with quoting := .plain } = k' := by rw [← plain, ← h.quoting]
  rw [same] at opened
  exact opened

section

variable (hbody : BodyDiscipline true r) (twins : Twins true r)

include hbody twins

/-- Two texts, and the one they are parts of. Where the first text runs out, the second does from then on
what the rest of the one text does. -/
theorem agree_pieces (h : Core true m m') {text : Bytes} {duplicate : Bool} {passes : Nat}
    (ran : Statement.sequence r passes (m.starting text duplicate) = .done .ranOut k)
    (plain : k.quoting = .plain) (closed : (m.closing text duplicate k).Sound true) (more : Bytes) :
    ∃ left ≤ passes, ∃ k', ∀ extra, Agree ⟨true, none⟩ (Equally (Abreast ⟨true, none⟩))
      ((m.closing text duplicate k).starting more duplicate) k'
      (Statement.sequence r (left + extra) ((m.closing text duplicate k).starting more duplicate))
      (Statement.sequence r (passes + extra) (m'.starting (text ++ lineFeed :: more) duplicate)) := by
  have start : Standing ⟨true, some more⟩ (m.starting text duplicate)
      (m'.starting (text ++ lineFeed :: more) duplicate) := standing_starting h text fun _ => rfl
  obtain ⟨left, hleft, k', since, abreast, seam, rest⟩ :=
    seam_sequence hbody twins rfl (fun impossible => by cases impossible) start ran
  refine ⟨left, hleft, k'.remarked, fun extra => ?_⟩
  have inText : k'.cursor.source.isText = true := by
    rw [since.after'.source]
    rfl
  have along : Alongside ⟨true, none⟩ ((m.closing text duplicate k).starting more duplicate)
      k'.remarked := by
    refine ⟨?_, placed_before _ _ _, ⟨abreast.placed'.window, abreast.placed'.token⟩, fun _ => ?_⟩
    · exact (abreast.toCore.reopen plain closed more).place _ _ _ _ _ _ _ _
    · exact since.after'.duplicate
  have start' : k'.remarked.AtStart (more ++ Terms.tail ⟨true, none⟩) := by
    rw [show more ++ Terms.tail ⟨true, none⟩ = more from List.append_nil more]
    exact atStart_remarked rfl seam inText
  have behind := along.standing (atStart_starting _ more duplicate) start'
  rw [rest, ← sequence_remarked]
  exact Agree.bind (agree_advanceBy false behind) fun _ abreast =>
    agree_turns hbody twins rfl _ abreast

end

end Scriptlet
