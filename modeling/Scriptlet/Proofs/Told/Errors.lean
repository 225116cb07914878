import Scriptlet.Proofs.Told.Concert
import Scriptlet.Proofs.Twin.Seam

/-!
Errors are located once. An error that the evaluation of a text returns has flown: it was raised somewhere
inside, and left one body after the other, the body of the text last. The first body told where it was
found, and no other body, call or native has changed what was told.
-/

namespace Scriptlet

open Text (Bytes lineFeed)
open Eval

/-! ### Telling once -/

/-- What the end of a body makes of an error that leaves it. It adds the place if none is known, and the
line only if there is none and the body is in a script text. -/
structure ToldAt (d : Departure) (raised told : Error) : Prop where
  kind : told.kind = raised.kind
  message : told.message = raised.message
  settled : raised.context.isSome → told = raised
  context : told.context.isSome
  line : told.line ≠ raised.line ↔
    raised.line = none ∧ raised.context = none ∧ ∃ slot, d.body.source = .text slot
  bound : told.line ≠ raised.line → ∃ line, told.line = some line ∧ 1 ≤ line ∧
    line ≤ 1 + (d.machine.store d.body.source).toList.count lineFeed

/-- The line of a place in a text is one of its lines. -/
theorem Text.lineNumber_le (bytes : Bytes) (offset : Nat) :
    1 ≤ lineNumber bytes offset ∧ lineNumber bytes offset ≤ 1 + bytes.count lineFeed := by
  have before := (bytes.take_sublist offset).count_le lineFeed
  unfold lineNumber
  omega

theorem toldAt_locate (d : Departure) (raised : Error) : ToldAt d raised (d.machine.locate raised) := by
  obtain ⟨body, m, reading⟩ := d
  cases known : raised.context with
  | some context =>
    have same : m.locate raised = raised := Machine.locate_of_context (by rw [known]; rfl)
    dsimp only
    rw [same]
    refine ⟨rfl, rfl, fun _ => rfl, by rw [known]; rfl, ?_, fun changed => absurd rfl changed⟩
    simp [known]
  | none =>
    have within := Text.lineNumber_le (m.store body.source).toList (min m.cursor.mark m.cursor.stop)
    refine ⟨m.kind_locate raised, m.message_locate raised, by simp [known], m.context_locate raised,
      ?_, ?_⟩ <;>
    simp only [Machine.locate, known, reading] <;>
    cases source : body.source <;> cases line : raised.line <;>
    simp_all [Error.onLine, Error.before]

namespace Flight

/-- Once an error has left the first body its place is known, and nothing more is told. -/
theorem told_located (raised : Error) (first : Departure) (others : List Departure) :
    Flight.told ⟨raised, first :: others⟩ .located = first.machine.locate raised := by
  have settled : ∀ (ds : List Departure) (e : Error), e.context.isSome = true →
      Flight.told ⟨e, ds⟩ .located = e := by
    intro ds
    induction ds with
    | nil => exact fun e _ => rfl
    | cons d ds ih =>
      intro e known
      have same : d.machine.locate e = e := Machine.locate_of_context known
      exact (congrArg (fun e => Flight.told ⟨e, ds⟩ .located) same).trans (ih e known)
  exact settled others _ (first.machine.context_locate raised)

end Flight

/-! ### Texts from inside -/

def Outcome.error? {α : Type} : Outcome α → Option Error
  | .failed e _ => some e
  | .done _ _ | .stopped _ _ => none

section

variable {α : Type}

@[simp] theorem Outcome.error?_adjust (o : Outcome α) (f : Machine → Machine) :
    (o.adjust f).error? = o.error? := by
  cases o <;> rfl

@[simp] theorem error?_reporting (x : Eval α) (m : Machine) : (reporting x m).error? = (x m).error? := by
  unfold reporting
  cases x m with
  | failed e n =>
    dsimp only
    split <;> rfl
  | _ => rfl

end

def Machine.beginning (m : Machine) (text : Bytes) (duplicate : Bool) : Machine :=
  { m.opened text with cursor := (m.opened text).cursorAt (m.bodyOf text), quoting := .plain, duplicate }

/-- The error of a text is what its body tells. -/
theorem error?_evalTextTelling (t : Telling) (world : World) (fuel : Nat) (text : String)
    (duplicate topLevel : Bool) (m : Machine) :
    (evalTextTelling t world (fuel + 1) text duplicate topLevel m).error? =
      (((do advance; Statement.statements (.telling t world fuel) : Eval Ending)
        (m.beginning (Text.encode text) duplicate)).adjustError
          (t.tell (m.bodyOf (Text.encode text)))).error? := by
  have ignored : ∀ o : Outcome Ending, (o.andThen fun _ => (pure () : Eval Unit)).error? = o.error? := by
    intro o
    cases o <;> rfl
  change (reporting _ m.note).error? = _
  rw [error?_reporting]
  unfold holding entering
  rw [Outcome.error?_adjust, Outcome.error?_adjust, bind_apply, ignored]
  change (inScope topLevel (inBody _ duplicate _) (m.opened (Text.encode text))).error? = _
  unfold inScope inBody restoring
  rw [Outcome.error?_adjust, Outcome.error?_adjust]
  rfl

/-! ### Errors of texts -/

/-- The flight of the error of a text: whichever way bodies tell, the error of the text is what is told in
the course of the flight. Where nothing is told, it is the one that was raised. -/
def Flight.Of (f : Flight) (world : World) (fuel : Nat) (text : String) (duplicate topLevel : Bool)
    (m : Machine) : Prop :=
  ∀ t, (evalTextTelling t world fuel text duplicate topLevel m).error? = some (f.told t)

/-- The error of a text is one that its body has told of. -/
theorem error?_evalText {world : World} {fuel : Nat} {text : String} {duplicate topLevel : Bool}
    {m : Machine} {e : Error} (failed : (evalText world fuel text duplicate topLevel m).error? = some e) :
    ∃ left raised n, fuel = left + 1 ∧ e = n.locate raised ∧
      (do advance; Statement.statements (.telling .located world left) : Eval Ending)
        (m.beginning (Text.encode text) duplicate) = .failed raised n := by
  have usual : (evalTextTelling .located world fuel text duplicate topLevel m).error? = some e := by
    unfold evalTextTelling
    rw [Reentry.telling_located]
    exact failed
  cases fuel with
  | zero => cases usual
  | succ left =>
    rw [error?_evalTextTelling] at usual
    cases ran : (do advance; Statement.statements (.telling .located world left) : Eval Ending)
      (m.beginning (Text.encode text) duplicate) with
    | failed raised n =>
      rw [ran] at usual
      exact ⟨left, raised, n, rfl, (Option.some.inj usual).symm, ran⟩
    | _ =>
      rw [ran] at usual
      cases usual

/-- Errors are located once. An error that a text returns has a context, whatever the machine and its
natives. Let the natives relay. Then the error was raised somewhere and left one body after the other, the
body of the text last; it is what the first of them has told, and nothing on its further way has changed
it. -/
theorem errors_located_once {world : World} {fuel : Nat} {text : String} {duplicate topLevel : Bool}
    {m : Machine} {e : Error} (failed : (evalText world fuel text duplicate topLevel m).error? = some e) :
    e.context.isSome ∧ (m.Relays → ∃ (raised : Error) (first : Departure) (others : List Departure),
      Flight.Of ⟨raised, first :: others⟩ world fuel text duplicate topLevel m ∧
      ((first :: others).getLast (by simp)).body = m.bodyOf (Text.encode text) ∧
      e = first.machine.locate raised ∧ ToldAt first raised e) := by
  obtain ⟨left, raised, n, rfl, rfl, ran⟩ := error?_evalText failed
  refine ⟨n.context_locate raised, fun relays => ?_⟩
  have concerted : Concerted (m.beginning (Text.encode text) duplicate) fun t =>
      (do advance; Statement.statements (.telling t world left) : Eval Ending)
        (m.beginning (Text.encode text) duplicate) :=
    uniform_advance.bind (fun _ => (uniform_telling world left).statements) _ (relays.of_symbols rfl)
      (Nat.succ_pos _)
  cases concerted with
  | done a n' minded same => cases (same .located).symm.trans ran
  | stopped why n' minded same => cases (same .located).symm.trans ran
  | failed flight n' minded same =>
    cases (same .located).symm.trans ran
    -- the last body that is left is that of the text
    have reading : n.cursor.source = (m.bodyOf (Text.encode text)).source := by
      have read := (uniform_telling world left).reads (m.beginning (Text.encode text) duplicate)
      rw [ran] at read
      exact read
    obtain ⟨last, body, rfl⟩ : ∃ d : Departure, d.body = m.bodyOf (Text.encode text) ∧ d.machine = n :=
      ⟨⟨_, n, reading⟩, rfl, rfl⟩
    have whole : Flight.Of (flight.leaving last) world (left + 1) text duplicate topLevel m := by
      intro t
      rw [error?_evalTextTelling, same t, Flight.told_leaving, body]
      rfl
    have settled := Flight.told_leaving flight last .located
    obtain ⟨raised, departures⟩ := flight
    cases departures with
    | nil => exact ⟨raised, last, [], whole, body, rfl, toldAt_locate last raised⟩
    | cons first others =>
      have told : last.machine.locate (Flight.told ⟨raised, first :: others⟩ .located) =
          first.machine.locate raised :=
        settled.symm.trans (Flight.told_located raised first (others ++ [last]))
      rw [told]
      exact ⟨raised, first, others ++ [last], whole, by simpa using body, rfl, toldAt_locate first raised⟩

/-- A host that defines a native which evaluates a text and passes its error on. -/
def relayingHost : Action :=
  .define "do" (.native (fun _ => .takeLiteral fun text? =>
    .evalText (text?.getD "") true false (.orFail fun _ => .give 0)) 1) 0 fun _ => .give 0

theorem relays_relayingHost {start : Machine} (h : start.Relays) (world : World) (fuel : Nat) :
    (relayingHost.perform (.ofFuel world fuel) start).machine.Relays := by
  have relaying : Tag.Relays (.native (fun _ => .takeLiteral fun text? =>
      .evalText (text?.getD "") true false (.orFail fun _ => .give 0)) 1) := by
    intro native arity same
    cases same
    exact fun _ => .takeLiteral fun _ => .evalText (fun _ _ => none) (.give 0) (fun _ => rfl) nofun
  exact (minding_track.bind (minding_define relaying).attempt
    (fun _ => minding_track.still (still_pure 0)) start h).relays

/-- A text with a function, in which the native evaluates a text with a block. -/
def nestedText : String := "func f() \x7b\n\n do \"if 1 \x7b\n x = 1 \x7d\"\n\x7d\nf()"

/-- An error in a block of a text that a native evaluates in a function is on the line that the block tells
of, the second one of the inner text. -/
theorem errors_located_once_of_relayingHost :
    ∃ m e, Machine.LeftBy relayingHost m ∧ m.Relays ∧
      (evalText (fun _ _ => none) 20 nestedText false true m).error? =
        some e ∧ e.render = "UNKNOWN SYMBOL IN LINE 2 AT \"x = 1\"" ∧
      ∃ (raised : Error) (first : Departure) (others : List Departure),
        Flight.Of ⟨raised, first :: others⟩ (fun _ _ => none) 20
          nestedText false true m ∧
        e = first.machine.locate raised ∧ ToldAt first raised e := by
  have run : ((Machine.new {}).toOption.map fun start =>
      (evalText (fun _ _ => none) 20 nestedText false true
        (relayingHost.perform (.ofFuel (fun _ _ => none) 20) start).machine).error?.map Error.render) =
      some (some "UNKNOWN SYMBOL IN LINE 2 AT \"x = 1\"") := by
    decide +kernel
  obtain ⟨start, made, reported⟩ := Machine.exists_new run
  obtain ⟨e, failed, rendered⟩ := Option.map_eq_some_iff.mp reported
  have relays := relays_relayingHost (onlyBuiltins_new made).relays (fun _ _ => none) 20
  obtain ⟨raised, first, others, flight, -, told, toldAt⟩ := (errors_located_once failed).2 relays
  exact ⟨_, e, ⟨{}, start, fun _ _ => none, 20, by decide, made, rfl⟩, relays, failed, rendered, raised,
    first, others, flight, told, toldAt⟩

end Scriptlet
