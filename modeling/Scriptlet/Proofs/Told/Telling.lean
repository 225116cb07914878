import Scriptlet.Proofs.Reach

/-!
Ways of telling. A body that an error leaves tells where the error was found. To see what telling does
to an error, and that nothing else does anything to it, evaluation is defined once more with the way of
telling as a parameter, and looked at for all tellings at once. With the usual telling it is evaluation
as it was.

A family of computations, one for each telling, is concerted if telling makes no difference but to
errors, and each error is what the telling makes of one error that was raised, along one list of
departures from bodies. Such an error with its departures is called a flight here.

Natives get to see errors of the evaluations they start, so not every native leaves its machine
concerted. A relaying native passes an error on unchanged, or deals with it by its kind and message.
-/

namespace Scriptlet

open Eval

/-! ### Evaluation with another telling -/

/-- What a body makes of an error that leaves it, given the machine that is left. Kind and message are
not touched. -/
structure Telling where
  tell : (body : Slice) → Machine → Error → Error
  kind : ∀ body m e, (tell body m e).kind = e.kind
  message : ∀ body m e, (tell body m e).message = e.message

def Telling.located : Telling where
  tell _ := Machine.locate
  kind _ := Machine.kind_locate
  message _ := Machine.message_locate

namespace Reentry

def bodyTelling (t : Telling) (r : Reentry) (body : Slice) (topLevel duplicate : Bool) : Eval Ending :=
  inScope topLevel <| inBody body duplicate fun m =>
    ((do advance; Statement.statements r : Eval Ending) m).adjustError (t.tell body)

/-- Evaluation in a world on a budget, with a way of telling. -/
def telling (t : Telling) (world : World) : Nat → Reentry
  | 0 => .ofFuel world 0
  | fuel + 1 =>
    ⟨world, fuel + 1, (telling t world fuel).wholeExpression, bodyTelling t (telling t world fuel)⟩

/-- With the usual telling, evaluation is as usual. -/
theorem telling_located (world : World) (fuel : Nat) :
    telling .located world fuel = ofFuel world fuel := by
  induction fuel with
  | zero => rfl
  | succ fuel ih =>
    rw [telling, ih]
    rfl

end Reentry

def evalTextTelling (t : Telling) (world : World) (fuel : Nat) (text : String)
    (duplicate topLevel : Bool) : Eval Unit :=
  Eval.text (.telling t world fuel) text duplicate topLevel

/-! ### Flights -/

/-- A body that was left by an error, and the machine that it left then, which was reading there. -/
structure Departure where
  body : Slice
  machine : Machine
  reading : machine.cursor.source = body.source

/-- An error that was raised, and the bodies it left since, the innermost first. -/
structure Flight where
  raised : Error
  departures : List Departure

namespace Flight

def told (f : Flight) (t : Telling) : Error :=
  f.departures.foldl (fun e d => t.tell d.body d.machine e) f.raised

def leaving (f : Flight) (d : Departure) : Flight := ⟨f.raised, f.departures ++ [d]⟩

@[simp] theorem told_leaving (f : Flight) (d : Departure) (t : Telling) :
    (f.leaving d).told t = t.tell d.body d.machine (f.told t) := by
  simp [told, leaving]

theorem kind_told (f : Flight) (t : Telling) : (f.told t).kind = f.raised.kind := by
  obtain ⟨raised, departures⟩ := f
  unfold told
  induction departures generalizing raised with
  | nil => rfl
  | cons d departures ih => exact (ih _).trans (t.kind d.body d.machine raised)

theorem message_told (f : Flight) (t : Telling) : (f.told t).message = f.raised.message := by
  obtain ⟨raised, departures⟩ := f
  unfold told
  induction departures generalizing raised with
  | nil => rfl
  | cons d departures ih => exact (ih _).trans (t.message d.body d.machine raised)

end Flight

/-! ### Relaying natives -/

/-- An action that passes on unchanged the errors of the evaluations it starts, or deals with them by
kind and message, and defines only natives that do so too. -/
inductive Action.Relays : Action → Prop where
  | give (value : Word) : Relays (.give value)
  | fail (error : Error) : Relays (.fail error)
  | takeLiteral {next : Option String → Action} (hnext : ∀ text?, Relays (next text?)) :
    Relays (.takeLiteral next)
  | write {stream : Stream} {bytes : Text.Bytes} {next : Action} (hnext : Relays next) :
    Relays (.write stream bytes next)
  | look {next : View → Action} (hnext : ∀ view, Relays (next view)) : Relays (.look next)
  | define {name : String} {tag : Tag (List Word → Action)} {value : Word}
    {next : Except Error Nat → Action}
    (hnative : ∀ native arity, tag = .native native arity → ∀ args, Relays (native args))
    (hnext : ∀ index, Relays (next index)) : Relays (.define name tag value next)
  | evalText {text : String} {duplicate topLevel : Bool} {next : Except Error Unit → Action}
    (handler : ErrorKind → String → Option Action) (hok : Relays (next (.ok ())))
    (herror : ∀ e, next (.error e) = (handler e.kind e.message).getD (.fail e))
    (hhandled : ∀ kind message action, handler kind message = some action → Relays action) :
    Relays (.evalText text duplicate topLevel next)
  | evalFile {path : String} {next : Except Error Unit → Action}
    (handler : ErrorKind → String → Option Action) (hok : Relays (next (.ok ())))
    (herror : ∀ e, next (.error e) = (handler e.kind e.message).getD (.fail e))
    (hhandled : ∀ kind message action, handler kind message = some action → Relays action) :
    Relays (.evalFile path next)
  | ask {question : Question} {next : question.Answer → Action} (hnext : ∀ answer, Relays (next answer)) :
    Relays (.ask question next)

def Tag.Relays (tag : Tag Native) : Prop :=
  ∀ native arity, tag = .native native arity → ∀ args, (native args).Relays

def Machine.Relays (m : Machine) : Prop := m.arena.EveryTag Tag.Relays

theorem Builtin.relays_of_mem {entry : String × Nat × Native} (h : entry ∈ Builtin.all)
    (args : List Word) : (entry.2.2 args).Relays := by
  refine Requests.of_mem_all ⟨.give, .takeLiteral, fun _ => .write (.give 0), .ask⟩ (fun path => ?_)
    .fail h args
  exact .evalFile (fun _ _ => none) (.give 0) (fun _ => rfl) nofun

theorem Machine.OnlyBuiltins.relays {m : Machine} (h : m.OnlyBuiltins) : m.Relays := by
  intro i s found native arity htag args
  obtain ⟨entry, member, rfl⟩ := h found htag
  exact Builtin.relays_of_mem member args

/-- The natives of the table relay, and as many evaluations are under way as before. -/
structure Minded (m m' : Machine) : Prop where
  relays : m'.Relays
  depth : m'.depth = m.depth

/-- What becomes of a machine whose natives relay. -/
def Minding (m m' : Machine) : Prop := m.Relays → Minded m m'

theorem minding_track : Track Minding where
  refl _ relays := ⟨relays, rfl⟩
  trans h k relays :=
    have first := h relays
    have second := k first.relays
    ⟨second.relays, second.depth.trans first.depth⟩

section

variable {m m' : Machine}

theorem Machine.Relays.of_symbols (h : m.Relays) (same : m'.arena.symbols = m.arena.symbols) :
    m'.Relays := fun _ _ found => h (same ▸ found)

theorem minding_elsewhere (symbols : m'.arena.symbols = m.arena.symbols)
    (depth : m'.depth = m.depth) : Minding m m' := fun relays =>
  ⟨relays.of_symbols symbols, depth⟩

theorem minding_note : Keeps Minding (update Machine.note) := fun _ => minding_elsewhere rfl rfl

theorem minding_addSymbol {name : Slice} {tag : Tag Native} {value : Word} (htag : tag.Relays) :
    Keeps Minding (allocate (·.addSymbol name tag value)) :=
  minding_track.allocate fun granted relays => ⟨relays.addSymbol granted htag, rfl⟩

theorem minding_addScripted {name : Slice} {tag : Tag Native} {value : Word}
    (htag : ∀ native arity, tag ≠ .native native arity) :
    Keeps Minding (allocate (·.addSymbol name tag value)) :=
  minding_addSymbol fun native arity h => absurd h (htag native arity)

theorem minding_addBytes {m : Machine} {bytes : Text.Bytes} {slice : Slice} {arena : Arena Native}
    (granted : m.arena.addBytes bytes = some (slice, arena)) : Minding m (m.withArena arena) := by
  obtain ⟨-, -, rfl⟩ := Arena.addBytes_eq_some granted
  exact minding_elsewhere rfl rfl

theorem Minded.rollback (h : Minded m m') (count : Nat) :
    Minded m (m'.withArena (m'.arena.rollback count)) where
  relays := h.relays.rollback count
  depth := h.depth

theorem Minded.setValue (h : Minded m m') (index : Nat) (value : Word) :
    Minded m (m'.withArena (m'.arena.setValue index value)) where
  relays := h.relays.setValue index value
  depth := h.depth

theorem minding_advanceBy (raw : Bool) : Keeps Minding (advanceBy raw) := by
  intro m
  obtain ⟨cursor, token, literals, hm, -⟩ := advanceBy_machine raw m
  rw [hm]
  exact minding_elsewhere rfl rfl

theorem minding_naming : NamingDiscipline Minding :=
  ⟨minding_track, minding_advanceBy, minding_addBytes⟩

theorem minding_push (word : Word) : Keeps Minding (push word) :=
  minding_track.push fun _ => minding_elsewhere rfl rfl

theorem minding_popOnto (words : List Word) (count : Nat) : Keeps Minding (popOnto words count) :=
  minding_track.popOnto (fun _ => minding_elsewhere rfl rfl) words count

theorem minding_bindParameters (bindings : List (Slice × Word)) :
    Keeps Minding (Call.bindParameters bindings) :=
  minding_track.bindParameters (fun _ _ => minding_addScripted nofun) bindings

theorem minding_define {name : String} {tag : Tag Native} {value : Word} (htag : tag.Relays) :
    Keeps Minding (define name tag value) :=
  minding_track.define (minding_track.allocate minding_addBytes) fun _ => minding_addSymbol htag

theorem minding_ask (world : World) (question : Question) : Keeps Minding (world.ask question) :=
  minding_track.ask (fun _ _ => minding_elsewhere rfl rfl) world question

theorem minding_declareFunction : Keeps Minding Statement.declareFunction := by
  refine minding_naming.declareFunction (fun _ => minding_track.allocate fun granted => ?_)
    fun _ _ _ => minding_addScripted nofun
  obtain ⟨-, -, rfl⟩ := Arena.addRoutine_eq_some granted
  exact minding_elsewhere rfl rfl

end

end Scriptlet
