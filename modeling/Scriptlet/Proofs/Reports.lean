import Scriptlet.Proofs.Reach

/-!
Errors are reported once. Every evaluation of a text or a file passes its error through the same
report, and natives evaluate texts in the middle of other evaluations, pass their errors on or drop
them. What tells the evaluations apart is the count of those that are under way. So the relation that
carries the proof has two halves: the count comes back to what it was, and while it is not zero,
nothing is written to the error stream.

Natives could write there as well. Those that do not are called mute; a mute native defines only
natives that are mute too, so the table of a machine stays mute.
-/

namespace Scriptlet

open Eval

open Text (Bytes)

/-- An action that writes nothing to the error stream itself, and defines only natives that do not
either. What it has evaluated may fail. -/
inductive Action.Mute : Action → Prop where
  | give (value : Word) : Mute (.give value)
  | fail (error : Error) : Mute (.fail error)
  | takeLiteral {next : Option String → Action} (hnext : ∀ text?, Mute (next text?)) :
    Mute (.takeLiteral next)
  | write {stream : Stream} {bytes : Bytes} {next : Action} (hstream : stream ≠ .err)
    (hnext : Mute next) : Mute (.write stream bytes next)
  | look {next : View → Action} (hnext : ∀ view, Mute (next view)) : Mute (.look next)
  | define {name : String} {tag : Tag (List Word → Action)} {value : Word}
    {next : Except Error Nat → Action}
    (hnative : ∀ native arity, tag = .native native arity → ∀ args, Mute (native args))
    (hnext : ∀ index, Mute (next index)) : Mute (.define name tag value next)
  | evalText {text : String} {duplicate topLevel : Bool} {next : Except Error Unit → Action}
    (hnext : ∀ ended, Mute (next ended)) : Mute (.evalText text duplicate topLevel next)
  | evalFile {path : String} {next : Except Error Unit → Action}
    (hnext : ∀ ended, Mute (next ended)) : Mute (.evalFile path next)
  | ask {question : Question} {next : question.Answer → Action}
    (hnext : ∀ answer, Mute (next answer)) : Mute (.ask question next)

def Tag.Mute (tag : Tag Native) : Prop :=
  ∀ native arity, tag = .native native arity → ∀ args, (native args).Mute

def Machine.Mute (m : Machine) : Prop :=
  ∀ (i : Nat) s, m.arena.symbols[i]? = some s → s.tag.Mute

/-- The natives are mute, the count of evaluations is what it was, and if any was under way, nothing
was written to the error stream. -/
structure Hushed (m m' : Machine) : Prop where
  mute : m'.Mute
  depth : m'.depth = m.depth
  written : 0 < m.depth → m'.written .err = m.written .err

/-- What becomes of a machine whose natives are mute. -/
def Silent (m m' : Machine) : Prop := m.Mute → Hushed m m'

theorem silent_track : Track Silent where
  refl m mute := ⟨mute, rfl, fun _ => rfl⟩
  trans hab hbc mute := by
    have first := hab mute
    have second := hbc first.mute
    exact ⟨second.mute, second.depth.trans first.depth,
      fun under => (second.written (first.depth ▸ under)).trans (first.written under)⟩

/-! ### Changes of the table -/

theorem Machine.Mute.of_symbols {m m' : Machine} (h : m.Mute)
    (same : m'.arena.symbols = m.arena.symbols) : m'.Mute := fun i s found => h i s (same ▸ found)

theorem silent_of_symbols {m m' : Machine}
    (symbols : m.Mute → m'.Mute) (depth : m'.depth = m.depth)
    (transcript : m'.transcript = m.transcript) : Silent m m' := fun mute =>
  ⟨symbols mute, depth, fun _ => by rw [Machine.written, Machine.written, transcript]⟩

/-- Nothing but the table and the transcript matters, and the count. -/
theorem silent_elsewhere {m m' : Machine} (symbols : m'.arena.symbols = m.arena.symbols)
    (depth : m'.depth = m.depth) (transcript : m'.transcript = m.transcript) : Silent m m' :=
  silent_of_symbols (fun mute => mute.of_symbols symbols) depth transcript

theorem silent_addSymbol {m : Machine} {name : Slice} {tag : Tag Native} {value : Word} {index : Nat}
    {arena : Arena Native} (htag : tag.Mute)
    (granted : m.arena.addSymbol name tag value = some (index, arena)) : Silent m (m.withArena arena) := by
  refine silent_of_symbols (fun mute => ?_) rfl rfl
  have tags : m.arena.EveryTag Tag.Mute := mute
  exact tags.addSymbol granted htag

theorem silent_rollback {m m' : Machine} (h : Silent m m') (count : Nat) :
    Silent m (m'.withArena (m'.arena.rollback count)) := by
  refine silent_track.trans h (silent_of_symbols (fun mute => ?_) rfl rfl)
  have tags : m'.arena.EveryTag Tag.Mute := mute
  exact tags.rollback count

theorem silent_setValue {m m' : Machine} (h : Silent m m') (index : Nat) (value : Word) :
    Silent m (m'.withArena (m'.arena.setValue index value)) := by
  refine silent_track.trans h (silent_of_symbols (fun mute => ?_) rfl rfl)
  have tags : m'.arena.EveryTag Tag.Mute := mute
  exact tags.setValue index value

theorem silent_roaming : Roaming Silent where
  toTrack := silent_track
  elsewhere memory _ depth transcript :=
    silent_elsewhere (congrArg (fun memory : Memory => memory.arena.symbols) memory) depth transcript
  note _ := silent_elsewhere rfl rfl rfl
  rollback h := silent_rollback h _

theorem silent_addBytes {m : Machine} {bytes : Bytes} {slice : Slice} {arena : Arena Native}
    (granted : m.arena.addBytes bytes = some (slice, arena)) : Silent m (m.withArena arena) := by
  obtain ⟨-, -, rfl⟩ := Arena.addBytes_eq_some granted
  exact silent_elsewhere rfl rfl rfl

theorem silent_define (name : String) {tag : Tag Native} (htag : tag.Mute) (value : Word) :
    Keeps Silent (define name tag value) :=
  silent_track.define (silent_track.allocate silent_addBytes) fun _ =>
    silent_track.allocate (silent_addSymbol htag)

/-- What scripts define is no native. -/
theorem silent_addScripted {name : Slice} {tag : Tag Native} {value : Word}
    (scripted : ∀ native arity, tag ≠ .native native arity) :
    Keeps Silent (allocate (·.addSymbol name tag value)) :=
  silent_track.allocate (silent_addSymbol fun native arity h => absurd h (scripted native arity))

theorem silent_bindParameters (bindings : List (Slice × Word)) :
    Keeps Silent (Call.bindParameters bindings) :=
  silent_track.bindParameters (fun _ _ => silent_addScripted nofun) bindings

/-! ### Texts and files -/

theorem silent_write {stream : Stream} (hstream : stream ≠ .err) (bytes : Bytes) :
    Keeps Silent (Eval.write stream bytes) := fun m mute =>
  ⟨mute.of_symbols rfl, rfl, fun _ => by
    change (m.write stream bytes).written .err = m.written .err
    simp [Machine.written, Machine.write, hstream]⟩

/-- What is read off the error stream after a report. -/
theorem Machine.written_write (m : Machine) (stream : Stream) (bytes : Bytes) :
    (m.write stream bytes).written stream = m.written stream ++ bytes := by
  simp [Machine.written, Machine.write]

/-- An error that leaves an evaluation inside another one is not written. -/
theorem silent_reporting {α : Type} {x : Eval α} (hx : Keeps Silent x) : Keeps Silent (reporting x) := by
  intro m mute
  have kept := hx m mute
  unfold reporting
  cases hm : x m with
  | done a m' =>
    rw [hm] at kept
    exact kept
  | failed e m' =>
    rw [hm] at kept
    dsimp only
    split
    · next outermost =>
      have depth : m'.depth = m.depth := kept.depth
      exact ⟨kept.mute.of_symbols rfl, depth, fun under => absurd under (by omega)⟩
    · exact kept
  | stopped why m' =>
    rw [hm] at kept
    exact kept

/-- While the evaluation of a text is under way, nothing is written to the error stream, whichever
evaluation encloses it. -/
theorem hushed_entering {α : Type} {x : Eval α} (hx : Keeps Silent x) {m : Machine} (mute : m.Mute) :
    Hushed m (entering x m).machine ∧ (entering x m).machine.written .err = m.written .err := by
  have inside := hx { m with depth := m.depth + 1 } (mute.of_symbols rfl)
  have silent := inside.written (Nat.succ_pos _)
  have depth := inside.depth
  unfold entering
  rw [Outcome.machine_adjust]
  exact ⟨⟨inside.mute.of_symbols rfl, by dsimp only at depth ⊢; omega, fun _ => silent⟩, silent⟩

theorem hushed_holding {α : Type} {x : Nat → Eval α} (hx : ∀ slot, Keeps Silent (x slot))
    (text : Bytes) (forGood : Bool) {m : Machine} (mute : m.Mute) :
    Hushed m (holding text forGood (fun slot => entering (x slot)) m).machine ∧
      (holding text forGood (fun slot => entering (x slot)) m).machine.written .err =
        m.written .err := by
  obtain ⟨inside, silent⟩ := hushed_entering (hx (m.texts.retain text.toArray).1)
    (m := m.withTexts (m.texts.retain text.toArray).2) (mute.of_symbols rfl)
  unfold holding
  rw [Outcome.machine_adjust]
  cases forGood with
  | true => exact ⟨⟨inside.mute, inside.depth, inside.written⟩, silent⟩
  | false => exact ⟨⟨inside.mute.of_symbols rfl, inside.depth, inside.written⟩, silent⟩

/-! ### What is reported -/

/-- The bytes that an outcome puts on the error stream: the text of the error and a newline, or
nothing. -/
def Outcome.report {α : Type} : Outcome α → Bytes
  | .failed e _ => Text.encode (e.render ++ "\n")
  | .done _ _ | .stopped _ _ => []

/-- The error stream has grown by the report, and by nothing else. -/
def Outcome.Reports {α : Type} (before : Machine) (o : Outcome α) : Prop :=
  o.machine.written .err = before.written .err ++ o.report

/-- A computation that itself writes no errors has its error reported, if no evaluation encloses
it. -/
theorem reports_reporting {α : Type} {x : Eval α} {m : Machine} (depth : (x m).machine.depth = 0)
    (silent : (x m).machine.written .err = m.written .err) : (reporting x m).Reports m := by
  unfold reporting Outcome.Reports
  cases hm : x m with
  | done a m' =>
    rw [hm] at silent
    simpa [Outcome.report, Outcome.machine] using silent
  | failed e m' =>
    rw [hm] at silent depth
    change m'.depth = 0 at depth
    change m'.written .err = m.written .err at silent
    simp only [depth, if_true, Outcome.machine, Outcome.report]
    rw [Machine.written_write, silent]
  | stopped why m' =>
    rw [hm] at silent
    simpa [Outcome.report, Outcome.machine] using silent

section

variable {r : Reentry}
  (hbody : ∀ body topLevel duplicate, Keeps Silent (r.body body topLevel duplicate))

include hbody

theorem silent_body (body : Slice) (topLevel duplicate : Bool) :
    Keeps Silent (do let _ ← r.body body topLevel duplicate : Eval Unit) :=
  silent_track.bind (hbody body topLevel duplicate) fun _ => silent_track.still (still_pure _)

theorem silent_text (text : String) (duplicate topLevel : Bool) :
    Keeps Silent (Eval.text r text duplicate topLevel) := by
  intro m
  refine silent_track.trans (silent_elsewhere rfl rfl rfl : Silent m m.note) ?_
  refine silent_reporting (fun m mute => ?_) m.note
  exact (hushed_holding (fun slot => silent_body hbody _ topLevel duplicate) _ _ mute).1

/-- A text that is evaluated inside no other has its error reported. -/
theorem reports_text (text : String) (duplicate topLevel : Bool) {m : Machine} (mute : m.Mute)
    (depth : m.depth = 0) : (Eval.text r text duplicate topLevel m).Reports m := by
  have started : m.note.Mute := mute.of_symbols rfl
  obtain ⟨inside, silent⟩ := hushed_holding (fun slot =>
    silent_body hbody ⟨.text slot, 0, (Text.encode text).length⟩ topLevel duplicate)
    (Text.encode text) (!duplicate && topLevel) started
  exact reports_reporting (m := m.note) (inside.depth.trans depth) silent

omit hbody in
theorem silent_readScript (world : World) (path : String) : Keeps Silent (readScript world path) :=
  keeps_readScript silent_track (silent_roaming.ask world) path

omit hbody in
theorem written_err_readScript (world : World) (path : String) (m : Machine) :
    (readScript world path m).machine.written .err = m.written .err := by
  have silent : Track fun m m' : Machine => m'.written .err = m.written .err :=
    ⟨fun _ => rfl, fun hab hbc => hbc.trans hab⟩
  exact keeps_readScript silent (silent.ask (fun _ _ => rfl) world) path m

theorem silent_file (path : String) : Keeps Silent (Eval.file r path) :=
  silent_track.bind (silent_reporting (silent_readScript r.world path))
    fun contents => silent_text hbody contents true true

/-- A file is reported on once: if it cannot be read, its text is not evaluated. -/
theorem reports_file (path : String) {m : Machine} (mute : m.Mute) (depth : m.depth = 0) :
    (Eval.file r path m).Reports m := by
  have reading := silent_readScript r.world path m mute
  have reported := reports_reporting (reading.depth.trans depth) (written_err_readScript r.world path m)
  have after := silent_reporting (silent_readScript r.world path) m mute
  unfold Eval.file
  rw [bind_apply]
  cases hm : reporting (readScript r.world path) m with
  | failed e m' =>
    rw [hm] at reported
    exact reported
  | stopped why m' =>
    rw [hm] at reported
    exact reported
  | done contents m' =>
    rw [hm] at reported after
    have evaluated := reports_text hbody contents true true after.mute (after.depth.trans depth)
    have read : m'.written .err = m.written .err := by
      simpa [Outcome.Reports, Outcome.report, Outcome.machine] using reported
    exact evaluated.trans (congrArg (· ++ _) read)

/-! ### Natives -/

/-- Whatever becomes of the evaluations a mute native starts, it leaves the error stream to their
reports. -/
theorem silent_perform {action : Action} (mute : action.Mute) : Keeps Silent (action.perform r) := by
  induction mute with
  | give value => exact silent_track.still (still_pure _)
  | fail error => exact silent_track.still (still_fail _)
  | takeLiteral hnext ih =>
    exact silent_track.bind (fun m => silent_elsewhere rfl rfl rfl) fun text? => ih text?
  | write hstream hnext ih => exact silent_track.bind (silent_write hstream _) fun _ => ih
  | look hnext ih =>
    exact silent_track.bind (fun m => silent_elsewhere rfl rfl rfl) fun view => ih view
  | @define name tag value next hnative hnext _ ih =>
    exact silent_track.bind (silent_define name hnative value).attempt fun index => ih index
  | evalText hnext ih =>
    exact silent_track.bind (silent_text hbody _ _ _).attempt fun ended => ih ended
  | evalFile hnext ih => exact silent_track.bind (silent_file hbody _).attempt fun ended => ih ended
  | ask hnext ih => exact silent_track.bind (silent_roaming.ask r.world _) fun answer => ih answer

/-! ### Every evaluation -/

theorem silent_runFunction (number : Word) (args : List Word) :
    Keeps Silent (Call.runFunction r number args) :=
  silent_roaming.runFunction hbody silent_bindParameters number args

section

variable (hexpr : Keeps Silent r.expression)

include hexpr

theorem silent_loose : LooseDiscipline Silent r where
  toTrack := silent_track
  stack _ _ := silent_elsewhere rfl rfl rfl
  literals _ _ := silent_elsewhere rfl rfl rfl
  quoting _ _ := silent_elsewhere rfl rfl rfl
  advanceBy := silent_roaming.advanceBy
  expression := hexpr
  perform found htag hm args mute :=
    silent_track.trans hm (silent_perform hbody (mute _ _ found _ _ htag args) _) mute
  runFunction _ _ hm args := silent_track.trans hm (silent_runFunction hbody _ args _)

omit hbody in
theorem silent_assigning : AssigningDiscipline Silent r where
  toTrack := silent_track
  advanceBy := silent_roaming.advanceBy
  expression := hexpr
  setValue _ _ hm value := silent_setValue hm _ value

omit hbody hexpr in
theorem silent_naming : NamingDiscipline Silent := ⟨silent_track, silent_roaming.advanceBy, silent_addBytes⟩

omit hbody hexpr in
theorem silent_declareFunction : Keeps Silent Statement.declareFunction := by
  refine silent_naming.declareFunction (fun _ => silent_track.allocate fun granted => ?_)
    fun _ _ _ => silent_addScripted nofun
  obtain ⟨-, -, rfl⟩ := Arena.addRoutine_eq_some granted
  exact silent_elsewhere rfl rfl rfl

theorem silent_discipline : Discipline Silent r where
  toUndeclaringDiscipline := silent_roaming.undeclaring hbody (silent_loose hbody hexpr)
    (silent_assigning hexpr) (silent_naming.declareVariable (silent_assigning hexpr)
      fun granted => silent_addSymbol (fun _ _ h => by cases h) granted)
  declareFunction := silent_declareFunction

theorem silent_wholeBody (body : Slice) (topLevel duplicate : Bool) :
    Keeps Silent (r.wholeBody body topLevel duplicate) :=
  silent_roaming.wholeBody (silent_discipline hbody hexpr).statements body topLevel duplicate

end

end

theorem silent_ofFuel (world : World) (fuel : Nat) :
    Keeps Silent (evalExpression world fuel) ∧
      ∀ body topLevel duplicate, Keeps Silent (evalBody world fuel body topLevel duplicate) :=
  keeps_ofFuel silent_track silent_track world
    (fun hexpr hbody => (silent_discipline hbody hexpr).wholeExpression)
    (fun hexpr hbody => silent_wholeBody hbody hexpr) fuel

/-! ### Machines that hosts leave -/

namespace Builtin

theorem mute_of_mem {entry : String × Nat × Native} (h : entry ∈ all) (args : List Word) :
    (entry.2.2 args).Mute := by
  refine Requests.of_mem_all ⟨.give, .takeLiteral, fun _ => .write (by decide) (.give 0), .ask⟩
    (fun path => ?_) .fail h args
  refine .evalFile fun ended => ?_
  cases ended with
  | ok _ => exact .give 0
  | error e => exact .fail e

end Builtin

namespace Machine

theorem mute_new {options : Options} {m : Machine} (made : Machine.new options = .ok m) : m.Mute := by
  intro i s found native arity htag args
  obtain ⟨entry, hmem, rfl⟩ := onlyBuiltins_new made found htag
  exact Builtin.mute_of_mem hmem args

theorem depth_new {options : Options} {m : Machine} (made : Machine.new options = .ok m) :
    m.depth = 0 := by
  unfold Machine.new at made
  split at made
  · cases made
    rfl
  · cases made

/-- A host that is mute leaves a machine whose natives are mute, with no evaluation under way. -/
theorem LeftBy.mute {host : Action} {m : Machine} (left : LeftBy host m) (mute : host.Mute) :
    m.Mute ∧ m.depth = 0 := by
  obtain ⟨options, start, world, fuel, -, made, rfl⟩ := left
  have acted := silent_perform (r := .ofFuel world fuel) (silent_ofFuel world fuel).2 mute start
    (mute_new made)
  exact ⟨acted.mute, acted.depth.trans (depth_new made)⟩

end Machine

/-! ### The reports of whole evaluations -/

/-- Errors are reported once. Let no evaluation be under way, and let no native write to the error
stream itself. Then the evaluation of a text or of a file, whatever it evaluates in turn and whatever
becomes of that, writes the error it fails with to the error stream, with a newline, and writes nothing
else there; so if it does not fail it writes nothing. -/
theorem errors_reported_once {m : Machine} (depth : m.depth = 0) (mute : m.Mute) (world : World)
    (fuel : Nat) :
    (∀ text duplicate topLevel, (evalText world fuel text duplicate topLevel m).Reports m) ∧
      ∀ path, (evalFile world fuel path m).Reports m := by
  have body := (silent_ofFuel world fuel).2
  exact ⟨fun text duplicate topLevel => reports_text (r := .ofFuel world fuel) body text duplicate
    topLevel mute depth, fun path => reports_file (r := .ofFuel world fuel) body path mute depth⟩

/-- A host that defines a native which evaluates a text and drops its error. -/
def droppingHost : Action :=
  .define "try" (.native (fun _ => .takeLiteral fun text? =>
    .evalText (text?.getD "") true false fun _ => .give 0) 1) 0 fun _ => .give 0

theorem mute_droppingHost : droppingHost.Mute := by
  refine .define (fun native arity h => ?_) fun _ => .give 0
  cases h
  exact fun args => .takeLiteral fun _ => .evalText fun _ => .give 0

/-- One error is dropped, the next is passed on, and only that is seen. -/
theorem errors_reported_once_of_droppingHost :
    ∃ m : Machine, Machine.LeftBy droppingHost m ∧ m.depth = 0 ∧ m.Mute ∧
      (evalText (fun _ _ => none) 20 "try \"x = 1\"\ny = 2" false true m).Reports m ∧
      (evalText (fun _ _ => none) 20 "try \"x = 1\"\ny = 2" false true m).report =
        Text.encode "UNKNOWN SYMBOL IN LINE 2 AT \"y = 2\"\n" := by
  have run : ((Machine.new {}).toOption.map fun start =>
      (evalText (fun _ _ => none) 20 "try \"x = 1\"\ny = 2" false true
        (droppingHost.perform (.ofFuel (fun _ _ => none) 20) start).machine).report) =
      some (Text.encode "UNKNOWN SYMBOL IN LINE 2 AT \"y = 2\"\n") := by
    decide +kernel
  obtain ⟨start, made, reported⟩ := Machine.exists_new run
  have left : Machine.LeftBy droppingHost _ := ⟨{}, start, fun _ _ => none, 20, by decide, made, rfl⟩
  obtain ⟨mute, depth⟩ := left.mute mute_droppingHost
  exact ⟨_, left, depth, mute,
    (errors_reported_once depth mute (fun _ _ => none) 20).1 _ false true, reported⟩

end Scriptlet
