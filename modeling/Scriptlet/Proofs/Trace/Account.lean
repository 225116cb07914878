import Scriptlet.Proofs.Trace.Evaluation
import Scriptlet.Proofs.Trace.Knowing
import Scriptlet.Proofs.Trace.Registry

/-!
What accounts have to be like. Two things are expected of the events of an evaluation.

* `Event.OwnStrings`: a native that starts is given the strings of its own argument list.
* `Event.Sure`: no lookup is in vain. An index that is asked for has been read as a token in the run and
  its symbol has lasted since; a value is stored in the variable that the statement is about; what is
  handed words can be called, and a routine that is called is there.

The second is so only where the table is in order. There an error for an unknown symbol, too, comes from
nowhere but a name that stands for nothing or a native's own wish, and that is the last thing that was
told of before it (`Accounted`).

`Vouched whole origin x m` says all this of a computation that starts on a machine, in a run that began
on `origin`, with the second part only if `whole` is set: one walk along the evaluator serves both. Every
combinator has a rule here, and the rules compose along the constructs.
-/

namespace Scriptlet

open Eval

/-! ### The strings of a call -/

def Eval.takeLiterals : Nat → Eval (List (Option String))
  | 0 => return []
  | count + 1 => do
    let text? ← takeLiteral
    return text? :: (← takeLiterals count)

/-- However often it is asked, the machine gives these strings in order, and then no more. -/
def GivesStrings (m : Machine) (strings : List String) : Prop :=
  ∀ count, ∃ m', takeLiterals count m = .done ((List.range count).map (strings[·]?)) m'

theorem givesStrings_pending (m : Machine) : GivesStrings m m.literals.pending := by
  intro count
  induction count generalizing m with
  | zero => exact ⟨m, rfl⟩
  | succ count ih =>
    have first : takeLiteral m = .done m.literals.pending[0]?
        { m with literals := { m.literals with pending := m.literals.pending.tail } } := by
      unfold takeLiteral Literals.takeOldest
      rcases m with ⟨_, _, _, _, _, _, _, _, _, ⟨stack, pending⟩, _⟩
      cases pending <;> rfl
    obtain ⟨m', rest⟩ := ih { m with literals := { m.literals with pending := m.literals.pending.tail } }
    refine ⟨m', ?_⟩
    unfold takeLiterals
    rw [bind_apply, first]
    change (takeLiterals count _).andThen _ = _
    rw [rest, List.range_succ_eq_map, List.map_cons, List.map_map]
    change Outcome.done (m.literals.pending[0]? :: (List.range count).map (m.literals.pending.tail[·]?))
      m' = _
    congr 2
    refine List.map_congr_left fun k _ => ?_
    exact List.getElem?_tail

/-- From one place in a text to the other there is the argument list of a call, in one of the two forms,
and these are the quotations that stand in it outside all parentheses. Behind a list without parentheses
one lexeme more was read, and that is no quotation. -/
inductive ArgumentList (start after : Scanner) : CallForm → List String → Prop where
  | parenthesised {list : List Lexeme}
    (path : start.Path (.openParen :: (list ++ [.closeParen])) after)
    (balanced : parensAfter? 0 list = some 0) :
    ArgumentList start after .parenthesised ((directQuotes 0 list).map start.textOf)
  | command {list : List Lexeme} {next : Lexeme} (path : start.Path (list ++ [next]) after)
    (balanced : parensAfter? 0 list = some 0) (behind : next.quoted = []) :
    ArgumentList start after .command ((directQuotes 0 list).map start.textOf)

/-! ### What is expected of an event -/

/-- A native that starts is given the quotations of its own argument list, and no more. A list without
parentheses must not be followed by another quotation. -/
def Event.OwnStrings (e : Event) : Prop :=
  match e.what with
  | .starting form list => (form = .command → e.machine.token ≠ .literal) →
    ∃ strings, ArgumentList list e.machine.cursor.scanner form strings ∧ GivesStrings e.machine strings
  | _ => True

/-- What is looked up is there, and is what it was when the run that began on `origin` found it. -/
def Event.Sure (origin : Machine) (e : Event) : Prop :=
  match e.what with
  | .seeking index => index < e.machine.arena.symbols.size ∧ Pinned origin index e.machine
  | .storing index since =>
    Meanwhile origin since ∧
      -- the statement has read the variable or has just made it
      (Pinned origin index since ∨ since.arena.symbols.size = index + 1) ∧
      (∃ s, since.arena.symbols[index]? = some s ∧ s.tag = .var) ∧ Lasting index since e.machine
  | .dispatching callee _ => ∃ arity ≤ maxArguments, callee.tag.arity? = some arity
  | .running number args =>
    ∃ routine, e.machine.memory.routine? number = some routine ∧ routine.params.length = args.length
  | _ => True

/-- A name that stands for nothing was met, or a native or the host has ended with an error of this
kind. -/
def Event.Unknown (e : Event) : Prop :=
  match e.what with
  | .unresolved _ => True
  | .refused error => error.kind = .unknownSymbol
  | _ => False

/-- The last event is one that an error for an unknown symbol comes from. -/
def Attributed (events : List Event) : Prop := ∃ before e, events = before ++ [e] ∧ e.Unknown

/-- Each evaluation that has failed for an unknown symbol has told why just before. -/
def Accounted (events : List Event) : Prop :=
  ∀ before e after error, events = before ++ e :: after → e.what = .failed error →
    error.kind = .unknownSymbol → Attributed before

theorem Attributed.append {events : List Event} (h : Attributed events) (before : List Event) :
    Attributed (before ++ events) := by
  obtain ⟨earlier, e, rfl, he⟩ := h
  exact ⟨before ++ earlier, e, by simp, he⟩

theorem accounted_nil : Accounted [] := by
  intro before e after error h
  cases before <;> cases h

theorem accounted_single {e : Event} (h : ∀ error, e.what ≠ .failed error) : Accounted [e] := by
  intro before e' after error hsplit what
  obtain ⟨rfl, hsplit⟩ | ⟨_, -, hsplit⟩ := List.cons_eq_append_iff.mp hsplit
  · cases hsplit
    exact absurd what (h error)
  · cases List.append_eq_nil_iff.mp hsplit.symm |>.2

theorem Accounted.append {xs ys : List Event} (hx : Accounted xs) (hy : Accounted ys) :
    Accounted (xs ++ ys) := by
  intro before e after error hsplit what kind
  rcases List.append_eq_append_iff.mp hsplit with ⟨rest, rfl, rest_eq⟩ | ⟨rest, rfl, rest_eq⟩
  · exact (hy rest e after error rest_eq what kind).append xs
  · cases rest with
    | nil =>
      have first := hy [] e after error rest_eq.symm what kind
      simpa using first.append before
    | cons e' rest =>
      cases rest_eq
      exact hx before e rest error rfl what kind

/-- A failure that is told of behind its own account. -/
theorem Accounted.failed {events : List Event} (h : Accounted events) {error : Error} {m : Machine}
    (known : error.kind = .unknownSymbol → Attributed events) :
    Accounted (events ++ [⟨.failed error, m⟩]) := by
  intro before e after error' hsplit what kind
  rcases List.append_eq_append_iff.mp hsplit with ⟨rest, rfl, rest_eq⟩ | ⟨rest, rfl, rest_eq⟩
  · obtain ⟨rfl, rest_eq⟩ | ⟨_, -, rest_eq⟩ := List.cons_eq_append_iff.mp rest_eq
    · cases rest_eq
      cases what
      simpa using known kind
    · cases List.append_eq_nil_iff.mp rest_eq.symm |>.2
  · cases rest with
    | nil =>
      cases rest_eq
      cases what
      simpa using known kind
    | cons e' rest =>
      cases rest_eq
      exact h before e rest error' rfl what kind

/-! ### Vouching for a computation -/

/-- What is told of a computation on a machine is as it has to be. -/
structure Vouched (whole : Bool) (origin : Machine) {α : Type} (x : Traced α) (m : Machine) : Prop where
  own : ∀ e ∈ x.events m, e.OwnStrings
  sure : whole = true → ∀ e ∈ x.events m, e.Sure origin
  accounted : whole = true → Accounted (x.events m)
  attributed : whole = true → ∀ ⦃error m'⦄, x.run m = .failed error m' →
    error.kind = .unknownSymbol → Attributed (x.events m)

namespace Vouched

variable {whole : Bool} {origin : Machine} {α β σ : Type} {m : Machine}

/-- Where there is nothing to tell, only an unknown symbol could be held against a computation. -/
theorem quietly {x : Eval α}
    (hx : whole = true → ∀ ⦃error m'⦄, x m = .failed error m' → error.kind ≠ .unknownSymbol) :
    Vouched whole origin (.quiet x) m where
  own _ he := by cases he
  sure _ _ he := by cases he
  accounted _ := accounted_nil
  attributed w _ _ failed kind := absurd kind (hx w failed)

theorem quiet {x : Eval α} (hx : Knowing x) : Vouched whole origin (.quiet x) m :=
  quietly fun _ _ _ failed => hx failed

theorem bind {x : Traced α} {f : α → Traced β} (hx : Vouched whole origin x m)
    (hf : ∀ a m', x.run m = .done a m' → Vouched whole origin (f a) m') :
    Vouched whole origin (x >>= f) m := by
  have events : (x >>= f).events m =
      x.events m ++ (x.run m).thenTold fun a m' => (f a).events m' := rfl
  have run : (x >>= f).run m = (x.run m).andThen fun a => (f a).run := rfl
  cases hm : x.run m with
  | done a m' =>
    have hf := hf a m' hm
    rw [hm] at events run
    refine ⟨fun e he => ?_, fun w e he => ?_, fun w => ?_, fun w error n failed kind => ?_⟩
    · rw [events] at he
      exact (List.mem_append.mp he).elim (hx.own e) (hf.own e)
    · rw [events] at he
      exact (List.mem_append.mp he).elim (hx.sure w e) (hf.sure w e)
    · rw [events]
      exact (hx.accounted w).append (hf.accounted w)
    · rw [events]
      exact (hf.attributed w (run.symm.trans failed) kind).append _
  | _ =>
    rw [hm] at events run
    have events : (x >>= f).events m = x.events m := events.trans (List.append_nil _)
    refine ⟨events ▸ hx.own, fun w => events ▸ hx.sure w, fun w => events ▸ hx.accounted w,
      fun w error n failed kind => ?_⟩
    -- the error, if there is one, is that of the first computation
    have first : x.run m = .failed error n := by
      have ended := run.symm.trans failed
      cases ended <;> exact hm
    exact events ▸ hx.attributed w first kind

/-- Something is told before that is no failure of an evaluation. -/
theorem afterTold {what : Occasion} {f : Unit → Traced β} (own : Event.OwnStrings ⟨what, m⟩)
    (sure : whole = true → Event.Sure origin ⟨what, m⟩) (other : ∀ error, what ≠ .failed error)
    (hf : Vouched whole origin (f ()) m) : Vouched whole origin (.tell what >>= f) m := by
  have told : Vouched whole origin (.tell what) m :=
    ⟨fun _ he => List.mem_singleton.mp he ▸ own, fun w _ he => List.mem_singleton.mp he ▸ sure w,
      fun _ => accounted_single other, fun _ _ _ failed => by cases failed⟩
  refine told.bind fun _ m' done => ?_
  cases done
  exact hf

theorem failing {what : Occasion} {error : Error} (own : Event.OwnStrings ⟨what, m⟩)
    (sure : whole = true → Event.Sure origin ⟨what, m⟩) (other : ∀ error, what ≠ .failed error)
    (unknown : error.kind = .unknownSymbol → Event.Unknown ⟨what, m⟩) :
    Vouched whole origin (Traced.tell what >>= fun _ => .quiet (fail error : Eval α)) m where
  own _ he := List.mem_singleton.mp he ▸ own
  sure w _ he := List.mem_singleton.mp he ▸ sure w
  accounted _ := accounted_single other
  attributed _ _ _ failed kind := by
    cases failed
    exact ⟨[], ⟨what, m⟩, rfl, unknown kind⟩

theorem afterRead {g : Machine → α} {f : α → Traced β} (h : Vouched whole origin (f (g m)) m) :
    Vouched whole origin (.quiet (read g) >>= f) m := by
  refine (quiet (knowing_read g)).bind fun a m' done => ?_
  cases done
  exact h

theorem afterQuiet {x : Eval α} {f : α → Traced β} (hx : Knowing x)
    (hf : ∀ a m', x m = .done a m' → Vouched whole origin (f a) m') :
    Vouched whole origin (.quiet x >>= f) m := (quiet hx).bind hf

/-- Every turn of a loop is vouched for on the machines that are ready for one. -/
theorem loop {turn : σ → Traced (Turn σ α)} {I : Machine → Prop}
    (hturn : ∀ s {m}, I m → Vouched whole origin (turn s) m)
    (again : ∀ {s m s' m'}, I m → (turn s).run m = .done (.again s') m' → I m')
    (passes : Nat) (s : σ) (hm : I m) : Vouched whole origin (.loop turn passes s) m := by
  induction passes generalizing s m with
  | zero => exact quiet fun _ _ _ h => by cases h
  | succ passes ih =>
    rw [Traced.loop_succ]
    refine bind (hturn s hm) fun next m' done => ?_
    cases next with
    | again s' => exact ih s' (again hm done)
    | finish a => exact quiet (knowing_pure a)

/-- What vouches for a computation vouches for it within another, which changes the machine, and of an error
no more than what it says besides its kind. -/
theorem within {around : Eval α → Eval β} {start : Machine → Machine} {x : Traced α}
    (hx : Vouched whole origin x (start m))
    (same : ∀ {error m'}, around (fun _ => x.run (start m)) m = .failed error m' →
      ∃ error' m'', x.run (start m) = .failed error' m'' ∧ error'.kind = error.kind) :
    Vouched whole origin (.within around start x) m := by
  refine ⟨hx.own, hx.sure, hx.accounted, fun w error m' failed kind => ?_⟩
  obtain ⟨error', m'', failed, kinds⟩ := same failed
  exact hx.attributed w failed (kinds.trans kind)

theorem adjusted {around : Eval α → Eval α} {start change : Machine → Machine} {x : Traced α}
    (hx : Vouched whole origin x (start m))
    (same : around (fun _ => x.run (start m)) m = (x.run (start m)).adjust change) :
    Vouched whole origin (.within around start x) m := hx.within fun failed => by
  obtain ⟨m', failed, -⟩ := Outcome.adjust_eq_failed (same.symm.trans failed)
  exact ⟨_, m', failed, rfl⟩

section

variable {x : Traced α}

theorem noting (hx : Vouched whole origin x m.note) : Vouched whole origin (.noting x) m :=
  hx.within fun failed => ⟨_, _, failed, rfl⟩

theorem withQuoting {quoting : Quoting} (hx : Vouched whole origin x { m with quoting }) :
    Vouched whole origin (.withQuoting quoting x) m := hx.adjusted rfl

theorem truncatingLiterals {count : Nat} (hx : Vouched whole origin x m) :
    Vouched whole origin (.truncatingLiterals count x) m := adjusted hx rfl

theorem withPending {count : Nat}
    (hx : Vouched whole origin x { m with literals := (m.literals.openFrame count).2 }) :
    Vouched whole origin (.withPending count x) m := hx.adjusted rfl

theorem inFrame (hx : Vouched whole origin x m) : Vouched whole origin (.inFrame x) m := adjusted hx rfl

theorem inBody {body : Slice} {duplicate : Bool}
    (hx : Vouched whole origin x { m with cursor := m.cursorAt body, quoting := .plain, duplicate }) :
    Vouched whole origin (.inBody body duplicate x) m := hx.adjusted rfl

theorem inScope {topLevel : Bool} (hx : Vouched whole origin x m) :
    Vouched whole origin (.inScope topLevel x) m :=
  adjusted hx rfl

theorem entering (hx : Vouched whole origin x { m with depth := m.depth + 1 }) :
    Vouched whole origin (.entering x) m := hx.adjusted rfl

theorem unwinding (hx : Vouched whole origin x m) : Vouched whole origin (.unwinding x) m :=
  within hx fun {error m'} failed => by
    unfold Eval.unwinding at failed
    dsimp only [id] at failed ⊢
    cases hm : x.run m with
    | failed error' m'' =>
      rw [hm] at failed
      cases failed
      exact ⟨_, _, rfl, rfl⟩
    | _ =>
      rw [hm] at failed
      cases failed

theorem locating (hx : Vouched whole origin x m) : Vouched whole origin (.locating x) m :=
  within hx fun {error m'} failed => by
    unfold Eval.locating at failed
    dsimp only [id] at failed ⊢
    cases hm : x.run m with
    | failed error' m'' =>
      rw [hm] at failed
      cases failed
      exact ⟨_, _, rfl, (Machine.kind_locate _ _).symm⟩
    | _ =>
      rw [hm] at failed
      cases failed

theorem reporting (hx : Vouched whole origin x m) : Vouched whole origin (.reporting x) m :=
  within hx fun {error m'} failed => by
    unfold Eval.reporting at failed
    dsimp only [id] at failed ⊢
    cases hm : x.run m with
    | failed error' m'' =>
      rw [hm] at failed
      dsimp only at failed
      split at failed <;>
      · cases failed
        exact ⟨_, _, rfl, rfl⟩
    | _ =>
      rw [hm] at failed
      cases failed

theorem judged (hx : Vouched whole origin x m) : Vouched whole origin (.judged x) m := by
  have events := Traced.events_judged x m
  cases hm : x.run m with
  | failed error m' =>
    rw [hm] at events
    change _ = x.events m ++ [⟨.failed error, m'⟩] at events
    refine ⟨fun e he => ?_, fun w e he => ?_, fun w => ?_, fun w error n failed kind => ?_⟩
    · rw [events] at he
      rcases List.mem_append.mp he with he | he
      · exact hx.own e he
      · cases List.mem_singleton.mp he
        trivial
    · rw [events] at he
      rcases List.mem_append.mp he with he | he
      · exact hx.sure w e he
      · cases List.mem_singleton.mp he
        trivial
    · rw [events]
      exact (hx.accounted w).failed (hx.attributed w hm)
    · rw [Traced.run_judged rfl] at failed
      exact absurd kind (knowing_attempt _ failed)
  | _ =>
    rw [hm] at events
    have events := events.trans (List.append_nil _)
    refine ⟨events ▸ hx.own, fun w => events ▸ hx.sure w, fun w => events ▸ hx.accounted w,
      fun w error n failed kind => ?_⟩
    rw [Traced.run_judged rfl] at failed
    exact absurd kind (knowing_attempt _ failed)

end

/-- A text is held in a slot that was free. -/
theorem holding {x : Nat → Traced α} {text : Text.Bytes} {forGood : Bool}
    (hx : Vouched whole origin (x (m.texts.retain text.toArray).1)
      (m.withTexts (m.texts.retain text.toArray).2)) :
    Vouched whole origin (.holding text forGood x) m := by
  refine ⟨hx.own, hx.sure, hx.accounted, fun w error m' failed kind => ?_⟩
  obtain ⟨m'', failed, -⟩ := Outcome.adjust_eq_failed failed
  exact hx.attributed w failed kind

end Vouched

end Scriptlet
