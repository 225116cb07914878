import Scriptlet.Proofs.Unknown.Reading

/-!
What is to blame for an error. When a name stands for nothing, evaluation fails, and the account of the
evaluation ends there; the first body that the error leaves tells where the machine was reading. Behind that
only those are told of whom the error passes: evaluations that fail with it, and natives that end with it.

`Traced.Fair` says so of a computation on a machine. It needs to know nothing of the machine, but for one
thing: to tell where the name was read, the machine has to be anchored, and what is read on an anchored
machine leaves it anchored (`Traced.Anchoring`).
-/

namespace Scriptlet

open Eval

variable {α β σ : Type}

/-! ### Accounts of unknown names -/

/-- Evaluations have failed with the error, and natives or the host have ended with it. -/
def PassedOn (error : Error) (trail : List Event) : Prop :=
  ∀ e ∈ trail, e.what = .failed error ∨ e.what = .refused error

/-- A name was met where it was read, and what could be read before still can. -/
structure Met (m : Machine) (name : Slice) (n : Machine) : Prop where
  token : n.token = .name name
  anchored : Anchored n
  stores : Stores m n

theorem Met.after {m m' n : Machine} {name : Slice} (h : Met m' name n) (k : Stores m m') :
    Met m name n :=
  ⟨h.token, h.anchored, k.trans h.stores⟩

namespace Traced

/-- Where the account ends with a name, the error that the computation fails with has its place. -/
def Settles (x : Traced α) (m : Machine) : Prop :=
  ∀ ⦃error m' before name n⦄, x.run m = .failed error m' →
    x.events m = before ++ [⟨.unresolved name, n⟩] → error = n.locate .unknownSymbol

/-- What is told of names is as it has to be. -/
structure Fair (x : Traced α) (m : Machine) : Prop where
  stores : Stores m (x.run m).machine
  met : ∀ e ∈ x.events m, ∀ name, e.what = .unresolved name → Met m name e.machine
  /-- An error that was told of behind a name has the place of the name. -/
  passed : ∀ ⦃before name n trail error⦄, x.events m = before ++ ⟨.unresolved name, n⟩ :: trail →
    trail ≠ [] → PassedOn error trail → error = n.locate .unknownSymbol
  /-- No computation gets past a name. -/
  stays : ∀ ⦃a m' before name n⦄, x.run m = .done a m' → x.events m ≠ before ++ [⟨.unresolved name, n⟩]
  /-- The error has its place, or is about to be given it. -/
  raised : ∀ ⦃error m' before name n⦄, x.run m = .failed error m' →
    x.events m = before ++ [⟨.unresolved name, n⟩] →
    error = n.locate .unknownSymbol ∨ error = .unknownSymbol ∧ ∀ e, m'.locate e = n.locate e

/-- An event of two accounts is in the one or in the other. -/
theorem split_events {xs ys before trail : List Event} {e : Event}
    (h : xs ++ ys = before ++ e :: trail) :
    (∃ before', ys = before' ++ e :: trail) ∨
      ∃ trail', xs = before ++ e :: trail' ∧ trail = trail' ++ ys := by
  rcases List.append_eq_append_iff.mp h with ⟨rest, -, inside⟩ | ⟨rest, inside, behind⟩
  · exact .inl ⟨rest, inside⟩
  · cases rest with
    | nil => exact .inl ⟨[], behind.symm⟩
    | cons e' rest =>
      obtain ⟨rfl, rfl⟩ := List.cons.inj behind
      exact .inr ⟨rest, inside, rfl⟩

/-- An account of one event has nothing before or behind it. -/
theorem single_event {before trail : List Event} {e e' : Event} (h : [e'] = before ++ e :: trail) :
    before = [] ∧ e' = e ∧ trail = [] := by
  cases before with
  | nil =>
    cases h
    exact ⟨rfl, rfl, rfl⟩
  | cons _ before => cases before <;> cases h

namespace Fair

variable {m : Machine} {x : Traced α}

theorem quiet {y : Eval α} (hy : Stores m (y m).machine) : (Traced.quiet y).Fair m where
  stores := hy
  met e he := by cases he
  passed before _ _ _ _ h := by cases before <;> cases h
  stays _ _ before _ _ _ h := by cases before <;> cases h
  raised _ _ before _ _ _ h := by cases before <;> cases h

theorem tell {what : Occasion} (other : ∀ name, what ≠ .unresolved name) : (Traced.tell what).Fair m where
  stores := .refl m
  met e he name unresolved := by
    cases List.mem_singleton.mp he
    exact absurd unresolved (other name)
  passed before name n trail error h more := absurd (single_event h).2.2 more
  stays _ _ before name n _ h := other name (congrArg Event.what (single_event h).2.1)
  raised _ _ _ _ _ failed := by cases failed

theorem bind {f : α → Traced β} (hx : x.Fair m)
    (hf : ∀ a m', x.run m = .done a m' → (f a).Fair m') : (x >>= f).Fair m := by
  have events : (x >>= f).events m =
      x.events m ++ (x.run m).thenTold fun a m' => (f a).events m' := rfl
  have run : (x >>= f).run m = (x.run m).andThen fun a => (f a).run := rfl
  have first := hx.stores
  cases hm : x.run m with
  | done a m' =>
    have hf := hf a m' hm
    rw [hm] at events run first
    change _ = x.events m ++ (f a).events m' at events
    change _ = (f a).run m' at run
    refine ⟨run ▸ first.trans hf.stores, fun e he name unresolved => ?_,
      fun before name n trail error split more passed => ?_, fun b m'' before name n done split => ?_,
      fun error m'' before name n failed split => ?_⟩
    · rw [events] at he
      rcases List.mem_append.mp he with he | he
      · exact hx.met e he name unresolved
      · exact (hf.met e he name unresolved).after first
    · rw [events] at split
      rcases split_events split with ⟨before', inside⟩ | ⟨trail', inside, rfl⟩
      · exact hf.passed inside more passed
      · refine hx.passed inside ?_ fun e he => passed e (List.mem_append_left _ he)
        -- had the first account ended with the name, nothing would have followed
        rintro rfl
        exact hx.stays hm inside
    · rw [events] at split
      rcases split_events split with ⟨before', inside⟩ | ⟨trail', inside, nothing⟩
      · exact hf.stays (run.symm.trans done) inside
      · cases (List.append_eq_nil_iff.mp nothing.symm).1
        exact hx.stays hm inside
    · rw [events] at split
      rcases split_events split with ⟨before', inside⟩ | ⟨trail', inside, nothing⟩
      · exact hf.raised (run.symm.trans failed) inside
      · cases (List.append_eq_nil_iff.mp nothing.symm).1
        exact absurd inside (hx.stays hm)
  | failed error m' =>
    rw [hm] at events run first
    have events : (x >>= f).events m = x.events m := events.trans (List.append_nil _)
    refine ⟨run ▸ first, events ▸ hx.met, events ▸ hx.passed, fun _ _ _ _ _ done => ?_,
      fun error' m'' before name n failed split => ?_⟩
    · cases run.symm.trans done
    · cases run.symm.trans failed
      exact hx.raised hm (events ▸ split)
  | stopped why m' =>
    rw [hm] at events run first
    have events : (x >>= f).events m = x.events m := events.trans (List.append_nil _)
    refine ⟨run ▸ first, events ▸ hx.met, events ▸ hx.passed, fun _ _ _ _ _ done => ?_,
      fun _ _ _ _ _ failed => ?_⟩
    · cases run.symm.trans done
    · cases run.symm.trans failed

/-- An error that was last told of behind a name, if it was told of at all, has the place of the name. -/
theorem blame (hx : x.Fair m) (settles : x.Settles m) {error : Error} {m' n : Machine}
    {before trail : List Event} {name : Slice} (failed : x.run m = .failed error m')
    (told : x.events m = before ++ ⟨.unresolved name, n⟩ :: trail) (passed : PassedOn error trail) :
    error = n.locate .unknownSymbol := by
  cases trail with
  | nil => exact settles failed told
  | cons e trail => exact hx.passed told (List.cons_ne_nil e trail) passed

/-- What fails with the same error, and goes on to read in the same place if the error has none. -/
theorem around {y : Traced β} {start : Machine} (hx : x.Fair start) (hstart : Stores m start)
    (events : y.events m = x.events start) (stores : Stores m (y.run m).machine)
    (done : ∀ {b m'}, y.run m = .done b m' → ∃ a m'', x.run start = .done a m'')
    (failed : ∀ {error m'}, y.run m = .failed error m' → ∃ m'', x.run start = .failed error m'' ∧
      (x.Settles start ∨ ∀ e, m'.locate e = m''.locate e)) : y.Fair m where
  stores := stores
  met e he name unresolved := (hx.met e (events ▸ he) name unresolved).after hstart
  passed := events ▸ hx.passed
  stays b m' before name n ran := by
    obtain ⟨a, m'', ran'⟩ := done ran
    exact events ▸ hx.stays ran'
  raised error m' before name n ran split := by
    rw [events] at split
    obtain ⟨m'', ran', settles | same⟩ := failed ran
    · exact .inl (settles ran' split)
    · refine (hx.raised ran' split).imp_right fun ⟨plain, place⟩ => ⟨plain, fun e => ?_⟩
      exact (same e).trans (place e)

end Fair

theorem Settles.around {x : Traced α} {y : Traced β} {m start : Machine} (hx : x.Settles start)
    (events : y.events m = x.events start)
    (failed : ∀ {error m'}, y.run m = .failed error m' → ∃ m'', x.run start = .failed error m'') :
    y.Settles m := by
  intro error m' before name n ran split
  obtain ⟨m'', ran'⟩ := failed ran
  exact hx ran' (events ▸ split)

/-! ### Computations on anchored machines -/

/-- Fair on anchored machines, and leaves them anchored. -/
def Anchoring (x : Traced α) : Prop :=
  ∀ m, Anchored m → x.Fair m ∧ ∀ ⦃a m'⦄, x.run m = .done a m' → Anchored m'

end Traced

theorem Aside.anchored {m m' : Machine} (h : Aside m m') (anchored : Anchored m) : Anchored m' :=
  anchored.stores h.toStores h.cursor h.token

namespace Traced.Anchoring

variable {x : Traced α}

theorem bind {f : α → Traced β} (hx : x.Anchoring) (hf : ∀ a, (f a).Anchoring) : (x >>= f).Anchoring := by
  intro m anchored
  obtain ⟨fair, leaves⟩ := hx m anchored
  refine ⟨fair.bind fun a m' done => (hf a m' (leaves done)).1, fun b m'' done => ?_⟩
  obtain ⟨a, m', first, second⟩ := bind_eq_done done
  exact (hf a m' (leaves first)).2 second

theorem aside {y : Eval α} (hy : Keeps Aside y) : (Traced.quiet y).Anchoring := fun m anchored =>
  ⟨.quiet (hy m).toStores, fun _ _ done => (hy.done done).anchored anchored⟩

theorem beside {y : Eval α} (hy : Keeps Beside y) : (Traced.quiet y).Anchoring := aside fun m => (hy m).aside

theorem still {y : Eval α} (hy : Still y) : (Traced.quiet y).Anchoring := aside (aside_track.still hy)

theorem tell_bind {what : Occasion} (other : ∀ name, what ≠ .unresolved name) {f : Unit → Traced β}
    (hf : (f ()).Anchoring) : (Traced.tell what >>= f).Anchoring := by
  refine bind (fun m anchored => ⟨.tell other, fun _ _ done => ?_⟩) fun _ => hf
  cases done
  exact anchored

/-- What is fair on any machine and comes back to the place of reading. -/
theorem of_fair (fair : ∀ m, x.Fair m) (back : Keeps Returned x.run) : x.Anchoring := by
  refine fun m anchored => ⟨fair m, fun a m' done => ?_⟩
  have returned := back.done done
  have stores := (fair m).stores
  rw [done] at stores
  exact anchored.stores stores returned.cursor returned.token

/-- What is adjusted around a computation does not matter to reading. -/
theorem wrapped {start : Machine → Machine} {y : Traced α} (hx : x.Anchoring)
    (wraps : Wraps Beside start x y) : y.Anchoring := by
  intro m anchored
  have before := (wraps.starts m).aside
  obtain ⟨fair, leaves⟩ := hx (start m) (before.anchored anchored)
  obtain ⟨change, run, behind⟩ := wraps.run m
  refine ⟨fair.around before.toStores (wraps.events m) ?_ (fun ran => ?_) fun {error m'} ran => ?_,
    fun a m' ran => ?_⟩
  · rw [run, Outcome.machine_adjust]
    exact (before.toStores.trans fair.stores).trans (behind _).aside.toStores
  · obtain ⟨m', ran', -⟩ := Outcome.adjust_eq_done (run.symm.trans ran)
    exact ⟨_, m', ran'⟩
  · obtain ⟨m'', ran', rfl⟩ := Outcome.adjust_eq_failed (run.symm.trans ran)
    exact ⟨m'', ran', .inr (behind m'').locate⟩
  · obtain ⟨m'', ran', rfl⟩ := Outcome.adjust_eq_done (run.symm.trans ran)
    exact (behind m'').aside.anchored (leaves ran')

end Traced.Anchoring

theorem anchoring_track : TracedTrack Traced.Anchoring := ⟨.bind, .still⟩

end Scriptlet
