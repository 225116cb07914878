import Scriptlet.Proofs.Trace.Bodies

/-!
Whole runs. A host acts on a machine, natives act inside, and both start evaluations; what they go
through is the account of the host's action.

Literals belong to their call on every machine and in every run. That no lookup is in vain, and that an
error for an unknown symbol comes from a name or a native, is so in every run from a new machine whose
host leaves it to scripts to define functions.
-/

namespace Scriptlet

open Eval

theorem Bracketed.same_literals {m m' : Machine} (h : Bracketed m m') : m'.literals = m.literals := by
  have apart : m'.literals = ⟨m'.literals.stack, m'.literals.pending⟩ := rfl
  rw [apart, h.literals, h.pending]

theorem bracketed_file {r : Reentry}
    (hbody : ∀ body topLevel duplicate, Keeps Bracketed (r.body body topLevel duplicate))
    (path : String) : Keeps Bracketed (Eval.file r path) :=
  OuterDiscipline.file ⟨bracketed_track, bracketed_write, bracketed_ask r.world, bracketed_text hbody⟩
    path

/-- Literals belong to their call. In every run, on whatever machine it starts, each native that is
called from a script is given the quotations that stand in its own argument list outside all
parentheses, as strings and in the order of the text, and no more. The evaluations that a native starts
leave the literals as they are, so it goes on to be given its own afterwards. And when a call is over, in
whatever way, its strings are gone, those it was not asked for too. -/
theorem own_strings (world : World) (fuel : Nat) :
    (∀ host, (Traced.perform (.ofFuel world fuel) host).run = host.perform (.ofFuel world fuel) ∧
      ∀ m, ∀ e ∈ (Traced.perform (.ofFuel world fuel) host).events m, e.OwnStrings) ∧
    (∀ text duplicate topLevel m,
      (evalText world fuel text duplicate topLevel m).machine.literals = m.literals) ∧
    (∀ path m, (evalFile world fuel path m).machine.literals = m.literals) ∧
    ∀ callee count literals m,
      (Call.handOver (.ofFuel world fuel) callee count literals m).machine.literals =
        ⟨m.literals.stack.take literals, m.literals.pending⟩ := by
  refine ⟨fun host => ⟨?_, fun m => ?_⟩, fun text duplicate topLevel m => ?_, fun path m => ?_,
    fun callee count literals m => ?_⟩
  · rw [Traced.run_perform, TracedReentry.run_ofFuel]
  · have vouched : Vouched false m (Traced.perform (.ofFuel world fuel) host) m :=
      vouched_perform (vouchingDiscipline_ofFuel false m world fuel) (fun w => by cases w)
        ⟨.refl m, fun w => by cases w⟩
    exact vouched.own
  · have bracketed := bracketed_text (r := .ofFuel world fuel) (bracketed_ofFuel world fuel).2 text
      duplicate topLevel m
    exact bracketed.same_literals
  · exact (bracketed_file (bracketed_ofFuel world fuel).2 path m).same_literals
  · exact (handOver_returned (readingDiscipline_ofFuel world fuel) callee count literals m).1

/-- What is pending at each event of a command whose argument has a call in it: the two natives start with
one string each. -/
example : ((Machine.new {}).toOption.map fun start =>
    ((Traced.perform (.ofFuel (fun _ _ => none) 20)
      (.evalText "print \"a\" + putc(\"b\")" false true fun _ => .give 0)).events start).map
        (·.machine.literals.pending)) = some [[], [], [], [], [], ["b"], [], ["a"]] := by
  decide +kernel

/-- No lookup is in vain. Take any run of a host that leaves it to scripts to define functions, from a
new machine. Whenever a symbol is asked for by its index, the run has read that as a token, in the body
that it reads now, and the symbol has been there ever since; whenever a value is stored, the index is
that of the variable which the statement has read or made; words are handed only to symbols that can be
called, with few arguments, and a function that is called has a routine with as many parameters. At every
moment of the machine's life the whole table is fit for this. So where an evaluation ends with an error
for an unknown symbol, the last thing before is a name that stands for nothing, or an error of a native's
own. -/
theorem lookups_sure {host : Action} {options : Options} {start : Machine} (honest : host.Honest)
    (fits : options.arenaSize < UInt64.size) (made : Machine.new options = .ok start) (world : World)
    (fuel : Nat) :
    (Traced.perform (.ofFuel world fuel) host).run = host.perform (.ofFuel world fuel) ∧
    (∀ e ∈ (Traced.perform (.ofFuel world fuel) host).events start, e.Sure start) ∧
    Accounted ((Traced.perform (.ofFuel world fuel) host).events start) ∧
    (∀ error m, host.perform (.ofFuel world fuel) start = .failed error m →
      error.kind = .unknownSymbol →
      Attributed ((Traced.perform (.ofFuel world fuel) host).events start)) ∧
    ∃ life, (∀ l, (host.perform (.ofFuel world fuel) start).machine.history l ↔ l = life) ∧
      ∀ x ∈ life, ∀ (i : Nat) s, x.arena.symbols[i]? = some s →
        (∀ arity, s.tag.arity? = some arity → arity ≤ maxArguments) ∧
        ∀ arity, s.tag = .func arity →
          ∃ routine, x.routine? s.value = some routine ∧ routine.params.length = arity := by
  have run : (Traced.perform (.ofFuel world fuel) host).run = host.perform (.ofFuel world fuel) := by
    rw [Traced.run_perform, TracedReentry.run_ofFuel]
  have ledger := ledger_new fits made
  have vouched : Vouched true start (Traced.perform (.ofFuel world fuel) host) start :=
    vouched_perform (vouchingDiscipline_ofFuel true start world fuel) (fun _ => honest)
      ⟨.refl start, fun _ => ledger⟩
  refine ⟨run, vouched.sure rfl, vouched.accounted rfl, fun error m failed kind => ?_, ?_⟩
  · exact vouched.attributed rfl (run ▸ failed) kind
  · have kept := books_perform (r := .ofFuel world fuel) (books_ofFuel world fuel).2 honest start
    obtain ⟨life, hlife, orderly⟩ := (kept.ledger ledger).always
    refine ⟨life, hlife, fun x hx i s found => ?_⟩
    have enrolled := (orderly x hx).symbols found
    exact ⟨fun _ => enrolled.fits, fun _ => enrolled.described⟩

theorem lookups_sure_of_twoTextHost :
    twoTextHost.Honest ∧ ({} : Options).arenaSize < UInt64.size ∧
      ∃ start events, Machine.new {} = .ok start ∧
        (Traced.perform (.ofFuel (fun _ _ => none) 20) twoTextHost).events start = events ∧
        events.length = 10 ∧ (∀ e ∈ events, e.Sure start) ∧ Accounted events := by
  have honest : twoTextHost.Honest := .evalText fun _ => .evalText fun _ => .give 0
  have told : ((Machine.new {}).toOption.map fun start =>
      ((Traced.perform (.ofFuel (fun _ _ => none) 20) twoTextHost).events start).length) = some 10 := by
    decide +kernel
  obtain ⟨start, made, length⟩ := Machine.exists_new told
  obtain ⟨-, sure, accounted, -⟩ := lookups_sure honest (by decide) made (fun _ _ => none) 20
  exact ⟨honest, by decide, start, _, made, rfl, length, sure, accounted⟩

end Scriptlet
