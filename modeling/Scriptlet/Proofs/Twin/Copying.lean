import Scriptlet.Proofs.Twin.Bodies

/-!
Copying changes nothing but memory. Names and bodies may be copied out of the texts that define them,
or kept where they are, in texts that are then retained for good. A machine that does the one and a
machine that does the other are told apart by nothing but how much room they have left, as long as they
have room (`evalTexts_copying`).

This needs that functions are defined by scripts. A host that makes up the symbol of a function gives a
name to a routine that it did not define; if that is one that a nested body has left behind, its slices
are in a text that is there on the one machine and gone on the other (`evalTexts_guessing`).
-/

namespace Scriptlet

open Eval

variable {α : Type} {strict : Bool} {m m' : Machine}

/-! ### What can be observed -/

/-- What can be seen of a machine, apart from how much room it has: what it has written to the output, the
result register, and the symbols by name, tag and value. -/
structure Machine.Alike (m m' : Machine) : Prop where
  out : m'.written .out = m.written .out
  result : m'.result = m.result
  symbols : m'.symbolList = m.symbolList

/-- Two outcomes: the same success, errors that are the same up to their lines, or the same reason to
stop. The machines that are left are related by `R`, unless the computations were stopped. -/
inductive Outcome.Alike (R : Machine → Machine → Prop) : Outcome α → Outcome α → Prop where
  | done (a : α) {n n' : Machine} (h : R n n') : Alike R (.done a n) (.done a n')
  | failed {e e' : Error} {n n' : Machine} (he : e.Alike e') (h : R n n') :
    Alike R (.failed e n) (.failed e' n')
  | stopped (why : Stop) {n n' : Machine} : Alike R (.stopped why n) (.stopped why n')

theorem Core.alike (h : Core strict m m') : m.Alike m' := ⟨h.out, h.result, h.table.symbolList⟩

def Outcome.OutOfMemory : Outcome α → Prop
  | .failed e _ => e.kind = .outOfMemory
  | _ => False

instance (o : Outcome α) : Decidable o.OutOfMemory :=
  match o with
  | .failed e _ => inferInstanceAs (Decidable (e.kind = .outOfMemory))
  | .done _ _ => inferInstanceAs (Decidable False)
  | .stopped _ _ => inferInstanceAs (Decidable False)

/-- Where memory has not run out on one side only, computations that concur come to the same. -/
theorem Concur.alike {o o' : Outcome α} (h : Concur strict o o')
    (enough : strict = false → ¬ o.OutOfMemory) (enough' : strict = false → ¬ o'.OutOfMemory) :
    o.Alike (Core strict) o' := by
  cases h with
  | done h =>
    obtain ⟨same, core⟩ := h
    subst same
    exact .done _ core
  | failed he core => exact .failed he core
  | stopped => exact .stopped _
  | excused he => exact absurd he.2 (enough he.1)
  | excused' he => exact absurd he.2 (enough' he.1)

/-- A machine is level with itself, if its natives do alike with themselves. -/
theorem Core.refl (sound : m.Sound true)
    (natives : ∀ {i : Nat} {s native arity}, m.arena.symbols[i]? = some s → s.tag = .native native arity →
      ∀ args, (native args).Alike strict (native args)) : Core strict m m where
  name := rfl
  options := rfl
  quoting := rfl
  result := rfl
  literals := rfl
  asked := rfl
  out := rfl
  stack := rfl
  room _ := ⟨rfl, rfl⟩
  table := by
    refine ⟨rfl, rfl, fun {i s s'} found found' => ?_⟩
    cases found.symm.trans found'
    refine ⟨?_, rfl, rfl⟩
    cases htag : s.tag with
    | native native arity => exact .native arity (natives found htag)
    | _ => exact .same nofun
  sound := sound
  sound' := sound

/-! ### Sequences of texts -/

/-- Evaluates texts at the top level, one after another, whether or not they fail. A text that is stopped
is the last. -/
def evalTexts (world : World) (fuel : Nat) (duplicate : Bool) : List String → Machine → List (Outcome Unit)
  | [], _ => []
  | text :: texts, m =>
    let o := evalText world fuel text duplicate true m
    o :: match o with
      | .stopped _ _ => []
      | _ => evalTexts world fuel duplicate texts o.machine

theorem alike_evalTexts (world : World) (fuel : Nat) {texts : List String} (h : Core false m m')
    (enough : ∀ o ∈ evalTexts world fuel true texts m, ¬ o.OutOfMemory)
    (enough' : ∀ o ∈ evalTexts world fuel false texts m', ¬ o.OutOfMemory) :
    List.Forall₂ (Outcome.Alike Machine.Alike) (evalTexts world fuel true texts m)
      (evalTexts world fuel false texts m') := by
  induction texts generalizing m m' with
  | nil => exact .nil
  | cons text texts ih =>
    have hbody := (inner_ofFuel true world fuel).2
    have alike : (evalText world fuel text true true m).Alike (Core false)
        (evalText world fuel text false true m') :=
      (concur_text hbody (twins_ofFuel false world fuel) h text true nofun).alike
        (fun _ => enough _ List.mem_cons_self) fun _ => enough' _ List.mem_cons_self
    unfold evalTexts at enough enough' ⊢
    dsimp only at enough enough' ⊢
    generalize evalText world fuel text true true m = o at alike enough ⊢
    generalize evalText world fuel text false true m' = o' at alike enough' ⊢
    cases alike with
    | done _ core =>
      exact .cons (.done _ core.alike) (ih core (fun o ho => enough o (List.mem_cons_of_mem _ ho))
        fun o ho => enough' o (List.mem_cons_of_mem _ ho))
    | failed he core =>
      exact .cons (.failed he core.alike) (ih core (fun o ho => enough o (List.mem_cons_of_mem _ ho))
        fun o ho => enough' o (List.mem_cons_of_mem _ ho))
    | stopped why => exact .cons (.stopped why) .nil

/-- Copying changes nothing but memory. From a machine that an honest host has left, with no natives but
those it started with, the same texts are evaluated one after another, with and without copies. As long
as neither run runs out of memory, text by text they come to the same, and show the same. -/
theorem evalTexts_copying {host : Action} (honest : host.Honest) (left : Machine.LeftBy host m)
    (natives : m.OnlyBuiltins) (world : World) (fuel : Nat) (texts : List String)
    (enough : ∀ duplicate, ∀ o ∈ evalTexts world fuel duplicate texts m, ¬ o.OutOfMemory) :
    List.Forall₂ (Outcome.Alike Machine.Alike) (evalTexts world fuel true texts m)
      (evalTexts world fuel false texts m) := by
  refine alike_evalTexts world fuel (Core.refl (left.sound fun _ => honest) fun found htag args => ?_)
    (enough true) (enough false)
  obtain ⟨entry, hmem, rfl⟩ := natives found htag
  exact Builtin.alike_of_mem hmem args

/-! ### Hosts that define a symbol -/

/-- A host that defines a symbol and does nothing else. -/
def definingHost (name : String) (tag : Tag Native) (value : Word) : Action :=
  .define name tag value fun _ => .give 0

def Machine.definedBy (start : Machine) (name : String) (tag : Tag Native) (value : Word) : Machine :=
  ((definingHost name tag value).perform (.ofFuel (fun _ _ => none) 0) start).machine

theorem onlyBuiltins_withArena {arena : Arena Native} (h : m.OnlyBuiltins)
    (same : arena.symbols = m.arena.symbols) : (m.withArena arena).OnlyBuiltins := by
  intro i s native arity found htag
  change arena.symbols[i]? = some s at found
  rw [same] at found
  exact h found htag

theorem onlyBuiltins_definedBy (h : m.OnlyBuiltins) (name : String) (tag : Tag Native) (value : Word)
    (plain : ∀ native arity, tag ≠ .native native arity) : (m.definedBy name tag value).OnlyBuiltins := by
  have track : Track fun m m' : Machine => m.OnlyBuiltins → m'.OnlyBuiltins :=
    ⟨fun _ h => h, fun h k hm => k (h hm)⟩
  have defined : Keeps (fun m m' : Machine => m.OnlyBuiltins → m'.OnlyBuiltins) (define name tag value) := by
    refine track.define (track.allocate fun granted h => ?_) fun _ => track.allocate fun granted h => ?_
    · obtain ⟨-, -, rfl⟩ := Arena.addBytes_eq_some granted
      exact onlyBuiltins_withArena h rfl
    · exact onlyBuiltins_iff.mpr ((onlyBuiltins_iff.mp h).addSymbol granted
        fun native arity htag => absurd htag (plain native arity))
  have kept := track.bind defined.attempt (f := fun _ => (pure 0 : Eval Word))
    (fun _ => track.still (still_pure 0)) m
  exact kept h

/-- Whatever can be computed to hold of a machine that such a host leaves. -/
theorem exists_definedBy (name : String) (tag : Tag Native) (value : Word) (check : Machine → Bool)
    (run : ((Machine.new {}).toOption.map fun start => check (start.definedBy name tag value)) =
      some true) :
    ∃ start, Machine.new {} = .ok start ∧
      Machine.LeftBy (definingHost name tag value) (start.definedBy name tag value) ∧
      check (start.definedBy name tag value) = true := by
  obtain ⟨start, made, holds⟩ := Machine.exists_new run
  exact ⟨start, made, ⟨{}, start, _, 0, by decide, made, rfl⟩, holds⟩

/-- Texts that define a function over a constant of the host, call it, fail, and call it in a body. -/
def copiedTexts : List String :=
  ["func f(x) \x7b return x + k \x7d", "print f(2)", "var y = 1 / 0",
    "if y = 0 \x7b var z = f(y) ; print z \x7d"]

theorem evalTexts_copying_constant :
    ∃ m, Machine.LeftBy (definingHost "k" .var 7) m ∧
      (∀ duplicate, ∀ o ∈ evalTexts (fun _ _ => none) 20 duplicate copiedTexts m, ¬ o.OutOfMemory) ∧
      (evalTexts (fun _ _ => none) 20 true copiedTexts m).length = 4 ∧
      List.Forall₂ (Outcome.Alike Machine.Alike) (evalTexts (fun _ _ => none) 20 true copiedTexts m)
        (evalTexts (fun _ _ => none) 20 false copiedTexts m) := by
  obtain ⟨start, made, left, holds⟩ := exists_definedBy "k" .var 7
    (fun m => decide ((∀ duplicate, ∀ o ∈ evalTexts (fun _ _ => none) 20 duplicate copiedTexts m,
        ¬ o.OutOfMemory) ∧ (evalTexts (fun _ _ => none) 20 true copiedTexts m).length = 4))
    (by decide +kernel)
  obtain ⟨enough, length⟩ := of_decide_eq_true holds
  have honest : (definingHost "k" .var 7).Honest := .define nofun nofun fun _ => .give 0
  have natives := onlyBuiltins_definedBy (onlyBuiltins_new made) "k" .var 7 nofun
  exact ⟨_, left, enough, length, evalTexts_copying honest left natives _ 20 copiedTexts enough⟩

/-! ### Hosts that make up functions -/

def Outcome.output? : Outcome α → Option Text.Bytes
  | .done _ n => some (n.written .out)
  | _ => none

theorem output?_of_alike {os os' : List (Outcome α)}
    (h : List.Forall₂ (Outcome.Alike Machine.Alike) os os') : os.map (·.output?) = os'.map (·.output?) := by
  induction h with
  | nil => rfl
  | cons alike _ ih =>
    rw [List.map_cons, List.map_cons, ih]
    cases alike with
    | done _ h => exact congrArg (some · :: _) h.out.symm
    | failed _ _ => rfl
    | stopped _ => rfl

/-- The routine of a function that is left behind in a nested body, and a call by a name that was made up
for it. -/
def guessingTexts : List String := ["if 1 \x7bfunc g() \x7bprint 7\x7d\x7d", "f()"]

/-- A host that makes up the symbol of a function can tell the runs apart. Where names and bodies are
copied, the text of the routine is gone and nothing is printed. -/
theorem evalTexts_guessing :
    ∃ m, Machine.LeftBy (definingHost "f" (.func 0) 0) m ∧ m.OnlyBuiltins ∧
      (∀ duplicate, ∀ o ∈ evalTexts (fun _ _ => none) 20 duplicate guessingTexts m, ¬ o.OutOfMemory) ∧
      ¬ List.Forall₂ (Outcome.Alike Machine.Alike) (evalTexts (fun _ _ => none) 20 true guessingTexts m)
        (evalTexts (fun _ _ => none) 20 false guessingTexts m) := by
  obtain ⟨start, made, left, holds⟩ := exists_definedBy "f" (.func 0) 0
    (fun m => decide ((∀ duplicate, ∀ o ∈ evalTexts (fun _ _ => none) 20 duplicate guessingTexts m,
        ¬ o.OutOfMemory) ∧
      (evalTexts (fun _ _ => none) 20 true guessingTexts m).map (·.output?) = [some [], some []] ∧
      (evalTexts (fun _ _ => none) 20 false guessingTexts m).map (·.output?) =
        [some [], some (Text.encode "7\n")]))
    (by decide +kernel)
  obtain ⟨enough, copied, kept⟩ := of_decide_eq_true holds
  refine ⟨_, left, onlyBuiltins_definedBy (onlyBuiltins_new made) "f" (.func 0) 0 nofun, enough,
    fun alike => ?_⟩
  have same := output?_of_alike alike
  rw [copied, kept] at same
  exact absurd same (by decide)

end Scriptlet
