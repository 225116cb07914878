import Scriptlet.Evaluation.Fuel
import Scriptlet.Proofs.Tree.Clock
import Scriptlet.Proofs.Tree.Statement

/-!
Evaluating the text of a script refines the walk over its tree. Each step of a walk's clock is worth
two of fuel, one for an expression and one for the parentheses it may stand in; so on enough fuel,
evaluation follows trees up to any clock.

The main statement is about a new machine that evaluates the text of a script at the top level. If
the script comes to a result, the evaluation ends too, on every budget of fuel from some budget on
and with one and the same outcome. This is a failure for want of memory, or it agrees with the
result: both are successes or both are failures with the same kind of error, and the same has been
written; and after a success the result register is the same, and the table holds the vocabulary and
then what the script has defined at the top level, in order.
-/

namespace Scriptlet.Tree

open Eval

variable {F : Name → Bool} {page : Page} {stack : Array Word} {s : State F} {m : Machine}

/-! ### Evaluation on a budget -/

theorem body_ofFuel_succ (world : World) (fuel : Nat) :
    (Reentry.ofFuel world (fuel + 1)).body = (Reentry.ofFuel world fuel).wholeBody := rfl

/-- On enough fuel, evaluation follows trees up to a clock. -/
theorem follows_ofFuel (world : World) (limit : Nat) {fuel : Nat} (enough : 2 * limit + 2 ≤ fuel) :
    Follows F page (.ofFuel world fuel) limit := by
  induction limit generalizing fuel with
  | zero =>
    refine ⟨enough, ?_, ?_, ?_, (grows_ofFuel world fuel).1, (grows_ofFuel world fuel).2⟩
    · intro clock stack s m tail e hclock _ _
      obtain rfl : clock = 0 := by omega
      exact .unfinished
    · intro clock stack s m tail e hclock _ _
      obtain rfl : clock = 0 := by omega
      exact .unfinished
    · intro clock stack s m slice body hclock _ _
      obtain rfl : clock = 0 := by omega
      exact .unfinished
  | succ limit ih =>
    obtain ⟨fuel, rfl⟩ : ∃ k, fuel = k + 2 := ⟨fuel - 2, by omega⟩
    have follows : Follows F page (.ofFuel world (fuel + 1)) limit := ih (by omega)
    have deeper : Follows F page (.ofFuel world fuel) limit := ih (by omega)
    refine ⟨enough, ?_, ?_, ?_, (grows_ofFuel world _).1, (grows_ofFuel world _).2⟩
    · intro clock stack s m tail e hclock closing facing
      exact wholeExpression_items follows hclock e closing facing
    · -- an operand in parentheses is an expression of its own, with one less of fuel
      intro clock stack s m tail e hclock closing facing
      refine wholeExpression_operand follows (by omega) e ?_ closing facing
      exact wholeExpression_items deeper hclock e ⟨_, _, rfl, rfl⟩
    · intro clock stack s m slice body hclock shown state
      exact wholeBody_refines follows hclock shown state

/-! ### Whole scripts -/

/-- A script at the top level keeps what it defines. -/
theorem wholeBody_topLevel {r : Reentry} {limit : Nat} (h : Follows F page r limit) {clock : Nat}
    (hclock : clock ≤ limit + 1) {program : List (Stmt F)} {slice : Slice}
    (shown : page.Shows slice (bytesOf (lines program)))
    (state : Matches page stack s { m with duplicate := false }) :
    Refines (fun _ _ s' m' => Matches page stack s' { m' with duplicate := false })
      (r.wholeBody slice true false m) (executeAll clock program s) := by
  have inside : Refines (fun _ _ s' m' => Matches page stack s' { m' with duplicate := false })
      (inBody slice false (locating do advance; Statement.statements r) m)
      (executeAll clock program s) := by
    refine Refines.adjust_machine (R := Leaves page stack) ?_ (fun _ => rfl) ?_
    · exact Refines.locating (lines_refines h hclock ⟨state.congr rfl, shown.openAt state.text⟩)
    · rintro ending _ s' m' ⟨rfl, state'⟩
      refine state'.congr ?_
      simp only [contents, state'.duplicate]
  exact inside.adjust_machine (fun _ => rfl) id

theorem registers_new {options : Options} (made : Machine.new options = .ok m) :
    m.literals = {} ∧ m.result = 0 ∧ m.transcript = #[] := by
  unfold Machine.new at made
  split at made
  · cases made
    exact ⟨rfl, rfl, rfl⟩
  · cases made

/-- A new machine that holds the text of a script matches the state in which nothing is bound. -/
theorem matches_new {options : Options} (small : options.arenaSize < UInt64.size)
    (made : Machine.new options = .ok m) (text : Text.Bytes) :
    Matches (F := F) ⟨(m.texts.retain text.toArray).1, text⟩ #[] {}
      { m.withTexts (m.texts.retain text.toArray).2 with duplicate := false } := by
  obtain ⟨arena, -, -⟩ := Machine.new_eq_ok made
  obtain ⟨literals, result, transcript⟩ := registers_new made
  refine ⟨?_, rfl, literals, ?_, result, ?_, ?_, [], ?_, .nil⟩
  · show (m.texts.retain text.toArray).2.text? _ = _
    rw [Texts.text?_retain, if_pos rfl]
  · show m.arena.stack = #[]
    rw [arena]
    rfl
  · unfold Machine.written
    show (m.transcript.toList.filter _).flatMap _ = _
    rw [transcript]
    rfl
  · show Memory.Budgeted m.arena
    rw [arena]
    exact ⟨Nat.zero_le _, Nat.zero_le _, small⟩
  · show m.arena.symbols.toList = _
    rw [arena]
    simp [vocabularySymbols]

/-- The machine matches the state on some page, but for how it would define names outside of the
script. -/
def Mirrors (s : State F) (m : Machine) : Prop :=
  ∃ page, Matches page #[] s { m with duplicate := false }

/-- Evaluating a text for good is evaluating it as a body, from the slot it is put into. -/
theorem text_refines {r : Reentry} {text : String} {w : Result F Ending}
    (h : Refines (fun _ _ => Mirrors)
      (r.body ⟨.text (m.texts.retain (Text.encode text).toArray).1, 0, (Text.encode text).length⟩
        true false { m.note.withTexts (m.texts.retain (Text.encode text).toArray).2 with
          depth := m.depth + 1 }) w) :
    Refines (fun _ _ => Mirrors) (Eval.text r text false true m) w := by
  refine Refines.reporting (Refines.holding (Refines.entering (R := fun _ _ => Mirrors)
    (Refines.andThen h ?_) ?_))
  · intro _ _ s' m' mirrors
    exact ⟨(), m', rfl, mirrors⟩
  · rintro _ _ s' m' ⟨page, matched⟩ depth
    exact ⟨page, matched.congr rfl⟩

/-- Evaluating the text of a script on a new machine refines the walk over the script. -/
theorem evalText_refines {options : Options} (small : options.arenaSize < UInt64.size)
    (made : Machine.new options = .ok m) (world : World) {clock fuel : Nat}
    (enough : 2 * clock + 3 ≤ fuel) (program : List (Stmt F)) :
    Refines (fun _ _ => Mirrors) (evalText world fuel (scriptText program) false true m)
      (walk clock program) := by
  obtain ⟨fuel, rfl⟩ : ∃ k, fuel = k + 1 := ⟨fuel - 1, by omega⟩
  let page : Page := ⟨(m.texts.retain (bytesOf (lines program)).toArray).1, bytesOf (lines program)⟩
  have follows : Follows F page (.ofFuel world fuel) clock := follows_ofFuel world clock (by omega)
  have shown : page.Shows ⟨.text page.slot, 0, (bytesOf (lines program)).length⟩
      (bytesOf (lines program)) := ⟨[], [], by simp [page], by simp⟩
  have state := matches_new (F := F) small made (bytesOf (lines program))
  unfold evalText
  refine text_refines ?_
  rw [body_ofFuel_succ]
  refine Refines.imp (wholeBody_topLevel follows (by omega) shown (state.congr rfl)) ?_
  exact fun h => ⟨page, h⟩

/-! ### Agreement -/

/-- A symbol that is what a binding says: a variable of its value, or a function of its parameters
and its body. -/
def Defines (m : Machine) : Binding F → Symbol Native → Prop
  | .var x value, symbol =>
    m.bytes symbol.name = x.val.bytes ∧ symbol.tag = .var ∧ symbol.value = value
  | .func f params body, symbol =>
    m.bytes symbol.name = f.val.bytes ∧ symbol.tag = .func params.length ∧
      ∃ routine, m.memory.routine? symbol.value = some routine ∧
        routine.params.map m.bytes = params.map (·.val.bytes) ∧
        m.bytes routine.body = Text.encode (spell (.newline :: lines body))

def Agrees : Outcome Unit → Result F Ending → Prop
  | .done () m, .done _ s =>
    m.written .out = s.out ∧ m.result = s.result ∧
      ∃ symbols, m.arena.symbols.toList = Machine.vocabulary.map Machine.entrySymbol ++ symbols ∧
        List.Forall₂ (Defines m) s.bindings.reverse symbols
  | .failed e m, .failed fault s => e.kind = fault.kind ∧ m.written .out = s.out
  | _, _ => False

/-- An outcome that is a failure for want of memory. -/
def Exhausted (o : Outcome Unit) : Prop := ∃ e m, o = .failed e m ∧ e.kind = .outOfMemory

theorem Matches.bytes_params (h : Matches page stack s m) {params : List (Variable F)}
    {slices : List Slice}
    (shown : List.Forall₂ (fun x slice => page.Shows slice x.val.bytes) params slices) :
    slices.map m.bytes = params.map (·.val.bytes) := by
  induction shown with
  | nil => rfl
  | cons first rest ih => rw [List.map_cons, List.map_cons, first.bytes h.text, ih]

theorem Matches.defines (h : Matches page stack s m) {b : Binding F} {symbol : Symbol Native}
    (represents : Represents page m.arena.routines b symbol) : Defines m b symbol := by
  cases b with
  | var x value =>
    obtain ⟨name, tag, hvalue⟩ := represents
    exact ⟨name.bytes h.text, tag, hvalue⟩
  | func f params body =>
    obtain ⟨name, tag, routine, found, shown, shownBody⟩ := represents
    exact ⟨name.bytes h.text, tag, routine, found, h.bytes_params shown, shownBody.bytes h.text⟩

/-- A machine that matches the state that a walk left agrees with it. -/
theorem Matches.agrees (h : Matches page stack s { m with duplicate := false }) (ending : Ending) :
    Agrees (.done () m) (.done ending s) := by
  obtain ⟨symbols, table, represented⟩ := h.table
  refine ⟨h.out, h.result, symbols.reverse, table, ?_⟩
  exact List.rel_reverse (represented.imp fun _ _ => h.defines)

theorem Refines.agrees {o : Outcome Unit} {w : Result F Ending}
    (h : Refines (fun _ _ => Mirrors) o w) (finished : w.isFinished = true) : Exhausted o ∨ Agrees o w := by
  cases h with
  | unfinished => cases finished
  | exhausted kind => exact .inl ⟨_, _, rfl, kind⟩
  | @done _ ending s' m' h =>
    obtain ⟨page, h⟩ := h
    exact .inr (h.agrees ending)
  | failed kind out => exact .inr ⟨kind, out⟩

theorem ne_stopped_of_agrees {o : Outcome Unit} {w : Result F Ending} (h : Exhausted o ∨ Agrees o w)
    (why : Stop) (m : Machine) : o ≠ .stopped why m := by
  rintro rfl
  rcases h with ⟨e, m', failed, -⟩ | agrees
  · cases failed
  · cases w <;> exact agrees

/-- If a script comes to a result, evaluating its text on a new machine ends, with one outcome on all
budgets that are large enough: it fails for want of memory, or it agrees with the result. -/
theorem evalText_scriptText {options : Options} (small : options.arenaSize < UInt64.size)
    (made : Machine.new options = .ok m) (world : World) {program : List (Stmt F)}
    {w : Result F Ending} (comes : ComesTo program w) :
    ∃ outcome enough, (∀ fuel, enough ≤ fuel →
        evalText world fuel (scriptText program) false true m = outcome) ∧
      (Exhausted outcome ∨ Agrees outcome w) := by
  obtain ⟨finished, clock, rfl⟩ := comes
  have agrees := (evalText_refines small made world (Nat.le_refl _) program).agrees finished
  refine ⟨_, 2 * clock + 3, fun fuel le => ?_, agrees⟩
  exact evalText_of_le le fun m' => ne_stopped_of_agrees agrees _ m'

/-! ### A script that doubles a number -/

def isTwice (x : Name) : Bool := x.text = "twice"

def twice : Function isTwice := ⟨⟨⟨"twice", by decide⟩, by decide⟩, by decide⟩

def counter : Variable isTwice := ⟨⟨⟨"n", by decide⟩, by decide⟩, by decide⟩

/-- A function that doubles its argument is applied until a bound is reached. -/
def doubling : List (Stmt isTwice) :=
  [.define twice [counter] (by decide)
      [.leave (some (.binary .plus (.var counter) (.var counter)))],
    .declare counter (.number 1),
    .loop (.binary .less (.var counter) (.number 100))
      [.assign counter (.call twice [.var counter])] none,
    .print (.var counter)]

theorem evalText_scriptText_doubling :
    ∃ m, Machine.new {} = .ok m ∧ ComesTo doubling (walk 30 doubling) ∧
      ∃ outcome enough, (∀ fuel, enough ≤ fuel →
          evalText (fun _ _ => none) fuel (scriptText doubling) false true m = outcome) ∧
        (Exhausted outcome ∨ Agrees outcome (walk 30 doubling)) := by
  have comes : ComesTo doubling (walk 30 doubling) := ⟨by decide +kernel, 30, rfl⟩
  have starts : (Machine.new {}).isOk = true := by decide +kernel
  cases made : Machine.new {} with
  | error e =>
    rw [made] at starts
    cases starts
  | ok m =>
    exact ⟨m, rfl, comes, evalText_scriptText (by decide) made (fun _ _ => none) comes⟩

example : scriptText doubling =
    " func twice ( n ) \x7b\n return n + n\n\x7d\n var n = 1\n" ++
      " while n < 100 \x7b\n n = twice ( n )\n\x7d\n print ( n )\n" := by
  decide +kernel

example : (match walk 30 doubling with | .done _ s => s.out | _ => []) = Text.encode "128\n" := by
  decide +kernel

end Scriptlet.Tree
