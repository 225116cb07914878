import Scriptlet.Evaluation.Script
import Scriptlet.Proofs.Reach

/-!
Definitions that are refused. A definition takes room twice: the name is copied first, to stay for
good, and the symbol comes after it, from the other end of what is free. Each of the two is granted
or refused as a whole, but what was granted is not given back. So there are three ways to be refused,
and one of them leaves the copy of the name behind.

A symbol that a host defines, a native, and a constant are all defined in the same way; they differ in
what the symbol is.
-/

namespace Scriptlet

inductive Definition
  | symbol (name : String) (tag : Tag Native) (value : Word)
  | native (name : String) (arity : Nat) (action : Native)
  | constant (name : String) (value : Word)

namespace Definition

def name : Definition → String
  | symbol name _ _ => name
  | native name _ _ => name
  | constant name _ => name

def arity : Definition → Nat
  | symbol _ tag _ => tag.arity?.getD 0
  | native _ arity _ => arity
  | constant _ _ => 0

def tag : Definition → Tag Native
  | symbol _ tag _ => tag
  | native _ arity action => .native action arity
  | constant _ _ => .var

def value : Definition → Word
  | symbol _ _ value => value
  | native _ _ _ => 0
  | constant _ value => value

def run : Definition → Eval Nat
  | symbol name tag value => Eval.define name tag value
  | native name arity action => Eval.defineNative name arity action
  | constant name value => Eval.defineConstant name value

def charge (d : Definition) : Nat := wordAligned (Text.encode d.name).length

variable {d : Definition} {m m' : Machine} {e : Error}

/-- All definitions are made in one way. -/
theorem run_eq (d : Definition) : d.run = Eval.define d.name d.tag d.value := by
  cases d <;> rfl

theorem arity_eq (d : Definition) : d.tag.arity?.getD 0 = d.arity := by
  cases d <;> rfl

def keepingName (d : Definition) (a : Arena Native) : Arena Native :=
  { a with
    reserved := a.reserved + d.charge
    durable := a.durable ++ (Text.encode d.name).toArray }

theorem highEnd_keepingName (d : Definition) (a : Arena Native) :
    (d.keepingName a).highEnd = a.highEnd - d.charge := by
  simp only [Arena.highEnd, keepingName, Nat.sub_sub, Nat.add_assoc]

theorem free_keepingName (d : Definition) (a : Arena Native) :
    (d.keepingName a).free = a.free - d.charge := by
  rw [Arena.free, highEnd_keepingName, Arena.free, Nat.sub_right_comm]
  rfl

/-! ### The ways to be refused -/

/-- How a definition is refused, and the machine that is left. -/
inductive Refused (d : Definition) (m : Machine) : Error → Machine → Prop
  /-- The definition is of something that takes more arguments than can be passed. -/
  | arguments (many : maxArguments < d.arity) : Refused d m .tooManyArguments m
  /-- There is no room for its name. -/
  | name (few : d.arity ≤ maxArguments) (full : m.arena.free < d.charge) :
    Refused d m .outOfMemory m
  /-- There is room for its name, but then not for the symbol. -/
  | symbol (few : d.arity ≤ maxArguments) (fits : d.charge ≤ m.arena.free)
    (full : m.arena.free < d.charge + symbolSize) :
    Refused d m .outOfMemory (m.withArena (d.keepingName m.arena))

/-- What a definition comes to: it is refused in one of the ways, or it is made. -/
theorem run_apply (d : Definition) (m : Machine) :
    (∃ e m', d.run m = .failed e m' ∧ d.Refused m e m') ∨
      d.arity ≤ maxArguments ∧ d.charge + symbolSize ≤ m.arena.free ∧
        ∃ m', d.run m = .done m.arena.symbols.size m' := by
  rw [run_eq, Eval.define, arity_eq]
  by_cases many : maxArguments < d.arity
  · rw [if_pos many]
    exact .inl ⟨_, _, rfl, .arguments many⟩
  rw [if_neg many, Eval.bind_apply]
  have few := Nat.not_lt.mp many
  by_cases fits : d.charge ≤ m.arena.free
  case neg =>
    have full := Nat.not_le.mp fits
    rw [Eval.allocate_of_none (Arena.addBytes_of_full full)]
    exact .inl ⟨_, _, rfl, .name few full⟩
  rw [Eval.allocate_of_some (Arena.addBytes_of_room fits)]
  -- the symbol has to find room in the arena that has the copy of the name
  let slice : Slice := ⟨.durable, m.arena.durable.size, (Text.encode d.name).length⟩
  let kept : Machine := m.withArena (d.keepingName m.arena)
  have left : kept.arena.free = m.arena.free - d.charge := free_keepingName d m.arena
  by_cases both : d.charge + symbolSize ≤ m.arena.free
  · have made : ∃ m', Eval.allocate (·.addSymbol slice d.tag d.value) kept =
        .done m.arena.symbols.size m' :=
      ⟨_, Eval.allocate_of_some (Arena.addSymbol_of_room (by omega))⟩
    exact .inr ⟨few, both, made⟩
  · have refused : Eval.allocate (·.addSymbol slice d.tag d.value) kept =
        .failed .outOfMemory kept :=
      Eval.allocate_of_none (Arena.addSymbol_of_full (by omega))
    exact .inl ⟨_, _, refused, .symbol few fits (Nat.not_le.mp both)⟩

theorem refused_of_run (h : d.run m = .failed e m') : d.Refused m e m' := by
  rcases d.run_apply m with ⟨e₁, m₁, run, refused⟩ | ⟨-, -, m₁, run⟩
  · rw [run] at h
    cases h
    exact refused
  · rw [run] at h
    cases h

/-- Where there is no room for both, or there are too many arguments, the definition is refused. -/
theorem exists_refused (h : maxArguments < d.arity ∨ m.arena.free < d.charge + symbolSize) :
    ∃ e m', d.run m = .failed e m' := by
  rcases d.run_apply m with ⟨e, m', run, -⟩ | ⟨few, room, -⟩
  · exact ⟨e, m', run⟩
  · omega

/-! ### What is left of a refused definition -/

/-- A definition that is refused adds no symbol, no word and no routine. It leaves no trace at all if
it takes too many arguments or there is no room for its name; else there was no room for the symbol
behind the name, and the copy of the name is what is left of it. -/
theorem definition_refused (d : Definition) (m : Machine) (e : Error) (m' : Machine)
    (h : d.run m = .failed e m') :
    (e = if maxArguments < d.arity then .tooManyArguments else .outOfMemory) ∧
      m'.arena.symbols = m.arena.symbols ∧ m'.arena.lowEnd = m.arena.lowEnd ∧
      m'.arena.stack = m.arena.stack ∧ m'.arena.routines = m.arena.routines ∧
      if maxArguments < d.arity ∨ m.arena.free < d.charge then m' = m
      else m.arena.free < d.charge + symbolSize ∧
        m' = m.withArena m'.arena ∧
        m'.arena.durable = m.arena.durable ++ (Text.encode d.name).toArray ∧
        m'.arena.highEnd = m.arena.highEnd - d.charge ∧
        m'.arena.free = m.arena.free - d.charge := by
  cases refused_of_run h with
  | arguments many => simp [many]
  | name few full => simp [Nat.not_lt.mpr few, full]
  | symbol few fits full =>
    rw [if_neg (Nat.not_lt.mpr few), if_neg (by omega)]
    exact ⟨rfl, rfl, rfl, rfl, rfl, full, rfl, rfl, highEnd_keepingName d _, free_keepingName d _⟩

/-- The name of one letter is kept, and then there is no room in the eight bytes for its symbol. -/
theorem definition_refused_copied :
    ∃ m e m', Machine.new { arenaSize := 872 } = .ok m ∧ (constant "a" 7).run m = .failed e m' ∧
      e = .outOfMemory ∧ m'.arena.symbols = m.arena.symbols ∧
      m'.arena.durable = m.arena.durable ++ (Text.encode "a").toArray := by
  have room : (Machine.new { arenaSize := 872 }).toOption.map (·.arena.free) = some 8 := by
    decide +kernel
  obtain ⟨m, made, free⟩ := Machine.exists_new room
  have charge : (constant "a" 7).charge = 8 := by decide
  obtain ⟨e, m', run⟩ : ∃ e m', (constant "a" 7).run m = .failed e m' :=
    exists_refused (.inr (by rw [free, charge]; decide))
  obtain ⟨error, symbols, -, -, -, left⟩ := definition_refused (constant "a" 7) m e m' run
  rw [if_neg (by rw [free, charge]; decide)] at left
  exact ⟨m, e, m', made, run, error, symbols, left.2.2.1⟩

/-- A refused definition need not leave the arena as it was. -/
theorem definition_refused_leaves_copy :
    ∃ m e m', Machine.new { arenaSize := 872 } = .ok m ∧ Eval.defineConstant "a" 7 m = .failed e m' ∧
      (m.arena.highEnd, m.arena.free, m.arena.durable) = (872, 8, #[]) ∧
      (m'.arena.highEnd, m'.arena.free, m'.arena.durable) = (864, 0, #[97]) := by
  have run : (Machine.new { arenaSize := 872 }).toOption.map (fun m =>
      let after := (Eval.defineConstant "a" 7 m).machine
      ((m.arena.highEnd, m.arena.free, m.arena.durable),
        (after.arena.highEnd, after.arena.free, after.arena.durable))) =
      some ((872, 8, #[]), (864, 0, #[97])) := by
    decide +kernel
  obtain ⟨m, made, values⟩ := Machine.exists_new run
  obtain ⟨before, after⟩ := Prod.mk.inj values
  have free : m.arena.free = 8 := congrArg (·.2.1) before
  have charge : (constant "a" 7).charge = 8 := by decide
  obtain ⟨e, m', failed⟩ : ∃ e m', Eval.defineConstant "a" 7 m = .failed e m' :=
    exists_refused (d := constant "a" 7) (.inr (by rw [free, charge]; decide))
  rw [failed] at after
  exact ⟨m, e, m', made, failed, before, after⟩

end Definition

end Scriptlet
