import Scriptlet.Evaluation.Run

/-!
Several machines side by side, one of them current. Machines share nothing. One that is
given no name is named after the number of machines made so far, so that no number is given
twice.
-/

namespace Scriptlet

/-- Machines in the order of their making, the index of the current one, and how many were
made. -/
structure Roster where
  machines : List Machine := []
  current : Nat := 0
  made : Nat := 0

namespace Roster

def generatedName (g : Roster) : String := Machine.defaultName ++ (g.made + 1).repr

def add (g : Roster) (options : Options) : Except Error (Nat × Roster) :=
  match Machine.new { options with name := some (options.name.getD g.generatedName) } with
  | .ok m => .ok (g.machines.length, ⟨g.machines ++ [m], g.machines.length, g.made + 1⟩)
  | .error e => .error e

def select (g : Roster) (index : Nat) : Except Error Roster :=
  if index < g.machines.length then .ok { g with current := index } else .error .noSuchInstance

/-- Drops a machine; those behind it move up. The current machine stays current; if it is
the one dropped, the next takes its place, or the last one. -/
def remove (g : Roster) (index : Nat) : Except Error Roster :=
  if index < g.machines.length then
    let machines := g.machines.eraseIdx index
    let current :=
      if g.current > index ∨ g.current ≥ machines.length then g.current - 1 else g.current
    .ok { g with machines, current }
  else .error .noSuchInstance

def currentIndex? (g : Roster) : Option Nat := if g.machines.isEmpty then none else some g.current

def current? (g : Roster) : Option Machine := g.machines[g.current]?

def find? (g : Roster) (name : String) : Option Nat := g.machines.findIdx? (·.name = name)

def names (g : Roster) : List String := g.machines.map (·.name)

def put (g : Roster) (index : Nat) (m : Machine) : Roster :=
  { g with machines := g.machines.set index m }

end Roster

end Scriptlet
