/-!
The settings of a machine.
-/

namespace Scriptlet

/-- The budget of a machine when none is given, in bytes. -/
def defaultArenaSize : Nat := 64 * 1024

/-- The size up to which script files are accepted when no limit is given, in bytes. -/
def defaultMaxScriptSize : Nat := 64 * 1024

structure Options where
  arenaSize : Nat := defaultArenaSize
  maxScriptSize : Nat := defaultMaxScriptSize
  name : Option String := none
  deriving DecidableEq, Repr

end Scriptlet
