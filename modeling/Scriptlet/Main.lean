import Scriptlet.Session.CommandLine
import Std.Time.DateTime.Timestamp

/-!
The program. It answers the questions of machines from the real world and carries out the
effects of a session. A piece of work that stopped for want of an answer or of fuel is taken
up again from its beginning with what it wanted, which is sound because the run of a machine
depends on nothing else: what was shown before is shown again first, and is skipped.
-/

namespace Scriptlet

def answer : (q : Question) → IO q.Answer
  | .fileExists path => do
    let entry : IO.FS.DirEntry := ⟨".", path⟩
    return path ≠ "" && (← entry.path.pathExists)
  | .fileContents path => do
    match ← (IO.FS.Handle.mk path .read).toBaseIO with
    | .error _ => return .missing
    | .ok handle =>
      match ← handle.readBinToEnd.toBaseIO with
      | .error _ => return .unreadable
      | .ok bytes => return .contents bytes.data.toList
  | .randomBelow bound => do
    return Int64.ofNat (← IO.rand 0 (bound.toNatClampNeg - 1))
  | .secondsSinceEpoch => do
    let now ← Std.Time.Timestamp.now
    return Int64.ofInt now.toSecondsSinceUnixEpoch.val

def carryOut : Effect → IO Unit
  | .write stream bytes => do
    let handle ← match stream with
      | .out => IO.getStdout
      | .err => IO.getStderr
    handle.write ⟨bytes.toArray⟩
    handle.flush
  | .remember _ => return ()

def firstFuel : Nat := 65536

/-- Does a piece of work that starts after `first` questions, again and again until it does
not stop. Effects are carried out as they come up; `shown` of them have been. -/
partial def settle {α : Type} (first : Nat) (work : World → Nat → α × Prompt × Option Stop)
    (fuel : Nat) (known : Array Answered) (shown : Nat) : IO (α × Prompt) := do
  let (value, p, stop?) := work (.ofAnswers first known) fuel
  (p.effects.drop shown).forM carryOut
  match stop? with
  | none => return (value, { p with effects := [] })
  | some .outOfFuel => settle first work (fuel * 16) known p.effects.length
  | some (.unanswered q) =>
    settle first work fuel (known.push ⟨q, ← answer q⟩) p.effects.length

/-- Does a piece of work on the current machine of a session. -/
def onSession {α : Type} (p : Prompt) (work : World → Nat → α × Prompt × Option Stop) :
    IO (α × Prompt) :=
  settle ((p.roster.current?.map (·.asked)).getD 0) work firstFuel #[] 0

def runScripts (p : Prompt) : List String → IO Nat
  | [] => return 0
  | path :: rest => do
    let (error?, p) ← onSession p fun world fuel =>
      match CommandLine.runPath p world fuel path with
      | (p, some (.inr why)) => (none, p, some why)
      | (p, some (.inl e)) => (some e, p, none)
      | (p, none) => (none, p, none)
    match error? with
    | some e => return e.kind.number
    | none => runScripts p rest

/-- Asks for lines and takes them until there are no more. -/
partial def converse (p : Prompt) : IO Unit := do
  carryOut (.say .out p.question)
  let entered ← (← IO.getStdin).getLine
  if entered = "" then return ()
  let chars := entered.toList
  let line := String.ofList (if chars.getLast? = some '\n' then chars.dropLast else chars)
  let (next, p) ← onSession p fun world fuel =>
    let (p, next, stop?) := p.takeLine world fuel line
    (next, p, stop?)
  match next with
  | .more => converse p
  | .leave => return ()

end Scriptlet

open Scriptlet in
/-- Runs the scripts named as arguments, or starts a prompt if there are none. -/
def main (arguments : List String) : IO UInt32 := do
  match Request.ofArguments arguments with
  | .ok (.session options paths) =>
    match CommandLine.start options with
    | .ok p =>
      if paths.isEmpty then
        converse p
        return 0
      else return (← runScripts p paths).toUInt32
    | .error e =>
      carryOut (CommandLine.startFailure e)
      return if paths.isEmpty then 0 else e.kind.number.toUInt32
  | _ =>
    let finished := CommandLine.run (.ofAnswers 0 #[]) firstFuel arguments []
    finished.effects.forM carryOut
    return finished.status.toUInt32
