import Scriptlet.Session.Roster
import Scriptlet.Session.Terminal

/-!
The interactive prompt. Lines are gathered until every brace opened in them is closed, and
then evaluated as one text by the current machine. A line that starts with a full stop,
outside a gathered text, is a command to the prompt itself.
-/

namespace Scriptlet

/-- The state of a prompt: the settings for new machines, the machines, the text gathered so
far, and all effects so far. -/
structure Prompt where
  options : Options
  roster : Roster := {}
  pending : String := ""
  effects : List Effect := []

inductive Next where
  | more
  | leave
  deriving DecidableEq, Repr

namespace Prompt

def emit (p : Prompt) (effect : Effect) : Prompt := { p with effects := p.effects ++ [effect] }

def tell (p : Prompt) (e : Error) : Prompt := p.emit (.say .out (notice e.render))

def question (p : Prompt) : String :=
  if p.pending = "" then ((p.roster.current?.map (·.name)).getD "") ++ "> " else "| "

/-- The number of braces opened and not closed, negative if more are closed. -/
def braceDepth (text : String) : Int :=
  text.toList.foldl (fun depth c =>
    if c = '\x7b' then depth + 1 else if c = '\x7d' then depth - 1 else depth) 0

/-! ### Commands -/

inductive Command where
  | add (name : Option String)
  | use (machine : Option String)
  | list
  | quit
  | unknown
  deriving DecidableEq, Repr

def Command.ofLine (line : String) : Command :=
  let words := (Text.words line.toList).map String.ofList
  let operand := words[1]?
  match words.head? with
  | some ".new" => .add operand
  | some ".use" => .use operand
  | some ".list" => .list
  | some ".quit" => .quit
  | _ => .unknown

/-- The largest index a user can name, plus one. -/
def indexBound : Nat := 0x10000000000000000

/-- A machine's index as a user may write it: digits, with or without a plus sign. -/
def readIndex? (text : String) : Option Nat :=
  let digits := match text.toList with
    | '+' :: digits => digits
    | digits => digits
  if digits.isEmpty ∨ digits.any (fun c => !c.isDigit) then none
  else
    let index := digits.foldl (fun n c => n * 10 + (c.toNat - '0'.toNat)) 0
    if index < indexBound then some index else none

/-- The index of the machine that a user names, by its index or else by its name. -/
def choose? (g : Roster) (text : String) : Option Nat :=
  match readIndex? text with
  | some index => some index
  | none => g.find? text

/-- One line for each machine, with a star for the current one. -/
def listing (g : Roster) : List String :=
  g.machines.mapIdx fun index m =>
    (if g.currentIndex? = some index then "*" else " ") ++ index.repr ++ " " ++ m.name ++ "\n"

def usage : String := "COMMANDS: .new [name] .use <n|name> .list .quit"

def obey (p : Prompt) : Command → Prompt × Next
  | .quit => (p, .leave)
  | .add name =>
    match p.roster.add { p.options with name } with
    | .ok (_, roster) => ({ p with roster }, .more)
    | .error e => (p.tell e, .more)
  | .use operand =>
    match (operand.bind (choose? p.roster)).map p.roster.select with
    | some (.ok roster) => ({ p with roster }, .more)
    | some (.error e) => (p.tell e, .more)
    | none => (p.tell .noSuchInstance, .more)
  | .list => ({ p with effects := p.effects ++ (listing p.roster).map (.say .out) }, .more)
  | .unknown => (p.emit (.say .out (notice usage)), .more)

/-! ### Texts -/

/-- Evaluates a computation on the current machine and shows what it writes. -/
def onCurrent {α : Type} (p : Prompt) (x : Eval α) : Option (Outcome α × Prompt) :=
  p.roster.current?.map fun m =>
    let outcome := x m
    let (chunks, m) := outcome.machine.drain
    (outcome, { p with
      roster := p.roster.put p.roster.current m
      effects := p.effects ++ chunks.map Chunk.shown })

def submit (p : Prompt) (world : World) (fuel : Nat) : Prompt × Option Stop :=
  let emptied : Prompt := { p with pending := "" }
  match emptied.onCurrent (evalText world fuel p.pending false true) with
  | some (.stopped why _, p) => (p, some why)
  | some (_, p) => (p, none)
  | none => (emptied.emit (.say .out (notice "NO INSTANCE; USE .new")), none)

def gather (p : Prompt) (world : World) (fuel : Nat) (line : String) : Prompt × Option Stop :=
  let p := if (Text.trim line.toList).isEmpty then p else p.emit (.remember line)
  let p := { p with pending := p.pending ++ line ++ "\n" }
  if braceDepth p.pending > 0 then (p, none) else p.submit world fuel

def interrupt : String := "\x03"

/-- Takes a line. A stop asks for the line to be taken again, with more fuel or a world that
knows more. -/
def takeLine (p : Prompt) (world : World) (fuel : Nat) (line : String) :
    Prompt × Next × Option Stop :=
  if line = interrupt then (p, .leave, none)
  else if p.pending = "" ∧ (Text.trimStart line.toList).head? = some '.' then
    let (p, next) := (p.emit (.remember line)).obey (.ofLine line)
    (p, next, none)
  else
    let (p, stop) := p.gather world fuel line
    (p, .more, stop)

def takeLines (p : Prompt) (world : World) (fuel : Nat) : List String → Prompt
  | [] => p.emit (.say .out p.question)
  | line :: rest =>
    match (p.emit (.say .out p.question)).takeLine world fuel line with
    | (p, .leave, _) => p
    | (p, .more, _) => p.takeLines world fuel rest

end Prompt

end Scriptlet
