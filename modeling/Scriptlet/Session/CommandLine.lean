import Scriptlet.Session.Prompt

/-!
The command line: what the arguments ask for, and the session they start. Scripts named as
arguments are run in order on one machine, up to the first that fails; with none, a prompt
is started.
-/

namespace Scriptlet

inductive Request where
  | version
  | help
  | session (options : Options) (paths : List String)
  deriving DecidableEq, Repr

inductive UsageError where
  | unexpected (argument : String)
  | missingValue (option : String)
  | repeated (option : String)
  | badValue (option value : String)
  deriving DecidableEq, Repr

def UsageError.render : UsageError → String
  | unexpected argument => "error: unexpected argument '" ++ argument ++ "' found\n"
  | missingValue option =>
    "error: a value is required for '" ++ option ++ "' but none was supplied\n"
  | repeated option => "error: the argument '" ++ option ++ "' cannot be used multiple times\n"
  | badValue option value => "error: invalid value '" ++ value ++ "' for '" ++ option ++ "'\n"

namespace Request

def versionLine : String := "pocket 0.1.0\n"

def helpText : String :=
  "Usage: pocket [OPTIONS] [FILES]...\n\n" ++
    "      --arena-size <ARENA_SIZE>            bytes for symbols, stack and definitions\n" ++
    "      --max-script-size <MAX_SCRIPT_SIZE>  largest script file accepted\n" ++
    "      --name <NAME>                        name of the first instance\n" ++
    "  -h, --help                               print help\n" ++
    "  -V, --version                            print version\n"

inductive Setting where
  | arenaSize
  | maxScriptSize
  | name
  deriving DecidableEq, Repr

def Setting.flag : Setting → String
  | arenaSize => "--arena-size"
  | maxScriptSize => "--max-script-size"
  | name => "--name"

def Setting.all : List Setting := [arenaSize, maxScriptSize, name]

structure Parsed where
  options : Options := {}
  given : List Setting := []
  paths : List String := []

def Parsed.set (p : Parsed) (s : Setting) (value : String) : Except UsageError Parsed :=
  if s ∈ p.given then .error (.repeated s.flag)
  else
    let given := s :: p.given
    match s, Prompt.readIndex? value with
    | .name, _ => .ok { p with given, options := { p.options with name := some value } }
    | .arenaSize, some n => .ok { p with given, options := { p.options with arenaSize := n } }
    | .maxScriptSize, some n =>
      .ok { p with given, options := { p.options with maxScriptSize := n } }
    | _, none => .error (.badValue s.flag value)

/-- Takes the path of a script, which must not be empty. -/
def Parsed.addPath (p : Parsed) (path : String) : Except UsageError Parsed :=
  if path = "" then .error (.badValue "[FILES]..." path)
  else .ok { p with paths := p.paths ++ [path] }

def Parsed.addPaths (p : Parsed) : List String → Except UsageError Parsed
  | [] => .ok p
  | path :: rest =>
    match p.addPath path with
    | .ok p => p.addPaths rest
    | .error e => .error e

/-- Whether an argument looks like an option; a dash alone does not. -/
def looksLikeOption (argument : String) : Bool :=
  match argument.toList with
  | '-' :: _ :: _ => true
  | _ => false

/-- The setting that an argument starts with, and its value if that is attached by an equals
sign. -/
def settingOf? (argument : String) : Option (Setting × Option String) :=
  Setting.all.findSome? fun s =>
    if argument = s.flag then some (s, none)
    else
      let mark := (s.flag ++ "=").toList
      if mark.isPrefixOf argument.toList then
        some (s, some (String.ofList (argument.toList.drop mark.length)))
      else none

def parseFrom (p : Parsed) : List String → Except UsageError Request
  | [] => .ok (.session p.options p.paths)
  | argument :: rest =>
    if argument = "--" then
      match p.addPaths rest with
      | .ok p => .ok (.session p.options p.paths)
      | .error e => .error e
    else if argument = "--version" ∨ argument.toList.take 2 = ['-', 'V'] then .ok .version
    else if argument = "--help" ∨ argument.toList.take 2 = ['-', 'h'] then .ok .help
    else
      match settingOf? argument, rest with
      | some (s, some value), rest =>
        match p.set s value with
        | .ok p => parseFrom p rest
        | .error e => .error e
      | some (s, none), [] => .error (.missingValue s.flag)
      | some (s, none), value :: rest =>
        if looksLikeOption value then .error (.missingValue s.flag)
        else
          match p.set s value with
          | .ok p => parseFrom p rest
          | .error e => .error e
      | none, rest =>
        if looksLikeOption argument then .error (.unexpected argument)
        else
          match p.addPath argument with
          | .ok p => parseFrom p rest
          | .error e => .error e

def ofArguments (arguments : List String) : Except UsageError Request := parseFrom {} arguments

end Request

/-- The end of a session: its exit status and all its effects. -/
structure Finished where
  status : Nat
  effects : List Effect := []

namespace CommandLine

def usageStatus : Nat := 2

/-- The prompt of a session with its first machine, or the error that there is none. -/
def start (options : Options) : Except Error Prompt :=
  match ({} : Roster).add options with
  | .ok (_, roster) => .ok { options, roster }
  | .error e => .error e

/-- How the user is told that there is no first machine. -/
def startFailure (e : Error) : Effect := .say .err (notice e.render)

def runPath (p : Prompt) (world : World) (fuel : Nat) (path : String) :
    Prompt × Option (Error ⊕ Stop) :=
  match p.onCurrent (evalFile world fuel path) with
  | some (.done _ _, p) => (p, none)
  | some (.failed e _, p) => (p, some (.inl e))
  | some (.stopped why _, p) => (p, some (.inr why))
  | none => (p, some (.inl .noSuchInstance))

def runPaths (p : Prompt) (world : World) (fuel : Nat) : List String → Finished
  | [] => ⟨0, p.effects⟩
  | path :: rest =>
    match runPath p world fuel path with
    | (p, none) => runPaths p world fuel rest
    | (p, some (.inl e)) => ⟨e.kind.number, p.effects⟩
    | (p, some (.inr _)) => ⟨1, p.effects⟩

def run (world : World) (fuel : Nat) (arguments lines : List String) : Finished :=
  match Request.ofArguments arguments with
  | .error e => ⟨usageStatus, [.say .err e.render]⟩
  | .ok .version => ⟨0, [.say .out Request.versionLine]⟩
  | .ok .help => ⟨0, [.say .out Request.helpText]⟩
  | .ok (.session options []) =>
    match start options with
    | .ok p => ⟨0, (p.takeLines world fuel lines).effects⟩
    | .error e => ⟨0, [startFailure e]⟩
  | .ok (.session options paths) =>
    match start options with
    | .ok p => runPaths p world fuel paths
    | .error e => ⟨e.kind.number, [startFailure e]⟩

end CommandLine

/-- The lines of what a user enters. What follows the last line feed is a line unless it is
empty. -/
def inputLines (input : String) : List String :=
  let pieces := input.splitOn "\n"
  if pieces.getLast? = some "" then pieces.dropLast else pieces

end Scriptlet
