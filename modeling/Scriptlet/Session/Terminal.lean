import Scriptlet.Evaluation.Run

/-!
What a session shows. Effects are what a terminal is to do, in order: write to one of its
streams, or remember a line that was entered. What a machine writes to its error stream is
shown in bold.
-/

namespace Scriptlet

open Text (Bytes)

inductive Effect where
  | write (stream : Stream) (bytes : Bytes)
  | remember (line : String)
  deriving DecidableEq, Repr

namespace Effect

def say (stream : Stream) (text : String) : Effect := write stream (Text.encode text)

def written (stream : Stream) (effects : List Effect) : Bytes :=
  effects.flatMap fun
    | write s bytes => if s = stream then bytes else []
    | remember _ => []

def remembered (effects : List Effect) : List String :=
  effects.flatMap fun
    | write _ _ => []
    | remember line => [line]

end Effect

def bold (text : String) : String := "\x1b[1m" ++ text ++ "\x1b[0m"

def notice (text : String) : String := bold text ++ "\n"

/-- How a terminal shows what a machine wrote at one go. -/
def Chunk.shown (c : Chunk) : Effect :=
  match c.stream with
  | .out => .write .out c.bytes
  | .err => .say .err (bold (Text.decode c.bytes))

def Machine.drain (m : Machine) : List Chunk × Machine :=
  (m.transcript.toList, { m with transcript := #[] })

end Scriptlet
