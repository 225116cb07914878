import Scriptlet.Lexeme.Scan
import Scriptlet.Memory.Arena
import Scriptlet.Memory.Literals
import Scriptlet.Memory.Texts
import Scriptlet.Native.Builtin

/-!
The machine: all that an interpreter remembers. There is no tree of the script. A machine
stands at a place in a text with one token read ahead, and evaluates as it reads; the
symbols it knows and the words it has stacked are in the arena.

A token is a lexeme whose name has been looked up. A cursor keeps the bytes of the body it
reads, so that reading on needs no other store.

Slices are positions, so what a name or a body reads as depends on all that happened to the
machine's memory since the slice was made. A machine therefore has a history. It is a property
and not data: it can be reasoned about, and no part of it exists when a machine runs.
-/

namespace Scriptlet

open Text (Bytes)

/-- A lexeme with its meaning to the machine. A name that is not known, or is about to be
defined, is kept as written; a quotation in an argument list has become a literal. -/
inductive Token where
  | eof
  | separator
  | comma
  | openParen
  | closeParen
  | number (value : Word)
  | name (slice : Slice)
  | symbol (index : Nat)
  | text (slice : Slice)
  | literal
  deriving DecidableEq, Repr

/-- A place in a body: the store the body is in, what is left to read, where the body ends,
and where reading the current token began. -/
structure Cursor where
  source : Source
  scanner : Scanner
  stop : Nat
  mark : Nat
  deriving DecidableEq, Repr

structure Chunk where
  stream : Stream
  bytes : Bytes
  deriving DecidableEq, Repr

/-- What slices are read from. -/
structure Memory where
  arena : Arena Native
  texts : Texts

namespace Memory

@[inline] def store (memory : Memory) : Source → Array UInt8
  | .fixed bytes => bytes
  | .durable => memory.arena.durable
  | .text slot => memory.texts.get slot

@[inline] def bytes (memory : Memory) (s : Slice) : Bytes := s.bytesIn (memory.store s.source)

end Memory

/-- Memory at one moment of a machine's life. At a noted moment a host, a native or a script has
the machine in its hands and may start an evaluation or a call. -/
structure Moment extends Memory where
  noted : Bool

/-- The moments of a life so far, newest first, told by which list they are. -/
def History := List Moment → Prop

def History.empty : History := fun life => life = []

def History.add (h : History) (moment : Moment) : History :=
  fun life => ∃ before, h before ∧ life = moment :: before

structure Machine where
  /-- What the machine is called. -/
  name : String
  options : Options
  arena : Arena Native
  /-- The scripts that slices may point into. -/
  texts : Texts := {}
  cursor : Cursor := ⟨.fixed #[], ⟨0, []⟩, 0, 0⟩
  /-- The token read ahead. -/
  token : Token := .eof
  quoting : Quoting := .plain
  /-- Whether names and bodies are copied out of the text that defines them. -/
  duplicate : Bool := true
  /-- What the last `return` left. -/
  result : Word := 0
  literals : Literals := {}
  /-- How many evaluations are under way. -/
  depth : Nat := 0
  /-- How many questions the world has been asked. -/
  asked : Nat := 0
  /-- All that was written so far. -/
  transcript : Array Chunk := #[]
  /-- What the arena and the texts have been. -/
  history : History := .empty

namespace Machine

/-! ### Changing the memory -/

@[inline] def withArena (m : Machine) (arena : Arena Native) : Machine :=
  { m with arena, history := m.history.add ⟨⟨arena, m.texts⟩, false⟩ }

@[inline] def withTexts (m : Machine) (texts : Texts) : Machine :=
  { m with texts, history := m.history.add ⟨⟨m.arena, texts⟩, false⟩ }

@[inline] def note (m : Machine) : Machine :=
  { m with history := m.history.add ⟨⟨m.arena, m.texts⟩, true⟩ }

/-! ### A new machine -/

def defaultName : String := "pocket"

/-- The symbols a machine starts with. -/
def vocabulary : List (String × Tag Native) :=
  (Operator.all.map fun op => (op.spelling, .operator op)) ++
    (Keyword.all.map fun word => (word.spelling, .keyword word)) ++
    (Builtin.all.map fun (name, arity, native) => (name, .native native arity))

/-- The arena of a new machine, unless its size is too small for the vocabulary. -/
def initialArena? (size : Nat) : Option (Arena Native) :=
  vocabulary.foldlM
    (fun arena (name, tag) => (arena.addSymbol (.ofString name) tag 0).map Prod.snd)
    (Arena.ofSize size)

def new (options : Options) : Except Error Machine :=
  match initialArena? options.arenaSize with
  | some arena => .ok (note { name := options.name.getD defaultName, options, arena })
  | none => .error .outOfMemory

/-! ### Reading stores -/

@[inline] def memory (m : Machine) : Memory := ⟨m.arena, m.texts⟩

@[inline] def store (m : Machine) : Source → Array UInt8 := m.memory.store

@[inline] def bytes (m : Machine) (s : Slice) : Bytes := m.memory.bytes s

def cursorAt (m : Machine) (body : Slice) : Cursor :=
  let scanner := Scanner.ofWindow (m.store body.source) body.start body.stop
  ⟨body.source, scanner, body.stop, scanner.pos⟩

/-! ### Looking up names -/

/-- The index of the newest symbol of a name among the first `count`. -/
def newestBelow? (m : Machine) (name : Bytes) : Nat → Option Nat
  | 0 => none
  | index + 1 =>
    match m.arena.symbols[index]? with
    | some s =>
      if s.name.denotes (m.store s.name.source) name then some index else m.newestBelow? name index
    | none => m.newestBelow? name index

/-- The newest symbol of a name is the last one whose name reads as that. -/
theorem newestBelow?_succ {m : Machine} {index : Nat} {s : Symbol Native} (name : Bytes)
    (h : m.arena.symbols[index]? = some s) :
    m.newestBelow? name (index + 1) =
      if m.bytes s.name = name then some index else m.newestBelow? name index := by
  have same : s.name.denotes (m.store s.name.source) name = true ↔ m.bytes s.name = name :=
    Slice.denotes_iff _ _ _
  simp only [newestBelow?, h]
  by_cases hb : m.bytes s.name = name
  · rw [if_pos (same.mpr hb), if_pos hb]
  · rw [if_neg (mt same.mp hb), if_neg hb]

def index? (m : Machine) (name : Bytes) : Option Nat :=
  m.newestBelow? name m.arena.symbols.size

def lookup? (m : Machine) (name : String) : Option (Symbol Native) :=
  (m.index? (Text.encode name)).bind (m.arena.symbols[·]?)

/-- The value of the newest symbol of a name, if that is a variable. -/
def value? (m : Machine) (name : String) : Option Word :=
  match m.lookup? name with
  | some ⟨_, .var, value⟩ => some value
  | _ => none

def symbolList (m : Machine) : List (Bytes × Tag Unit × Word) :=
  m.arena.symbols.toList.map fun s => (m.bytes s.name, s.tag.shape, s.value)

def view (m : Machine) : View where
  name := m.name
  options := m.options
  result := m.result
  lowEnd := m.arena.lowEnd
  highEnd := m.arena.highEnd
  depth := m.arena.depth
  symbols := m.symbolList

/-! ### Writing -/

def write (m : Machine) (stream : Stream) (bytes : Bytes) : Machine :=
  { m with transcript := m.transcript.push ⟨stream, bytes⟩ }

def written (m : Machine) (stream : Stream) : Bytes :=
  (m.transcript.toList.filter (·.stream = stream)).flatMap (·.bytes)

end Machine

end Scriptlet
