import Scriptlet.Evaluation.Reentry

/-!
Evaluating texts and files, and carrying out what natives request. These are the ways into a
machine from outside a script. An error is written to the error stream once, by the
evaluation that nothing encloses.
-/

namespace Scriptlet

open Text (Bytes)

namespace Eval

def write (stream : Stream) (bytes : Bytes) : Eval Unit := update (·.write stream bytes)

def look : Eval View := noting (read Machine.view)

def takeLiteral : Eval (Option String) := fun m =>
  let (text?, literals) := m.literals.takeOldest
  .done text? { m with literals }

/-- Defines a symbol for all scripts to come; its name is copied into the arena. -/
def define (name : String) (tag : Tag Native) (value : Word) : Eval Nat := do
  if (tag.arity?.getD 0) > maxArguments then fail .tooManyArguments
  else
    let name ← allocate (·.addBytes (Text.encode name))
    allocate (·.addSymbol name tag value)

def defineNative (name : String) (arity : Nat) (native : Native) : Eval Nat :=
  define name (.native native arity) 0

def defineConstant (name : String) (value : Word) : Eval Nat := define name .var value

/-- Writes the error of an evaluation that nothing encloses. -/
def reporting {α : Type} (x : Eval α) : Eval α := fun m =>
  match x m with
  | .failed error m =>
    if m.depth = 0 then .failed error (m.write .err (Text.encode (error.render ++ "\n")))
    else .failed error m
  | other => other

/-- Puts a text into a slot for as long as a computation on that slot runs, or for good. -/
def holding {α : Type} (text : Bytes) (forGood : Bool) (x : Nat → Eval α) : Eval α := fun m =>
  let (slot, texts) := m.texts.retain text.toArray
  (x slot (m.withTexts texts)).adjust fun m =>
    if forGood then m else m.withTexts (m.texts.release slot)

def entering {α : Type} (x : Eval α) : Eval α := fun m =>
  (x { m with depth := m.depth + 1 }).adjust fun m => { m with depth := m.depth - 1 }

/-- Evaluates a text. Definitions at the top level outlive the evaluation; with `duplicate`,
names and bodies are copied so that the text need not. -/
def text (r : Reentry) (text : String) (duplicate topLevel : Bool) : Eval Unit :=
  let bytes := Text.encode text
  noting <| reporting <| holding bytes (!duplicate && topLevel) fun slot => entering do
    let _ ← r.body ⟨.text slot, 0, bytes.length⟩ topLevel duplicate

def readScript (world : World) (path : String) : Eval String := do
  match ← world.ask (.fileContents path) with
  | .missing => fail ((Error.ofKind .fileNotFound).before path)
  | .unreadable => fail (((Error.ofKind .fileNotFound).withMessage "UNREADABLE").before path)
  | .contents bytes =>
    if bytes.length > (← read (·.options.maxScriptSize)) then
      fail ((Error.ofKind .scriptTooLarge).before path)
    else return Text.decode bytes

/-- Evaluates a script file at the top level. -/
def file (r : Reentry) (path : String) : Eval Unit := do
  let contents ← reporting (readScript r.world path)
  text r contents true true

end Eval

def Action.perform (r : Reentry) : Action → Eval Word
  | .give value => pure value
  | .fail error => Eval.fail error
  | .takeLiteral next => do
    let text? ← Eval.takeLiteral
    (next text?).perform r
  | .write stream bytes next => do
    Eval.write stream bytes
    next.perform r
  | .look next => do
    let view ← Eval.look
    (next view).perform r
  | .define name tag value next => do
    let index ← Eval.attempt (Eval.define name tag value)
    (next index).perform r
  | .evalText text duplicate topLevel next => do
    let ended ← Eval.attempt (Eval.text r text duplicate topLevel)
    (next ended).perform r
  | .evalFile path next => do
    let ended ← Eval.attempt (Eval.file r path)
    (next ended).perform r
  | .ask question next => do
    let answer ← r.world.ask question
    (next answer).perform r

end Scriptlet
