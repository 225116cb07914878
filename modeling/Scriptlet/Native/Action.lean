import Scriptlet.Memory.Symbol
import Scriptlet.Native.World
import Scriptlet.Options

/-!
What natives do. A native is a function of its arguments that gives an `Action`: a
description of requests to the machine that calls it, each with what to do next. A native
has no other way to touch the machine, so whatever holds of every request holds of every
native.
-/

namespace Scriptlet

/-- The two streams a machine writes to. -/
inductive Stream where
  | out
  | err
  deriving DecidableEq, Repr

/-- What a native may look at: the machine's settings, the result register, the figures of
its arena, and its symbols by name, tag and value, oldest first. -/
structure View where
  name : String
  options : Options
  result : Word
  lowEnd : Nat
  highEnd : Nat
  depth : Nat
  symbols : List (Text.Bytes × Tag Unit × Word)

def View.value? (v : View) (name : String) : Option Word :=
  match v.symbols.reverse.find? (·.1 = Text.encode name) with
  | some (_, .var, value) => some value
  | _ => none

/-- Requests of a native to its machine. The run of a native ends by giving a value or by
failing. -/
inductive Action where
  | give (value : Word)
  | fail (error : Error)
  | takeLiteral (next : Option String → Action)
  | write (stream : Stream) (bytes : Text.Bytes) (next : Action)
  | look (next : View → Action)
  | define (name : String) (tag : Tag (List Word → Action)) (value : Word)
      (next : Except Error Nat → Action)
  | evalText (text : String) (duplicate topLevel : Bool) (next : Except Error Unit → Action)
  | evalFile (path : String) (next : Except Error Unit → Action)
  | ask (question : Question) (next : question.Answer → Action)

instance : Inhabited Action := ⟨.give 0⟩

/-- Induction on what an action does next. The native that a definition may carry is not
something the action itself does. -/
@[induction_eliminator]
theorem Action.next_induction {motive : Action → Prop}
    (give : ∀ value, motive (.give value))
    (fail : ∀ error, motive (.fail error))
    (takeLiteral : ∀ next, (∀ text?, motive (next text?)) → motive (.takeLiteral next))
    (write : ∀ stream bytes next, motive next → motive (.write stream bytes next))
    (look : ∀ next, (∀ view, motive (next view)) → motive (.look next))
    (define : ∀ name tag value next, (∀ index, motive (next index)) →
      motive (.define name tag value next))
    (evalText : ∀ text duplicate topLevel next, (∀ ended, motive (next ended)) →
      motive (.evalText text duplicate topLevel next))
    (evalFile : ∀ path next, (∀ ended, motive (next ended)) → motive (.evalFile path next))
    (ask : ∀ question next, (∀ answer, motive (next answer)) → motive (.ask question next)) :
    ∀ action, motive action
  | .give value => give value
  | .fail error => fail error
  | .takeLiteral next => takeLiteral next fun text? =>
    next_induction give fail takeLiteral write look define evalText evalFile ask (next text?)
  | .write stream bytes next => write stream bytes next
    (next_induction give fail takeLiteral write look define evalText evalFile ask next)
  | .look next => look next fun view =>
    next_induction give fail takeLiteral write look define evalText evalFile ask (next view)
  | .define name tag value next => define name tag value next fun index =>
    next_induction give fail takeLiteral write look define evalText evalFile ask (next index)
  | .evalText text duplicate topLevel next => evalText text duplicate topLevel next fun ended =>
    next_induction give fail takeLiteral write look define evalText evalFile ask (next ended)
  | .evalFile path next => evalFile path next fun ended =>
    next_induction give fail takeLiteral write look define evalText evalFile ask (next ended)
  | .ask question next => ask question next fun answer =>
    next_induction give fail takeLiteral write look define evalText evalFile ask (next answer)

/-- A function supplied by a host. It is called with as many words as its symbol's arity. -/
abbrev Native := List Word → Action

def Action.orFail {α : Type} (next : α → Action) : Except Error α → Action
  | .ok value => next value
  | .error error => .fail error

end Scriptlet
