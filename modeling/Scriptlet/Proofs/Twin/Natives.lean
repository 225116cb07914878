import Scriptlet.Proofs.Reach

/-!
Natives that do alike. Two machines that run side by side may find the same error in different lines,
because the same function is in different places of their texts. So the natives they call are not given
the very same errors, and what can be asked of a native is that it makes the same requests all the
same, up to the lines of the errors it passes on. A native that does so with itself is blind to lines.

There are two strictnesses. In the strict company of machines with the same room, every request of
a native is answered alike. In the lenient one, memory may run out on one machine before the other; a
native may then not look at its machine, define anything or evaluate texts of its own, and if a file
fails for want of memory, it has to fail so itself. The natives every machine starts with behave in
both companies.
-/

namespace Scriptlet

open Text (Bytes)

/-- The same error, up to the line it was found in. -/
structure Error.Alike (e e' : Error) : Prop where
  kind : e'.kind = e.kind
  message : e'.message = e.message
  context : e'.context = e.context

theorem Error.Alike.refl (e : Error) : e.Alike e := ⟨rfl, rfl, rfl⟩

/-- Actions that make the same requests, where the errors they are given and those they fail with are
the same up to lines. What they write to the error stream may differ. -/
inductive Action.Alike (strict : Bool) : Action → Action → Prop where
  | give (value : Word) : Alike strict (.give value) (.give value)
  | fail {e e' : Error} (h : e.Alike e') : Alike strict (.fail e) (.fail e')
  | takeLiteral {next next' : Option String → Action}
    (hnext : ∀ text?, Alike strict (next text?) (next' text?)) :
    Alike strict (.takeLiteral next) (.takeLiteral next')
  | write {stream : Stream} {bytes bytes' : Bytes} {next next' : Action}
    (hbytes : stream = .out → bytes' = bytes) (hnext : Alike strict next next') :
    Alike strict (.write stream bytes next) (.write stream bytes' next')
  | look {next next' : View → Action} (hstrict : strict = true)
    (hnext : ∀ view, Alike strict (next view) (next' view)) :
    Alike strict (.look next) (.look next')
  | define {name : String} {tag : Tag (List Word → Action)} {value : Word}
    {next next' : Except Error Nat → Action} (hstrict : strict = true) (hplain : tag.arity? = none)
    (hok : ∀ index, Alike strict (next (.ok index)) (next' (.ok index)))
    (herror : ∀ e e', e.Alike e' → Alike strict (next (.error e)) (next' (.error e'))) :
    Alike strict (.define name tag value next) (.define name tag value next')
  | defineNative {name : String} {native native' : List Word → Action} {arity : Nat} {value : Word}
    {next next' : Except Error Nat → Action} (hstrict : strict = true)
    (hnative : ∀ args, Alike strict (native args) (native' args))
    (hok : ∀ index, Alike strict (next (.ok index)) (next' (.ok index)))
    (herror : ∀ e e', e.Alike e' → Alike strict (next (.error e)) (next' (.error e'))) :
    Alike strict (.define name (.native native arity) value next)
      (.define name (.native native' arity) value next')
  | evalText {text : String} {duplicate topLevel : Bool} {next next' : Except Error Unit → Action}
    (hstrict : strict = true) (hok : Alike strict (next (.ok ())) (next' (.ok ())))
    (herror : ∀ e e', e.Alike e' → Alike strict (next (.error e)) (next' (.error e'))) :
    Alike strict (.evalText text duplicate topLevel next) (.evalText text duplicate topLevel next')
  | evalFile {path : String} {next next' : Except Error Unit → Action}
    (hmemory : strict = false → ∀ e : Error, e.kind = .outOfMemory →
      next (.error e) = .fail e ∧ next' (.error e) = .fail e)
    (hok : Alike strict (next (.ok ())) (next' (.ok ())))
    (herror : ∀ e e', e.Alike e' → Alike strict (next (.error e)) (next' (.error e'))) :
    Alike strict (.evalFile path next) (.evalFile path next')
  | ask {question : Question} {next next' : question.Answer → Action}
    (hnext : ∀ answer, Alike strict (next answer) (next' answer)) :
    Alike strict (.ask question next) (.ask question next')

/-- An action that does alike whatever lines it is told of, and leaves it to scripts to define
functions. -/
def Action.LineBlind (action : Action) : Prop := action.Alike true action

/-- Actions that do alike leave it to scripts to define functions. -/
theorem Action.Alike.honest {strict : Bool} {a a' : Action} (h : a.Alike strict a') :
    a.Honest ∧ a'.Honest := by
  induction h with
  | give value => exact ⟨.give value, .give value⟩
  | fail _ => exact ⟨.fail _, .fail _⟩
  | takeLiteral _ ih => exact ⟨.takeLiteral fun t => (ih t).1, .takeLiteral fun t => (ih t).2⟩
  | write _ _ ih => exact ⟨.write ih.1, .write ih.2⟩
  | look _ _ ih => exact ⟨.look fun v => (ih v).1, .look fun v => (ih v).2⟩
  | @define _ tag _ next next' _ hplain _ _ ihok iherror =>
    have hfunc : ∀ arity, tag ≠ .func arity := by rintro arity rfl; cases hplain
    have hnative : ∀ native arity, tag = .native native arity → ∀ args, (native args).Honest := by
      rintro native arity rfl
      cases hplain
    have hnext : ∀ index, (next index).Honest ∧ (next' index).Honest
      | .ok index => ihok index
      | .error e => iherror e e (.refl e)
    exact ⟨.define hfunc hnative fun index => (hnext index).1,
      .define hfunc hnative fun index => (hnext index).2⟩
  | @defineNative _ _ _ _ _ next next' _ _ _ _ ihnative ihok iherror =>
    have hnext : ∀ index, (next index).Honest ∧ (next' index).Honest
      | .ok index => ihok index
      | .error e => iherror e e (.refl e)
    refine ⟨.define (fun _ h => by cases h) (fun _ _ h => ?_) fun index => (hnext index).1,
      .define (fun _ h => by cases h) (fun _ _ h => ?_) fun index => (hnext index).2⟩
    · cases h
      exact fun args => (ihnative args).1
    · cases h
      exact fun args => (ihnative args).2
  | @evalText _ _ _ next next' _ _ _ ihok iherror =>
    have hnext : ∀ ended, (next ended).Honest ∧ (next' ended).Honest
      | .ok () => ihok
      | .error e => iherror e e (.refl e)
    exact ⟨.evalText fun ended => (hnext ended).1, .evalText fun ended => (hnext ended).2⟩
  | @evalFile _ next next' _ _ _ ihok iherror =>
    have hnext : ∀ ended, (next ended).Honest ∧ (next' ended).Honest
      | .ok () => ihok
      | .error e => iherror e e (.refl e)
    exact ⟨.evalFile fun ended => (hnext ended).1, .evalFile fun ended => (hnext ended).2⟩
  | ask _ ih => exact ⟨.ask fun a => (ih a).1, .ask fun a => (ih a).2⟩

inductive Tag.Alike (strict : Bool) : Tag Native → Tag Native → Prop where
  | same {tag : Tag Native} (h : ∀ native arity, tag ≠ .native native arity) : Alike strict tag tag
  | native {native native' : Native} (arity : Nat)
    (h : ∀ args, (native args).Alike strict (native' args)) :
    Alike strict (.native native arity) (.native native' arity)

namespace Tag.Alike

variable {strict : Bool} {tag tag' : Tag Native}

theorem eq (h : tag.Alike strict tag') (other : ∀ native arity, tag ≠ .native native arity) :
    tag' = tag := by
  cases h with
  | same => rfl
  | native arity => exact absurd rfl (other _ arity)

theorem arity? (h : tag.Alike strict tag') : tag'.arity? = tag.arity? := by
  cases h with
  | same => rfl
  | native => rfl

theorem shape (h : tag.Alike strict tag') : tag'.shape = tag.shape := by
  cases h with
  | same => rfl
  | native => rfl

end Tag.Alike

/-! ### The natives of the vocabulary -/

namespace Builtin

variable {strict : Bool}

theorem alike_of_mem {entry : String × Nat × Native} (h : entry ∈ all) (args : List Word) :
    (entry.2.2 args).Alike strict (entry.2.2 args) := by
  refine Requests.of_mem_all (P := fun action => action.Alike strict action) ?_ (fun path => ?_)
    (fun error => .fail (.refl error)) h args
  · exact ⟨.give, .takeLiteral, fun _ => .write (fun _ => rfl) (.give 0), .ask⟩
  · exact .evalFile (fun _ _ _ => ⟨rfl, rfl⟩) (.give 0) fun _ _ h => .fail h

end Builtin

end Scriptlet
