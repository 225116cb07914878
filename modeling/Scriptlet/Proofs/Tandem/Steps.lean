import Scriptlet.Proofs.Kept
import Scriptlet.Proofs.Moved.Ahead

/-!
Two machines that evaluate side by side, each what it has before it. What takes them from one token to the
next is the same whatever the two have in common, so it is told once. A `Tandem` names what a comparison of
two machines speaks of, and `Tandem.Steps` is what the comparison has to bear out: how outcomes are put
together, and what becomes of the machines in each of the steps that the evaluator is made of.

The machines need not have the same to read for ever. One may be at its end where the other has a
separator. An expression does not care which of the two follows it; what comes between statements does. And
the first machine may have any token where the second has a closing parenthesis (`Tandem.AtClose`). If the
first makes more of its token than an end, nothing is said of the second; all that is known of the first
from there is that it reads on. A comparison that has no room for this is level. Definitions and loops are
followed in level comparisons only, and `Tandem.Definitions` is what these have to bear out besides.
-/

namespace Scriptlet

open Eval

variable {α β ι σ : Type} {m m' n n' k k' : Machine}

/-! ### What goes together -/

/-- The same value, and machines that are related. -/
def Equally (P : Machine → Machine → Prop) (a a' : α) (n n' : Machine) : Prop := a' = a ∧ P n n'

/-- Two turns of a loop: both go round again under the invariant `I`, or both are finished. -/
inductive Turns (I : σ → Machine → Machine → Prop) (D : α → α → Machine → Machine → Prop) :
    Turn σ α → Turn σ α → Machine → Machine → Prop where
  | again {s : σ} {n n' : Machine} (h : I s n n') : Turns I D (.again s) (.again s) n n'
  | finish {a a' : α} {n n' : Machine} (h : D a a' n n') : Turns I D (.finish a) (.finish a') n n'

/-- Tags that the evaluator treats alike: they are the same, or of two natives with the same arity. -/
inductive Tag.Counterpart : Tag Native → Tag Native → Prop
  | same {tag : Tag Native} (plain : ∀ native arity, tag ≠ .native native arity) : Counterpart tag tag
  | native {native native' : Native} {arity : Nat} :
    Counterpart (.native native arity) (.native native' arity)

structure Symbol.Counterpart (s s' : Symbol Native) : Prop where
  tag : s.tag.Counterpart s'.tag
  value : s'.value = s.value

theorem Tag.Counterpart.refl (tag : Tag Native) : tag.Counterpart tag := by
  cases tag with
  | native native arity => exact .native
  | _ => exact .same nofun

theorem Tag.Counterpart.ne_var {tag tag' : Tag Native} (h : tag.Counterpart tag') (hvar : tag ≠ .var) :
    tag' ≠ .var := by
  cases h with
  | same => exact hvar
  | native => exact nofun

/-- Tokens that two machines may have where they are side by side. -/
inductive Token.Counterpart (close : Prop) : Token → Token → Prop
  | same {t : Token} (plain : t.slice? = none) : Counterpart close t t
  | name {slice slice' : Slice} : Counterpart close (.name slice) (.name slice')
  | text {slice slice' : Slice} : Counterpart close (.text slice) (.text slice')
  | seam : Counterpart close .eof .separator
  | close {t : Token} (h : close) : Counterpart close t .closeParen

/-- The symbol of a callee stays the same while its arguments are evaluated. -/
theorem Grows.callee {index : Nat} {s : Symbol Native} (g : Grows m n)
    (found : m.arena.symbols[index]? = some s) (hvar : s.tag ≠ .var) :
    n.arena.symbols[index]? = some s := by
  obtain ⟨s₁, found₁, lasts⟩ := g.symbols found
  have same : s₁ = s := by
    have name := lasts.name
    have tag := lasts.tag
    have value := lasts.value hvar
    cases s
    cases s₁
    simp_all
  rw [same] at found₁
  exact found₁

/-- Stacks that are the same are unwound to the same. -/
theorem Arena.unwind_of_stack {a a' b b' : Arena Native} (stack : a'.stack = a.stack)
    (later : b'.stack = b.stack) : b'.unwind a'.depth = { b' with stack := b.stack.take a.depth } := by
  rw [Arena.unwind, Arena.depth, Arena.depth, stack, later]

/-! ### Comparisons -/

/-- What is said of two computations that are done, of their values and machines. -/
abbrev Post (α : Type) : Type := α → α → Machine → Machine → Prop

/-- What a comparison of two machines speaks of. -/
structure Tandem where
  /-- What is said of two outcomes, if `Q` is to hold where both computations are done. The machines are
  those that they began on. -/
  Rel : {α : Type} → (Q : Post α) → (m m' : Machine) → (o o' : Outcome α) → Prop
  /-- The machines have read tokens that go together. -/
  Abreast : (m m' : Machine) → Prop
  /-- The machines have the same to read; their tokens may be anything. -/
  Standing : (m m' : Machine) → Prop
  /-- The first two machines have gone on to the other two. -/
  Since : (m m' n n' : Machine) → Prop
  /-- Slices that go together, and that definitions may keep. -/
  Kept : (m m' : Machine) → (slice slice' : Slice) → Prop
  /-- Slices that go together, and that may be run. -/
  Held : (m m' : Machine) → (body body' : Slice) → Prop
  /-- The first machine has a token that is behind the end of what the two have in common. -/
  AtClose : Machine → Prop
  /-- The first machine never has such a token. -/
  Level : Prop

namespace Tandem

variable (T : Tandem)

/-- The same value, and machines that go together, with something to say of the first one's token. -/
def At (P : α → Token → Prop) : Post α := fun a a' n n' => a' = a ∧ P a n.token ∧ T.Abreast n n'

def OnBoth : Post α := fun _ _ n n' => T.Abreast n n'

/-- Nothing is said of the second machine, whatever it does. -/
def Loose (m m' : Machine) (o : Outcome α) : Prop := ∀ Q o', T.Rel Q m m' o o'

/-- Where reading on is all that is known of the first machine, what comes next does no more. -/
def Onward (f : ι → Eval α) : Prop := T.Level ∨ ∀ i, Keeps Ahead (f i)

/-- How a comparison is put together. -/
structure Outcomes : Prop where
  trans : ∀ {m m' n n' k k'}, T.Since m m' n n' → T.Since n n' k k' → T.Since m m' k k'
  grows : ∀ {m m' n n'}, T.Since m m' n n' → Grows m n ∧ Grows m' n'
  done : ∀ {α} {Q : Post α} {m m' n n' a a'}, T.Since m m' n n' → Q a a' n n' →
    T.Rel Q m m' (.done a n) (.done a' n')
  since : ∀ {α} {Q : Post α} {m m' n n' o o'}, T.Since m m' n n' → T.Rel Q n n' o o' → T.Rel Q m m' o o'
  bindFrom : ∀ {α β} {Q : Post α} {P : Post β} {m m' k k'} {x x' : Eval α} {f f' : α → Eval β},
    T.Rel Q m m' (x k) (x' k') → T.Onward f →
    (∀ {a a' n n'}, T.Since m m' n n' → Q a a' n n' → T.Rel P m m' (f a n) (f' a' n')) →
    T.Rel P m m' ((x >>= f) k) ((x' >>= f') k')
  loop : ∀ {ι α} {I : ι → Machine → Machine → Prop} {Q : Post α} {m m'} {turn turn' : ι → Eval (Turn ι α)},
    T.Onward turn →
    (∀ {i n n'}, T.Since m m' n n' → I i n n' → T.Rel (Turns I Q) m m' (turn i n) (turn' i n')) →
    ∀ (passes : Nat) {i}, T.Since m m' m m' → I i m m' →
    T.Rel Q m m' (Eval.loop turn passes i m) (Eval.loop turn' passes i m')

/-- What a comparison has to bear out in the steps that the evaluator is made of. -/
structure Steps : Prop extends T.Outcomes where
  begun : ∀ {m m'}, T.Abreast m m' → T.Since m m' m m'
  failed : ∀ {α} {Q : Post α} {m m'} (e : Error), T.Abreast m m' → T.Rel Q m m' (.failed e m) (.failed e m')
  tokens : ∀ {m m'}, T.Abreast m m' → m.token.Counterpart (T.AtClose m) m'.token
  symbols : ∀ {m m'}, T.Abreast m m' → ∀ index : Nat,
    Option.Rel Symbol.Counterpart m.arena.symbols[index]? m'.arena.symbols[index]?
  literals : ∀ {m m'}, T.Abreast m m' → m'.literals = m.literals
  /-- To read on takes more than the end. -/
  advanceBy : ∀ {m m'} (raw : Bool), T.Abreast m m' → m.token ≠ .eof →
    T.Rel T.OnBoth m m' (Eval.advanceBy raw m) (Eval.advanceBy raw m')
  withQuoting : ∀ {α} {P : α → Token → Prop} {m m'} (quoting : Quoting) {x x' : Eval α}, T.Abreast m m' →
    (T.Abreast { m with quoting } { m' with quoting } →
      T.Rel (T.At P) { m with quoting } { m' with quoting } (x { m with quoting }) (x' { m' with quoting })) →
    T.Rel (T.At P) m m' (Eval.withQuoting quoting x m) (Eval.withQuoting quoting x' m')
  unwinding : ∀ {α} {Q : Post α} {m m'} {x x' : Eval α}, T.Abreast m m' → T.Rel Q m m' (x m) (x' m') →
    T.Rel Q m m' (Eval.unwinding x m) (Eval.unwinding x' m')
  push : ∀ {m m'} (word : Word), T.Abreast m m' →
    T.Rel T.OnBoth m m' (Eval.push word m) (Eval.push word m')
  withResult : ∀ {m m'} (result : Word), T.Abreast m m' →
    T.Since m m' { m with result } { m' with result } ∧ T.Abreast { m with result } { m' with result }
  setValue : ∀ {m m'} {index : Nat} {s} (value : Word), T.Abreast m m' →
    m.arena.symbols[index]? = some s → s.tag = .var →
    T.Since m m' (m.withArena (m.arena.setValue index value)) (m'.withArena (m'.arena.setValue index value)) ∧
      T.Abreast (m.withArena (m.arena.setValue index value)) (m'.withArena (m'.arena.setValue index value))
  -- behind the end
  not_level : ∀ {m}, T.AtClose m → ¬ T.Level
  refused : ∀ {α} {m m'} {e : Error}, T.AtClose m → e.kind = .syntaxError ∨ e.kind = .unknownSymbol →
    T.Loose m m' (.failed e m : Outcome α)
  astray : ∀ {α} {m m'} {f : Unit → Eval α}, T.AtClose m → T.Onward f → T.Loose m m' ((advance >>= f) m)

/-- What a level comparison has to bear out besides, where definitions are made and loops go back. -/
structure Definitions : Prop extends T.Steps where
  stands : ∀ {m m'}, T.Level → T.Abreast m m' → m.token ≠ .eof → T.Standing m m'
  standing : ∀ {m m'}, T.Standing m m' → T.Since m m' m m'
  readOn : ∀ {m m'} (raw : Bool), T.Standing m m' →
    T.Rel T.OnBoth m m' (Eval.advanceBy raw m) (Eval.advanceBy raw m')
  rewind : ∀ {m m' n n'}, T.Standing m m' → T.Since m m' n n' → T.Abreast n n' →
    T.Since m m' { n with cursor := m.cursor } { n' with cursor := m'.cursor } ∧
      T.Standing { n with cursor := m.cursor } { n' with cursor := m'.cursor }
  kept : ∀ {m m' n n' slice slice'}, T.Kept m m' slice slice' → T.Since m m' n n' → T.Kept n n' slice slice'
  held : ∀ {m m' n n' body body'}, T.Held m m' body body' → T.Since m m' n n' → T.Held n n' body body'
  takes : ∀ {m m' slice slice'}, T.Level → T.Abreast m m' → m.token.slice? = some slice →
    m'.token.slice? = some slice' → T.Held m m' slice slice'
  keep : ∀ {m m' slice slice'}, T.Level → T.Abreast m m' → m.token.slice? = some slice →
    m'.token.slice? = some slice' →
    T.Rel (fun kept kept' n n' => T.Standing n n' ∧ T.Kept n n' kept kept') m m' (Eval.keep slice m)
      (Eval.keep slice' m')
  addVariable : ∀ {m m' name name'}, T.Standing m m' → T.Kept m m' name name' →
    T.Rel (fun index index' n n' => index' = index ∧ n.arena.symbols[index]? = some ⟨name, .var, 0⟩ ∧
      T.Standing n n') m m' (allocate (·.addSymbol name .var 0) m) (allocate (·.addSymbol name' .var 0) m')
  addFunction : ∀ {m m' name name'} (routine routine' : Routine) (arity : Nat), T.Standing m m' →
    T.Kept m m' name name' →
    List.Forall₂ (T.Kept m m') (routine.body :: routine.params) (routine'.body :: routine'.params) →
    T.Rel (fun _ _ n n' => T.Standing n n') m m'
      ((do
        let number ← allocate (·.addRoutine routine)
        allocate (·.addSymbol name (.func arity) (Int64.ofNat number)) : Eval Nat) m)
      ((do
        let number ← allocate (·.addRoutine routine')
        allocate (·.addSymbol name' (.func arity) (Int64.ofNat number)) : Eval Nat) m')

variable {T}

theorem Outcomes.bind (outcomes : T.Outcomes) {Q : Post α} {P : Post β} {x x' : Eval α} {f f' : α → Eval β}
    (h : T.Rel Q m m' (x m) (x' m')) (onward : T.Onward f)
    (next : ∀ {a a' n n'}, T.Since m m' n n' → Q a a' n n' → T.Rel P n n' (f a n) (f' a' n')) :
    T.Rel P m m' ((x >>= f) m) ((x' >>= f') m') :=
  outcomes.bindFrom h onward fun since holds => outcomes.since since (next since holds)

/-! ### Looking at the token -/

namespace Steps

variable (steps : T.Steps) {Q : Post α} {x x' y y' : Eval α}

include steps

theorem token {f f' : Token → Eval α} (h : T.Abreast m m')
    (same : ∀ {t}, t.slice? = none → m.token = t → m'.token = t → T.Rel Q m m' (f t m) (f' t m'))
    (name : ∀ {slice slice'}, m.token = .name slice → m'.token = .name slice' →
      T.Rel Q m m' (f (.name slice) m) (f' (.name slice') m'))
    (text : ∀ {slice slice'}, m.token = .text slice → m'.token = .text slice' →
      T.Rel Q m m' (f (.text slice) m) (f' (.text slice') m'))
    (seam : m.token = .eof → m'.token = .separator → T.Rel Q m m' (f .eof m) (f' .separator m'))
    (close : T.AtClose m → m'.token = .closeParen → T.Rel Q m m' (f m.token m) (f' .closeParen m')) :
    T.Rel Q m m' ((Eval.token >>= f) m) ((Eval.token >>= f') m') := by
  have tokens := steps.tokens h
  rw [token_bind, token_bind]
  generalize ht : m.token = t at tokens same name text seam close ⊢
  generalize ht' : m'.token = t' at tokens same name text seam close ⊢
  cases tokens with
  | same plain => exact same plain rfl rfl
  | name => exact name rfl rfl
  | text => exact text rfl rfl
  | seam => exact seam rfl rfl
  | close atClose => exact close atClose rfl

theorem symbolAt {index : Nat} {f f' : Symbol Native → Eval α} (h : T.Abreast m m')
    (found : ∀ {s s'}, m.arena.symbols[index]? = some s → m'.arena.symbols[index]? = some s' →
      s.Counterpart s' → T.Rel Q m m' (f s m) (f' s' m')) :
    T.Rel Q m m' ((Eval.symbolAt index >>= f) m) ((Eval.symbolAt index >>= f') m') := by
  have symbols := steps.symbols h index
  rw [bind_apply, bind_apply]
  unfold Eval.symbolAt
  generalize hs : m.arena.symbols[index]? = s? at symbols found
  generalize hs' : m'.arena.symbols[index]? = s?' at symbols found
  cases symbols with
  | some counterpart => exact found rfl rfl counterpart
  | none => exact steps.failed _ h

theorem fail (h : T.Abreast m m') (e : Error) :
    T.Rel Q m m' ((Eval.fail e : Eval α) m) ((Eval.fail e : Eval α) m') := steps.failed e h

theorem pure (h : T.Abreast m m') {a a' : α} (holds : Q a a' m m') :
    T.Rel Q m m' ((Pure.pure a : Eval α) m) ((Pure.pure a' : Eval α) m') := steps.done (steps.begun h) holds

theorem ofExcept (h : T.Abreast m m') (result : Except Error α) :
    T.Rel (Equally T.Abreast) m m' (Eval.ofExcept result m) (Eval.ofExcept result m') := by
  cases result with
  | ok value => exact steps.pure h ⟨rfl, h⟩
  | error e => exact steps.fail h e

theorem advance (h : T.Abreast m m') (other : m.token ≠ .eof) :
    T.Rel T.OnBoth m m' (Eval.advance m) (Eval.advance m') := steps.advanceBy false h other

/-- Whether the token is a certain one, which is bare and is neither the end nor a separator. Behind the end
of what the machines have in common, it may be that one on one side only. -/
theorem tokenIs (t : Token) (plain : t.slice? = none) (other : t ≠ .eof ∧ t ≠ .separator)
    (h : T.Abreast m m') (yes : m.token = t → T.Rel Q m m' (x m) (x' m')) (no : T.Rel Q m m' (y m) (y' m'))
    (close : T.AtClose m → if t = .closeParen then T.Loose m m' (y m) else T.Loose m m' (x m)) :
    T.Rel Q m m' ((Eval.token >>= fun u => if u = t then x else y) m)
      ((Eval.token >>= fun u => if u = t then x' else y') m') := by
  have sliced : ∀ {u : Token} {slice}, u.slice? = some slice → u ≠ t := fun hu same => by
    rw [same, plain] at hu
    cases hu
  refine steps.token h (fun {u} _ ht _ => ?_) (fun _ _ => ?_) (fun _ _ => ?_) (fun _ _ => ?_)
    fun atClose _ => ?_
  · by_cases same : u = t
    · rw [if_pos same, if_pos same]
      exact yes (ht.trans same)
    · rw [if_neg same, if_neg same]
      exact no
  · rw [if_neg (sliced rfl), if_neg (sliced rfl)]
    exact no
  · rw [if_neg (sliced rfl), if_neg (sliced rfl)]
    exact no
  · rw [if_neg other.1.symm, if_neg other.2.symm]
    exact no
  · have loose := close atClose
    by_cases closing : t = .closeParen
    · rw [if_pos closing] at loose
      rw [if_pos closing.symm]
      split
      · next ht => exact yes ht
      · exact loose _ _
    · rw [if_neg closing] at loose
      rw [if_neg (Ne.symm closing)]
      split
      · exact loose _ _
      · exact no

/-- The tag of the symbol read ahead. Behind the end the second machine has none. -/
theorem tokenTag {f f' : Option (Tag Native) → Eval α} (h : T.Abreast m m')
    (found : ∀ {tag tag'}, tag.Counterpart tag' → m.token ≠ .eof →
      T.Rel Q m m' (f (some tag) m) (f' (some tag') m'))
    (without : T.Rel Q m m' (f none m) (f' none m'))
    (close : T.AtClose m → ∀ tag, T.Rel Q m m' (f (some tag) m) (f' none m')) :
    T.Rel Q m m' ((tokenTag? >>= f) m) ((tokenTag? >>= f') m') := by
  unfold tokenTag?
  rw [bind_assoc, bind_assoc]
  refine steps.token h (fun {t} _ ht _ => ?_) (fun _ _ => without) (fun _ _ => without) (fun _ _ => without)
    fun atClose _ => ?_
  · cases t with
    | symbol index =>
      dsimp only
      rw [bind_assoc, bind_assoc]
      exact steps.symbolAt h fun _ _ counterpart => found counterpart.tag (by rw [ht]; exact nofun)
    | _ => exact without
  · dsimp only
    split
    · next index ht =>
      rw [bind_assoc, bind_apply]
      unfold Eval.symbolAt
      cases m.arena.symbols[index]? with
      | some s => exact close atClose _
      | none => exact steps.refused atClose (.inr rfl) _ _
    · exact without

/-- Whether the token can begin an expression. It cannot at the end. -/
theorem startsExpression (level : T.Level) {f f' : Bool → Eval α} (h : T.Abreast m m')
    (next : ∀ starts, T.Rel Q m m' (f starts m) (f' starts m')) :
    T.Rel Q m m' ((Eval.startsExpression >>= f) m) ((Eval.startsExpression >>= f') m') := by
  unfold Eval.startsExpression
  rw [bind_assoc, bind_assoc]
  refine steps.token h (fun {t} _ _ _ => ?_) (fun _ _ => next true) (fun _ _ => next true)
    (fun _ _ => next false) fun atClose => absurd level (steps.not_level atClose)
  cases t with
  | symbol index =>
    dsimp only
    rw [bind_assoc, bind_assoc]
    refine steps.symbolAt h fun {s s'} _ _ counterpart => ?_
    have tags := counterpart.tag
    generalize s.tag = tag at tags
    generalize s'.tag = tag' at tags
    cases tags with
    | native => exact next true
    | same =>
      cases tag with
      | keyword word => exact next false
      | _ => exact next true
  | eof => exact next false
  | separator => exact next false
  | comma => exact next false
  | closeParen => exact next false
  | _ => exact next true

theorem operatorOfLevel (level : Nat) {f f' : Option Operator → Eval α} (h : T.Abreast m m')
    (found : ∀ op, m.token ≠ .eof → T.Rel Q m m' (f (some op) m) (f' (some op) m'))
    (without : T.Rel Q m m' (f none m) (f' none m'))
    (close : T.AtClose m → ∀ op, T.Loose m m' (f (some op) m)) :
    T.Rel Q m m' ((Expression.operatorOfLevel level >>= f) m)
      ((Expression.operatorOfLevel level >>= f') m') := by
  unfold Expression.operatorOfLevel
  rw [bind_assoc, bind_assoc]
  refine steps.tokenTag h (fun {tag tag'} tags other => ?_) without fun atClose tag => ?_
  · cases tags with
    | native => exact without
    | same =>
      cases tag with
      | operator op =>
        dsimp only
        change T.Rel Q m m' (f (if op.level = level then _ else _) m)
          (f' (if op.level = level then _ else _) m')
        split
        · exact found op other
        · exact without
      | _ => exact without
  · cases tag with
    | operator op =>
      dsimp only
      change T.Rel Q m m' (f (if op.level = level then _ else _) m) _
      split
      · exact close atClose op _ _
      · exact without
    | _ => exact without

end Steps

end Tandem

end Scriptlet
