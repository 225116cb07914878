import Scriptlet.Proofs.Finishing.Words
import Scriptlet.Proofs.Reach

/-!
What it takes to finish. A computation ends in a condition if it is done and the condition holds, or
fails; it must not stop. Loops end when each turn lowers a measure that is below the number of turns
allowed.

The measure is what is left to read. It is enough for loops and for nested expressions, because each of
them reads at least one token; a nested body is read anew, but is shorter than the body it stands in by
its two brackets. This goes well as long as nothing is read that can make an evaluation go back: a loop,
a function, or the native that reads other texts. `Straight` tells the symbols that cannot, and
`Reading` is the invariant, which says that no other symbol is read.
-/

namespace Scriptlet

open Eval
open Lexical (Stands IsBody HasWord Tells)

/-! ### Total correctness -/

/-- The outcome is a value that satisfies the condition, or an error. -/
def Outcome.Ends {α : Type} (Q : α → Machine → Prop) : Outcome α → Prop
  | .done a m => Q a m
  | .failed _ _ => True
  | .stopped _ _ => False

/-- The computation finishes or fails, and if it finishes the condition holds. -/
def Eval.Ends {α : Type} (x : Eval α) (Q : α → Machine → Prop) (m : Machine) : Prop := (x m).Ends Q

namespace Outcome

variable {α β : Type} {o : Outcome α} {Q : α → Machine → Prop}

@[simp] theorem ends_adjust (f : Machine → Machine) :
    (o.adjust f).Ends Q ↔ o.Ends fun a m => Q a (f m) := by
  cases o <;> rfl

@[simp] theorem ends_adjustUndone (f : Machine → Machine) : (o.adjustUndone f).Ends Q ↔ o.Ends Q := by
  cases o <;> rfl

@[simp] theorem ends_adjustError (f : Machine → Error → Error) :
    (o.adjustError f).Ends Q ↔ o.Ends Q := by
  cases o <;> rfl

theorem Ends.mono {P : α → Machine → Prop} (h : o.Ends P) (hPQ : ∀ a m, P a m → Q a m) :
    o.Ends Q := by
  cases o with
  | done a m => exact hPQ a m h
  | failed e m => trivial
  | stopped why m => exact h

theorem Ends.andThen {S : β → Machine → Prop} {next : α → Machine → Outcome β} (h : o.Ends Q)
    (hnext : ∀ a m, Q a m → (next a m).Ends S) : (o.andThen next).Ends S := by
  cases o with
  | done a m => exact hnext a m h
  | failed e m => trivial
  | stopped why m => exact h

theorem Ends.and_machine {P : Machine → Prop} (h : o.Ends Q) (kept : P o.machine) :
    o.Ends fun a m => Q a m ∧ P m := by
  cases o with
  | done a m => exact ⟨h, kept⟩
  | failed e m => trivial
  | stopped why m => exact h

end Outcome

section

variable {α β σ : Type} {x : Eval α} {m : Machine} {P Q : α → Machine → Prop} {S : β → Machine → Prop}

theorem ends_fail (e : Error) : (fail e : Eval α).Ends Q m := trivial

theorem Eval.Ends.mono (h : x.Ends P m) (hPQ : ∀ a m', P a m' → Q a m') : x.Ends Q m :=
  Outcome.Ends.mono h hPQ

theorem Eval.Ends.bind {f : α → Eval β} (hx : x.Ends P m)
    (hf : ∀ a m', P a m' → (f a).Ends S m') : (x >>= f).Ends S m :=
  Outcome.Ends.andThen hx hf

/-- Of a relation between the machines before and after, one step after another. -/
theorem Track.ends_bind {R : Machine → Machine → Prop} (h : Track R) {f : α → Eval β}
    (hx : x.Ends (fun _ m' => R m m') m)
    (hf : ∀ a m', R m m' → (f a).Ends (fun _ m'' => R m' m'') m') :
    (x >>= f).Ends (fun _ m'' => R m m'') m :=
  hx.bind fun a m' related => (hf a m' related).mono fun _ _ => h.trans related

/-- A loop ends whose turns lower a measure. -/
theorem ends_loop {turn : σ → Eval (Turn σ α)} {I : σ → Machine → Prop} (measure : Machine → Nat)
    (hturn : ∀ s m, I s m → (turn s).Ends (fun t m' => match t with
      | .again s' => I s' m' ∧ measure m' < measure m
      | .finish a => Q a m') m)
    {passes : Nat} {s : σ} (hI : I s m) (enough : measure m < passes) :
    (Eval.loop turn passes s).Ends Q m := by
  induction passes generalizing s m with
  | zero => exact absurd enough (Nat.not_lt_zero _)
  | succ passes ih =>
    have step := hturn s m hI
    unfold Ends at step ⊢
    unfold Eval.loop
    cases hm : turn s m with
    | done t m' =>
      rw [hm] at step
      cases t with
      | again s' => exact ih step.1 (by have := step.2; omega)
      | finish a => exact step
    | failed e m' => trivial
    | stopped why m' =>
      rw [hm] at step
      exact step

theorem ends_allocate {f : Arena Native → Option (α × Arena Native)}
    (granted : ∀ a arena, f m.arena = some (a, arena) → Q a (m.withArena arena)) :
    (allocate f).Ends Q m := by
  unfold Ends allocate
  cases hm : f m.arena with
  | some result => exact granted _ _ hm
  | none => trivial

theorem ends_ofExcept {x : Except Error α} (h : ∀ a, Q a m) : (ofExcept x).Ends Q m := by
  cases x with
  | ok a => exact h a
  | error e => trivial

theorem ends_symbolAt {index : Nat} {Q : Symbol Native → Machine → Prop}
    (h : ∀ s, m.arena.symbols[index]? = some s → Q s m) : (symbolAt index).Ends Q m := by
  unfold Ends symbolAt
  cases found : m.arena.symbols[index]? with
  | some s => exact h s found
  | none => trivial

theorem ends_read_bind {f : Machine → α} {next : α → Eval β} (h : (next (f m)).Ends S m) :
    (read f >>= next).Ends S m := h

theorem ends_tokenTag? {Q : Option (Tag Native) → Machine → Prop} (h : ∀ tag?, Q tag? m) :
    tokenTag?.Ends Q m := by
  refine ends_read_bind ?_
  split
  · exact Ends.bind (ends_symbolAt (Q := fun _ m' => m' = m) fun _ _ => rfl)
      fun s m' same => same ▸ h _
  · exact h none

theorem ends_startsExpression {Q : Bool → Machine → Prop} (h : ∀ starts, Q starts m) :
    startsExpression.Ends Q m := by
  refine ends_read_bind ?_
  split
  case h_6 index =>
    refine Ends.bind (ends_symbolAt (Q := fun _ m' => m' = m) fun _ _ => rfl) fun s m' same => ?_
    split <;> exact same ▸ h _
  all_goals exact h _

theorem ends_reporting (h : x.Ends Q m) : (reporting x).Ends Q m := by
  unfold Ends reporting at *
  cases hm : x m with
  | done a m' => rwa [hm] at h
  | failed e m' =>
    by_cases outermost : m'.depth = 0 <;> simp [outermost, Outcome.Ends]
  | stopped why m' => rwa [hm] at h

end

/-! ### Straight symbols -/

/-- The action takes literals, writes, asks, and comes to an end. -/
inductive Action.Straight : Action → Prop where
  | give (value : Word) : Straight (.give value)
  | fail (error : Error) : Straight (.fail error)
  | takeLiteral {next : Option String → Action} (h : ∀ text?, (next text?).Straight) :
      Straight (.takeLiteral next)
  | write {stream : Stream} {bytes : Text.Bytes} {next : Action} (h : next.Straight) :
      Straight (.write stream bytes next)
  | ask {question : Question} {next : question.Answer → Action} (h : ∀ answer, (next answer).Straight) :
      Straight (.ask question next)

/-- Evaluating a symbol of this tag goes forward in the text and nowhere else. -/
def Tag.Straight : Tag Native → Prop
  | .keyword .loop | .keyword .func | .func _ => False
  | .native action _ => ∀ args, (action args).Straight
  | _ => True

/-- The words that can make evaluation go back, or go elsewhere. -/
def windingWords : List String := ["while", "func", "source"]

/-- All natives of the vocabulary are straight, but for one. -/
theorem Builtin.straight_of_mem {entry : String × Nat × Native} (h : entry ∈ Builtin.all)
    (other : entry.1 ≠ "source") (args : List Word) : (entry.2.2 args).Straight :=
  (Requests.of_mem ⟨.give, .takeLiteral, fun _ => .write (.give 0), .ask⟩ h args).resolve_left
    fun source => other source.1

namespace Machine

/-- What is not straight in the table has one of the winding words for its name. -/
def Tame (m : Machine) : Prop :=
  ∀ {i : Nat} {s}, m.arena.symbols[i]? = some s →
    s.tag.Straight ∨ ∃ word ∈ windingWords, s.name = .ofString word

theorem tame_new {options : Options} {m : Machine} (made : Machine.new options = .ok m) : m.Tame := by
  intro i s found
  rw [(new_eq_ok made).1] at found
  rw [List.getElem?_toArray] at found
  obtain ⟨entry, member, rfl⟩ := List.mem_map.mp (List.mem_of_getElem? found)
  simp only [vocabulary, List.mem_append, List.mem_map] at member
  rcases member with (⟨op, -, rfl⟩ | ⟨word, -, rfl⟩) | ⟨builtin, member, rfl⟩
  · exact .inl trivial
  · cases word with
    | loop => exact .inr ⟨"while", by simp [windingWords], rfl⟩
    | func => exact .inr ⟨"func", by simp [windingWords], rfl⟩
    | _ => exact .inl trivial
  · by_cases source : builtin.1 = "source"
    · exact .inr ⟨"source", by simp [windingWords], congrArg Slice.ofString source⟩
    · exact .inl (Builtin.straight_of_mem member source)

end Machine

end Scriptlet
