import Scriptlet.Session.Roster
import Mathlib.Data.List.Basic

/-!
The current machine of a roster. Rosters are looked at along sequences of requests, some of them
refused: the index of the current machine is one of the machines as long as there is any, a request
that is refused leaves no trace, and dropping a machine leaves the same machine current, unless that
was the one to go.

A roster keeps an index also when it has no machines. So the invariant is a disjunction, and it is
the only thing that the requests have to keep.
-/

namespace Scriptlet

namespace Roster

inductive Request
  | add (options : Options)
  | select (index : Nat)
  | remove (index : Nat)

def answer (g : Roster) : Request → Except Error Roster
  | .add options => (g.add options).map Prod.snd
  | .select index => g.select index
  | .remove index => g.remove index

def after (g : Roster) (r : Request) : Roster :=
  match g.answer r with
  | .ok g' => g'
  | .error _ => g

def afterAll (g : Roster) (requests : List Request) : Roster := requests.foldl after g

variable {g g' : Roster} {r : Request} {e : Error} {index : Nat} {options : Options}

@[simp] theorem after_of_ok (h : g.answer r = .ok g') : g.after r = g' := by
  unfold after
  rw [h]

@[simp] theorem after_of_error (h : g.answer r = .error e) : g.after r = g := by
  unfold after
  rw [h]

/-! ### What the requests do -/

/-- A machine that is made stands last, is current, and takes a number. -/
theorem answer_add_eq_ok (h : g.answer (.add options) = .ok g') :
    ∃ m, Machine.new { options with name := some (options.name.getD g.generatedName) } = .ok m ∧
      g' = ⟨g.machines ++ [m], g.machines.length, g.made + 1⟩ := by
  simp only [answer, add] at h
  split at h
  · next m made =>
    cases h
    exact ⟨m, made, rfl⟩
  · cases h

/-- Of machines that are there, any can be chosen, and no other. -/
theorem answer_select_eq_ok :
    g.answer (.select index) = .ok g' ↔
      index < g.machines.length ∧ g' = { g with current := index } := by
  simp only [answer, select]
  split
  · next there => simp [there, eq_comm]
  · next beyond => simp [beyond]

/-- Of machines that are there, any can be dropped, and no other. -/
theorem answer_remove_eq_ok :
    g.answer (.remove index) = .ok g' ↔
      index < g.machines.length ∧
        g' = { g with
          machines := g.machines.eraseIdx index
          current :=
            if g.current > index ∨ g.current ≥ (g.machines.eraseIdx index).length then g.current - 1
            else g.current } := by
  simp only [answer, remove]
  split
  · next there => simp [there, eq_comm]
  · next beyond => simp [beyond]

/-! ### The index of the current machine -/

/-- The index of the current machine is one of the machines, if there is any. -/
def Placed (g : Roster) : Prop := g.machines = [] ∨ g.current < g.machines.length

theorem currentIndex?_eq_none : g.currentIndex? = none ↔ g.machines = [] := by
  simp [currentIndex?]

theorem currentIndex?_eq_some : g.currentIndex? = some index ↔ g.machines ≠ [] ∧ g.current = index := by
  simp [currentIndex?]

theorem Placed.lt (h : g.Placed) (hi : g.currentIndex? = some index) : index < g.machines.length := by
  obtain ⟨nonempty, rfl⟩ := currentIndex?_eq_some.mp hi
  exact h.resolve_left nonempty

theorem placed_empty : ({} : Roster).Placed := .inl rfl

/-- Every request keeps the current machine in its place, whatever becomes of the request. -/
theorem Placed.after (h : g.Placed) (r : Request) : (g.after r).Placed := by
  cases hr : g.answer r with
  | error e =>
    rwa [after_of_error hr]
  | ok g' =>
    rw [after_of_ok hr]
    cases r with
    | add options =>
      obtain ⟨m, -, rfl⟩ := answer_add_eq_ok hr
      exact .inr (by simp)
    | select index =>
      obtain ⟨there, rfl⟩ := answer_select_eq_ok.mp hr
      exact .inr there
    | remove index =>
      obtain ⟨there, rfl⟩ := answer_remove_eq_ok.mp hr
      have nonempty : g.machines ≠ [] := List.ne_nil_of_length_pos (by omega)
      have placed : g.current < g.machines.length := h.resolve_left nonempty
      have length := List.length_eraseIdx_of_lt there
      rw [Placed, ← List.length_eq_zero_iff]
      dsimp only
      split <;> omega

theorem Placed.afterAll (h : g.Placed) (requests : List Request) : (g.afterAll requests).Placed := by
  induction requests generalizing g with
  | nil => exact h
  | cons r _ ih => exact ih (h.after r)

/-! ### Dropping a machine -/

/-- What it comes to that a machine is dropped. -/
structure Drops (g : Roster) (index : Nat) (g' : Roster) : Prop where
  /-- The others stay, in their order. -/
  machines : g'.machines = g.machines.eraseIdx index
  /-- No number is given a second time. -/
  made : g'.made = g.made
  /-- A current machine other than the one dropped stays current, where it has moved to. -/
  other : ∀ c, g.currentIndex? = some c → c ≠ index →
    g'.currentIndex? = some (if index < c then c - 1 else c) ∧ g'.current? = g.current?
  /-- For a current machine that is dropped, the next one takes its place. -/
  next : g.currentIndex? = some index → index + 1 < g.machines.length →
    g'.currentIndex? = some index ∧ g'.current? = g.machines[index + 1]?
  /-- If there is no next one, the one that is last now. -/
  last : g.currentIndex? = some index → index + 1 = g.machines.length →
    g'.currentIndex? = (if index = 0 then none else some (index - 1)) ∧
      g'.current? = g'.machines.getLast?

theorem Placed.drops (h : g.Placed) (hr : g.answer (.remove index) = .ok g') : g.Drops index g' := by
  obtain ⟨there, rfl⟩ := answer_remove_eq_ok.mp hr
  have length := List.length_eraseIdx_of_lt there
  refine ⟨rfl, rfl, fun c hc hne => ?_, fun hc hnext => ?_, fun hc hlast => ?_⟩
  · have hlt := h.lt hc
    obtain ⟨-, rfl⟩ := currentIndex?_eq_some.mp hc
    have remaining : g.machines.eraseIdx index ≠ [] := List.ne_nil_of_length_pos (by omega)
    rw [currentIndex?_eq_some]
    simp only [current?, List.getElem?_eraseIdx]
    rcases Nat.lt_or_gt_of_ne hne with before | behind
    · simp [remaining, show ¬(index < g.current) by omega,
        show ¬((g.machines.eraseIdx index).length ≤ g.current) by omega, before]
    · simp [remaining, behind, show ¬(g.current - 1 < index) by omega,
        show g.current - 1 + 1 = g.current by omega]
  · obtain ⟨-, rfl⟩ := currentIndex?_eq_some.mp hc
    have remaining : g.machines.eraseIdx g.current ≠ [] := List.ne_nil_of_length_pos (by omega)
    rw [currentIndex?_eq_some]
    simp [current?, List.getElem?_eraseIdx, remaining,
      show ¬((g.machines.eraseIdx g.current).length ≤ g.current) by omega]
  · obtain ⟨-, rfl⟩ := currentIndex?_eq_some.mp hc
    have moved : (g.machines.eraseIdx g.current).length ≤ g.current := by omega
    have empty : (g.machines.eraseIdx g.current).isEmpty = decide (g.current = 0) := by
      rw [Bool.eq_iff_iff, List.isEmpty_iff, ← List.length_eq_zero_iff, decide_eq_true_iff]
      omega
    simp only [currentIndex?, current?, empty, decide_eq_true_eq, ge_iff_le, moved, or_true, if_true,
      true_and]
    rw [List.getLast?_eq_getElem?, show (g.machines.eraseIdx g.current).length - 1 = g.current - 1 by
      omega]

/-! ### Every sequence of requests -/

/-- After any requests, refused ones among them, the current machine is one of the machines, and
there is one unless there are no machines. From there on: a request that is refused changes nothing,
the next name to be generated included. And every machine can be dropped, the others stay in their
order, the current one stays current, and if that is the one to go, the next takes its place, or else
the last. -/
theorem current_follows (requests : List Request) :
    let g := ({} : Roster).afterAll requests
    (g.currentIndex? = none ↔ g.machines.length = 0) ∧
      (∀ index, g.currentIndex? = some index → index < g.machines.length) ∧
      (∀ r e, g.answer r = .error e → g.after r = g ∧
        ∀ later, (g.afterAll (r :: later)).names = (g.afterAll later).names ∧
          (g.afterAll (r :: later)).generatedName = (g.afterAll later).generatedName) ∧
      ∀ index, index < g.machines.length →
        ∃ g', g.answer (.remove index) = .ok g' ∧ g.Drops index g' := by
  intro g
  have placed : g.Placed := placed_empty.afterAll requests
  refine ⟨?_, fun index => placed.lt, fun r e refused => ?_, fun index there => ?_⟩
  · rw [currentIndex?_eq_none, List.length_eq_zero_iff]
  · have unchanged := after_of_error refused
    refine ⟨unchanged, fun later => ?_⟩
    have same : g.afterAll (r :: later) = g.afterAll later := by
      rw [afterAll, List.foldl_cons, unchanged, afterAll]
    rw [same]
    exact ⟨rfl, rfl⟩
  · have dropped := answer_remove_eq_ok.mpr ⟨there, rfl⟩
    exact ⟨_, dropped, placed.drops dropped⟩

end Roster

end Scriptlet
