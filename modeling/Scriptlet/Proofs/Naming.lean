import Scriptlet.Proofs.Reach
import Scriptlet.Proofs.Roster
import Mathlib.Data.List.InsertIdx

/-!
The names of the machines of a roster. Machines are named by hand or by number, and a roster does not
remember which: so what is followed here, beside the roster, is how each of its machines came by its
name. Machines leave, and the count of machines made does not go back; that the numbers of those that
remain increase and stay up to that count is what every request keeps.

So a number is new whenever it is given. A name is just a text, though, and somebody may have used
that text before.
-/

namespace Scriptlet

namespace Roster

/-- How a machine came by its name. -/
inductive Origin
  | given (name : String)
  | numbered (number : Nat)
  deriving DecidableEq

namespace Origin

def name : Origin → String
  | given name => name
  | numbered number => Machine.defaultName ++ number.repr

def number? : Origin → Option Nat
  | given _ => none
  | numbered number => some number

theorem name_numbered_inj {n k : Nat} (h : (numbered n).name = (numbered k).name) : n = k := by
  have digits : n.repr = k.repr := (String.append_right_inj _).mp h
  rw [Nat.repr_eq_ofList_toDigits, Nat.repr_eq_ofList_toDigits, String.ofList_inj] at digits
  rw [← Nat.ofDigitChars_toDigits (b := 10) (n := n) (by decide) (by decide), digits,
    Nat.ofDigitChars_toDigits (by decide) (by decide)]

theorem mem_numbers {origins : List Origin} {n : Nat} :
    n ∈ origins.filterMap number? ↔ numbered n ∈ origins := by
  rw [List.mem_filterMap]
  constructor
  · rintro ⟨o, mem, number⟩
    cases o with
    | given name => cases number
    | numbered k =>
      cases number
      exact mem
  · exact fun mem => ⟨_, mem, rfl⟩

end Origin

/-- How a machine to be made with some options comes by its name. -/
def origin (g : Roster) (options : Options) : Origin :=
  match options.name with
  | some name => .given name
  | none => .numbered (g.made + 1)

/-- How the machines of a roster came by their names, after a request, if before it was as told. -/
def originsAfter (g : Roster) (origins : List Origin) (r : Request) : List Origin :=
  match g.answer r, r with
  | .error _, _ => origins
  | .ok _, .add options => origins ++ [g.origin options]
  | .ok _, .select _ => origins
  | .ok _, .remove index => origins.eraseIdx index

/-- How the machines of a roster came by their names, after some requests. -/
def originsAfterAll (g : Roster) (origins : List Origin) : List Request → List Origin
  | [] => origins
  | r :: requests => (g.after r).originsAfterAll (g.originsAfter origins r) requests

/-- The name of a machine that is made, by its origin. -/
theorem name_origin (g : Roster) (options : Options) :
    (g.origin options).name = options.name.getD g.generatedName := by
  unfold origin
  cases options.name <;> rfl

/-! ### What every request keeps -/

structure Named (g : Roster) (origins : List Origin) : Prop where
  names : g.names = origins.map Origin.name
  /-- Later machines have larger numbers. -/
  increasing : (origins.filterMap Origin.number?).Pairwise (· < ·)
  /-- No number is beyond the count of machines made. -/
  counted : ∀ n, .numbered n ∈ origins → n ≤ g.made

variable {g g' : Roster} {origins : List Origin} {options : Options} {index : Nat} {m : Machine}

theorem named_empty : ({} : Roster).Named [] := ⟨rfl, .nil, by simp⟩

/-- A machine that is made is called what was asked for, or by the next number. -/
theorem name_of_new (made : Machine.new { options with
    name := some (options.name.getD g.generatedName) } = .ok m) :
    m.name = (g.origin options).name := by
  rw [name_origin]
  unfold Machine.new at made
  split at made
  · cases made
    rfl
  · cases made

theorem Named.add (h : g.Named origins) (name : m.name = (g.origin options).name) :
    Named ⟨g.machines ++ [m], g.machines.length, g.made + 1⟩ (origins ++ [g.origin options]) where
  names := by
    have names := h.names
    simp only [Roster.names] at names
    simp [Roster.names, names, name]
  increasing := by
    rw [List.filterMap_append, List.pairwise_append]
    refine ⟨h.increasing, ?_, fun n old k new => ?_⟩
    · cases g.origin options with
      | given name => exact .nil
      | numbered number => exact List.pairwise_singleton _ _
    · have before := h.counted n (Origin.mem_numbers.mp old)
      have now : .numbered k = g.origin options :=
        List.mem_singleton.mp (Origin.mem_numbers.mp new)
      unfold origin at now
      split at now
      · cases now
      · cases now
        omega
  counted n hn := by
    rcases List.mem_append.mp hn with old | new
    · exact Nat.le_succ_of_le (h.counted n old)
    · have now := List.mem_singleton.mp new
      unfold origin at now
      split at now
      · cases now
      · cases now
        exact Nat.le_refl _

theorem Named.remove (h : g.Named origins) (current : Nat) :
    Named ⟨g.machines.eraseIdx index, current, g.made⟩ (origins.eraseIdx index) where
  names := by
    have names := h.names
    simp only [Roster.names] at names ⊢
    rw [← List.eraseIdx_map, names, List.eraseIdx_map]
  increasing := h.increasing.sublist ((List.eraseIdx_sublist origins index).filterMap _)
  counted n hn := h.counted n (List.mem_of_mem_eraseIdx hn)

/-- Every request keeps the names in order, whatever becomes of it. -/
theorem Named.after (h : g.Named origins) (r : Request) :
    (g.after r).Named (g.originsAfter origins r) := by
  unfold originsAfter
  cases hr : g.answer r with
  | error e =>
    rw [after_of_error hr]
    exact h
  | ok g' =>
    rw [after_of_ok hr]
    cases r with
    | add options =>
      obtain ⟨m, made, rfl⟩ := answer_add_eq_ok hr
      exact h.add (name_of_new made)
    | select index =>
      obtain ⟨-, rfl⟩ := answer_select_eq_ok.mp hr
      exact ⟨h.names, h.increasing, h.counted⟩
    | remove index =>
      obtain ⟨-, rfl⟩ := answer_remove_eq_ok.mp hr
      exact h.remove _

theorem Named.afterAll (h : g.Named origins) (requests : List Request) :
    (g.afterAll requests).Named (g.originsAfterAll origins requests) := by
  induction requests generalizing g origins with
  | nil => exact h
  | cons r _ ih => exact ih (h.after r)

/-! ### The next name -/

/-- The next name is taken only where it was given by hand. -/
theorem Named.generatedName_mem (h : g.Named origins) :
    g.generatedName ∈ g.names ↔ .given g.generatedName ∈ origins := by
  rw [h.names, List.mem_map]
  constructor
  · rintro ⟨o, mem, name⟩
    cases o with
    | given text => exact name ▸ mem
    | numbered n =>
      have same : n = g.made + 1 := Origin.name_numbered_inj name
      have counted := h.counted n mem
      omega
  · exact fun mem => ⟨_, mem, rfl⟩

/-- A machine of a name that stands last is found by that name if no other machine has it. -/
theorem find?_append_last (g : Roster) (m : Machine) (current made : Nat) :
    (⟨g.machines ++ [m], current, made⟩ : Roster).find? m.name = some g.machines.length ↔
      m.name ∉ g.names := by
  simp only [find?, names, List.mem_map, not_exists, not_and]
  rw [List.findIdx?_append]
  cases found : g.machines.findIdx? (·.name = m.name) with
  | none =>
    have other := List.findIdx?_eq_none_iff.mp found
    simpa using fun x hx => of_decide_eq_false (other x hx)
  | some i =>
    obtain ⟨there, name, -⟩ := List.findIdx?_eq_some_iff_getElem.mp found
    simp only [Option.some_or, Option.some.injEq]
    constructor
    · intro last
      omega
    · intro other
      exact absurd (of_decide_eq_true name) (other _ (List.getElem_mem there))

/-! ### Every sequence of requests -/

/-- After any requests, refused ones among them: no number was given twice to the machines that are
there, and the next name differs from the names of all of them, unless one was given that very name
by hand. From there on, a machine that is made without a name has the next name, and by that name it
is the one that is found, unless a machine was given that name by hand. -/
theorem generatedName_new (requests : List Request) :
    let g := ({} : Roster).afterAll requests
    let origins := ({} : Roster).originsAfterAll [] requests
    g.names = origins.map Origin.name ∧
      (origins.filterMap Origin.number?).Nodup ∧
      (g.generatedName ∈ g.names ↔ .given g.generatedName ∈ origins) ∧
      ∀ options index g', options.name = none → g.add options = .ok (index, g') →
        g'.names = g.names ++ [g.generatedName] ∧ index = g.machines.length ∧
          (g'.find? g.generatedName = some index ↔ .given g.generatedName ∉ origins) := by
  intro g origins
  have named : g.Named origins := named_empty.afterAll requests
  refine ⟨named.names, named.increasing.imp Nat.ne_of_lt, named.generatedName_mem,
    fun options index g' unnamed added => ?_⟩
  have answered : g.answer (.add options) = .ok g' := by
    simp only [answer, added]
    rfl
  obtain ⟨m, made, rfl⟩ := answer_add_eq_ok answered
  have name : m.name = g.generatedName := by
    rw [name_of_new made, name_origin, unnamed]
    rfl
  have last : index = g.machines.length := by
    simp only [Roster.add, made] at added
    cases added
    rfl
  refine ⟨by simp [Roster.names, name], last, ?_⟩
  rw [last, ← named.generatedName_mem, ← name]
  exact find?_append_last g m _ _

/-- A machine that is made, and what is found in the roster by a name. -/
theorem exists_add {name : String} {found : Option Nat}
    (run : (g.add options).toOption.map (fun made => (made.1, made.2.find? name)) =
      some (index, found)) :
    ∃ g', g.add options = .ok (index, g') ∧ g'.find? name = found := by
  obtain ⟨⟨i, g'⟩, added, same⟩ := Option.map_eq_some_iff.mp run
  cases same
  refine ⟨g', ?_, rfl⟩
  cases h : g.add options with
  | ok made =>
    rw [h] at added
    cases added
    rfl
  | error e =>
    rw [h] at added
    cases added

/-- A second machine is called by number two, and found by that, if the first is called otherwise. -/
theorem generatedName_new_second :
    let g := ({} : Roster).afterAll [.add { name := some "calc" }]
    ∃ g', g.add {} = .ok (1, g') ∧ g'.find? g.generatedName = some 1 := by
  intro g
  have run : (g.add {}).toOption.map (fun made => (made.1, made.2.find? "calc")) = some (1, some 0) := by
    decide +kernel
  obtain ⟨g', added, -⟩ := exists_add run
  have other : .given g.generatedName ∉
      ({} : Roster).originsAfterAll [] [.add { name := some "calc" }] := by
    decide +kernel
  obtain ⟨-, -, -, made⟩ := generatedName_new [.add { name := some "calc" }]
  obtain ⟨-, -, found⟩ := made {} 1 g' rfl added
  exact ⟨g', added, found.mpr other⟩

/-- The next name may be taken: here a machine was given by hand the name that comes next, and the
machine that comes next is not the one that is found by it. -/
theorem generatedName_taken :
    let g := ({} : Roster).afterAll [.add { name := some "pocket2" }]
    g.generatedName ∈ g.names ∧
      ∃ g', g.add {} = .ok (1, g') ∧ g'.find? g.generatedName = some 0 := by
  intro g
  have run : (g.add {}).toOption.map (fun made => (made.1, made.2.find? g.generatedName)) =
      some (1, some 0) := by
    decide +kernel
  exact ⟨by decide +kernel, exists_add run⟩

end Roster

end Scriptlet
