import Scriptlet.Proofs.Kept

/-!
What hosts can bring about. A host makes a machine and acts on it like a native that was called from
nowhere; so a host is an action too. Every memory that a machine comes to have is in its history, and a
machine is reachable if its memory is a noted moment there: a host, a native or a script has it in hand.

Two results stand at the end. Slices last as long as their symbols, provided the host is honest. And
scopes are exact, whatever the host does.
-/

namespace Scriptlet

open Eval

/-! ### New machines -/

namespace Machine

def entrySymbol (entry : String × Tag Native) : Symbol Native := ⟨.ofString entry.1, entry.2, 0⟩

/-- A slice that holds its own text reads as that. -/
theorem bytes_ofString (m : Machine) (text : String) : m.bytes (.ofString text) = Text.encode text := by
  show Slice.bytesIn (.ofString text) text.toByteArray.data = _
  have whole : ∀ bytes : Array UInt8, Slice.bytesIn (.ofBytes bytes) bytes = bytes.toList := by
    intro bytes
    simp [Slice.bytesIn, Slice.ofBytes, Slice.stop]
  exact whole text.toByteArray.data

theorem foldlM_addSymbol {entries : List (String × Tag Native)} {a b : Arena Native}
    (h : entries.foldlM (fun arena entry =>
      (arena.addSymbol (.ofString entry.1) entry.2 0).map Prod.snd) a = some b) :
    b = { a with symbols := a.symbols ++ (entries.map entrySymbol).toArray } := by
  induction entries generalizing a with
  | nil =>
    cases h
    simp
  | cons entry rest ih =>
    rw [List.foldlM_cons] at h
    obtain ⟨a₁, first, h⟩ := Option.bind_eq_some_iff.mp h
    obtain ⟨added, granted, hadded⟩ := Option.map_eq_some_iff.mp first
    obtain ⟨-, -, hsymbols⟩ := Arena.addSymbol_eq_some granted
    rw [hadded] at hsymbols
    rw [ih h, hsymbols]
    simp [entrySymbol]

/-- A new machine of which something was computed. -/
theorem exists_new {α : Type} {options : Options} {f : Machine → α} {a : α}
    (run : (Machine.new options).toOption.map f = some a) :
    ∃ m, Machine.new options = .ok m ∧ f m = a := by
  obtain ⟨m, made, computed⟩ := Option.map_eq_some_iff.mp run
  refine ⟨m, ?_, computed⟩
  cases h : Machine.new options with
  | ok m' =>
    rw [h] at made
    cases made
    rfl
  | error e =>
    rw [h] at made
    cases made

/-- A new machine has the vocabulary for its table, and nothing else in memory. -/
theorem new_eq_ok {options : Options} {m : Machine} (h : Machine.new options = .ok m) :
    m.arena = { (Arena.ofSize options.arenaSize : Arena Native) with
      symbols := (vocabulary.map entrySymbol).toArray } ∧ m.texts = {} ∧
      ∀ l, m.history l ↔ l = [⟨m.memory, true⟩] := by
  unfold Machine.new at h
  split at h
  · next arena made =>
    cases h
    unfold initialArena? at made
    have table : arena = _ := foldlM_addSymbol made
    refine ⟨table.trans (by simp [Arena.ofSize]), rfl, fun l => ?_⟩
    simp [Machine.note, History.add, History.empty, Machine.memory]
  · cases h

end Machine

/-! ### The tags of the table -/

/-- All symbols of the table have tags with the property. -/
def Arena.EveryTag (P : Tag Native → Prop) (a : Arena Native) : Prop :=
  ∀ ⦃i : Nat⦄ ⦃s⦄, a.symbols[i]? = some s → P s.tag

namespace Arena.EveryTag

variable {P : Tag Native → Prop} {a : Arena Native} (h : a.EveryTag P)

include h

theorem addSymbol {a' : Arena Native} {name : Slice} {tag : Tag Native} {value : Word} {index : Nat}
    (granted : a.addSymbol name tag value = some (index, a')) (htag : P tag) : a'.EveryTag P := by
  obtain ⟨-, -, rfl⟩ := Arena.addSymbol_eq_some granted
  intro i s found
  rw [Array.getElem?_push] at found
  split at found
  · cases found
    exact htag
  · exact h found

theorem rollback (count : Nat) : (a.rollback count).EveryTag P := by
  intro i s found
  change (a.symbols.take count)[i]? = some s at found
  rw [Array.take_eq_extract, Array.getElem?_extract] at found
  split at found
  · exact h (by simpa using found)
  · cases found

theorem setValue (index : Nat) (value : Word) : (a.setValue index value).EveryTag P := by
  intro i s found
  change (a.symbols.modify index _)[i]? = some s at found
  rw [Array.getElem?_modify] at found
  split at found
  · obtain ⟨s', found', rfl⟩ := Option.map_eq_some_iff.mp found
    have known := h found'
    exact known
  · exact h found

end Arena.EveryTag

/-! ### The natives of the vocabulary -/

namespace Builtin

/-- The property holds of what the natives of the vocabulary request, files apart. -/
structure Requests (P : Action → Prop) : Prop where
  give : ∀ value, P (.give value)
  takeLiteral : ∀ {next}, (∀ text?, P (next text?)) → P (.takeLiteral next)
  print : ∀ bytes, P (.write .out bytes (.give 0))
  ask : ∀ {question : Question} {next : question.Answer → Action}, (∀ answer, P (next answer)) →
    P (.ask question next)

namespace Requests

variable {P : Action → Prop} (h : Requests P)

include h

theorem takeLiteralFor {word : Word} {next : Option String → Action}
    (hnext : ∀ text?, P (next text?)) : P (takeLiteralFor word next) := by
  unfold Builtin.takeLiteralFor
  split
  · exact h.takeLiteral hnext
  · exact hnext none

/-- One native of the vocabulary evaluates files, and the others have the property. -/
theorem of_mem {entry : String × Nat × Native} (hentry : entry ∈ all) (args : List Word) :
    entry.1 = "source" ∧ entry.2.2 = source ∨ P (entry.2.2 args) := by
  simp only [all, List.mem_cons, List.not_mem_nil, or_false] at hentry
  rcases hentry with rfl | rfl | rfl | rfl | rfl | rfl
  · refine .inr ?_
    change P (Builtin.print args)
    exact h.takeLiteralFor fun _ => h.print _
  · refine .inr ?_
    change P (putc args)
    exact h.takeLiteralFor fun _ => h.print _
  · refine .inr ?_
    change P (fileExists args)
    refine h.takeLiteralFor fun text? => ?_
    cases text? with
    | some path => exact h.ask fun _ => h.give _
    | none => exact h.give 0
  · exact .inl ⟨rfl, rfl⟩
  · refine .inr ?_
    change P (rand args)
    unfold rand
    dsimp only
    split
    · exact h.give 0
    · exact h.ask fun _ => h.give _
  · exact .inr (h.ask fun _ => h.give _)

/-- All natives of the vocabulary have the property, if it also holds of evaluating a file and passing
its error on. -/
theorem of_mem_all (file : ∀ path, P (.evalFile path (Action.orFail fun _ => .give 0)))
    (fail : ∀ error, P (.fail error)) {entry : String × Nat × Native} (hentry : entry ∈ all)
    (args : List Word) : P (entry.2.2 args) := by
  rcases h.of_mem hentry args with ⟨-, isSource⟩ | property
  · rw [isSource]
    refine h.takeLiteralFor fun text? => ?_
    cases text? with
    | some path => exact file path
    | none => exact fail _
  · exact property

end Requests

theorem honest_of_mem {entry : String × Nat × Native} (h : entry ∈ all) (args : List Word) :
    (entry.2.2 args).Honest := by
  refine Requests.of_mem_all ⟨.give, .takeLiteral, fun _ => .write (.give 0), .ask⟩ (fun path => ?_)
    .fail h args
  refine .evalFile fun ended => ?_
  cases ended with
  | ok _ => exact .give 0
  | error e => exact .fail e

end Builtin

/-- The natives of the table are those every machine starts with. -/
def Machine.OnlyBuiltins (m : Machine) : Prop :=
  ∀ ⦃i : Nat⦄ ⦃s native arity⦄, m.arena.symbols[i]? = some s → s.tag = .native native arity →
    ∃ entry ∈ Builtin.all, native = entry.2.2

def Tag.Initial (tag : Tag Native) : Prop :=
  ∀ ⦃native arity⦄, tag = .native native arity → ∃ entry ∈ Builtin.all, native = entry.2.2

theorem onlyBuiltins_iff {m : Machine} : m.OnlyBuiltins ↔ m.arena.EveryTag Tag.Initial :=
  ⟨fun h _ _ found _ _ htag => h found htag, fun h _ _ _ _ found htag => h found htag⟩

theorem onlyBuiltins_new {options : Options} {m : Machine} (made : Machine.new options = .ok m) :
    m.OnlyBuiltins := by
  intro i s native arity found htag
  rw [(Machine.new_eq_ok made).1] at found
  have hmem : s ∈ Machine.vocabulary.map Machine.entrySymbol := by
    simpa using Array.mem_of_getElem? found
  obtain ⟨entry, hentry, rfl⟩ := List.mem_map.mp hmem
  simp only [Machine.vocabulary, List.mem_append, List.mem_map] at hentry
  rcases hentry with (⟨op, -, rfl⟩ | ⟨word, -, rfl⟩) | ⟨builtin, hbuiltin, rfl⟩
  · cases htag
  · cases htag
  · cases htag
    exact ⟨builtin, hbuiltin, rfl⟩

namespace Machine

theorem vocabulary_not_func {entry : String × Tag Native} (h : entry ∈ vocabulary) (arity : Nat) :
    entry.2 ≠ .func arity := by
  simp only [vocabulary, List.mem_append, List.mem_map] at h
  rcases h with (⟨op, -, rfl⟩ | ⟨word, -, rfl⟩) | ⟨builtin, -, rfl⟩ <;> exact fun h => by cases h

theorem vocabulary_honest {entry : String × Tag Native} (h : entry ∈ vocabulary) {native : Native}
    {arity : Nat} (htag : entry.2 = .native native arity) (args : List Word) :
    (native args).Honest := by
  simp only [vocabulary, List.mem_append, List.mem_map] at h
  rcases h with (⟨op, -, rfl⟩ | ⟨word, -, rfl⟩) | ⟨builtin, hmem, rfl⟩
  · cases htag
  · cases htag
  · cases htag
    exact Builtin.honest_of_mem hmem args

theorem sound_new {whole : Bool} {options : Options} {m : Machine}
    (fits : options.arenaSize < UInt64.size) (h : Machine.new options = .ok m) : m.Sound whole := by
  obtain ⟨harena, htexts, hhistory⟩ := new_eq_ok h
  have intact : ∀ whole, m.memory.Intact whole := by
    intro whole
    refine ⟨fun {i s} found => ?_, fun {i routine} found => ?_, fun _ => ?_⟩
    · change m.arena.symbols[i]? = some s at found
      rw [harena] at found
      have hmem : s ∈ vocabulary.map entrySymbol := by
        simpa using Array.mem_of_getElem? found
      obtain ⟨entry, hentry, rfl⟩ := List.mem_map.mp hmem
      exact Memory.admits_of_name trivial (fun _ => vocabulary_not_func hentry)
        fun _ {_ _} htag => vocabulary_honest hentry htag
    · change m.arena.routines[i]? = some routine at found
      rw [harena] at found
      cases found
    · change Memory.Budgeted m.arena
      rw [harena]
      exact ⟨Nat.zero_le _, Nat.zero_le _, fits⟩
  refine ⟨intact whole, [⟨m.memory, true⟩], hhistory, fun x hx _ i s found => ?_,
    fun _ => ⟨_, _, rfl, rfl⟩, fun _ x hx => ?_, fun _ => .singleton _⟩
  · cases List.mem_singleton.mp hx
    exact ((intact false).symbols found).held _ (Memory.name_mem_tracked _ _ _)
  · cases List.mem_singleton.mp hx
    exact intact true

/-! ### Reachable machines -/

/-- The machine is what a host leaves that has made a new machine and acted on it, in some world and
on some budget. Sizes are numbers of 64 bits. -/
def LeftBy (host : Action) (m : Machine) : Prop :=
  ∃ options start world fuel, options.arenaSize < UInt64.size ∧ Machine.new options = .ok start ∧
    m = (host.perform (.ofFuel world fuel) start).machine

/-- A host, a native or a script has a machine with this memory in hand. -/
def Reachable (m : Machine) : Prop :=
  ∃ host after life, LeftBy host after ∧ after.note.history life ∧ ⟨m.memory, true⟩ ∈ life

theorem LeftBy.sound {whole : Bool} {host : Action} {m : Machine} (h : LeftBy host m)
    (honest : whole = true → host.Honest) : m.Sound whole := by
  obtain ⟨options, start, world, fuel, fits, made, rfl⟩ := h
  have started : start.Sound whole := sound_new fits made
  exact (outer_perform (inner_ofFuel whole world fuel).2 honest start started).sound

theorem LeftBy.reachable {host : Action} {m : Machine} (h : LeftBy host m) : m.Reachable := by
  have sound : m.Sound false := h.sound fun h => by cases h
  obtain ⟨life, hlife, -⟩ := sound.told
  exact ⟨host, m, ⟨m.memory, true⟩ :: life, h, ⟨life, (hlife life).mpr rfl, rfl⟩, List.mem_cons_self⟩

/-- The names in the table of a reachable machine are held. -/
theorem Reachable.holds {m : Machine} (h : m.Reachable) {i : Nat} {s : Symbol Native}
    (found : m.arena.symbols[i]? = some s) : m.memory.Holds s.name := by
  obtain ⟨host, after, life, left, hlife, hmem⟩ := h
  have sound : after.note.Sound false := (left.sound fun h => by cases h).note
  obtain ⟨life', hlife', told⟩ := sound.told
  cases (hlife' life).mp hlife
  exact told.names _ hmem rfl found

end Machine

/-- A host that has a text define a function, and another, which takes the same slot, call it. -/
def twoTextHost : Action :=
  .evalText "func f(x) \x7b return x \x7d" true true fun _ =>
    .evalText "var y = f(2)" false true fun _ => .give 0

theorem leftBy_twoTextHost : ∃ m, Machine.LeftBy twoTextHost m ∧ m.arena.symbols.size = 29 := by
  have run : ((Machine.new {}).toOption.map fun start =>
      (twoTextHost.perform (.ofFuel (fun _ _ => none) 20) start).machine.arena.symbols.size) =
      some 29 := by
    decide +kernel
  obtain ⟨start, made, size⟩ := Machine.exists_new run
  exact ⟨_, ⟨{}, start, fun _ _ => none, 20, by decide, made, rfl⟩, size⟩

/-! ### Slices last -/

/-- What is carried from each moment to the next is the same at all of them. -/
theorem readings_of_isChain {stretch : List Moment} {i : Nat}
    (carried : stretch.IsChain fun newer older => older.toMemory.Carries newer.toMemory)
    (present : ∀ x ∈ stretch, i < x.arena.symbols.size) {x : Moment} (hx : x ∈ stretch)
    {y : Moment} (hy : y ∈ stretch) : x.readings i = y.readings i := by
  have head : ∀ {stretch : List Moment} {x : Moment},
      (x :: stretch).IsChain (fun newer older => older.toMemory.Carries newer.toMemory) →
      (∀ z ∈ x :: stretch, i < z.arena.symbols.size) → ∀ y ∈ x :: stretch,
      x.readings i = y.readings i := by
    intro stretch
    induction stretch with
    | nil =>
      intro x _ _ y hy
      rw [List.mem_singleton.mp hy]
    | cons z rest ih =>
      intro x carried present y hy
      obtain ⟨carries, carried⟩ := List.isChain_cons_cons.mp carried
      have step : x.readings i = z.readings i :=
        carries (present z (by simp)) (present x (by simp))
      rcases List.mem_cons.mp hy with rfl | hy
      · rfl
      · exact step.trans (ih carried (fun w hw => present w (List.mem_cons_of_mem _ hw)) y hy)
  cases stretch with
  | nil => cases hx
  | cons z rest => exact (head carried present x hx).symm.trans (head carried present y hy)

/-- Slices last as long as their symbols. Take the life of any machine that an honest host has left,
moment by moment, where every change of memory is a moment and every look of a native too. At each of
them no slice of a symbol dangles, and a function has a routine. Over any stretch during which a symbol
is in the table, its name, and if it is a function its parameter names and its body, are the same
slices all the time and read the same all the time. -/
theorem slices_last {host : Action} {m : Machine} (honest : host.Honest)
    (left : Machine.LeftBy host m) :
    ∃ life : List Moment, (∀ l, m.history l ↔ l = life) ∧
      (∃ x before, life = x :: before ∧ x.toMemory = m.memory) ∧
      (∀ x ∈ life, ∀ (i : Nat) s, x.arena.symbols[i]? = some s → (∀ slice ∈ x.slices s, x.Holds slice) ∧
        ∀ arity, s.tag = .func arity → ∃ routine, x.routine? s.value = some routine) ∧
      ∀ stretch, stretch <:+: life → ∀ i : Nat, (∀ x ∈ stretch, i < x.arena.symbols.size) →
        ∀ x ∈ stretch, ∀ y ∈ stretch, x.readings i = y.readings i := by
  have sound : m.Sound true := left.sound fun _ => honest
  obtain ⟨life, hlife, told⟩ := sound.told
  refine ⟨life, hlife, told.latest rfl, fun x hx i s found => ?_,
    fun stretch hstretch i present x hx y hy => ?_⟩
  · have admits := (told.intact rfl x hx).symbols found
    exact ⟨admits.held, fun _ htag => admits.described rfl htag⟩
  · obtain ⟨later, earlier, rfl⟩ := hstretch
    have carried := (told.carried rfl).left_of_append.right_of_append
    exact readings_of_isChain carried present hx hy

theorem slices_last_of_twoTextHost :
    twoTextHost.Honest ∧ ∃ m, Machine.LeftBy twoTextHost m ∧ m.arena.symbols.size = 29 ∧
      ∃ life : List Moment, (∀ l, m.history l ↔ l = life) ∧
        ∀ stretch, stretch <:+: life → ∀ i : Nat, (∀ x ∈ stretch, i < x.arena.symbols.size) →
          ∀ x ∈ stretch, ∀ y ∈ stretch, x.readings i = y.readings i := by
  have honest : twoTextHost.Honest := .evalText fun _ => .evalText fun _ => .give 0
  obtain ⟨m, left, size⟩ := leftBy_twoTextHost
  obtain ⟨life, hlife, -, -, same⟩ := slices_last honest left
  exact ⟨honest, m, left, size, life, hlife, same⟩

/-! ### Scopes are exact -/

/-- The old table is where it was at the start of the new one: the symbols have their names, which read
as before, their tags, and their values unless they are variables; and among them, lookups find what
they found. -/
structure Continues (m m' : Machine) : Prop where
  symbols : ∀ {i : Nat} {s}, m.arena.symbols[i]? = some s →
    ∃ s', m'.arena.symbols[i]? = some s' ∧ s.Lasts s' ∧ m'.bytes s'.name = m.bytes s.name
  lookup : ∀ name, m'.newestBelow? name m.arena.symbols.size = m.index? name

/-- The tables are the same, up to the values of variables. -/
structure SameTable (m m' : Machine) : Prop extends Continues m m' where
  size : m'.arena.symbols.size = m.arena.symbols.size
  index? : ∀ name, m'.index? name = m.index? name

/-- Where names are held, growing memory continues the table. -/
theorem Grows.continues {m m' : Machine} (g : Grows m m')
    (held : ∀ {i : Nat} {s}, m.arena.symbols[i]? = some s → m.memory.Holds s.name) :
    Continues m m' := by
  have symbols : ∀ {i : Nat} {s}, m.arena.symbols[i]? = some s →
      ∃ s', m'.arena.symbols[i]? = some s' ∧ s.Lasts s' ∧ m'.bytes s'.name = m.bytes s.name := by
    intro i s found
    obtain ⟨s', found', lasts⟩ := g.symbols found
    refine ⟨s', found', lasts, ?_⟩
    rw [lasts.name]
    exact g.bytes (held found)
  refine ⟨symbols, fun name => ?_⟩
  have below : ∀ count ≤ m.arena.symbols.size,
      m'.newestBelow? name count = m.newestBelow? name count := by
    intro count
    induction count with
    | zero => exact fun _ => rfl
    | succ count ih =>
      intro hcount
      have found := Array.getElem?_eq_getElem (Nat.lt_of_succ_le hcount)
      obtain ⟨s', found', -, same⟩ := symbols found
      rw [Machine.newestBelow?_succ name found, Machine.newestBelow?_succ name found', same,
        ih (Nat.le_of_succ_le hcount)]
  exact below _ (Nat.le_refl _)

theorem Continues.sameTable {m m' : Machine} (h : Continues m m')
    (size : m'.arena.symbols.size = m.arena.symbols.size) : SameTable m m' :=
  ⟨h, size, fun name => by rw [← h.lookup name, ← size]; rfl⟩

/-- Scopes are exact. On a reachable machine, whatever an evaluation does and however it ends, a body or
a text that is not at the top level leaves the table as it was, a call of a function leaves the table
and the result as they were, and at the top level the old table is continued. -/
theorem scopes_exact {m : Machine} (reachable : m.Reachable) (world : World) (fuel : Nat) :
    (∀ body duplicate, SameTable m (evalBody world fuel body false duplicate m).machine) ∧
      (∀ text duplicate, SameTable m (evalText world fuel text duplicate false m).machine) ∧
      (∀ number args,
        SameTable m (Call.runFunction (.ofFuel world fuel) number args m).machine ∧
        (Call.runFunction (.ofFuel world fuel) number args m).machine.result = m.result) ∧
      (∀ body duplicate, Continues m (evalBody world fuel body true duplicate m).machine) ∧
      ∀ text duplicate, Continues m (evalText world fuel text duplicate true m).machine := by
  have continued : ∀ {m'}, Grows m m' → Continues m m' := fun g => g.continues reachable.holds
  have body := (grows_ofFuel world fuel).2
  have text := expanding_grows.text (r := .ofFuel world fuel) body
  refine ⟨fun b d => ?_, fun t d => ?_, fun n args => ?_, fun b d => ?_, fun t d => ?_⟩
  · exact (continued (body b false d m)).sameTable (size_evalBody world fuel b d m)
  · exact (continued (text t d false m)).sameTable (size_evalText world fuel t d m)
  · obtain ⟨size, result⟩ := runFunction_exact world fuel n args m
    exact ⟨(continued (expanding_grows.runFunction (r := .ofFuel world fuel) body n args m)).sameTable size,
      result⟩
  · exact continued (body b true d m)
  · exact continued (text t d true m)

/-- A script with a variable and a function of its own, on the machine that the two texts leave. -/
theorem scopes_exact_of_twoTextHost :
    ∃ m : Machine, m.Reachable ∧ m.arena.symbols.size = 29 ∧
      SameTable m (evalText (fun _ _ => none) 20 "y = 3 ; var z = y / 0" true false m).machine ∧
      Continues m (evalText (fun _ _ => none) 20 "var z = f(y) ; z = z / 0" true true m).machine := by
  obtain ⟨m, left, size⟩ := leftBy_twoTextHost
  have reachable := left.reachable
  obtain ⟨-, nested, -, -, top⟩ := scopes_exact reachable (fun _ _ => none) 20
  exact ⟨m, reachable, size, nested _ _, top _ _⟩

end Scriptlet
