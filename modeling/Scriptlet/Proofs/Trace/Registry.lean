import Scriptlet.Proofs.Reach
import Scriptlet.Proofs.Trace.Grounded

/-!
Symbols that can be called. A call takes its arguments from a few registers, and a function's value is
the number of its routine; neither is looked at when a symbol is defined and again when it is called.
`Memory.Orderly` says that every symbol of the table is fit to be called as its tag tells, and
`Ledger` that it was so at every moment of a machine's life. Evaluation keeps this, provided natives
and hosts leave it to scripts to define functions: a number that a host made up is no routine's.
-/

namespace Scriptlet

open Eval

namespace Memory

variable {a b : Memory} {s s' : Symbol Native}

/-- A symbol can be called as its tag tells. -/
structure Enrolled (x : Memory) (s : Symbol Native) : Prop where
  fits : ∀ {arity}, s.tag.arity? = some arity → arity ≤ maxArguments
  described : ∀ {arity}, s.tag = .func arity →
    ∃ routine, x.routine? s.value = some routine ∧ routine.params.length = arity
  honest : ∀ {native arity}, s.tag = .native native arity → ∀ args, (native args).Honest

/-- Every symbol of the table can be called as its tag tells. -/
structure Orderly (x : Memory) : Prop where
  symbols : ∀ {i : Nat} {s}, x.arena.symbols[i]? = some s → x.Enrolled s
  budget : Budgeted x.arena

theorem Enrolled.grows (h : a.Enrolled s) (g : a.Grows b) (l : s.Lasts s') : b.Enrolled s' where
  fits htag := h.fits (l.tag ▸ htag)
  described {arity} htag := by
    have htag' : s.tag = .func arity := l.tag ▸ htag
    obtain ⟨routine, found, length⟩ := h.described htag'
    refine ⟨routine, ?_, length⟩
    rw [l.func_value htag']
    exact g.routine? found
  honest htag := h.honest (l.tag ▸ htag)

/-- A variable is not called at all. -/
theorem enrolled_var (x : Memory) (name : Slice) (value : Word) : x.Enrolled ⟨name, .var, value⟩ where
  fits h := by cases h
  described h := by cases h
  honest h := by cases h

theorem Orderly.grows (h : a.Orderly) (g : a.Grows b)
    (new : ∀ {i : Nat} {s}, a.arena.symbols.size ≤ i → b.arena.symbols[i]? = some s → b.Enrolled s)
    (budget : Budgeted b.arena) : b.Orderly where
  symbols {i s} found := by
    by_cases hi : i < a.arena.symbols.size
    · obtain ⟨s', found', lasts⟩ := g.symbols (Array.getElem?_eq_getElem hi)
      rw [found] at found'
      cases found'
      exact (h.symbols (Array.getElem?_eq_getElem hi)).grows g lasts
    · exact new (Nat.le_of_not_lt hi) found
  budget := budget

theorem Orderly.grows_of_size (h : a.Orderly) (g : a.Grows b)
    (size : b.arena.symbols.size = a.arena.symbols.size) (budget : Budgeted b.arena) :
    b.Orderly := by
  refine h.grows g (fun hi found => ?_) budget
  obtain ⟨inside, -⟩ := Array.getElem?_eq_some_iff.mp found
  omega

theorem Orderly.stack (h : a.Orderly) (stack : Array Word) :
    Orderly ⟨{ a.arena with stack }, a.texts⟩ :=
  h.grows_of_size (.of_eq rfl rfl rfl rfl) rfl ⟨h.budget.charged, h.budget.fits, h.budget.small⟩

theorem Orderly.setValue (h : a.Orderly) {index : Nat} (found : a.arena.symbols[index]? = some s)
    (hvar : s.tag = .var) (value : Word) : Orderly ⟨a.arena.setValue index value, a.texts⟩ :=
  h.grows_of_size ((Grows.refl a).setValue found hvar value) (Array.size_modify ..)
    ⟨h.budget.charged, h.budget.fits, h.budget.small⟩

theorem Orderly.addBytes (h : a.Orderly) {bytes : Text.Bytes} {slice : Slice} {arena : Arena Native}
    (granted : a.arena.addBytes bytes = some (slice, arena)) : Orderly ⟨arena, a.texts⟩ := by
  refine h.grows_of_size (.addBytes granted) ?_ (h.budget.addBytes granted)
  obtain ⟨-, -, rfl⟩ := Arena.addBytes_eq_some granted
  rfl

theorem Orderly.addRoutine (h : a.Orderly) {routine : Routine} {number : Nat} {arena : Arena Native}
    (granted : a.arena.addRoutine routine = some (number, arena)) : Orderly ⟨arena, a.texts⟩ := by
  refine h.grows_of_size (.addRoutine granted) ?_ (h.budget.addRoutine granted)
  obtain ⟨-, -, rfl⟩ := Arena.addRoutine_eq_some granted
  rfl

theorem Orderly.addSymbol (h : a.Orderly) {name : Slice} {tag : Tag Native} {value : Word}
    {index : Nat} {arena : Arena Native}
    (granted : a.arena.addSymbol name tag value = some (index, arena))
    (enrolled : a.Enrolled ⟨name, tag, value⟩) : Orderly ⟨arena, a.texts⟩ := by
  have g : a.Grows ⟨arena, a.texts⟩ := .addSymbol granted
  obtain ⟨-, -, rfl⟩ := Arena.addSymbol_eq_some granted
  refine h.grows g (fun {i s} hi found => ?_) ⟨h.budget.charged, h.budget.fits, h.budget.small⟩
  change (a.arena.symbols.push ⟨name, tag, value⟩)[i]? = some s at found
  rw [Array.getElem?_push] at found
  split at found
  · cases found
    exact enrolled.grows g (.refl _)
  · obtain ⟨inside, -⟩ := Array.getElem?_eq_some_iff.mp found
    omega

theorem Orderly.rollback (h : a.Orderly) (count : Nat) :
    Orderly ⟨a.arena.rollback count, a.texts⟩ where
  symbols {i s} found := by
    have found' : a.arena.symbols[i]? = some s := by
      change (a.arena.symbols.take count)[i]? = some s at found
      rw [Array.take_eq_extract, Array.getElem?_extract, Nat.zero_add] at found
      split at found
      · exact found
      · cases found
    have enrolled := h.symbols found'
    exact ⟨enrolled.fits, enrolled.described, enrolled.honest⟩
  budget := ⟨h.budget.charged, h.budget.fits, h.budget.small⟩

theorem Orderly.withTexts (h : a.Orderly) (texts : Texts) : Orderly ⟨a.arena, texts⟩ where
  symbols found :=
    ⟨(h.symbols found).fits, (h.symbols found).described, (h.symbols found).honest⟩
  budget := h.budget

end Memory

/-! ### A whole life -/

/-- The table is in order, and has always been. -/
structure Ledger (m : Machine) : Prop where
  now : m.memory.Orderly
  always : ∃ life, (∀ l, m.history l ↔ l = life) ∧ ∀ x ∈ life, x.toMemory.Orderly

theorem Ledger.add {m n : Machine} {noted : Bool} (h : Ledger m) (orderly : n.memory.Orderly)
    (hn : n.history = m.history.add ⟨n.memory, noted⟩) : Ledger n := by
  obtain ⟨life, hlife, kept⟩ := h.always
  refine ⟨orderly, ⟨n.memory, noted⟩ :: life, fun l => ?_, fun x hx => ?_⟩
  · simp [hn, History.add, hlife]
  · rcases List.mem_cons.mp hx with rfl | hx
    · exact orderly
    · exact kept x hx

/-- Memory has grown, also in between, and a table that was in order is in order. -/
structure Books (m m' : Machine) : Prop where
  meanwhile : Meanwhile m m'
  ledger : Ledger m → Ledger m'

theorem books_track : Track Books where
  refl m := ⟨.refl m, id⟩
  trans h k := ⟨expanding_meanwhile.trans h.meanwhile k.meanwhile, k.ledger ∘ h.ledger⟩

namespace Books

variable {m m' : Machine}

theorem grows (h : Books m m') : Grows m m' := h.meanwhile.grows

theorem elsewhere (hmemory : m'.memory = m.memory) (hhistory : m'.history = m.history) :
    Books m m' := by
  refine ⟨expanding_meanwhile.elsewhere hmemory hhistory, fun h => ⟨hmemory ▸ h.now, ?_⟩⟩
  rw [hhistory]
  exact h.always

theorem note (m : Machine) : Books m m.note :=
  ⟨expanding_meanwhile.note m, fun h => h.add (n := m.note) h.now rfl⟩

theorem withArena {arena : Arena Native} (h : Books m m') (g : m.memory.Grows ⟨arena, m'.texts⟩)
    (orderly : Ledger m → Ledger m' → Memory.Orderly ⟨arena, m'.texts⟩) :
    Books m (m'.withArena arena) :=
  ⟨expanding_meanwhile.withArena h.meanwhile g,
    fun l => (h.ledger l).add (n := m'.withArena arena) (orderly l (h.ledger l)) rfl⟩

theorem withTexts {texts : Texts} (h : Books m m') (g : m.memory.Grows ⟨m'.arena, texts⟩) :
    Books m (m'.withTexts texts) :=
  ⟨expanding_meanwhile.withTexts h.meanwhile g,
    fun l => (h.ledger l).add (n := m'.withTexts texts) ((h.ledger l).now.withTexts texts) rfl⟩

end Books

/-! ### Units -/

theorem books_write (stream : Stream) (bytes : Text.Bytes) : Keeps Books (Eval.write stream bytes) :=
  fun _ => .elsewhere rfl rfl

theorem books_addBytes {m : Machine} {bytes : Text.Bytes} {slice : Slice} {arena : Arena Native}
    (granted : m.arena.addBytes bytes = some (slice, arena)) : Books m (m.withArena arena) :=
  (books_track.refl m).withArena (.addBytes granted) fun _ l => l.now.addBytes granted

theorem books_addSymbol {m : Machine} {name : Slice} {tag : Tag Native} {value : Word} {index : Nat}
    {arena : Arena Native} (granted : m.arena.addSymbol name tag value = some (index, arena))
    (enrolled : Ledger m → m.memory.Enrolled ⟨name, tag, value⟩) : Books m (m.withArena arena) :=
  (books_track.refl m).withArena (.addSymbol granted) fun _ l => l.now.addSymbol granted (enrolled l)

/-- A host defines what takes no more arguments than a call can pass. -/
theorem books_define {name : String} {tag : Tag Native} {value : Word}
    (hfunc : ∀ arity, tag ≠ .func arity)
    (hnative : ∀ native arity, tag = .native native arity → ∀ args, (native args).Honest) :
    Keeps Books (define name tag value) := by
  unfold define
  split
  · exact books_track.still (still_fail _)
  · next room =>
    refine books_track.bind
      (fun m => related_allocate books_track fun _ _ granted => books_addBytes granted)
      fun slice m => related_allocate books_track fun _ _ granted => ?_
    refine books_addSymbol granted fun _ => ⟨fun {arity} htag => ?_, fun {arity} htag => ?_,
      fun {native arity} htag => hnative native arity htag⟩
    · change tag.arity? = some arity at htag
      rw [htag] at room
      exact Nat.le_of_not_lt room
    · exact absurd htag (hfunc arity)

theorem books_bindParameters (bindings : List (Slice × Word)) :
    Keeps Books (Call.bindParameters bindings) :=
  books_track.bindParameters (fun _ _ => books_track.allocate fun granted =>
    books_addSymbol granted fun _ => Memory.enrolled_var _ _ _) bindings

theorem Books.rollback {m m' : Machine} (h : Books m m') :
    Books m (m'.withArena (m'.arena.rollback m.arena.symbols.size)) :=
  h.withArena h.grows.rollback fun _ l => l.now.rollback _

theorem books_roaming : Roaming Books :=
  ⟨books_track, fun memory history _ _ => .elsewhere memory history, .note, .rollback⟩

theorem books_holding {α : Type} {x : Nat → Eval α} (hx : ∀ slot, Keeps Books (x slot))
    (text : Text.Bytes) (forGood : Bool) : Keeps Books (holding text forGood x) := by
  intro m
  unfold holding
  rw [Outcome.machine_adjust]
  have held : Books m (x (m.texts.retain text.toArray).1
      (m.withTexts (m.texts.retain text.toArray).2)).machine :=
    books_track.trans ((books_track.refl m).withTexts (.retain text.toArray)) (hx _ _)
  cases forGood with
  | true => exact held
  | false => exact held.withTexts (held.grows.release (Texts.text?_retain_slot _ _))

/-! ### Texts, natives and calls -/

section

variable {r : Reentry} (hexpr : Keeps Books r.expression)
  (hbody : ∀ body topLevel duplicate, Keeps Books (r.body body topLevel duplicate))

include hbody

theorem books_outer : OuterDiscipline Books r where
  toTrack := books_track
  write := books_write
  ask := books_roaming.ask r.world
  text := books_track.text .note (fun _ _ => .elsewhere rfl rfl) (books_write .err)
    (fun text forGood inside => books_holding inside text forGood) hbody

/-- Honest natives keep the table in order, and so do hosts. -/
theorem books_perform {action : Action} (honest : action.Honest) :
    Keeps Books (action.perform r) := by
  have h := books_outer hbody
  induction honest with
  | give value => exact h.still (still_pure _)
  | fail error => exact h.still (still_fail _)
  | takeLiteral hnext ih => exact h.bind (fun _ => .elsewhere rfl rfl) ih
  | write hnext ih => exact h.bind (h.write _ _) fun _ => ih
  | look hnext ih => exact h.bind (fun m => .note m) ih
  | define hfunc hnative hnext _ ih => exact h.bind (books_define hfunc hnative).attempt ih
  | evalText hnext ih => exact h.bind (h.text _ _ _).attempt ih
  | evalFile hnext ih => exact h.bind (h.file _).attempt ih
  | ask hnext ih => exact h.bind (h.ask _) ih

theorem books_runFunction (number : Word) (args : List Word) :
    Keeps Books (Call.runFunction r number args) :=
  books_roaming.runFunction hbody books_bindParameters number args

include hexpr

/-- The natives of a table that is in order are honest. -/
theorem books_loose : LooseDiscipline Books r where
  toTrack := books_track
  stack m stack := (books_track.refl m).withArena (.of_eq rfl rfl rfl rfl) fun _ l => l.now.stack stack
  literals _ _ := .elsewhere rfl rfl
  quoting _ _ := .elsewhere rfl rfl
  advanceBy := books_roaming.advanceBy
  expression := hexpr
  perform {m m' index s native arity} found htag hm args := by
    have meanwhile := (expanding_meanwhile.acting fun body topLevel duplicate m =>
      (hbody body topLevel duplicate m).meanwhile).perform (native args) m'
    refine ⟨expanding_meanwhile.trans hm.meanwhile meanwhile, fun l => ?_⟩
    exact (books_perform hbody ((l.now.symbols found).honest htag args) m').ledger (hm.ledger l)
  runFunction _ _ hm args := books_track.trans hm (books_runFunction hbody _ args _)

omit hbody in
theorem books_assigning : AssigningDiscipline Books r where
  toTrack := books_track
  advanceBy := books_roaming.advanceBy
  expression := hexpr
  setValue {m m' index s} found hvar hm value := by
    obtain ⟨s', found', lasts⟩ := hm.grows.symbols found
    exact hm.withArena (hm.grows.setValue found hvar value) fun _ l =>
      l.now.setValue found' (lasts.tag.trans hvar) value

end

/-! ### Definitions -/

theorem books_naming : NamingDiscipline Books := ⟨books_track, books_roaming.advanceBy, books_addBytes⟩

/-- There are no more parameters than there is room for. -/
theorem length_parameters {room : Nat} {m m' : Machine} {params : List Slice}
    (h : Statement.parameters room m = .done params m') : params.length ≤ room := by
  induction room generalizing m m' params with
  | zero =>
    rw [Statement.parameters, token_bind] at h
    generalize m.token = t at h
    cases t with
    | closeParen =>
      cases h
      exact Nat.le_refl 0
    | _ => cases h
  | succ room ih =>
    have more : ∀ {name : Slice} {m}, ((do return name :: (← Statement.parameters room)) :
        Eval (List Slice)) m = .done params m' → params.length ≤ room + 1 := by
      intro name m h
      obtain ⟨rest, m₁, listed, h⟩ := bind_eq_done h
      cases h
      exact Nat.succ_le_succ (ih listed)
    rw [Statement.parameters, token_bind] at h
    split at h
    · cases h
      exact Nat.zero_le _
    · obtain ⟨name, m₁, -, h⟩ := bind_eq_done h
      obtain ⟨-, m₂, -, h⟩ := bind_eq_done h
      rw [token_bind] at h
      generalize m₂.token = t at h
      cases t with
      | comma =>
        obtain ⟨_, m₃, _, rest⟩ := bind_eq_done h
        exact more rest
      | closeParen => exact more h
      | _ => cases h

theorem length_parameterList {m m' : Machine} {params : List Slice}
    (h : Statement.parameterList m = .done params m') : params.length ≤ maxArguments := by
  unfold Statement.parameterList at h
  rw [token_bind] at h
  split at h
  · obtain ⟨-, m₁, -, h⟩ := bind_eq_done h
    obtain ⟨listed, m₂, hlisted, h⟩ := bind_eq_done h
    obtain ⟨-, m₃, -, h⟩ := bind_eq_done h
    cases h
    exact length_parameters hlisted
  · cases h
    exact Nat.zero_le _

/-- A function is defined with the number of its routine, and with as many arguments as that has
parameters. -/
theorem books_declareFunction : Keeps Books Statement.declareFunction := by
  have h := books_naming
  intro m
  refine related_bind (h.advanceRaw m) fun _ m₁ _ h₁ => ?_
  refine related_bind (h.trans h₁ (h.definedName m₁)) fun name m₂ _ h₂ => ?_
  refine related_bind (h.trans h₂ (h.advanceRaw m₂)) fun _ m₃ _ h₃ => ?_
  refine related_bind (h.trans h₃ (h.parameterList m₃)) fun params m₄ listed h₄ => ?_
  refine related_bind (h.trans h₄ (h.definedBody m₄)) fun body m₅ _ h₅ => ?_
  refine related_bind (h.trans h₅ (related_allocate books_track fun _ _ granted =>
    (books_track.refl m₅).withArena (.addRoutine granted) fun _ l => l.now.addRoutine granted))
    fun number m₆ added h₆ => ?_
  refine related_bind (h.trans h₆ (related_allocate books_track fun _ _ granted =>
    books_addSymbol granted fun l => ?_)) fun _ m₇ _ h₇ => h.trans h₇ (h.advanceBy false m₇)
  obtain ⟨arena, granted', rfl⟩ := allocate_eq_done added
  have found : Memory.routine? ⟨arena, m₅.texts⟩ (Int64.ofNat number) = some ⟨params, body⟩ :=
    routine?_addRoutine granted' l.now.budget
  refine ⟨fun {arity} htag => ?_, fun {arity} htag => ⟨_, found, ?_⟩, fun htag => by cases htag⟩
  · cases htag
    exact length_parameterList listed
  · cases htag
    rfl

/-! ### Bodies -/

section

variable {r : Reentry} (hexpr : Keeps Books r.expression)
  (hbody : ∀ body topLevel duplicate, Keeps Books (r.body body topLevel duplicate))

include hexpr hbody

theorem books_discipline : Discipline Books r where
  toUndeclaringDiscipline := books_roaming.undeclaring hbody (books_loose hexpr hbody)
    (books_assigning hexpr) (books_naming.declareVariable (books_assigning hexpr)
      fun granted => books_addSymbol granted fun _ => Memory.enrolled_var _ _ _)
  declareFunction := books_declareFunction

theorem books_wholeBody (body : Slice) (topLevel duplicate : Bool) :
    Keeps Books (r.wholeBody body topLevel duplicate) :=
  books_roaming.wholeBody (books_discipline hexpr hbody).statements body topLevel duplicate

end

/-- On every budget, evaluation keeps the table in order. -/
theorem books_ofFuel (world : World) (fuel : Nat) :
    Keeps Books (evalExpression world fuel) ∧
      ∀ body topLevel duplicate, Keeps Books (evalBody world fuel body topLevel duplicate) :=
  keeps_ofFuel books_track books_track world
    (fun hexpr hbody => (books_discipline hexpr hbody).wholeExpression) books_wholeBody fuel

theorem Machine.vocabulary_fits {entry : String × Tag Native} (h : entry ∈ vocabulary) {arity : Nat}
    (htag : entry.2.arity? = some arity) : arity ≤ maxArguments := by
  have few : ∀ builtin ∈ Builtin.all, builtin.2.1 ≤ maxArguments := by decide
  simp only [vocabulary, List.mem_append, List.mem_map] at h
  rcases h with (⟨op, -, rfl⟩ | ⟨word, -, rfl⟩) | ⟨builtin, hmem, rfl⟩
  · cases htag
  · cases htag
  · cases htag
    exact few builtin hmem

/-- The vocabulary is in order. -/
theorem ledger_new {options : Options} {m : Machine} (fits : options.arenaSize < UInt64.size)
    (h : Machine.new options = .ok m) : Ledger m := by
  obtain ⟨harena, -, hhistory⟩ := Machine.new_eq_ok h
  have orderly : m.memory.Orderly := by
    refine ⟨fun {i s} found => ?_, ?_⟩
    · change m.arena.symbols[i]? = some s at found
      rw [harena] at found
      have hmem : s ∈ Machine.vocabulary.map Machine.entrySymbol := by
        simpa using Array.mem_of_getElem? found
      obtain ⟨entry, hentry, rfl⟩ := List.mem_map.mp hmem
      refine ⟨fun {arity} htag => ?_, fun {arity} htag =>
        absurd htag (Machine.vocabulary_not_func hentry arity),
        fun htag => Machine.vocabulary_honest hentry htag⟩
      change entry.2.arity? = some arity at htag
      exact Machine.vocabulary_fits hentry htag
    · change Memory.Budgeted m.arena
      rw [harena]
      exact ⟨Nat.zero_le _, Nat.zero_le _, fits⟩
  refine ⟨orderly, _, hhistory, fun x hx => ?_⟩
  cases List.mem_singleton.mp hx
  exact orderly

end Scriptlet
