import Scriptlet.Proofs.Arguments
import Scriptlet.Proofs.Moved.Opening
import Scriptlet.Proofs.Written.Parameters

/-!
Functions are defined as they are written. A definition gets past its body exactly where a function comes
next and there is room for it, and then one symbol and one routine are new, whose slices read as the parts
of that function. Whatever else comes next, no symbol is new; and that there are too many parameters is said
exactly where there is one too many (`Machine.DefinesAsWritten`).

A definition relies on two things only: what is left to read is what the store has there, and quotations are
read as in statements. So it is at every statement of every body (`AtStatement`).
-/

namespace Scriptlet

open Eval Statement

variable {m n : Machine} {text : Scanner} {l : Lexeme} {list : List Lexeme} {places : List Span}
  {after : Scanner} {spare : Nat}

/-! ### The parts of a definition -/

def parametersFrom : Eval (List Slice) := do
  advanceRaw
  parameterList

def keptFunction : Eval (Slice × Routine) := do
  advanceRaw
  let name ← definedName
  let params ← parametersFrom
  let body ← definedBody
  return (name, ⟨params, body⟩)

def addFunction (name : Slice) (routine : Routine) : Eval Unit := do
  let number ← allocate (·.addRoutine routine)
  let _ ← allocate (·.addSymbol name (.func routine.params.length) (Int64.ofNat number))

/-- A definition up to the end of its body. -/
def definition : Eval Unit := do
  let (name, routine) ← keptFunction
  addFunction name routine

theorem declareFunction_eq : declareFunction = (do definition; advance) := by
  unfold declareFunction definition keptFunction addFunction parametersFrom
  simp only [bind_assoc, pure_bind]

/-! ### Parameters -/

theorem parameterList_of_openParen (token : m.token = .openParen) : parameterList m = (do
    let params ← namesFrom maxArguments
    advanceRaw
    return params) m := by
  rw [parameterList, token_bind, if_pos token, namesFrom, Eval.bind_assoc]

theorem parameterList_of_other (token : m.token ≠ .openParen) : parameterList m = .done [] m := by
  rw [parameterList, token_bind, if_neg token]
  rfl

/-- Parameters are taken as they are written, and too long is only a list that is. -/
theorem parses_parametersFrom (h : m.ReadsIn text) : (parametersFrom m).Parses
    (fun params n => ∃ places list l, ParameterText places list ∧ places.length ≤ maxArguments ∧
      m.cursor.scanner.Lexes (list ++ [l]) n.cursor.scanner ∧ n.HasRead text l ∧
      List.Forall₂ (n.Recalls text) params places)
    (∃ names : List Span, names.length = maxArguments ∧
      ∃ one after, m.cursor.scanner.Lexes (.openParen :: namesAndOne names one) after) := by
  refine parses_bind (parses_advanceRaw h) fun _ m₁ _ ⟨l, ahead, hasRead⟩ => ?_
  by_cases opening : m₁.token = .openParen
  · obtain rfl := hasRead.mark .openParen opening
    rw [parameterList_of_openParen opening]
    refine parses_bind ((parses_namesFrom maxArguments hasRead.toReadsIn).mono (fun _ _ => id)
      fun ⟨names, full, one, after, lexes⟩ => ⟨names, full, one, after, .cons ahead lexes⟩)
      fun params m₂ taken ⟨places, list, names, few, lexes, recalled⟩ => ?_
    have reads := ((proceeds_namesFrom _).done taken).readsIn hasRead.toReadsIn
    refine parses_bind (parses_advanceRaw reads) fun _ n advanced ⟨l, ahead', hasRead'⟩ => ?_
    refine ⟨places, .openParen :: (list ++ [.closeParen]), l, .listed names, few,
      .cons ahead (lexes.append (.single ahead')), hasRead', ?_⟩
    exact Machine.Recalls.forall₂_grows recalled (proceeds_naming.advanceRaw.done advanced).grows
  · rw [parameterList_of_other opening]
    exact ⟨[], [], l, .absent, Nat.zero_le _, .single ahead, hasRead, .nil⟩

/-- Parameters that are written are taken, and the body is read behind them. -/
theorem parametersFrom_of_text (written : ParameterText places list) (h : m.ReadsIn text)
    (few : places.length ≤ maxArguments) {inside : Span} (isBody : l.body? = some inside)
    (lexes : m.cursor.scanner.Lexes (list ++ [l]) after)
    (enough : m.charge text places + spare ≤ m.arena.free) :
    ∃ params n, parametersFrom m = .done params n ∧ List.Forall₂ (n.Recalls text) params places ∧
      n.token = .text (.ofSpan m.cursor.source inside) ∧ n.HasRead text l ∧ n.cursor.scanner = after ∧
      spare ≤ n.arena.free := by
  have raw : ∀ source, l.rawToken? source = some (.text (.ofSpan source inside)) := fun source => by
    cases l <;> cases isBody <;> rfl
  cases written with
  | absent =>
    obtain ⟨n, advanced, token, hasRead, lexes, arena⟩ := advanceRaw_of_lexes h lexes (raw _)
    rw [Machine.charge_nil, Nat.zero_add, ← arena] at enough
    refine ⟨[], n, ?_, .nil, token, hasRead, lexes.eq_of_nil, enough⟩
    rw [parametersFrom, bind_of_done advanced, parameterList_of_other (by simp [token])]
  | @listed _ list names =>
    rw [List.cons_append, List.append_assoc] at lexes
    obtain ⟨m₁, advanced, token, hasRead, lexes, arena⟩ := advanceRaw_of_lexes h lexes rfl
    have proceeds := proceeds_naming.advanceRaw.done advanced
    rw [← proceeds.charge, ← arena] at enough
    obtain ⟨params, m₂, taken, recalled, lexes, free⟩ :=
      namesFrom_of_list names hasRead.toReadsIn few lexes enough
    have proceeds := proceeds_track.trans proceeds ((proceeds_namesFrom _).done taken)
    obtain ⟨n, advanced', token', hasRead', lexes, arena'⟩ :=
      advanceRaw_of_lexes (proceeds.readsIn h) lexes (raw _)
    have recalled := Machine.Recalls.forall₂_grows recalled (proceeds_naming.advanceRaw.done advanced').grows
    refine ⟨params, n, ?_, recalled, proceeds.source ▸ token', hasRead', lexes.eq_of_nil, arena' ▸ free⟩
    rw [parametersFrom, bind_of_done advanced, parameterList_of_openParen token, bind_of_done taken,
      bind_of_done advanced']
    rfl

/-- A list with a parameter too many is refused, when that parameter is reached. -/
theorem parametersFrom_of_overlong {one : Span} (h : m.ReadsIn text) (full : places.length = maxArguments)
    (lexes : m.cursor.scanner.Lexes (.openParen :: namesAndOne places one) after)
    (enough : m.charge text places ≤ m.arena.free) :
    ∃ n, parametersFrom m = .failed .tooManyArguments n := by
  obtain ⟨m₁, advanced, token, hasRead, lexes, arena⟩ := advanceRaw_of_lexes h lexes rfl
  have proceeds := proceeds_naming.advanceRaw.done advanced
  rw [← proceeds.charge, ← arena] at enough
  obtain ⟨n, failed⟩ := namesFrom_of_crowded hasRead.toReadsIn ⟨full, one, after, lexes⟩ enough
  refine ⟨n, ?_⟩
  rw [parametersFrom, bind_of_done advanced, parameterList_of_openParen token, bind_of_failed failed]

/-! ### The function as a whole -/

/-- A name and a routine that read as the parts of a function. -/
structure Machine.Reproduces (n : Machine) (text : Scanner) (f : FunctionText) (name : Slice)
    (routine : Routine) : Prop where
  name : n.Recalls text name f.name
  params : List.Forall₂ (n.Recalls text) routine.params f.params
  body : n.Recalls text routine.body f.body

theorem Machine.Reproduces.grows {f : FunctionText} {name : Slice} {routine : Routine}
    (h : m.Reproduces text f name routine) (g : Grows m n) : n.Reproduces text f name routine :=
  ⟨h.name.grows g, Machine.Recalls.forall₂_grows h.params g, h.body.grows g⟩

theorem proceeds_parametersFrom : Keeps Proceeds parametersFrom :=
  proceeds_track.bind proceeds_naming.advanceRaw fun _ => proceeds_naming.parameterList

theorem proceeds_keptFunction : Keeps Proceeds keptFunction :=
  proceeds_track.bind proceeds_naming.advanceRaw fun _ =>
    proceeds_track.bind proceeds_naming.definedName fun _ =>
      proceeds_track.bind proceeds_parametersFrom fun _ =>
        proceeds_track.bind proceeds_naming.definedBody fun _ => proceeds_track.still (still_pure _)

/-- What is kept are the parts of the function that is written there. -/
theorem parses_keptFunction (h : m.ReadsIn text) : (keptFunction m).Parses
    (fun kept n => ∃ f, m.cursor.scanner.Writes f n.cursor.scanner ∧ f.params.length ≤ maxArguments ∧
      n.Reproduces text f kept.1 kept.2)
    (∃ names, m.cursor.scanner.Overfull names) := by
  refine parses_bind (parses_advanceRaw h) fun _ m₁ _ ⟨l, ahead, hasRead⟩ => ?_
  refine parses_bind (parses_definedName hasRead) fun name m₂ named ⟨place, isName, recalls, cursor⟩ => ?_
  subst isName
  rw [← cursor] at ahead
  have reads := (proceeds_naming.definedName.done named).readsIn hasRead.toReadsIn
  refine parses_bind ((parses_parametersFrom reads).mono (fun _ _ => id)
    fun ⟨names, full, one, after, lexes⟩ => ⟨_, place, names, one, after, rfl, full, .cons ahead lexes⟩)
    fun params m₃ taken ⟨places, list, l, written, few, lexes, hasRead', recalled⟩ => ?_
  have proceeds := proceeds_parametersFrom.done taken
  refine parses_bind (parses_definedBody hasRead')
    fun body n bodied ⟨inside, isBody, recalls', cursor'⟩ => ?_
  have proceeds' := proceeds_naming.definedBody.done bodied
  refine ⟨⟨place, places, inside⟩, ⟨list, l, written, isBody, .cons ahead (cursor' ▸ lexes)⟩, few, ?_⟩
  exact ⟨recalls.grows (proceeds.grows.trans proceeds'.grows),
    Machine.Recalls.forall₂_grows recalled proceeds'.grows, recalls'⟩

/-- A function that is written is read, if there is room for its parts. -/
theorem keptFunction_of_writes {f : FunctionText} (h : m.ReadsIn text)
    (writes : m.cursor.scanner.Writes f after) (few : f.params.length ≤ maxArguments)
    (enough : m.charge text f.parts + spare ≤ m.arena.free) :
    ∃ kept n, keptFunction m = .done kept n ∧ n.Reproduces text f kept.1 kept.2 ∧
      n.cursor.scanner = after ∧ spare ≤ n.arena.free := by
  obtain ⟨list, l, written, isBody, lexes⟩ := writes
  rw [FunctionText.parts, Machine.charge_cons, Machine.charge_append, Nat.add_assoc, Nat.add_assoc] at enough
  obtain ⟨m₁, name, m₂, advanced, -, named, proceeds, recalls, lexes, free⟩ :=
    definedName_of_lexes h lexes enough
  rw [← proceeds.charge text f.params] at free
  obtain ⟨params, m₃, taken, recalled, token, hasRead, ended, free⟩ :=
    parametersFrom_of_text written (proceeds.readsIn h) few isBody lexes free
  have proceeds' := proceeds_parametersFrom.done taken
  rw [← (proceeds_track.trans proceeds proceeds').charge] at free
  obtain ⟨inside, isBody', source, recalls'⟩ := hasRead.body token
  cases isBody.symm.trans isBody'
  have bodied : definedBody m₃ = keep (.ofSpan m₂.cursor.source f.body) m₃ := by
    rw [definedBody, token_bind, token]
  rcases keep_of_recalls recalls' source with ⟨body, n, kept, recalls', cursor, -, left⟩ | ⟨-, full⟩
  · have proceeds'' := (proceeds_naming.keep _).done kept
    refine ⟨(name, ⟨params, body⟩), n, ?_, ⟨?_, ?_, recalls'⟩, cursor ▸ ended, by omega⟩
    · rw [keptFunction, bind_of_done advanced, bind_of_done named, bind_of_done taken,
        bind_of_done (bodied.trans kept)]
      rfl
    · exact recalls.grows (proceeds'.grows.trans proceeds''.grows)
    · exact Machine.Recalls.forall₂_grows recalled proceeds''.grows
  · omega

/-- A function with a parameter too many is refused when that parameter is reached. -/
theorem keptFunction_of_overfull (h : m.ReadsIn text) (overfull : m.cursor.scanner.Overfull places)
    (enough : m.charge text places ≤ m.arena.free) :
    ∃ n, keptFunction m = .failed .tooManyArguments n := by
  obtain ⟨place, params, one, after, rfl, full, lexes⟩ := overfull
  rw [Machine.charge_cons] at enough
  obtain ⟨m₁, name, m₂, advanced, -, named, proceeds, -, lexes, free⟩ :=
    definedName_of_lexes h lexes enough
  rw [← proceeds.charge] at free
  obtain ⟨n, failed⟩ := parametersFrom_of_overlong (proceeds.readsIn h) full lexes free
  refine ⟨n, ?_⟩
  rw [keptFunction, bind_of_done advanced, bind_of_done named, bind_of_failed failed]

/-! ### What is added -/

/-- One symbol and one routine are new, and they read as a function that stands in what was left to read. -/
structure Machine.Adds (m : Machine) (f : FunctionText) (name : Slice) (routine : Routine) (n : Machine) :
    Prop where
  symbols : n.arena.symbols = m.arena.symbols.push
    ⟨name, .func f.params.length, Int64.ofNat m.arena.routines.size⟩
  routines : n.arena.routines = m.arena.routines.push routine
  found : Memory.Budgeted m.arena → n.memory.routine? (Int64.ofNat m.arena.routines.size) = some routine
  name : n.bytes name = m.cursor.scanner.bytesOf f.name
  params : routine.params.map n.bytes = f.params.map m.cursor.scanner.bytesOf
  body : n.bytes routine.body = m.cursor.scanner.bytesOf f.body

theorem Arena.addRoutine_of_room {a : Arena Native} {routine : Routine}
    (room : wordAligned routineSize ≤ a.free) : a.addRoutine routine = some (a.routines.size,
      { a with
        reserved := a.reserved + wordAligned routineSize
        routines := a.routines.push routine }) := by
  simp only [addRoutine, reserve, if_pos room]

theorem Arena.addRoutine_of_full {a : Arena Native} {routine : Routine}
    (full : a.free < wordAligned routineSize) : a.addRoutine routine = none := by
  simp only [addRoutine, reserve, if_neg (Nat.not_le.mpr full)]

/-- A function is added if there is room for it, and else its symbol is not. -/
theorem addFunction_cases (name : Slice) (routine : Routine) (m : Machine) :
    (∃ n, addFunction name routine m = .done () n ∧ n.cursor = m.cursor ∧ Grows m n ∧
      n.arena.symbols = m.arena.symbols.push
        ⟨name, .func routine.params.length, Int64.ofNat m.arena.routines.size⟩ ∧
      n.arena.routines = m.arena.routines.push routine ∧
      (Memory.Budgeted m.arena → n.memory.routine? (Int64.ofNat m.arena.routines.size) = some routine)) ∨
    ∃ n, addFunction name routine m = .failed .outOfMemory n ∧ n.arena.symbols = m.arena.symbols ∧
      m.arena.free < wordAligned routineSize + symbolSize := by
  by_cases room : wordAligned routineSize ≤ m.arena.free
  case neg =>
    have full := Nat.not_le.mp room
    refine .inr ⟨m, bind_of_failed (allocate_of_none (Arena.addRoutine_of_full full)) _, rfl, by omega⟩
  let arena : Arena Native := { m.arena with
    reserved := m.arena.reserved + wordAligned routineSize
    routines := m.arena.routines.push routine }
  have granted : m.arena.addRoutine routine = some (m.arena.routines.size, arena) :=
    Arena.addRoutine_of_room room
  have added : allocate (·.addRoutine routine) m = .done m.arena.routines.size (m.withArena arena) :=
    allocate_of_some granted
  have free : arena.free + wordAligned routineSize = m.arena.free := Arena.free_reserved m.arena room
  have grows : m.memory.Grows ⟨arena, m.texts⟩ := .addRoutine granted
  let add : Eval Nat :=
    allocate (·.addSymbol name (.func routine.params.length) (Int64.ofNat m.arena.routines.size))
  have ran : addFunction name routine m = (do let _ ← add) (m.withArena arena) := bind_of_done added _
  by_cases room' : symbolSize ≤ arena.free
  · have granted' : arena.addSymbol name (.func routine.params.length) (Int64.ofNat m.arena.routines.size) =
        some _ := Arena.addSymbol_of_room room'
    have added' : add (m.withArena arena) = .done _ _ := allocate_of_some granted'
    have grows' : Memory.Grows ⟨arena, m.texts⟩ ⟨_, m.texts⟩ := .addSymbol granted'
    refine .inl ⟨_, ran.trans (bind_of_done added' _), rfl, grows.trans grows', rfl, rfl, fun budget => ?_⟩
    exact grows'.routine? (routine?_addRoutine granted (budget.addRoutine granted))
  · have full := Nat.not_le.mp room'
    have refused : add (m.withArena arena) = .failed .outOfMemory _ :=
      allocate_of_none (Arena.addSymbol_of_full full)
    exact .inr ⟨_, ran.trans (bind_of_failed refused _), rfl, by omega⟩

/-! ### As it is written -/

/-- What a definition does to a machine, in terms of what comes next in the text. -/
structure Machine.DefinesAsWritten (m : Machine) : Prop where
  /-- A definition that gets past its body is that of a function that comes next, and adds it. -/
  records : ∀ {n}, definition m = .done () n → ∃ f name routine,
    m.cursor.scanner.Writes f n.cursor.scanner ∧ f.params.length ≤ maxArguments ∧ m.Adds f name routine n
  /-- A function that comes next is added, if there is room for its parts, its routine and its symbol. -/
  accepts : ∀ {f after}, m.cursor.scanner.Writes f after → f.params.length ≤ maxArguments →
    m.charge m.cursor.scanner f.parts + (wordAligned routineSize + symbolSize) ≤ m.arena.free →
    ∃ n name routine, definition m = .done () n ∧ n.cursor.scanner = after ∧ m.Adds f name routine n
  /-- All other definitions fail and add no symbol, and too many are only parameters that are too many. -/
  refuses : (¬∃ n, definition m = .done () n) → ∃ error n, definition m = .failed error n ∧
    n.arena.symbols = m.arena.symbols ∧
    (error.kind = .tooManyArguments → ∃ names, m.cursor.scanner.Overfull names)
  /-- Where a parameter too many is reached, it is too many, if there was room for what stands before. -/
  overfull : ∀ {names}, m.cursor.scanner.Overfull names →
    m.charge m.cursor.scanner names ≤ m.arena.free → ∃ n, definition m = .failed .tooManyArguments n

theorem definesAsWritten (faithful : Faithful m) (plain : m.quoting = .plain) : m.DefinesAsWritten := by
  have reads : m.ReadsIn m.cursor.scanner := ⟨plain, faithful, .refl _⟩
  have parses := parses_keptFunction reads
  have adds : ∀ {kept : Slice × Routine} {k n f}, keptFunction m = .done kept k →
      k.Reproduces m.cursor.scanner f kept.1 kept.2 → addFunction kept.1 kept.2 k = .done () n →
      n.cursor = k.cursor ∧ m.Adds f kept.1 kept.2 n := by
    intro kept k n f done reproduces added
    have proceeds := proceeds_keptFunction.done done
    rcases addFunction_cases kept.1 kept.2 k with
      ⟨n', added', cursor, grows, symbols, routines, found⟩ | ⟨n', failed, -⟩
    · cases added'.symm.trans added
      have reproduced := reproduces.grows grows
      rw [proceeds.symbols, proceeds.routines, reproduces.params.length_eq] at symbols
      rw [proceeds.routines] at routines found
      exact ⟨cursor, symbols, routines, found ∘ proceeds.budget, reproduced.name.bytes,
        Machine.Recalls.map_bytes reproduced.params, reproduced.body.bytes⟩
    · cases failed.symm.trans added
  constructor
  · intro n done
    obtain ⟨kept, k, taken, added⟩ := bind_eq_done done
    rw [taken] at parses
    obtain ⟨f, writes, few, reproduces⟩ := parses
    obtain ⟨cursor, adds⟩ := adds taken reproduces added
    exact ⟨f, _, _, cursor ▸ writes, few, adds⟩
  · intro f after writes few enough
    obtain ⟨kept, k, taken, reproduces, rfl, free⟩ := keptFunction_of_writes reads writes few enough
    rcases addFunction_cases kept.1 kept.2 k with ⟨n, added, -⟩ | ⟨-, -, -, full⟩
    · obtain ⟨cursor, adds⟩ := adds taken reproduces added
      exact ⟨n, _, _, (bind_of_done taken _).trans added, congrArg Cursor.scanner cursor, adds⟩
    · omega
  · intro undone
    have proceeds := proceeds_keptFunction m
    cases taken : keptFunction m with
    | done kept k =>
      rw [taken] at proceeds
      rcases addFunction_cases kept.1 kept.2 k with ⟨n, added, -⟩ | ⟨n, failed, symbols, -⟩
      · exact absurd ⟨n, (bind_of_done taken _).trans added⟩ undone
      · exact ⟨.outOfMemory, n, (bind_of_done taken _).trans failed, symbols.trans proceeds.symbols,
          fun kind => by cases kind⟩
    | failed error n =>
      rw [taken] at proceeds parses
      exact ⟨error, n, bind_of_failed taken _, proceeds.symbols, parses⟩
    | stopped why n =>
      rw [taken] at parses
      exact parses.elim
  · intro names overfull enough
    obtain ⟨n, failed⟩ := keptFunction_of_overfull reads overfull enough
    exact ⟨n, bind_of_failed failed _⟩

/-! ### Where definitions are -/

/-- The machines on which a statement of a body can begin: that which has read the first token of the body,
and those that a turn leaves when there is to be another. -/
inductive AtStatement (r : Reentry) (body : Slice) (duplicate : Bool) (m : Machine) : Machine → Prop where
  | first {n : Machine}
    (advanced : advance { m with cursor := m.cursorAt body, quoting := .plain, duplicate } = .done () n) :
    AtStatement r body duplicate m n
  | next {n n' : Machine} (before : AtStatement r body duplicate m n)
    (turned : Statement.turn r () n = .done (.again ()) n') : AtStatement r body duplicate m n'

/-- Where a statement begins, what is left to read is what the store has there, and quotations are texts. -/
theorem AtStatement.stands {world : World} {fuel : Nat} {body : Slice} {duplicate : Bool}
    (h : AtStatement (.ofFuel world fuel) body duplicate m n) : Faithful n ∧ n.quoting = .plain := by
  have expression := (bracketed_ofFuel world fuel).1
  have bodies := (bracketed_ofFuel world fuel).2
  induction h with
  | first advanced =>
    exact ⟨faithful_of_advanceBy (faithful_cursorAt m body duplicate) advanced,
      ((proceeds_advanceBy false).done advanced).quoting⟩
  | next _ turned ih =>
    have moves := (moves_discipline (r := .ofFuel world fuel) (moves_ofFuel world fuel)
      (expanding_meanwhile.ofFuel world fuel).2 bodies).turn.done turned
    have balanced := (balanced_discipline (r := .ofFuel world fuel) expression bodies).turn.done turned
    exact ⟨moves.faithful ih.1, balanced.quoting.trans ih.2⟩

/-- Functions are defined as they are written. A statement that starts with the word for a function is a
definition, and reading on behind it. A definition gets past its body exactly where a function comes next
and there is room for it, and what it adds reads as that function; else it fails and adds no symbol, and it
says that the parameters are too many just where one too many is reached. So it is on every machine that has
left to read what the store has there, with quotations read as in statements; and on such a machine every
statement of every body begins, whatever the body is in and whether names are copied or not. -/
theorem functions_defined_as_written :
    (∀ r (m : Machine) index s, m.token = .symbol index → m.arena.symbols[index]? = some s →
      s.tag = .keyword .func →
        statement r m = (do definition; advance; return Ending.ranOut : Eval Ending) m) ∧
    (∀ m : Machine, Faithful m → m.quoting = .plain → m.DefinesAsWritten) ∧
    ∀ world fuel body duplicate m n, AtStatement (.ofFuel world fuel) body duplicate m n →
      n.DefinesAsWritten := by
  refine ⟨fun r m index s token found isFunc => ?_, fun m => definesAsWritten,
    fun world fuel body duplicate m n h => definesAsWritten h.stands.1 h.stands.2⟩
  rw [statement, token_bind, token]
  dsimp only
  rw [bind_of_done (symbolAt_of_some found), isFunc]
  dsimp only [ofKeyword]
  rw [declareFunction_eq, Eval.bind_assoc]

/-- A function of two parameters, copied, at the start of a text, and one with a parameter too many. -/
theorem functions_defined_as_written_two :
    ∃ start m n name routine, Machine.new {} = .ok start ∧
      (let text := Text.encode "func f(a, b,) \x7b return a \x7d"
      AtStatement (.ofFuel (fun _ _ => none) 1) (start.bodyOf text) true (start.opened text) m) ∧
      (∃ index s, m.token = .symbol index ∧ m.arena.symbols[index]? = some s ∧ s.tag = .keyword .func) ∧
      statement (.ofFuel (fun _ _ => none) 1) m =
        (do definition; advance; return Ending.ranOut : Eval Ending) m ∧
      definition m = .done () n ∧ n.arena.symbols = m.arena.symbols.push ⟨name, .func 2, 0⟩ ∧
      n.arena.routines = m.arena.routines.push routine ∧ n.bytes name = Text.encode "f" ∧
      routine.params.map n.bytes = [Text.encode "a", Text.encode "b"] ∧
      n.bytes routine.body = Text.encode " return a " ∧
      ∃ m' n', Faithful m' ∧ m'.quoting = .plain ∧
        m'.cursor.scanner = ⟨4, Text.encode " f(a, b, c, d"⟩ ∧
        definition m' = .failed .tooManyArguments n' := by
  let text := Text.encode "func f(a, b,) \x7b return a \x7d"
  let long := Text.encode "func f(a, b, c, d"
  have run : (Machine.new {}).toOption.map (fun start =>
      let m := start.opened text
      let cursor := m.cursorAt (start.bodyOf text)
      (advance { m with cursor, quoting := .plain, duplicate := true }).told? fun _ m =>
        decide (m.token = .symbol 19 ∧ (m.arena.symbols[19]?).map (·.tag.shape) = some (.keyword .func) ∧
          m.cursor.scanner = ⟨4, text.drop 4⟩ ∧ m.copies = true ∧ m.arena.routines.size = 0 ∧
          m.arena.free = 64672)) = some (some true) := by
    decide +kernel
  obtain ⟨start, made, told⟩ := Machine.exists_new run
  obtain ⟨_, m, advanced, tells⟩ := Outcome.told?_eq_some told
  obtain ⟨token, tag, scanner, copies, routines, free⟩ := of_decide_eq_true tells
  obtain ⟨s, found, tag⟩ := Option.map_eq_some_iff.mp tag
  have isFunc : s.tag = .keyword .func := by
    cases htag : s.tag <;> rw [htag] at tag <;> cases tag
    rfl
  have begins : AtStatement (.ofFuel (fun _ _ => none) 1) (start.bodyOf text) true (start.opened text) m :=
    .first advanced
  obtain ⟨isDefinition, onText, inBodies⟩ := functions_defined_as_written
  let f : FunctionText := ⟨⟨5, 6⟩, [⟨7, 8⟩, ⟨10, 11⟩], ⟨15, 25⟩⟩
  have writes : m.cursor.scanner.Writes f ⟨26, []⟩ := by
    rw [scanner]
    exact ⟨_, .block ⟨15, 25⟩, .listed (.cons _ (.cons _ .nil)), rfl, by decide +kernel⟩
  have enough :
      m.charge m.cursor.scanner f.parts + (wordAligned routineSize + symbolSize) ≤ m.arena.free := by
    rw [Machine.charge, copies, scanner, free]
    decide +kernel
  obtain ⟨n, name, routine, done, -, adds⟩ :=
    (inBodies _ _ _ _ _ _ begins).accepts writes (by decide) enough
  obtain ⟨symbols, added, -, isName, areParams, isBody⟩ := adds
  rw [routines] at symbols
  rw [scanner] at isName areParams isBody
  -- the other function is read from behind its word on, and there is nothing to copy
  let body : Slice := ⟨.text (start.texts.retain long.toArray).1, 4, 13⟩
  let m' : Machine := { start.opened long with
    cursor := (start.opened long).cursorAt body, quoting := .plain, duplicate := false }
  have faithful : Faithful m' := faithful_cursorAt _ _ _
  have scanner' : m'.cursor.scanner = ⟨4, long.drop 4⟩ := by
    have store : (start.opened long).store body.source = long.toArray := Machine.store_opened ..
    change Scanner.ofWindow ((start.opened long).store body.source) 4 17 = _
    rw [store]
    decide +kernel
  have overfull : m'.cursor.scanner.Overfull [⟨5, 6⟩, ⟨7, 8⟩, ⟨10, 11⟩, ⟨13, 14⟩] := by
    rw [scanner']
    exact ⟨_, _, ⟨16, 17⟩, ⟨17, []⟩, rfl, rfl, by decide +kernel⟩
  obtain ⟨n', failed⟩ := (onText m' faithful rfl).overfull overfull (Nat.zero_le _)
  exact ⟨start, m, n, name, routine, made, begins, ⟨19, s, token, found, isFunc⟩,
    isDefinition _ m 19 s token found isFunc, done, symbols, added, isName.trans (by decide +kernel),
    areParams.trans (by decide +kernel), isBody.trans (by decide +kernel), m', n', faithful, rfl, scanner',
    failed⟩

end Scriptlet
