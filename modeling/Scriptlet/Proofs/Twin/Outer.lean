import Scriptlet.Proofs.Twin.Reading

/-!
What is run from outside scripts: texts, files, natives and functions. On level machines they come to
the same and leave the machines level, provided that bodies do. A text takes a slot, which need not be
the same one on both sides, and it need not be released on both.
-/

namespace Scriptlet

open Text (Bytes)
open Eval

variable {α : Type} {strict : Bool} {m m' n n' : Machine}

/-- What is known, on two machines side by side, of what is nested in a construct. -/
structure Twins (strict : Bool) (r : Reentry) : Prop where
  expression : ∀ more {m m'}, Abreast ⟨strict, more⟩ m m' →
    Agree ⟨strict, more⟩ (Equally (Abreast ⟨strict, more⟩)) m m' (r.expression m) (r.expression m')
  body : ∀ {m m' body body'} topLevel {duplicate duplicate'}, Core strict m m' →
    m.memory.Holds body → m'.memory.Holds body' →
    m'.memory.sight strict body' = m.memory.sight strict body →
    (strict = true → duplicate' = duplicate) →
    Concur strict (r.body body topLevel duplicate m) (r.body body' topLevel duplicate' m')

theorem Concur.restoring {κ : Type} {keep : Machine → κ} {restore : κ → Machine → Machine}
    {x x' : Eval α} (same : keep m' = keep m) (h : Concur strict (x m) (x' m'))
    (hrestore : ∀ {n n'}, Core strict n n' → Core strict (restore (keep m) n) (restore (keep m) n')) :
    Concur strict (Eval.restoring keep restore x m) (Eval.restoring keep restore x' m') := by
  unfold Eval.restoring
  dsimp only
  rw [same]
  exact Concur.adjust h fun _ _ core => hrestore core

/-! ### Texts and files -/

theorem quiet_write (sound : m.Sound true) (bytes : Bytes) : Quiet strict m (m.write .err bytes) := by
  have out : (m.write .err bytes).written .out = m.written .out := by
    simp only [Machine.written, Machine.write, Array.toList_push, List.filter_append,
      List.flatMap_append]
    exact List.append_nil _
  exact ⟨rfl, rfl, rfl, rfl, rfl, rfl, out, rfl, rfl, rfl, fun _ => rfl, sound.intact, sound.told⟩

/-- Errors are written to the error stream, which is not looked at. -/
theorem concur_reporting {x x' : Eval α} (h : Concur strict (x m) (x' m')) :
    Concur strict (reporting x m) (reporting x' m') := by
  have reported : ∀ {n : Machine} {e : Error}, n.Sound true →
      ∃ k, (if n.depth = 0 then (.failed e (n.write .err (Text.encode (e.render ++ "\n"))) : Outcome α)
        else .failed e n) = .failed e k ∧ Quiet strict n k ∧ k.arena = n.arena := by
    intro n e sound
    split
    · exact ⟨_, rfl, quiet_write sound _, rfl⟩
    · exact ⟨n, rfl, .refl sound, rfl⟩
  unfold reporting
  generalize x m = o at h ⊢
  generalize x' m' = o' at h ⊢
  cases h with
  | done h => exact .done h
  | failed he core =>
    obtain ⟨k, hk, quiet, arena⟩ := reported core.sound
    obtain ⟨k', hk', quiet', arena'⟩ := reported core.sound'
    dsimp only
    rw [hk, hk']
    refine .failed he (core.quiet quiet quiet' ?_ fun hstrict => ?_)
    · rw [arena, arena']
      exact core.table.routines
    · rw [arena, arena']
      exact (core.room hstrict).2
  | stopped => exact .stopped
  | @excused e n o' he =>
    dsimp only
    by_cases depth : n.depth = 0
    · rw [if_pos depth]
      exact .excused he
    · rw [if_neg depth]
      exact .excused he
  | @excused' e n' o he =>
    dsimp only
    by_cases depth : n'.depth = 0
    · rw [if_pos depth]
      exact .excused' he
    · rw [if_neg depth]
      exact .excused' he

/-- A text looks the same in whatever slot it is. -/
theorem sight_retain (m : Machine) (text : Bytes) :
    (m.withTexts (m.texts.retain text.toArray).2).memory.sight strict
      ⟨.text (m.texts.retain text.toArray).1, 0, text.length⟩ = ⟨text, true, strict⟩ := by
  have taken := Texts.text?_retain m.texts text.toArray (m.texts.retain text.toArray).1
  rw [if_pos rfl] at taken
  have store : (m.withTexts (m.texts.retain text.toArray).2).memory.store
      (.text (m.texts.retain text.toArray).1) = text.toArray := by
    change (m.texts.retain text.toArray).2.get _ = _
    unfold Texts.get
    rw [taken]
    rfl
  simp [Memory.sight, Memory.window, store, Slice.stop, Source.isText]

theorem holds_retain (m : Machine) (text : Bytes) :
    (m.withTexts (m.texts.retain text.toArray).2).memory.Holds
      ⟨.text (m.texts.retain text.toArray).1, 0, text.length⟩ := by
  have taken := Texts.text?_retain m.texts text.toArray (m.texts.retain text.toArray).1
  rw [if_pos rfl] at taken
  change ((m.texts.retain text.toArray).2.text? _).isSome = true
  rw [taken]
  rfl

/-- Releasing a slot is not seen, if it leaves the machine sound. -/
theorem quiet_unless (forGood : Bool) (slot : Nat) (sound : n.Sound true)
    (after : (if forGood then n else n.withTexts (n.texts.release slot)).Sound true) :
    Quiet strict n (if forGood then n else n.withTexts (n.texts.release slot)) := by
  cases forGood with
  | true => exact .refl sound
  | false => exact quiet_release after

theorem arena_unless (forGood : Bool) (slot : Nat) (n : Machine) :
    (if forGood then n else n.withTexts (n.texts.release slot)).arena = n.arena := by
  cases forGood <;> rfl

section

variable {r : Reentry} (hbody : BodyDiscipline true r) (twins : Twins strict r)

include hbody twins

theorem concur_slot (h : Core strict m m') (text : Bytes) (topLevel : Bool)
    {duplicate duplicate' : Bool} (hduplicate : strict = true → duplicate' = duplicate) :
    Concur strict
      (holding text (!duplicate && topLevel) (fun slot => entering do
        let _ ← r.body ⟨.text slot, 0, text.length⟩ topLevel duplicate) m)
      (holding text (!duplicate' && topLevel) (fun slot => entering do
        let _ ← r.body ⟨.text slot, 0, text.length⟩ topLevel duplicate') m') := by
  have sound := (outer_holding hbody text duplicate topLevel m h.sound).sound
  have sound' := (outer_holding hbody text duplicate' topLevel m' h.sound').sound
  have retained := h.quiet (quiet_retain h.sound text.toArray) (quiet_retain h.sound' text.toArray)
    h.table.routines fun hstrict => (h.room hstrict).2
  unfold holding at sound sound' ⊢
  rw [Outcome.machine_adjust] at sound sound'
  dsimp only at sound sound' ⊢
  refine Concur.adjust ?_ fun {n n'} hn hn' core => ?_
  · unfold entering
    refine Concur.adjust (Concur.bind (twins.body topLevel ?_ ?_ ?_ ?_ hduplicate)
      fun core => .done ⟨rfl, core⟩) fun {n n'} _ _ core => ?_
    · exact retained.place _ _ _ _ _ _ _ _
    · exact holds_retain m text
    · exact holds_retain m' text
    · exact (sight_retain m' text).trans (sight_retain m text).symm
    · exact core.place n.cursor n'.cursor n.token n'.token n.duplicate n'.duplicate _ _
  · rw [hn] at sound
    rw [hn'] at sound'
    refine core.quiet (quiet_unless _ _ core.sound sound) (quiet_unless _ _ core.sound' sound') ?_
      fun hstrict => ?_
    · rw [arena_unless, arena_unless]
      exact core.table.routines
    · rw [arena_unless, arena_unless]
      exact (core.room hstrict).2

/-- A text, whether or not its names are copied. -/
theorem concur_text (h : Core strict m m') (text : String) (topLevel : Bool)
    {duplicate duplicate' : Bool} (hduplicate : strict = true → duplicate' = duplicate) :
    Concur strict (Eval.text r text duplicate topLevel m) (Eval.text r text duplicate' topLevel m') :=
  concur_reporting (concur_slot hbody twins h.note (Text.encode text) topLevel hduplicate)

omit hbody twins in
theorem concur_ask (h : Core strict m m') (world : World) (question : Question) :
    Concur strict (world.ask question m) (world.ask question m') := by
  unfold World.ask
  rw [h.asked]
  cases world m.asked question with
  | none => exact .stopped
  | some answer => exact .done ⟨rfl, h.withAsked _⟩

omit hbody twins in
theorem concur_readScript (h : Core strict m m') (world : World) (path : String) :
    Concur strict (readScript world path m) (readScript world path m') := by
  refine Concur.bind (concur_ask h world (.fileContents path)) fun {answer n n'} core => ?_
  cases answer with
  | missing => exact .failed (.refl _) core
  | unreadable => exact .failed (.refl _) core
  | contents bytes =>
    have options : n'.options.maxScriptSize = n.options.maxScriptSize := by rw [core.options]
    dsimp only
    rw [bind_apply, bind_apply]
    change Concur strict ((if _ > n.options.maxScriptSize then _ else _ : Eval String) n)
      ((if _ > n'.options.maxScriptSize then _ else _ : Eval String) n')
    rw [options]
    split
    · exact .failed (.refl _) core
    · exact .done ⟨rfl, core⟩

theorem concur_file (h : Core strict m m') (path : String) :
    Concur strict (Eval.file r path m) (Eval.file r path m') :=
  Concur.bind (concur_reporting (concur_readScript h r.world path)) fun core =>
    concur_text hbody twins core _ true fun _ => rfl

end

/-! ### Definitions -/

/-- A symbol that is no function has no slice but its name. -/
theorem Memory.sights_eq_name (x : Memory) {s : Symbol Native} (h : ∀ arity, s.tag ≠ .func arity) :
    x.sights strict s = [x.sight strict s.name] := by
  have name : x.tracked true s = [s.name] := Memory.tracked_eq_name x fun _ => h
  change (x.tracked true s).map _ = _
  rw [name]
  rfl

theorem Core.addBytes (h : Core strict m m') {bytes : Bytes} {slice slice' : Slice}
    {arena arena' : Arena Native} (granted : m.arena.addBytes bytes = some (slice, arena))
    (granted' : m'.arena.addBytes bytes = some (slice', arena')) :
    Core strict (m.withArena arena) (m'.withArena arena') := by
  refine h.quiet (quiet_addBytes h.sound granted) (quiet_addBytes h.sound' granted') ?_ fun hstrict => ?_
  all_goals
    obtain ⟨-, -, rfl⟩ := Arena.addBytes_eq_some granted
    obtain ⟨-, -, rfl⟩ := Arena.addBytes_eq_some granted'
  · exact h.table.routines
  · exact congrArg (· + wordAligned bytes.length) (h.room hstrict).2

/-- Both tables get a symbol more that is no function, under names that look the same. -/
theorem Core.addPlain (h : Core strict m m') {name name' : Slice} {tag tag' : Tag Native} {value : Word}
    {index index' : Nat} {arena arena' : Arena Native}
    (granted : m.arena.addSymbol name tag value = some (index, arena))
    (granted' : m'.arena.addSymbol name' tag' value = some (index', arena'))
    (alike : tag.Alike strict tag') (hfunc : ∀ arity, tag ≠ .func arity)
    (held : m.memory.Holds name) (held' : m'.memory.Holds name')
    (sight : m'.memory.sight strict name' = m.memory.sight strict name) :
    index' = index ∧ Core strict (m.withArena arena) (m'.withArena arena') := by
  have hfunc' : ∀ arity, tag' ≠ .func arity := by
    rintro arity rfl
    cases alike
    exact hfunc arity rfl
  have honest : ∀ {native arity}, tag = .native native arity → ∀ args, (native args).Honest := by
    rintro native arity rfl args
    cases alike with
    | same other => exact absurd rfl (other native arity)
    | native _ natives => exact (natives args).honest.1
  have honest' : ∀ {native arity}, tag' = .native native arity → ∀ args, (native args).Honest := by
    rintro native arity rfl args
    cases alike with
    | same other => exact absurd rfl (other native arity)
    | native _ natives => exact (natives args).honest.2
  refine h.addSymbol granted granted' ⟨alike, rfl, ?_⟩ ?_ ?_
  · rw [Memory.sights_eq_name m'.memory hfunc', Memory.sights_eq_name m.memory hfunc, sight]
  · exact h.sound.withArena_grows (h.sound.intact.addSymbol granted
      (Memory.admits_of_name held (fun _ => hfunc) fun _ => honest)) (Memory.Grows.addSymbol granted)
  · exact h.sound'.withArena_grows (h.sound'.intact.addSymbol granted'
      (Memory.admits_of_name held' (fun _ => hfunc') fun _ => honest')) (Memory.Grows.addSymbol granted')

theorem concur_define (h : Core strict m m') (name : String) {tag tag' : Tag Native} (value : Word)
    (alike : tag.Alike strict tag') (hfunc : ∀ arity, tag ≠ .func arity) :
    Concur strict (define name tag value m) (define name tag' value m') := by
  unfold define
  rw [alike.arity?]
  split
  · exact .failed (.refl _) h
  · refine Paired.bind (D := fun slice slice' n n' => Core strict n n' ∧ n.memory.Holds slice ∧
      n'.memory.Holds slice' ∧ n'.memory.sight strict slice' = n.memory.sight strict slice)
      (paired_allocate (fun _ he => he) (fun _ he => he) (fun hstrict => ?_) h
        fun granted granted' => ⟨h.addBytes granted granted', ?_, ?_, ?_⟩)
      fun {slice slice' n n'} ⟨core, held, held', sight⟩ => ?_
    · rw [Arena.isSome_addBytes, Arena.isSome_addBytes, h.free hstrict]
    · exact (Memory.holds_addBytes (a := m.memory) granted).2
    · exact (Memory.holds_addBytes (a := m'.memory) granted').2
    · exact (Memory.sight_addBytes strict (x := m'.memory) granted').trans
        (Memory.sight_addBytes strict (x := m.memory) granted).symm
    · refine paired_allocate (fun _ he => he) (fun _ he => he) (fun hstrict => ?_) core
        fun granted granted' => core.addPlain granted granted' alike hfunc held held' sight
      rw [Arena.isSome_addSymbol, Arena.isSome_addSymbol, core.free hstrict]

/-! ### Natives -/

section

variable {r : Reentry} (hbody : BodyDiscipline true r) (twins : Twins strict r)

include hbody twins

/-- Natives that do alike leave level machines level. -/
theorem concur_perform {action action' : Action} (alike : action.Alike strict action')
    (h : Core strict m m') : Concur strict (action.perform r m) (action'.perform r m') := by
  induction alike generalizing m m' with
  | give value => exact .done ⟨rfl, h⟩
  | fail he => exact .failed he h
  | @takeLiteral next next' _ ih =>
    change Concur strict ((next m.literals.takeOldest.1).perform r
        { m with literals := m.literals.takeOldest.2 })
      ((next' m'.literals.takeOldest.1).perform r { m' with literals := m'.literals.takeOldest.2 })
    rw [h.literals]
    exact ih _ (h.withLiterals _)
  | write hbytes _ ih => exact ih (h.write _ hbytes)
  | @look next next' hstrict _ ih =>
    change Concur strict ((next m.note.view).perform r m.note) ((next' m'.note.view).perform r m'.note)
    rw [h.note.view hstrict]
    exact ih _ h.note
  | @define name tag value next next' hstrict hplain _ _ ihok iherror =>
    have hnative : ∀ native arity, tag ≠ .native native arity := by rintro _ _ rfl; cases hplain
    have hfunc : ∀ arity, tag ≠ .func arity := by rintro _ rfl; cases hplain
    have enough : ∀ {e : Error}, ¬ Scarce strict e := fun he => by cases hstrict.symm.trans he.1
    exact Concur.attempt (concur_define h name value (.same hnative) hfunc) (fun core => ihok _ core)
      (fun he core => iherror _ _ he core) (fun he => absurd he enough) fun he => absurd he enough
  | @defineNative name native native' arity value next next' hstrict hnative _ _ _ ihok iherror =>
    have enough : ∀ {e : Error}, ¬ Scarce strict e := fun he => by cases hstrict.symm.trans he.1
    exact Concur.attempt (concur_define h name value (.native arity hnative) fun _ h => by cases h)
      (fun core => ihok _ core) (fun he core => iherror _ _ he core) (fun he => absurd he enough)
      fun he => absurd he enough
  | @evalText text duplicate topLevel next next' hstrict _ _ ihok iherror =>
    have enough : ∀ {e : Error}, ¬ Scarce strict e := fun he => by cases hstrict.symm.trans he.1
    exact Concur.attempt (concur_text hbody twins h text topLevel fun _ => rfl) (fun core => ihok core)
      (fun he core => iherror _ _ he core) (fun he => absurd he enough) fun he => absurd he enough
  | @evalFile path next next' hmemory _ _ ihok iherror =>
    refine Concur.attempt (concur_file hbody twins h path) (fun core => ihok core)
      (fun he core => iherror _ _ he core) (fun {e n} he => ?_) fun {e n} he => ?_
    · rw [(hmemory he.1 e he.2).1]
      rfl
    · rw [(hmemory he.1 e he.2).2]
      rfl
  | ask _ ih => exact Concur.bind (concur_ask h r.world _) fun core => ih _ core

end

/-! ### Functions -/

theorem concur_bindParameters {params params' : List Slice} (args : List Word)
    (sights : params'.map (m'.memory.sight strict) = params.map (m.memory.sight strict))
    (held : ∀ param ∈ params, m.memory.Holds param) (held' : ∀ param ∈ params', m'.memory.Holds param)
    (h : Core strict m m') :
    Concur strict (Call.bindParameters (params.zip args) m) (Call.bindParameters (params'.zip args) m') := by
  induction params generalizing params' args m m' with
  | nil =>
    cases params' with
    | nil => exact .done ⟨rfl, h⟩
    | cons => cases sights
  | cons param rest ih =>
    cases params' with
    | nil => cases sights
    | cons param' rest' =>
      cases args with
      | nil => exact .done ⟨rfl, h⟩
      | cons value args =>
        obtain ⟨first, later⟩ := List.cons.inj sights
        have heldFirst := held param List.mem_cons_self
        have heldFirst' := held' param' List.mem_cons_self
        refine Paired.bind (D := fun _ _ n n' => Core strict n n' ∧ Grows m n ∧ Grows m' n')
          (paired_allocate (fun _ he => he) (fun _ he => he) (fun hstrict => ?_) h
            fun granted granted' => ⟨?_, Memory.Grows.addSymbol granted, Memory.Grows.addSymbol granted'⟩)
          fun {_ _ n n'} ⟨core, g, g'⟩ => ih args ?_ (fun param hmem => ?_) (fun param hmem => ?_) core
        · rw [Arena.isSome_addSymbol, Arena.isSome_addSymbol, h.free hstrict]
        · exact (h.addPlain granted granted' (.same fun _ _ h => by cases h) (fun _ h => by cases h)
            heldFirst heldFirst' first).2
        · rw [List.map_congr_left fun param hmem => g.sight (held param (List.mem_cons_of_mem _ hmem)),
            List.map_congr_left fun param hmem => g'.sight (held' param (List.mem_cons_of_mem _ hmem)),
            later]
        · exact g.holds (held param (List.mem_cons_of_mem _ hmem))
        · exact g'.holds (held' param (List.mem_cons_of_mem _ hmem))

/-- Routines that look the same, run on the same arguments. -/
theorem concur_runRoutine {r : Reentry} (twins : Twins strict r) {routine routine' : Routine}
    (args : List Word) (h : Core strict m m')
    (held : ∀ slice ∈ routine.body :: routine.params, m.memory.Holds slice)
    (held' : ∀ slice ∈ routine'.body :: routine'.params, m'.memory.Holds slice)
    (body : m'.memory.sight strict routine'.body = m.memory.sight strict routine.body)
    (params : routine'.params.map (m'.memory.sight strict) =
      routine.params.map (m.memory.sight strict)) :
    Concur strict (Call.runRoutine r routine args m) (Call.runRoutine r routine' args m') := by
  unfold Call.runRoutine Call.inFrame
  refine Concur.restoring (Prod.ext h.size_symbols h.result) ?_ fun core =>
    (core.rollback m.arena.symbols.size).withResult m.result
  have bound := concur_bindParameters args params
    (fun param hmem => held param (List.mem_cons_of_mem _ hmem))
    (fun param hmem => held' param (List.mem_cons_of_mem _ hmem)) h
  have grows := (drifts_bindParameters (routine.params.zip args) m).grows
  have grows' := (drifts_bindParameters (routine'.params.zip args) m').grows
  have heldBody := held _ List.mem_cons_self
  have heldBody' := held' _ List.mem_cons_self
  refine Paired.bind (D := fun _ _ n n' => Core strict n n' ∧ Grows m n ∧ Grows m' n')
    (Paired.imp bound (fun _ he => he) (fun _ he => he) (fun ho ho' ⟨_, core⟩ => ?_) fun _ _ core => core)
    fun {_ _ n n'} ⟨core, g, g'⟩ => ?_
  · rw [ho] at grows
    rw [ho'] at grows'
    exact ⟨core, grows, grows'⟩
  · have same : n'.memory.sight strict routine'.body = n.memory.sight strict routine.body := by
      rw [g.sight heldBody, g'.sight heldBody', body]
    change Concur strict
      ((do let _ ← r.body routine.body false false; read (·.result) : Eval Word) { n with result := 0 })
      ((do let _ ← r.body routine'.body false false; read (·.result) : Eval Word) { n' with result := 0 })
    exact Concur.bind (twins.body false (core.withResult 0) (g.holds heldBody) (g'.holds heldBody') same
      fun _ => rfl) fun core => .done ⟨core.result, core⟩

theorem Memory.Intact.holds_routine {x : Memory} (h : x.Intact true) {i : Nat} {s : Symbol Native}
    (found : x.arena.symbols[i]? = some s) {arity : Nat} (htag : s.tag = .func arity) {routine : Routine}
    (hroutine : x.routine? s.value = some routine) :
    ∀ slice ∈ routine.body :: routine.params, x.Holds slice := by
  intro slice hmem
  refine (h.symbols found).held slice ?_
  change slice ∈ x.slices s
  rw [Memory.slices, htag, hroutine]
  exact List.mem_cons_of_mem _ hmem

/-- A function that both tables have at the same place. -/
theorem concur_runFunction {r : Reentry} (twins : Twins strict r) {i : Nat}
    {s s' : Symbol Native} (h : Core strict m m')
    (found : m.arena.symbols[i]? = some s) (found' : m'.arena.symbols[i]? = some s') {arity : Nat}
    (htag : s.tag = .func arity) (args : List Word) :
    Concur strict (Call.runFunction r s.value args m) (Call.runFunction r s'.value args m') := by
  obtain ⟨routine, routine', hroutine, hroutine', body, params⟩ :=
    h.table.routine h.sound.intact h.sound'.intact found found' htag
  have htag' : s'.tag = .func arity :=
    ((h.table.symbols found found').tag.eq (by simp [htag])).trans htag
  rw [runFunction_apply r args hroutine, runFunction_apply r args hroutine']
  exact concur_runRoutine twins args h.note (h.sound.intact.holds_routine found htag hroutine)
    (h.sound'.intact.holds_routine found' htag' hroutine') body params

end Scriptlet
