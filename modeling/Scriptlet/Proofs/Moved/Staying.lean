import Scriptlet.Proofs.Moved.Tokens
import Scriptlet.Proofs.Twin.Outer

/-!
What runs outside the piece, on two machines of which the second has the other text: texts, files, natives
and functions. They do the same on both, with no exception, and come back to where each machine was
reading. A text that is evaluated takes the same slot on both sides, which is not the one that differs. A
function that was defined in the piece has its body there, so on the second machine it runs from another
place.
-/

namespace Scriptlet

open Text (Bytes)
open Eval

variable {α β : Type} {μ : Manner} {m m' n n' : Machine}

namespace Relocation

variable {ρ : Relocation}

variable (ρ) in
/-- What a computation outside the piece does on two machines. -/
def Stay (o o' : Outcome α) : Prop :=
  Matched (fun _ => False) (fun a a' n n' => a' = a ∧ ρ.Moved n n') ρ.Moved o o'

namespace Stay

variable {o o' : Outcome α}

theorem bind {x x' : Eval α} {f f' : α → Eval β} (h : ρ.Stay (x m) (x' m'))
    (next : ∀ {a n n'}, ρ.Moved n n' → ρ.Stay (f a n) (f' a n')) :
    ρ.Stay ((x >>= f) m) ((x' >>= f') m') := by
  rw [bind_apply, bind_apply]
  generalize x m = o at h
  generalize x' m' = o' at h
  cases h with
  | done h =>
    obtain ⟨rfl, moved⟩ := h
    exact next moved
  | failed h => exact .failed h
  | stopped => exact .stopped
  | apart h => exact h.elim

theorem adjust {g g' : Machine → Machine} (h : ρ.Stay o o')
    (hg : ∀ {n n'}, ρ.Moved n n' → ρ.Moved (g n) (g' n')) : ρ.Stay (o.adjust g) (o'.adjust g') := by
  cases h with
  | done h => exact .done ⟨h.1, hg h.2⟩
  | failed h => exact .failed (hg h)
  | stopped => exact .stopped
  | apart h => exact h.elim

theorem attempt {x x' : Eval α} (h : ρ.Stay (x m) (x' m')) : ρ.Stay (x.attempt m) (x'.attempt m') := by
  unfold Eval.attempt
  generalize x m = o at h
  generalize x' m' = o' at h
  cases h with
  | done h => exact .done ⟨congrArg _ h.1, h.2⟩
  | failed h => exact .done ⟨rfl, h⟩
  | stopped => exact .stopped
  | apart h => exact h.elim

/-- An error is written on both sides or on neither. -/
theorem reporting {x x' : Eval α} (h : ρ.Stay (x m) (x' m')) :
    ρ.Stay (Eval.reporting x m) (Eval.reporting x' m') := by
  unfold Eval.reporting
  generalize x m = o at h
  generalize x' m' = o' at h
  cases h with
  | done h => exact .done h
  | @failed e n n' h =>
    have depth : n'.depth = n.depth := by cases h; rfl
    dsimp only
    rw [depth]
    split
    · exact .failed (h.write _ _)
    · exact .failed h
  | stopped => exact .stopped
  | apart h => exact h.elim

theorem allocate {f f' : Arena Native → Option (α × Arena Native)} (h : ρ.Moved m m')
    (same : f' (ρ.arena m.arena) = (f m.arena).map (Prod.map id ρ.arena))
    (settled : ∀ {a arena}, f m.arena = some (a, arena) → ρ.Settled (m.withArena arena)) :
    ρ.Stay (Eval.allocate f m) (Eval.allocate f' m') := by
  unfold Eval.allocate
  rw [h.arena, same]
  cases granted : f m.arena with
  | none => exact .failed h
  | some given => exact .done ⟨rfl, h.withArena (settled granted)⟩

/-- What has run outside leaves the machines where they were reading. -/
theorem follow (stay : ρ.Stay o o') (h : ρ.Abreast μ m m') (back : Unread m o.machine)
    (back' : Unread m' o'.machine) : ρ.Follow μ ((ρ.tandem μ).At fun _ t => t = m.token) o o' := by
  have place : ∀ {k k'}, k.cursor = m.cursor → k.token = m.token → k'.cursor = m'.cursor →
      k'.token = m'.token → ρ.Moved k k' → ρ.Abreast μ k k' := fun hc ht hc' ht' moved =>
    ⟨moved, by rw [hc, ht, hc', ht']; exact h.place⟩
  cases stay with
  | done stay => exact .done ⟨stay.1, back.token, place back.cursor back.token back'.cursor back'.token stay.2⟩
  | failed stay => exact .failed (place back.cursor back.token back'.cursor back'.token stay).fell
  | stopped => exact .stopped
  | apart h => exact h.elim

end Stay

theorem Follow.stay {P : Machine → Machine → Prop} {o o' : Outcome α} (h : ρ.Follow μ (Equally P) o o')
    (level : μ.Level) (even : μ.tail' = []) (moved : ∀ {k k'}, P k k' → ρ.Moved k k') : ρ.Stay o o' := by
  cases h with
  | done h => exact .done ⟨h.1, moved h.2⟩
  | failed h => exact .failed h.moved
  | stopped => exact .stopped
  | apart apart => exact absurd apart (Manner.not_apart level even)

/-! ### Questions and definitions -/

theorem stay_ask (h : ρ.Moved m m') (world : World) (question : Question) :
    ρ.Stay (world.ask question m) (world.ask question m') := by
  have asked : m'.asked = m.asked := by cases h; rfl
  unfold World.ask
  rw [asked]
  cases world m.asked question with
  | none => exact .stopped
  | some answer => exact .done ⟨rfl, h.withAsked _⟩

theorem stay_readScript (h : ρ.Moved m m') (world : World) (path : String) :
    ρ.Stay (readScript world path m) (readScript world path m') := by
  refine Stay.bind (stay_ask h world (.fileContents path)) fun {answer n n'} moved => ?_
  cases answer with
  | missing => exact .failed moved
  | unreadable => exact .failed moved
  | contents bytes =>
    have options : n'.options.maxScriptSize = n.options.maxScriptSize := by cases moved; rfl
    dsimp only
    rw [bind_apply, bind_apply]
    change ρ.Stay ((if _ > n.options.maxScriptSize then _ else _ : Eval String) n)
      ((if _ > n'.options.maxScriptSize then _ else _ : Eval String) n')
    rw [options]
    split
    · exact .failed moved
    · exact .done ⟨rfl, moved⟩

/-- A new symbol, of the same index and with its name moved. -/
theorem stay_addSymbol (h : ρ.Moved m m') {name : Slice} {tag : Tag Native} {value : Word}
    (admitted : ρ.Admits m.arena.routines ⟨name, tag, value⟩) :
    ρ.Stay (Eval.allocate (·.addSymbol name tag value) m)
      (Eval.allocate (·.addSymbol (ρ.slice name) tag value) m') :=
  Stay.allocate h (addSymbol_arena ..) fun granted => h.settled.addSymbol granted admitted

/-- A symbol for scripts to come has its name in the arena. -/
theorem stay_define (h : ρ.Moved m m') (name : String) {tag : Tag Native} (value : Word)
    (hfunc : ∀ arity, tag ≠ .func arity)
    (hnative : ∀ native arity, tag = .native native arity → ∀ args, (native args).Honest) :
    ρ.Stay (define name tag value m) (define name tag value m') := by
  unfold define
  split
  · exact .failed h
  · rw [bind_apply, bind_apply]
    unfold Eval.allocate
    dsimp only
    rw [h.arena, addBytes_arena]
    cases granted : m.arena.addBytes (Text.encode name) with
    | none => exact .failed h
    | some given =>
      obtain ⟨slice, arena⟩ := given
      have moved := h.withArena (h.settled.addBytes granted)
      have durable : slice.source ≠ .text ρ.slot := by
        obtain ⟨-, rfl, -⟩ := Arena.addBytes_eq_some granted
        exact nofun
      have admitted : ρ.Admits arena.routines ⟨slice, tag, value⟩ :=
        ⟨ρ.within_of_ne durable, fun htag => absurd htag (hfunc _), fun htag => hnative _ _ htag⟩
      have added := stay_addSymbol moved admitted
      rw [ρ.slice_of_ne durable] at added
      exact added

/-! ### Parameters -/

theorem stay_bindParameters {params : List Slice} (args : List Word)
    (inside : ∀ param ∈ params, ρ.Inside param) (h : ρ.Moved m m') :
    ρ.Stay (Call.bindParameters (params.zip args) m)
      (Call.bindParameters ((params.map ρ.slice).zip args) m') := by
  induction params generalizing args m m' with
  | nil => exact .done ⟨rfl, h⟩
  | cons param rest ih =>
    cases args with
    | nil => exact .done ⟨rfl, h⟩
    | cons value args =>
      refine Stay.bind (stay_addSymbol h ⟨inside param List.mem_cons_self, nofun, nofun⟩) fun moved => ?_
      exact ih args (fun param hmem => inside param (List.mem_cons_of_mem _ hmem)) moved

/-! ### Bodies, and what runs them -/

variable (ρ) in
/-- What is known, on two machines, of the bodies that are nested in a construct. -/
def BodiesMove (r : Reentry) : Prop :=
  ∀ {m m' body} topLevel duplicate, ρ.Moved m m' → ρ.Inside body →
    ρ.Stay (r.body body topLevel duplicate m) (r.body (ρ.slice body) topLevel duplicate m')

section

variable {r : Reentry} (bodies : ρ.BodiesMove r)

include bodies

/-- A text takes another slot than the one that differs. -/
theorem stay_text (h : ρ.Moved m m') (text : String) (duplicate topLevel : Bool) :
    ρ.Stay (Eval.text r text duplicate topLevel m) (Eval.text r text duplicate topLevel m') := by
  refine Stay.reporting ?_
  have noted := h.note
  have there := noted.settled.text
  obtain ⟨other, retained⟩ := retain_texts there (Text.encode text).toArray
  have after := (Texts.text?_retain m.note.texts (Text.encode text).toArray ρ.slot).trans
    ((if_neg (Ne.symm other)).trans there)
  unfold holding
  dsimp only
  rw [noted.texts, retained]
  dsimp only
  generalize m.note.texts.retain (Text.encode text).toArray = taken at other after ⊢
  have elsewhere : (Slice.mk (.text taken.1) 0 (Text.encode text).length).source ≠ .text ρ.slot :=
    fun same => other (Source.text.inj same)
  refine Stay.adjust ?_ fun {n n'} moved => ?_
  · unfold entering
    have depth : m'.depth = m.depth := by cases h; rfl
    have entered : ρ.Moved { m.note.withTexts taken.2 with depth := m.depth + 1 }
        { m'.note.withTexts (ρ.texts taken.2) with depth := m'.depth + 1 } := by
      rw [depth]
      exact (noted.withTexts after).withDepth _
    refine Stay.adjust (Stay.bind ?_ fun moved => .done ⟨rfl, moved⟩) fun {n n'} moved => ?_
    · have body := bodies topLevel duplicate entered (ρ.within_of_ne elsewhere)
      rw [ρ.slice_of_ne elsewhere] at body
      exact body
    · have depth : n'.depth = n.depth := by cases moved; rfl
      rw [depth]
      exact moved.withDepth _
  · cases !duplicate && topLevel with
    | true => exact moved
    | false =>
      rw [moved.texts, release_texts moved.settled.text other]
      refine moved.withTexts ?_
      rw [Texts.text?_release, if_neg (Ne.symm other)]
      exact moved.settled.text

theorem stay_file (h : ρ.Moved m m') (path : String) :
    ρ.Stay (Eval.file r path m) (Eval.file r path m') :=
  Stay.bind (Stay.reporting (stay_readScript h r.world path)) fun moved => stay_text bodies moved _ true true

/-- Natives that leave it to scripts to define functions. -/
theorem stay_perform (fits : ρ.Fits) {action : Action} (honest : action.Honest) (h : ρ.Moved m m') :
    ρ.Stay (action.perform r m) (action.perform r m') := by
  induction honest generalizing m m' with
  | give value => exact .done ⟨rfl, h⟩
  | fail error => exact .failed h
  | @takeLiteral next _ ih =>
    change ρ.Stay ((next m.literals.takeOldest.1).perform r
        { m with literals := m.literals.takeOldest.2 })
      ((next m'.literals.takeOldest.1).perform r { m' with literals := m'.literals.takeOldest.2 })
    rw [h.literals]
    exact ih _ (h.withLiterals _)
  | @write stream bytes next _ ih => exact ih (h.write stream bytes)
  | @look next _ ih =>
    change ρ.Stay ((next m.note.view).perform r m.note) ((next m'.note.view).perform r m'.note)
    rw [h.note.view fits]
    exact ih _ h.note
  | define hfunc hnative _ _ ih =>
    exact Stay.bind (Stay.attempt (stay_define h _ _ hfunc hnative)) fun moved => ih _ moved
  | evalText _ ih => exact Stay.bind (Stay.attempt (stay_text bodies h _ _ _)) fun moved => ih _ moved
  | evalFile _ ih => exact Stay.bind (Stay.attempt (stay_file bodies h _)) fun moved => ih _ moved
  | ask _ ih => exact Stay.bind (stay_ask h r.world _) fun moved => ih _ moved

theorem stay_runRoutine {routine : Routine} (args : List Word) (h : ρ.Moved m m')
    (params : ∀ param ∈ routine.params, ρ.Inside param) (body : ρ.Inside routine.body) :
    ρ.Stay (Call.runRoutine r routine args m) (Call.runRoutine r (ρ.routine routine) args m') := by
  have result : m'.result = m.result := by cases h; rfl
  unfold Call.runRoutine Call.inFrame restoring
  dsimp only
  rw [h.size_symbols, result]
  refine Stay.adjust ?_ fun moved => (moved.rollback _).withResult _
  refine Stay.bind (stay_bindParameters args params h) fun {_ n n'} moved => ?_
  change ρ.Stay
    ((do let _ ← r.body routine.body false false; read (·.result) : Eval Word) { n with result := 0 })
    ((do let _ ← r.body (ρ.slice routine.body) false false; read (·.result) : Eval Word)
      { n' with result := 0 })
  refine Stay.bind (bodies false false (moved.withResult 0) body) fun {_ k k'} moved => ?_
  have result : k'.result = k.result := by cases moved; rfl
  exact .done ⟨result, moved⟩

theorem stay_runFunction {s : Symbol Native} (h : ρ.Moved m m') (admits : ρ.Admits m.arena.routines s)
    {arity : Nat} (htag : s.tag = .func arity) (args : List Word) :
    ρ.Stay (Call.runFunction r s.value args m) (Call.runFunction r s.value args m') := by
  obtain ⟨number, routine, index, found, movable⟩ := admits.func htag
  have here : m.memory.routine? s.value = some routine := by
    rw [Memory.routine?, index]
    exact found
  have there : m'.memory.routine? s.value = some (ρ.routine routine) := by
    rw [Memory.routine?, index]
    change m'.arena.routines[number]? = _
    rw [h.arena]
    change (m.arena.routines.mapIdx ρ.routineAt)[number]? = _
    rw [Array.getElem?_mapIdx, found, Option.map_some, routineAt_eq movable]
  rw [runFunction_apply r args here, runFunction_apply r args there]
  exact stay_runRoutine bodies args h.note movable.params movable.body

/-! ### Callees -/

omit bodies in
theorem stay_popOnto (words : List Word) (count : Nat) (h : ρ.Moved m m') :
    ∃ args n n', popOnto words count m = .done args n ∧ popOnto words count m' = .done args n' ∧
      ρ.Moved n n' ∧ n.arena.routines = m.arena.routines := by
  induction count generalizing words m m' with
  | zero => exact ⟨words, m, m', rfl, rfl, h, rfl⟩
  | succ count ih =>
    obtain ⟨args, n, n', popped, popped', moved, routines⟩ := ih (m.arena.stack.back?.getD 0 :: words)
      (h.withStack m.arena.stack.pop)
    rw [← h.stack] at popped'
    exact ⟨args, n, n', popped, popped', moved, routines⟩

theorem stay_runCallee (fits : ρ.Fits) {s : Symbol Native} (h : ρ.Moved m m')
    (admits : ρ.Admits m.arena.routines s) (args : List Word) (literals : Nat) :
    ρ.Stay (Call.runCallee r s args literals m) (Call.runCallee r (ρ.symbol s) args literals m') := by
  have tag : (ρ.symbol s).tag = s.tag := rfl
  unfold Call.runCallee
  rw [tag]
  split
  · exact .failed h
  · cases htag : s.tag with
    | native native arity =>
      change ρ.Stay (withPending literals ((native args).perform r) m)
        (withPending literals ((native args).perform r) m')
      unfold withPending
      dsimp only
      rw [h.literals]
      have ran := stay_perform bodies fits (admits.native htag args)
        (h.withLiterals (m.literals.openFrame literals).2)
      refine Stay.adjust ran fun {n n'} moved => ?_
      rw [moved.literals]
      exact moved.withLiterals _
    | func arity => exact stay_runFunction bodies h admits htag args
    | _ => exact .failed h

/-- A callee runs on arguments that were taken off the stack. -/
theorem stay_handOver (fits : ρ.Fits) {s : Symbol Native} (h : ρ.Moved m m')
    (admits : ρ.Admits m.arena.routines s) (count literals : Nat) :
    ρ.Stay (Call.handOver r s count literals m) (Call.handOver r (ρ.symbol s) count literals m') := by
  refine Stay.adjust ?_ fun {n n'} moved => ?_
  · obtain ⟨args, n, n', popped, popped', moved, routines⟩ := stay_popOnto [] count h
    rw [bind_apply, bind_apply, popWords, popped, popped']
    exact stay_runCallee bodies fits moved (by rw [routines]; exact admits) args literals
  · rw [moved.literals]
    exact moved.withLiterals _

end

end Relocation

end Scriptlet
