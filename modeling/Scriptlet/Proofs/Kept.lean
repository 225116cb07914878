import Scriptlet.Proofs.Slices

/-!
What scripts keep. The slices that a script can get hold of are those of its tokens, and they are
inside the store that the cursor reads. A definition keeps such slices as they are or copies them, and
either way they are held for as long as the symbol that has them. With this, what is known of bodies
follows for every budget.
-/

namespace Scriptlet

open Eval

variable {whole : Bool}

/-! ### The place of reading -/

def Token.slice? : Token → Option Slice
  | .name slice => some slice
  | .text slice => some slice
  | _ => none

/-- Where the slices are that the machine keeps of what it reads. -/
def Machine.home (m : Machine) : Source := keepSource m.cursor.source m.duplicate

/-- The window of the cursor and the slice of the token are inside the store that is read. -/
structure Placed (m : Machine) : Prop where
  window : m.cursor.scanner.limit ≤ (m.store m.cursor.source).size
  token : ∀ {slice}, m.token.slice? = some slice → slice.source = m.cursor.source ∧
    0 < slice.stop ∧ slice.stop ≤ (m.store m.cursor.source).size

theorem Placed.grows {m m' : Machine} (h : Placed m) (g : Grows m m') (hc : m'.cursor = m.cursor)
    (ht : m'.token = m.token) : Placed m' := by
  have larger := g.size_store_le m.cursor.source
  constructor
  · rw [hc]
    exact Nat.le_trans h.window larger
  · intro slice hslice
    rw [ht] at hslice
    obtain ⟨source, pos, stop⟩ := h.token hslice
    rw [hc]
    exact ⟨source, pos, Nat.le_trans stop larger⟩

/-- What holds after a step in a script, seen from a sound machine that is reading. -/
structure After (whole : Bool) (m m' : Machine) : Prop extends Reached whole m.home m m' where
  placed : Placed m'
  source : m'.cursor.source = m.cursor.source
  duplicate : m'.duplicate = m.duplicate

theorem After.home {m m' : Machine} (h : After whole m m') : m'.home = m.home := by
  unfold Machine.home
  rw [h.source, h.duplicate]

theorem After.trans {m m' m'' : Machine} (h : After whole m m') (k : After whole m' m'') :
    After whole m m'' :=
  ⟨h.toReached.trans (h.home ▸ k.toReached), k.placed, k.source.trans h.source,
    k.duplicate.trans h.duplicate⟩

/-- A machine may go back to where it was reading. -/
theorem After.rewind {m m' : Machine} (h : After whole m m') (placed : Placed m) :
    After whole m { m' with cursor := m.cursor } := by
  have larger := h.grows.size_store_le m.cursor.source
  refine ⟨⟨h.grows, ⟨h.sound.intact, h.sound.told⟩, h.lands⟩, ⟨?_, fun {slice} hslice => ?_⟩, rfl,
    h.duplicate⟩
  · exact Nat.le_trans placed.window larger
  · have token := h.placed.token hslice
    rw [h.source] at token
    exact token

/-- What an expression or a statement does to a sound machine that is reading. -/
def Inner (whole : Bool) (m m' : Machine) : Prop := m.Sound whole → Placed m → After whole m m'

theorem inner_track (whole : Bool) : Track (Inner whole) where
  refl _ hs hr := ⟨.of_memory hs rfl rfl, hr, rfl, rfl⟩
  trans h k hs hr := (h hs hr).trans (k (h hs hr).sound (h hs hr).placed)

/-- Where new symbols are in slots that were free, they may be said to be at home too. -/
theorem Reached.anywhere {m m' : Machine} (h : Reached whole .durable m m') (home : Source) :
    Reached whole home m m' := by
  refine ⟨h.grows, h.sound, fun i s hi found slice hmem slot hslot => ?_⟩
  rcases h.lands hi found slice hmem hslot with free | impossible
  · exact .inl free
  · cases impossible

/-- A step of something else, which comes back to the place of reading. -/
theorem after_of_returned {m m' : Machine} (hr : Placed m) (h : Reached whole m.home m m')
    (back : Returned m m') : After whole m m' :=
  ⟨h, hr.grows h.grows back.cursor back.token, congrArg _ back.cursor, back.duplicate⟩

theorem after_of_memory {m m' : Machine} (hs : m.Sound whole) (hr : Placed m)
    (hmemory : m'.memory = m.memory) (hhistory : m'.history = m.history)
    (hc : m'.cursor = m.cursor) (ht : m'.token = m.token) (hd : m'.duplicate = m.duplicate) :
    After whole m m' := by
  have h : Reached whole m.home m m' := .of_memory hs hmemory hhistory
  exact ⟨h, hr.grows h.grows hc ht, congrArg _ hc, hd⟩

/-! ### Reading a token -/

/-- The slice of a token is what the lexeme points out. -/
theorem resolve_slice {raw : Bool} {lexeme : Lexeme} {m m' : Machine} {token : Token}
    (h : resolve raw lexeme m = .done token m') {slice : Slice} (hslice : token.slice? = some slice) :
    ∃ place, lexeme.place? = some place ∧ slice = .ofSpan m.cursor.source place := by
  cases lexeme with
  | name place =>
    simp only [resolve] at h
    split at h
    · cases h
      cases hslice
      exact ⟨place, rfl, rfl⟩
    · split at h
      · cases h
        cases hslice
      · cases h
        cases hslice
        exact ⟨place, rfl, rfl⟩
  | operator place =>
    simp only [resolve] at h
    split at h
    · cases h
      cases hslice
    · cases h
  | block inside =>
    cases h
    cases hslice
    exact ⟨inside, rfl, rfl⟩
  | quote inside =>
    simp only [resolve] at h
    split at h
    · cases h
      cases hslice
      exact ⟨inside, rfl, rfl⟩
    · cases h
      cases hslice
  | eof => cases h; cases hslice
  | newline => cases h; cases hslice
  | semicolon => cases h; cases hslice
  | comma => cases h; cases hslice
  | openParen => cases h; cases hslice
  | closeParen => cases h; cases hslice
  | number value => cases h; cases hslice

/-- A token that was read is inside, whatever the token before was. -/
theorem placed_of_advanceBy {raw : Bool} {m m' : Machine}
    (window : m.cursor.scanner.limit ≤ (m.store m.cursor.source).size)
    (h : advanceBy raw m = .done () m') : Placed m' := by
  obtain ⟨lexeme, after, token, literals, next, resolved, rfl⟩ := advanceBy_eq_done h
  have within := Scanner.within_next next
  refine ⟨Nat.le_trans (Nat.le_of_eq within.limit) window, fun {slice} hslice => ?_⟩
  obtain ⟨place, hplace, rfl⟩ := resolve_slice resolved hslice
  obtain ⟨ordered, pos, stop⟩ := within.place hplace
  have end_eq : (Slice.ofSpan m.cursor.source place).stop = place.stop := by
    simp only [Slice.stop, Slice.ofSpan]
    omega
  refine ⟨rfl, ?_, ?_⟩
  · exact end_eq.symm ▸ pos
  · exact end_eq.symm ▸ Nat.le_trans stop window

theorem advanceBy_limit (raw : Bool) (m : Machine) :
    (advanceBy raw m).machine.cursor.scanner.limit = m.cursor.scanner.limit := by
  rcases advanceBy_cases raw m with ⟨_, _, _, _, next, -, -, h⟩ | ⟨_, _, next, h⟩ | ⟨_, _, -, h⟩ <;>
    rw [h]
  · exact (Scanner.within_next next).limit
  · exact (Scanner.within_next next).limit
  · rfl

theorem reached_advanceBy {home : Source} (raw : Bool) {m : Machine} (hs : m.Sound whole) :
    Reached whole home m (advanceBy raw m).machine := by
  obtain ⟨cursor, token, literals, hm, -⟩ := advanceBy_machine raw m
  rw [hm]
  exact .of_memory hs rfl rfl

/-- A failure to read on leaves the token that was there. -/
theorem advanceBy_token {raw : Bool} {m : Machine} (h : ∀ m', advanceBy raw m ≠ .done () m') :
    (advanceBy raw m).machine.token = m.token := by
  rcases advanceBy_cases raw m with ⟨_, _, _, _, -, -, -, done⟩ | ⟨_, _, -, failed⟩ |
    ⟨_, _, -, failed⟩
  · exact absurd done (h _)
  · rw [failed]
    rfl
  · rw [failed]
    rfl

theorem inner_advanceBy (raw : Bool) : Keeps (Inner whole) (advanceBy raw) := by
  intro m hs hp
  have reached : Reached whole m.home m (advanceBy raw m).machine := reached_advanceBy raw hs
  have limit := advanceBy_limit raw m
  obtain ⟨cursor, token, literals, hm, source, -⟩ := advanceBy_machine raw m
  have source' : (advanceBy raw m).machine.cursor.source = m.cursor.source := by
    rw [hm]
    exact source
  refine ⟨reached, ?_, source', by rw [hm]⟩
  by_cases done : ∃ m', advanceBy raw m = .done () m'
  · obtain ⟨m', done⟩ := done
    rw [done]
    exact placed_of_advanceBy hp.window done
  · have same := advanceBy_token fun m' h => done ⟨m', h⟩
    have larger := reached.grows.size_store_le m.cursor.source
    constructor
    · rw [limit, source']
      exact Nat.le_trans hp.window larger
    · intro slice hslice
      rw [same] at hslice
      obtain ⟨hsource, pos, stop⟩ := hp.token hslice
      rw [source']
      exact ⟨hsource, pos, Nat.le_trans stop larger⟩

/-! ### Calls and assignments -/

section

variable {r : Reentry} (hbody : BodyDiscipline whole r) (hexpr : Keeps (Inner whole) r.expression)

include hbody hexpr

theorem inner_loose : LooseDiscipline (Inner whole) r where
  toTrack := inner_track whole
  stack m stack hs hp := by
    have g : Grows m (m.withArena { m.arena with stack }) := Memory.Grows.of_eq rfl rfl rfl rfl
    have reached : Reached whole m.home m (m.withArena { m.arena with stack }) :=
      .of_size g (hs.withArena_grows (hs.intact.stack stack) g) (Nat.le_refl _)
    exact ⟨reached, hp.grows g rfl rfl, rfl, rfl⟩
  literals _ _ hs hp := after_of_memory hs hp rfl rfl rfl rfl rfl
  quoting _ _ hs hp := after_of_memory hs hp rfl rfl rfl rfl rfl
  advanceBy := inner_advanceBy
  expression := hexpr
  perform {m m' index s native arity} found htag hm args hs hp := by
    have h := hm hs hp
    have honest : whole = true → (native args).Honest := fun hw =>
      (hs.intact.symbols found).honest hw htag args
    have ran := (outer_perform hbody honest m' h.sound).anywhere m'.home
    exact h.trans (after_of_returned h.placed ran
      ((returned_acting hbody.bracket).perform (native args) m'))
  runFunction {m m' index s arity} found htag hm args hs hp := by
    have h := hm hs hp
    have held : whole = true → ∀ {routine}, m'.memory.routine? s.value = some routine →
        m'.memory.Holds routine.body := by
      intro hw routine hroutine
      subst hw
      have admits := hs.intact.symbols found
      obtain ⟨routine', hroutine'⟩ := admits.described rfl htag
      have same := h.grows.routine? hroutine'
      rw [hroutine] at same
      cases same
      refine h.grows.holds (admits.held _ ?_)
      change _ ∈ m.memory.slices s
      simp [Memory.slices, htag, hroutine']
    have ran : Reached whole m'.home m' (Call.runFunction r s.value args m').machine :=
      reached_runFunction hbody h.sound s.value args held
    exact h.trans (after_of_returned h.placed ran
      (bracketed_runFunction hbody.bracket s.value args m').toReturned)

omit hbody in
theorem inner_assigning : AssigningDiscipline (Inner whole) r where
  toTrack := inner_track whole
  advanceBy := inner_advanceBy
  expression := hexpr
  setValue {m m' index s} found hvar hm value hs hp := by
    have h := hm hs hp
    obtain ⟨s', found', lasts⟩ := h.grows.symbols found
    have hvar' : s'.tag = .var := lasts.tag.trans hvar
    have g : Grows m' (m'.withArena (m'.arena.setValue index value)) :=
      (Memory.Grows.refl m'.memory).setValue found' hvar' value
    have sound := h.sound.withArena_grows (h.sound.intact.setValue found' hvar' value) g
    have reached : Reached whole m'.home m' (m'.withArena (m'.arena.setValue index value)) :=
      .of_size g sound (Nat.le_of_eq (Array.size_modify ..))
    exact h.trans ⟨reached, h.placed.grows g rfl rfl, rfl, rfl⟩

end

/-! ### Definitions -/

/-- A slice that a definition can keep: it is at home, and is held. -/
structure Kept (m : Machine) (slice : Slice) : Prop where
  source : slice.source = m.home
  held : m.memory.Holds slice

theorem Kept.after {m m' : Machine} {slice : Slice} (h : Kept m slice) (k : After whole m m') :
    Kept m' slice := ⟨h.source.trans k.home.symm, k.grows.holds h.held⟩

/-- What a computation has done to the machine, and what it has given. -/
structure Yields {α : Type} (whole : Bool) (m : Machine) (Q : α → Machine → Prop) (o : Outcome α) :
    Prop where
  after : After whole m o.machine
  result : ∀ {a m'}, o = .done a m' → Q a m'

theorem Yields.bind {α β : Type} {m : Machine} {Q : α → Machine → Prop} {P : β → Machine → Prop}
    {x : Eval α} {f : α → Eval β} (hx : Yields whole m Q (x m))
    (hf : ∀ a m₁, After whole m m₁ → Q a m₁ → Yields whole m₁ P (f a m₁)) :
    Yields whole m P ((x >>= f) m) := by
  constructor
  · refine related_bind hx.after fun a m₁ done h₁ => ?_
    exact h₁.trans (hf a m₁ h₁ (hx.result done)).after
  · intro b m' h
    obtain ⟨a, m₁, done, h⟩ := bind_eq_done h
    have h₁ := hx.after
    rw [done] at h₁
    exact (hf a m₁ h₁ (hx.result done)).result h

section

variable {α : Type} {m : Machine} (hs : m.Sound whole) (hp : Placed m)

include hs hp

theorem yields_of_inner {x : Eval α} (hx : Keeps (Inner whole) x) :
    Yields whole m (fun _ _ => True) (x m) := ⟨hx m hs hp, fun _ => trivial⟩

theorem yields_read (f : Machine → α) :
    Yields whole m (fun a m' => a = f m ∧ m' = m) (read f m) := by
  refine ⟨(inner_track whole).refl m hs hp, fun done => ?_⟩
  cases done
  exact ⟨rfl, rfl⟩

theorem yields_pure {Q : α → Machine → Prop} {a : α} (ha : Q a m) :
    Yields whole m Q ((pure a : Eval α) m) := by
  refine ⟨(inner_track whole).refl m hs hp, fun done => ?_⟩
  cases done
  exact ha

theorem yields_fail {Q : α → Machine → Prop} (e : Error) :
    Yields whole m Q ((fail e : Eval α) m) := by
  refine ⟨(inner_track whole).refl m hs hp, fun done => ?_⟩
  cases done

theorem yields_allocate {Q : α → Machine → Prop} {f : Arena Native → Option (α × Arena Native)}
    (hf : ∀ a arena, f m.arena = some (a, arena) →
      Reached whole m.home m (m.withArena arena) ∧ Q a (m.withArena arena)) :
    Yields whole m Q (allocate f m) := by
  constructor
  · refine related_allocate (inner_track whole) (fun a arena granted hs hp => ?_) hs hp
    have reached := (hf a arena granted).1
    exact ⟨reached, hp.grows reached.grows rfl rfl, rfl, rfl⟩
  · intro a m' done
    obtain ⟨arena, granted, rfl⟩ := allocate_eq_done done
    exact (hf a arena granted).2

/-- A slice of the text that is read is held by it, and a copy is held by the durable bytes. -/
theorem yields_keep {slice : Slice} (htoken : m.token.slice? = some slice) :
    Yields whole m (fun kept m' => Kept m' kept) (Eval.keep slice m) := by
  obtain ⟨source, pos, stop⟩ := hp.token htoken
  have asIs : m.memory.Holds slice → m.home = slice.source →
      Yields whole m (fun kept m' => Kept m' kept) (.done slice m) := fun held home =>
    yields_pure hs hp ⟨home.symm, held⟩
  unfold Eval.keep
  cases hsource : slice.source with
  | text slot =>
    have hcursor : m.cursor.source = .text slot := source.symm.trans hsource
    dsimp only
    cases hdup : m.duplicate with
    | true =>
      rw [if_pos rfl]
      refine yields_allocate hs hp fun kept arena granted => ?_
      obtain ⟨durable, held⟩ := Memory.holds_addBytes (a := m.memory) granted
      refine ⟨reached_addBytes hs granted, durable.trans ?_, held⟩
      change Source.durable = keepSource m.cursor.source m.duplicate
      rw [hcursor, hdup]
      rfl
    | false =>
      refine asIs ?_ (by rw [Machine.home, hdup, keepSource_false, source])
      -- the store is not empty, so there is a text
      rw [hcursor] at stop
      change slice.stop ≤ (m.texts.get slot).size at stop
      unfold Memory.Holds
      rw [hsource]
      change (m.texts.text? slot).isSome = true
      cases held : m.texts.text? slot with
      | some text => rfl
      | none =>
        simp only [Texts.get, held, Option.getD_none, List.size_toArray, List.length_nil] at stop
        omega
  | durable =>
    have hcursor : m.cursor.source = .durable := source.symm.trans hsource
    refine asIs ?_ (by rw [Machine.home, hcursor, hsource]; rfl)
    rw [hcursor] at stop
    unfold Memory.Holds
    rw [hsource]
    exact stop
  | fixed bytes =>
    have hcursor : m.cursor.source = .fixed bytes := source.symm.trans hsource
    refine asIs ?_ (by rw [Machine.home, hcursor, hsource]; rfl)
    unfold Memory.Holds
    rw [hsource]
    trivial

theorem yields_definedName :
    Yields whole m (fun name m' => Kept m' name) (Statement.definedName m) := by
  refine (yields_read hs hp _).bind fun t m₁ h₁ ⟨ht, hm₁⟩ => ?_
  split
  · next slice => exact yields_keep h₁.sound h₁.placed (by rw [hm₁, ← ht]; rfl)
  · exact yields_fail h₁.sound h₁.placed _

theorem yields_definedBody :
    Yields whole m (fun body m' => Kept m' body) (Statement.definedBody m) := by
  refine (yields_read hs hp _).bind fun t m₁ h₁ ⟨ht, hm₁⟩ => ?_
  split
  · next slice => exact yields_keep h₁.sound h₁.placed (by rw [hm₁, ← ht]; rfl)
  · exact yields_fail h₁.sound h₁.placed _

theorem yields_advanceRaw : Yields whole m (fun _ _ => True) (advanceRaw m) :=
  yields_of_inner hs hp (inner_advanceBy true)

end

theorem yields_parameters (room : Nat) {m : Machine} (hs : m.Sound whole) (hp : Placed m) :
    Yields whole m (fun params m' => ∀ param ∈ params, Kept m' param)
      (Statement.parameters room m) := by
  induction room generalizing m with
  | zero =>
    refine (yields_read hs hp _).bind fun t m₁ h₁ _ => ?_
    split
    · exact yields_pure h₁.sound h₁.placed fun param hmem => by cases hmem
    · exact yields_fail h₁.sound h₁.placed _
    · exact yields_fail h₁.sound h₁.placed _
  | succ room ih =>
    refine (yields_read hs hp _).bind fun t m₁ h₁ _ => ?_
    split
    · exact yields_pure h₁.sound h₁.placed fun param hmem => by cases hmem
    · refine (yields_definedName h₁.sound h₁.placed).bind fun name m₂ h₂ kept => ?_
      refine (yields_advanceRaw h₂.sound h₂.placed).bind fun _ m₃ h₃ _ => ?_
      have rest : ∀ {m₄}, After whole m₃ m₄ →
          Yields whole m₄ (fun params m' => ∀ param ∈ params, Kept m' param)
            ((do return name :: (← Statement.parameters room) : Eval (List Slice)) m₄) := by
        intro m₄ h₄
        refine (ih h₄.sound h₄.placed).bind fun params m₅ h₅ keptRest => ?_
        refine yields_pure h₅.sound h₅.placed fun param hmem => ?_
        rcases List.mem_cons.mp hmem with rfl | hmem
        · exact ((kept.after h₃).after h₄).after h₅
        · exact keptRest param hmem
      refine (yields_read h₃.sound h₃.placed _).bind fun t m₄ h₄ _ => ?_
      split
      · exact (yields_advanceRaw h₄.sound h₄.placed).bind fun _ m₅ h₅ _ => rest (h₄.trans h₅)
      · exact rest h₄
      · exact (yields_fail (Q := fun _ _ => True) h₄.sound h₄.placed _).bind fun _ m₅ h₅ _ =>
          rest (h₄.trans h₅)

theorem yields_parameterList {m : Machine} (hs : m.Sound whole) (hp : Placed m) :
    Yields whole m (fun params m' => ∀ param ∈ params, Kept m' param)
      (Statement.parameterList m) := by
  refine (yields_read hs hp _).bind fun t m₁ h₁ _ => ?_
  split
  · refine (yields_advanceRaw h₁.sound h₁.placed).bind fun _ m₂ h₂ _ => ?_
    refine (yields_parameters maxArguments h₂.sound h₂.placed).bind fun params m₃ h₃ kept => ?_
    refine (yields_advanceRaw h₃.sound h₃.placed).bind fun _ m₄ h₄ _ => ?_
    exact yields_pure h₄.sound h₄.placed fun param hmem => (kept param hmem).after h₄
  · exact yields_pure h₁.sound h₁.placed fun param hmem => by cases hmem

theorem inner_addVariable {m : Machine} {name : Slice} (kept : Kept m name) {index : Nat}
    {arena : Arena Native} (granted : m.arena.addSymbol name .var 0 = some (index, arena)) :
    Inner whole m (m.withArena arena) := by
  intro hs hp
  have hvar : whole = true → ∀ arity, (.var : Tag Native) ≠ .func arity := fun _ _ h => by cases h
  have reached : Reached whole m.home m (m.withArena arena) := by
    refine reached_addSymbol hs granted
      (Memory.admits_of_name kept.held hvar fun _ {_ _} h => by cases h) fun slice hmem slot hslot => ?_
    rw [Memory.tracked_eq_name _ hvar, List.mem_singleton] at hmem
    rw [hmem] at hslot
    exact kept.source.symm.trans hslot
  exact ⟨reached, hp.grows reached.grows rfl rfl, rfl, rfl⟩

theorem inner_declareVariable {r : Reentry} (hexpr : Keeps (Inner whole) r.expression) :
    Keeps (Inner whole) (Statement.declareVariable r) := by
  intro m hs hp
  have named : Yields whole m (fun _ _ => True) (Statement.declareVariable r m) := by
    refine (yields_advanceRaw hs hp).bind fun _ m₁ h₁ _ => ?_
    refine (yields_definedName h₁.sound h₁.placed).bind fun name m₂ h₂ kept => ?_
    exact ⟨(inner_assigning hexpr).assignNew (fun granted => inner_addVariable kept granted) h₂.sound
      h₂.placed, fun _ => trivial⟩
  exact named.after

/-- A number of a routine fits into a word. -/
theorem index?_ofNat {number : Nat} (h : 2 * number < UInt64.size) :
    Word.index? (Int64.ofNat number) = some number := by
  unfold UInt64.size at h
  unfold Word.index?
  rw [Int64.toInt_ofNat_of_lt (by omega)]

theorem index?_addRoutine {a arena : Arena Native} {routine : Routine} {number : Nat}
    (granted : a.addRoutine routine = some (number, arena)) (budget : Memory.Budgeted arena) :
    Word.index? (Int64.ofNat number) = some number := by
  obtain ⟨-, rfl, rfl⟩ := Arena.addRoutine_eq_some granted
  obtain ⟨charged, fits, small⟩ := budget
  have size : (a.routines.push routine).size * 104 ≤ a.reserved + wordAligned routineSize := charged
  have fits' : a.reserved + wordAligned routineSize ≤ a.size := fits
  have small' : a.size < UInt64.size := small
  rw [Array.size_push] at size
  exact index?_ofNat (by omega)

/-- The routine that was added last is the one of its number. -/
theorem routine?_addRoutine {m : Machine} {routine : Routine} {number : Nat} {arena : Arena Native}
    (granted : m.arena.addRoutine routine = some (number, arena)) (budget : Memory.Budgeted arena) :
    Memory.routine? ⟨arena, m.texts⟩ (Int64.ofNat number) = some routine := by
  unfold Memory.routine?
  rw [index?_addRoutine granted budget]
  obtain ⟨-, rfl, rfl⟩ := Arena.addRoutine_eq_some granted
  exact Array.getElem?_push_size

theorem tidy_of_kept {m : Machine} {routine : Routine}
    (kept : ∀ slice ∈ routine.body :: routine.params, Kept m slice) : m.memory.Tidy routine := by
  have body := kept _ List.mem_cons_self
  constructor
  · intro param hmem
    exact (kept param (List.mem_cons_of_mem _ hmem)).source.trans body.source.symm
  · intro hsource slice hmem
    have held := (kept slice hmem).held
    unfold Memory.Holds at held
    rw [(kept slice hmem).source.trans (body.source.symm.trans hsource)] at held
    exact held

theorem yields_addRoutine {m : Machine} (hs : m.Sound whole) (hp : Placed m) (routine : Routine)
    (kept : ∀ slice ∈ routine.body :: routine.params, Kept m slice) :
    Yields whole m
      (fun number m' => whole = true → m'.memory.routine? (Int64.ofNat number) = some routine)
      (allocate (·.addRoutine routine) m) := by
  refine yields_allocate hs hp fun number arena granted => ?_
  have g : Grows m (m.withArena arena) := Memory.Grows.addRoutine granted
  have sound := hs.withArena_grows (hs.intact.addRoutine granted (tidy_of_kept kept)) g
  have found : whole = true → Memory.routine? ⟨arena, m.texts⟩ (Int64.ofNat number) =
      some routine := fun hw => routine?_addRoutine granted (sound.intact.budget hw)
  refine ⟨.of_size g sound ?_, found⟩
  obtain ⟨-, -, rfl⟩ := Arena.addRoutine_eq_some granted
  exact Nat.le_refl _

theorem yields_addFunction {m : Machine} (hs : m.Sound whole) (hp : Placed m) {name : Slice}
    {routine : Routine} {value : Word} (keptName : Kept m name)
    (kept : ∀ slice ∈ routine.body :: routine.params, Kept m slice)
    (hroutine : whole = true → m.memory.routine? value = some routine) (arity : Nat) :
    Yields whole m (fun _ _ => True) (allocate (·.addSymbol name (.func arity) value) m) := by
  have tracked : ∀ slice ∈ m.memory.tracked whole ⟨name, .func arity, value⟩, Kept m slice := by
    intro slice hmem
    cases whole with
    | false =>
      rw [show slice = name by simpa [Memory.tracked] using hmem]
      exact keptName
    | true =>
      simp only [Memory.tracked, Memory.slices, hroutine rfl, if_true] at hmem
      rcases List.mem_cons.mp hmem with rfl | hmem
      · exact keptName
      · exact kept slice hmem
  refine yields_allocate hs hp fun index arena granted => ⟨?_, trivial⟩
  refine reached_addSymbol hs granted ⟨fun slice hmem => (tracked slice hmem).held, ?_, ?_⟩
    fun slice hmem slot hslot => (tracked slice hmem).source.symm.trans hslot
  · exact fun hw _ _ => ⟨routine, hroutine hw⟩
  · intro _ _ _ h
    cases h

/-- A function is defined with its routine, all of whose slices are at home. -/
theorem inner_declareFunction : Keeps (Inner whole) Statement.declareFunction := by
  intro m hs hp
  have defined : Yields whole m (fun _ _ => True) (Statement.declareFunction m) := by
    refine (yields_advanceRaw hs hp).bind fun _ m₁ h₁ _ => ?_
    refine (yields_definedName h₁.sound h₁.placed).bind fun name m₂ h₂ keptName => ?_
    refine (yields_advanceRaw h₂.sound h₂.placed).bind fun _ m₃ h₃ _ => ?_
    refine (yields_parameterList h₃.sound h₃.placed).bind fun params m₄ h₄ keptParams => ?_
    refine (yields_definedBody h₄.sound h₄.placed).bind fun body m₅ h₅ keptBody => ?_
    have kept : ∀ slice ∈ body :: params, Kept m₅ slice := by
      intro slice hmem
      rcases List.mem_cons.mp hmem with rfl | hmem
      · exact keptBody
      · exact (keptParams slice hmem).after h₅
    refine (yields_addRoutine h₅.sound h₅.placed ⟨params, body⟩ kept).bind
      fun number m₆ h₆ hroutine => ?_
    refine (yields_addFunction h₆.sound h₆.placed
      ((((keptName.after h₃).after h₄).after h₅).after h₆)
      (fun slice hmem => (kept slice hmem).after h₆) hroutine params.length).bind fun _ m₇ h₇ _ => ?_
    exact yields_of_inner h₇.sound h₇.placed (inner_advanceBy false)
  exact defined.after

/-! ### Bodies -/

section

variable {r : Reentry} (hbody : BodyDiscipline whole r) (hexpr : Keeps (Inner whole) r.expression)

include hbody hexpr

omit hexpr in
theorem inner_nestedBody (body : Slice) : Keeps (Inner whole) (Statement.nestedBody r body) := by
  intro m hs hp
  have noted : Reached whole m.home m m.note := outer_note m.home m hs
  have track := outer_track whole (keepSource body.source false)
  have ran : Reached whole (keepSource body.source false) m.note
      (Statement.nestedBody r body m).machine :=
    track.bind (hbody.outer body false false) (fun _ => track.still (still_pure ())) m.note noted.sound
  have back : Bracketed m.note (Statement.nestedBody r body m).machine :=
    bracketed_track.bind (hbody.bracket body false false)
      (fun _ => bracketed_track.still (still_pure ())) m.note
  have size : (Statement.nestedBody r body m).machine.arena.symbols.size = m.arena.symbols.size :=
    related_bind_still (R := fun m m' => m'.arena.symbols.size = m.arena.symbols.size)
      (hbody.scope body false m.note) fun _ => still_pure ()
  have reached : Reached whole m.home m (Statement.nestedBody r body m).machine :=
    .of_size (grows_track.trans noted.grows ran.grows) ran.sound (Nat.le_of_eq size)
  exact after_of_returned hp reached
    ⟨back.stack, back.literals, back.cursor, back.token, back.quoting, back.duplicate, back.depth⟩

theorem inner_discipline : Discipline (Inner whole) r where
  toTrack := inner_track whole
  advanceBy := inner_advanceBy
  rewind hm hs hp := (hm hs hp).rewind hp
  result _ _ hs hp := after_of_memory hs hp rfl rfl rfl rfl rfl
  plain hx := (inner_loose hbody hexpr).withQuoting .plain hx
  expression := hexpr
  nestedBody := inner_nestedBody hbody
  inExpression := (inner_loose hbody hexpr).inExpression
  asStatement := (inner_loose hbody hexpr).asStatement
  reassign := (inner_assigning hexpr).reassign
  declareVariable := inner_declareVariable hexpr
  declareFunction := inner_declareFunction

/-- The statements of a body start on a token of their own. -/
theorem outer_inBody (body : Slice) (duplicate : Bool) :
    Keeps (Outer whole (keepSource body.source duplicate))
      (inBody body duplicate (locating do advance; Statement.statements r)) := by
  intro m hs
  have h := inner_discipline hbody hexpr
  unfold inBody restoring locating
  rw [Outcome.machine_adjust, Outcome.machine_adjustError]
  -- the machine that starts to read the body
  generalize hm₀ : ({ m with cursor := m.cursorAt body, quoting := .plain, duplicate } : Machine) = m₀
  have hs₀ : m₀.Sound whole := hm₀ ▸ ⟨hs.intact, hs.told⟩
  have home : m₀.home = keepSource body.source duplicate := by
    subst hm₀
    rfl
  have window : m₀.cursor.scanner.limit ≤ (m₀.store m₀.cursor.source).size := by
    subst hm₀
    exact Scanner.limit_ofWindow_le _ _ _
  have ran : Reached whole m₀.home m₀ ((do advance; Statement.statements r : Eval Ending) m₀).machine := by
    refine related_bind (R := Reached whole m₀.home) (reached_advanceBy false hs₀)
      fun _ m₁ done h₁ => ?_
    have placed : Placed m₁ := placed_of_advanceBy window done
    have home₁ : m₁.home = m₀.home := by
      obtain ⟨cursor, token, literals, hm, source, -⟩ := advanceBy_machine false m₀
      change (advanceBy false m₀) = _ at done
      rw [done] at hm
      change m₁ = _ at hm
      rw [hm]
      exact congrArg (keepSource · m₀.duplicate) source
    exact h₁.trans (home₁ ▸ (h.statements m₁ h₁.sound placed).toReached)
  rw [home] at ran
  subst hm₀
  exact ⟨ran.grows, ⟨ran.sound.intact, ran.sound.told⟩, ran.lands⟩

theorem outer_wholeBody (body : Slice) (topLevel duplicate : Bool) :
    Keeps (Outer whole (keepSource body.source duplicate)) (r.wholeBody body topLevel duplicate) := by
  intro m hs
  unfold Reentry.wholeBody inScope restoring
  rw [Outcome.machine_adjust]
  have inside := outer_inBody hbody hexpr body duplicate m hs
  cases topLevel with
  | true => exact inside
  | false =>
    refine .of_size (Memory.Grows.rollback inside.grows) (inside.sound.rollback _) ?_
    change (Array.take _ m.arena.symbols.size).size ≤ m.arena.symbols.size
    rw [Array.take_eq_extract, Array.size_extract]
    omega

end

/-! ### Bodies whose text is gone -/

/-- At the end of a body there is nothing to do but to notice it. -/
theorem statements_eof (r : Reentry) {m : Machine} (htoken : m.token = .eof) :
    (Statement.statements r m).machine = m := by
  unfold Statement.statements Reentry.loop
  cases r.passes with
  | zero => rfl
  | succ passes =>
    unfold Eval.loop
    rw [Statement.turn_eof r htoken]
    rfl

theorem next_nil (quoting : Quoting) {s : Scanner} (h : s.rest = []) :
    s.next quoting = (.ok .eof, s) := by
  have blank : s.skipBlank = s := by
    unfold Scanner.skipBlank Scanner.skip
    rw [h]
    exact congrArg (Scanner.mk s.pos) h.symm
  unfold Scanner.next Scanner.readLexeme
  rw [blank, h]

/-- A body in a free slot is empty. -/
theorem drifts_wholeBody (r : Reentry) {body : Slice} {slot : Nat} {m : Machine}
    (hsource : body.source = .text slot) (hfree : m.texts.text? slot = none) :
    Drifts m (r.wholeBody body false false m).machine := by
  have empty : (m.cursorAt body).scanner.rest = [] := by
    have store : m.store body.source = #[] := by
      rw [hsource]
      change m.texts.get slot = #[]
      unfold Texts.get
      rw [hfree]
      rfl
    unfold Machine.cursorAt
    rw [store]
    simp [Scanner.ofWindow]
  have read : ∀ m₀ : Machine, m₀.cursor.scanner.rest = [] → ∃ cursor,
      ((do advance; Statement.statements r : Eval Ending) m₀).machine =
        { m₀ with cursor, token := .eof } := by
    intro m₀ hrest
    have advanced : advance m₀ = .done () { m₀ with
        cursor := { m₀.cursor with mark := m₀.cursor.scanner.pos }, token := .eof } := by
      unfold advance advanceBy
      rw [bind_of_done (readLexeme_of_ok (next_nil m₀.quoting hrest))]
      rfl
    rw [bind_apply, advanced]
    exact ⟨_, statements_eof r rfl⟩
  obtain ⟨cursor, hread⟩ :=
    read { m with cursor := m.cursorAt body, quoting := .plain, duplicate := false } empty
  have same : (inBody body false (locating do advance; Statement.statements r) m).machine = m := by
    unfold inBody restoring locating
    rw [Outcome.machine_adjust, Outcome.machine_adjustError, hread]
  unfold Reentry.wholeBody inScope restoring
  rw [Outcome.machine_adjust, same]
  refine drifts_withArena ?_ rfl rfl
  change m.arena.symbols.toList <+: (m.arena.symbols.take m.arena.symbols.size).toList
  simp

/-! ### Every budget -/

/-- On every budget, expressions and bodies keep machines sound. -/
theorem inner_ofFuel (whole : Bool) (world : World) (fuel : Nat) :
    Keeps (Inner whole) (evalExpression world fuel) ∧ BodyDiscipline whole (.ofFuel world fuel) := by
  induction fuel with
  | zero =>
    refine ⟨fun m => (inner_track whole).refl m, fun _ _ _ m => (outer_track whole _).refl m,
      fun _ _ _ => rfl, (bracketed_ofFuel world 0).2, fun _ _ => drifts_track.refl _⟩
  | succ fuel ih =>
    obtain ⟨hexpr, hbody⟩ := ih
    constructor
    · rw [evalExpression_succ]
      exact (inner_discipline hbody hexpr).wholeExpression
    · constructor
      · exact outer_wholeBody hbody hexpr
      · exact fun body duplicate m => size_evalBody world (fuel + 1) body duplicate m
      · exact (bracketed_ofFuel world (fuel + 1)).2
      · exact drifts_wholeBody _

end Scriptlet
