import Mathlib.Data.List.Infix
import Scriptlet.Proofs.Formula.Reading
import Scriptlet.Proofs.Kept
import Scriptlet.Proofs.Twin.Lexing

/-!
What evaluation rests on while it waits. A token that was read ahead has the index of a symbol, an
assignment has the index of a variable, and both wait while arbitrary code runs: nested bodies,
functions that call themselves, natives that define symbols and evaluate texts. The table grows in the
meantime and is cut back, but never below where it was; so what waits finds its symbol.

* `Meanwhile`: memory has grown, and so it had at every moment in between.
* `Pinned`: the run has read an index as a token, in the body that it reads now, and the symbol has been
  there ever since. `origin` is the machine on which the run began.
* `Grounded`: the token is pinned, and what is left to read is what the store has there.
-/

namespace Scriptlet

open Eval

/-! ### Every moment in between -/

/-- The newest moment of the life is the present one. -/
def Machine.UpToDate (m : Machine) : Prop :=
  ∀ life, m.history life → ∃ noted before, life = ⟨m.memory, noted⟩ :: before

/-- From one machine to the other memory has only grown, and it has not been less in between. The second
goes on with the life of the first. -/
structure Meanwhile (m m' : Machine) : Prop where
  grows : Grows m m'
  between : ∀ {life}, (∀ l, m.history l ↔ l = life) →
    ∃ added, (∀ l, m'.history l ↔ l = added ++ life) ∧ ∀ x ∈ added, m.memory.Grows x.toMemory
  upToDate : m.UpToDate → m'.UpToDate

theorem Meanwhile.refl (m : Machine) : Meanwhile m m :=
  ⟨grows_track.refl m, fun hlife => ⟨[], hlife, by simp⟩, id⟩

theorem Meanwhile.add {m m' n : Machine} (h : Meanwhile m m') {noted : Bool}
    (g : m.memory.Grows n.memory) (hn : n.history = m'.history.add ⟨n.memory, noted⟩) :
    Meanwhile m n := by
  refine ⟨g, fun hlife => ?_, fun _ life hlife => ?_⟩
  · obtain ⟨added, hadded, grown⟩ := h.between hlife
    refine ⟨⟨n.memory, noted⟩ :: added, fun l => ?_, fun x hx => ?_⟩
    · simp [hn, History.add, hadded]
    · rcases List.mem_cons.mp hx with rfl | hx
      · exact g
      · exact grown x hx
  · rw [hn] at hlife
    obtain ⟨before, -, rfl⟩ := hlife
    exact ⟨noted, before, rfl⟩

theorem expanding_meanwhile : Expanding Meanwhile where
  refl := .refl
  trans h k := by
    refine ⟨grows_track.trans h.grows k.grows, fun hlife => ?_, k.upToDate ∘ h.upToDate⟩
    obtain ⟨added, hadded, grown⟩ := h.between hlife
    obtain ⟨more, hmore, grown'⟩ := k.between hadded
    refine ⟨more ++ added, by simpa using hmore, fun x hx => ?_⟩
    rcases List.mem_append.mp hx with hx | hx
    · exact h.grows.trans (grown' x hx)
    · exact grown x hx
  grows h := h.grows
  elsewhere {m m'} hmemory hhistory := by
    refine ⟨expanding_grows.elsewhere hmemory hhistory, fun hlife => ⟨[], ?_, by simp⟩,
      fun upToDate life hlife => ?_⟩
    · rw [hhistory]
      exact hlife
    · rw [hmemory]
      exact upToDate life (hhistory ▸ hlife)
  note m := (Meanwhile.refl m).add (Memory.Grows.refl m.memory) rfl
  withArena h g := h.add g rfl
  withTexts h g := h.add g rfl

/-- The symbol of an index is the same on both machines, and so it was at every moment in between. -/
def Lasting (index : Nat) (m m' : Machine) : Prop :=
  ∃ s, m.arena.symbols[index]? = some s ∧
    (∃ s', m'.arena.symbols[index]? = some s' ∧ s.Lasts s') ∧
    ∀ life, (∀ l, m.history l ↔ l = life) → ∃ added, (∀ l, m'.history l ↔ l = added ++ life) ∧
      ∀ x ∈ added, ∃ s', x.arena.symbols[index]? = some s' ∧ s.Lasts s'

theorem Meanwhile.lasting {m m' : Machine} (h : Meanwhile m m') {index : Nat} {s : Symbol Native}
    (found : m.arena.symbols[index]? = some s) : Lasting index m m' := by
  refine ⟨s, found, h.grows.symbols found, fun life hlife => ?_⟩
  obtain ⟨added, hadded, grown⟩ := h.between hlife
  exact ⟨added, hadded, fun x hx => (grown x hx).symbols found⟩

theorem Lasting.meanwhile {index : Nat} {a b c : Machine} (h : Lasting index a b)
    (k : Meanwhile b c) : Lasting index a c := by
  obtain ⟨s, found, ⟨s', found', lasts⟩, between⟩ := h
  -- the symbol of `b` is in each memory from there on
  have onward : ∀ {x : Memory}, b.memory.Grows x →
      ∃ s'', x.arena.symbols[index]? = some s'' ∧ s.Lasts s'' := by
    intro x g
    obtain ⟨s'', found'', lasts'⟩ := g.symbols found'
    exact ⟨s'', found'', lasts.trans lasts'⟩
  refine ⟨s, found, onward k.grows, fun life hlife => ?_⟩
  obtain ⟨added, hadded, there⟩ := between life hlife
  obtain ⟨more, hmore, grown⟩ := k.between hadded
  refine ⟨more ++ added, by simpa using hmore, fun x hx => ?_⟩
  rcases List.mem_append.mp hx with hx | hx
  · exact onward (grown x hx)
  · exact there x hx

/-! ### The place of reading -/

/-- The machines read the same body, wherever they are in it. -/
structure SameBody (m m' : Machine) : Prop where
  source : m'.cursor.source = m.cursor.source
  stop : m'.cursor.stop = m.cursor.stop

theorem SameBody.of_cursor {m m' : Machine} (hc : m'.cursor = m.cursor) : SameBody m m' :=
  ⟨congrArg Cursor.source hc, congrArg Cursor.stop hc⟩

theorem SameBody.trans {a b c : Machine} (h : SameBody a b) (k : SameBody b c) : SameBody a c :=
  ⟨k.source.trans h.source, k.stop.trans h.stop⟩

theorem sameBody_advanceBy (raw : Bool) (m : Machine) : SameBody m (advanceBy raw m).machine := by
  obtain ⟨cursor, token, literals, hm, source, stop, -⟩ := advanceBy_machine raw m
  rw [hm]
  exact ⟨source, stop⟩

def Machine.JustRead (m : Machine) : Prop := ∃ raw before, advanceBy raw before = .done () m

/-- Since the machine `origin` an index was read as a token, in the body that is read now, and its symbol
has been in the table ever since. -/
def Pinned (origin : Machine) (index : Nat) (m : Machine) : Prop :=
  ∃ n : Machine, Meanwhile origin n ∧ n.JustRead ∧ n.token = .symbol index ∧ SameBody n m ∧
    Lasting index n m

theorem Pinned.found {origin : Machine} {index : Nat} {m : Machine} (h : Pinned origin index m) :
    ∃ s, m.arena.symbols[index]? = some s := by
  obtain ⟨n, -, -, -, -, s, -, ⟨s', found, -⟩, -⟩ := h
  exact ⟨s', found⟩

theorem Pinned.meanwhile {origin : Machine} {index : Nat} {m m' : Machine}
    (h : Pinned origin index m) (k : Meanwhile m m') (body : SameBody m m') :
    Pinned origin index m' := by
  obtain ⟨n, since, read, token, same, lasting⟩ := h
  exact ⟨n, since, read, token, same.trans body, lasting.meanwhile k⟩

/-- If the token is a symbol, that was found when the token was read, and has been there ever since. -/
def Seated (origin m : Machine) : Prop := ∀ index, m.token = .symbol index → Pinned origin index m

/-- What is left to read is what the store has there. -/
def Faithful (m : Machine) : Prop :=
  m.cursor.scanner.rest <+: (m.store m.cursor.source).toList.drop m.cursor.scanner.pos

structure Grounded (origin m : Machine) : Prop where
  seated : Seated origin m
  faithful : Faithful m

theorem Seated.meanwhile {origin m m' : Machine} (h : Seated origin m) (k : Meanwhile m m')
    (body : SameBody m m') (ht : m'.token = m.token) : Seated origin m' :=
  fun index token => (h index (ht ▸ token)).meanwhile k body

theorem Faithful.grows {m m' : Machine} (h : Faithful m) (g : Grows m m')
    (hc : m'.cursor = m.cursor) : Faithful m' := by
  unfold Faithful
  rw [hc]
  exact List.IsPrefix.trans h (List.IsPrefix.drop (g.store_prefix m.cursor.source) _)

/-- A scanner further on reads what the store has further on. -/
theorem Faithful.further {m : Machine} (h : Faithful m) {after : Scanner}
    (further : m.cursor.scanner.Further after) :
    after.rest <+: (m.store m.cursor.source).toList.drop after.pos := by
  obtain ⟨n, -, rfl⟩ := further
  rw [Scanner.rest_skip, Scanner.pos_skip, ← List.drop_drop]
  exact List.IsPrefix.drop h n

/-- The body that is entered is read from the store. -/
theorem faithful_cursorAt (m : Machine) (body : Slice) (duplicate : Bool) :
    Faithful { m with cursor := m.cursorAt body, quoting := .plain, duplicate } := by
  change ((m.store body.source).extract _ _).toList <+: (m.store body.source).toList.drop _
  rw [Array.toList_extract, List.extract_eq_take_drop]
  exact List.take_prefix _ _

/-- A token that is read is pinned, whatever the token before was. -/
theorem seated_of_advanceBy {origin : Machine} {raw : Bool} {m m' : Machine}
    (since : Meanwhile origin m) (done : advanceBy raw m = .done () m') : Seated origin m' := by
  intro index token
  obtain ⟨s, found⟩ := symbol_of_advanceBy done token
  have since' : Meanwhile origin m' :=
    expanding_meanwhile.trans since ((expanding_meanwhile.advanceBy raw).done done)
  exact ⟨m', since', ⟨raw, m, done⟩, token, .of_cursor rfl, (Meanwhile.refl m').lasting found⟩

/-- Reading goes on in the window, also where it fails. -/
theorem advanceBy_further (raw : Bool) (m : Machine) :
    m.cursor.scanner.Further (advanceBy raw m).machine.cursor.scanner := by
  rcases advanceBy_cases raw m with ⟨_, _, _, _, next, -, -, h⟩ | ⟨_, _, next, h⟩ | ⟨_, _, -, h⟩ <;>
    rw [h]
  · exact Scanner.further_next next
  · exact Scanner.further_next next
  · exact .refl _

/-- What is left to read is what the store has there, wherever reading comes to. -/
theorem Faithful.advanceBy {m : Machine} (h : Faithful m) (raw : Bool) :
    Faithful (Eval.advanceBy raw m).machine := by
  have further := h.further (advanceBy_further raw m)
  obtain ⟨cursor, token', literals, hm, source, -⟩ := advanceBy_machine raw m
  rw [hm] at further ⊢
  change _ <+: (m.store cursor.source).toList.drop _
  rw [source]
  exact further

theorem faithful_of_advanceBy {raw : Bool} {m m' : Machine} (h : Faithful m)
    (done : advanceBy raw m = .done () m') : Faithful m' := by
  have kept := h.advanceBy raw
  rwa [done] at kept

theorem grounded_of_advanceBy {origin : Machine} {raw : Bool} {m m' : Machine}
    (since : Meanwhile origin m) (h : Faithful m) (done : advanceBy raw m = .done () m') :
    Grounded origin m' :=
  ⟨seated_of_advanceBy since done, faithful_of_advanceBy h done⟩

/-! ### Every evaluation -/

/-- Memory has grown, the body is still the same, and a machine that stood on its memory does so
still. -/
structure Moves (m m' : Machine) : Prop where
  meanwhile : Meanwhile m m'
  body : SameBody m m'
  seated : ∀ {origin}, Meanwhile origin m → Seated origin m → Seated origin m'
  faithful : Faithful m → Faithful m'

theorem Moves.grows {m m' : Machine} (h : Moves m m') : Grows m m' := h.meanwhile.grows

theorem Moves.grounded {origin m m' : Machine} (h : Moves m m') (since : Meanwhile origin m)
    (grounded : Grounded origin m) : Grounded origin m' :=
  ⟨h.seated since grounded.seated, h.faithful grounded.faithful⟩

theorem moves_track : Track Moves where
  refl m := ⟨.refl m, .of_cursor rfl, fun _ h => h, id⟩
  trans h k := ⟨expanding_meanwhile.trans h.meanwhile k.meanwhile, h.body.trans k.body,
    fun since seated => k.seated (expanding_meanwhile.trans since h.meanwhile) (h.seated since seated),
    k.faithful ∘ h.faithful⟩

/-- A step of something else, which comes back to the place of reading. -/
theorem Moves.of_meanwhile {m m' : Machine} (k : Meanwhile m m') (hc : m'.cursor = m.cursor)
    (ht : m'.token = m.token) : Moves m m' :=
  ⟨k, .of_cursor hc, fun _ h => h.meanwhile k (.of_cursor hc) ht, fun h => h.grows k.grows hc⟩

theorem Moves.of_memory {m m' : Machine} (hmemory : m'.memory = m.memory)
    (hhistory : m'.history = m.history) (hc : m'.cursor = m.cursor) (ht : m'.token = m.token) :
    Moves m m' := .of_meanwhile (expanding_meanwhile.elsewhere hmemory hhistory) hc ht

theorem Faithful.withQuoting {m : Machine} (h : Faithful m) (quoting : Quoting) :
    Faithful { m with quoting } := h

theorem Moves.withArena {m : Machine} {arena : Arena Native}
    (g : m.memory.Grows ⟨arena, m.texts⟩) : Moves m (m.withArena arena) :=
  .of_meanwhile (expanding_meanwhile.withArena (expanding_meanwhile.refl m) g) rfl rfl

theorem moves_advanceBy (raw : Bool) : Keeps Moves (advanceBy raw) := by
  intro m
  have meanwhile := expanding_meanwhile.advanceBy raw m
  have body := sameBody_advanceBy raw m
  refine ⟨meanwhile, body, fun since h => ?_, fun h => h.advanceBy raw⟩
  by_cases done : ∃ m', advanceBy raw m = .done () m'
  · obtain ⟨m', done⟩ := done
    rw [done]
    exact seated_of_advanceBy since done
  · -- an operator that is not in the table was read, or nothing was
    exact h.meanwhile meanwhile body (advanceBy_token fun m' hm => done ⟨m', hm⟩)

section

variable {r : Reentry} (hexpr : Keeps Moves r.expression)
  (hmeanwhile : ∀ body topLevel duplicate, Keeps Meanwhile (r.body body topLevel duplicate))
  (hbracket : ∀ body topLevel duplicate, Keeps Bracketed (r.body body topLevel duplicate))

include hexpr hmeanwhile hbracket

theorem moves_loose : LooseDiscipline Moves r where
  toTrack := moves_track
  stack m stack := .withArena (.of_eq rfl rfl rfl rfl)
  literals _ _ := .of_memory rfl rfl rfl rfl
  quoting _ _ := .of_memory rfl rfl rfl rfl
  advanceBy := moves_advanceBy
  expression := hexpr
  perform {m m' index s native arity} _ _ hm args := by
    have back := (returned_acting hbracket).perform (native args) m'
    exact moves_track.trans hm
      (.of_meanwhile ((expanding_meanwhile.acting hmeanwhile).perform (native args) m') back.cursor
        back.token)
  runFunction {m m' index s arity} _ _ hm args := by
    have back := bracketed_runFunction hbracket s.value args m'
    exact moves_track.trans hm
      (.of_meanwhile (expanding_meanwhile.runFunction hmeanwhile s.value args m') back.cursor
        back.token)

omit hmeanwhile hbracket in
theorem moves_defining : DefiningDiscipline Moves r where
  toTrack := moves_track
  advanceBy := moves_advanceBy
  expression := hexpr
  setValue {m m' index s} found hvar hm value := by
    obtain ⟨s', found', lasts⟩ := hm.grows.symbols found
    exact moves_track.trans hm
      (.withArena ((Memory.Grows.refl m'.memory).setValue found' (lasts.tag.trans hvar) value))
  addBytes granted := .withArena (.addBytes granted)
  addRoutine granted := .withArena (.addRoutine granted)
  addSymbol granted := .withArena (.addSymbol granted)

theorem moves_discipline : Discipline Moves r where
  toTrack := moves_track
  advanceBy := moves_advanceBy
  rewind {m m'} hm := by
    have back : Meanwhile m' { m' with cursor := m.cursor } := expanding_meanwhile.elsewhere rfl rfl
    have grows : Grows m { m' with cursor := m.cursor } := hm.grows
    have body : SameBody m' { m' with cursor := m.cursor } := ⟨hm.body.source.symm, hm.body.stop.symm⟩
    exact ⟨expanding_meanwhile.trans hm.meanwhile back, .of_cursor rfl,
      fun since h => (hm.seated since h).meanwhile back body rfl, fun h => h.grows grows rfl⟩
  result _ _ := .of_memory rfl rfl rfl rfl
  plain hx := (moves_loose hexpr hmeanwhile hbracket).withQuoting .plain hx
  expression := hexpr
  nestedBody body m := by
    have back := bracketed_nestedBody hbracket body m
    have ran := expanding_meanwhile.bind (hmeanwhile body false false)
      (fun _ => expanding_meanwhile.still (still_pure ())) m.note
    exact .of_meanwhile (expanding_meanwhile.trans (expanding_meanwhile.note m) ran) back.cursor
      back.token
  inExpression := (moves_loose hexpr hmeanwhile hbracket).inExpression
  asStatement := (moves_loose hexpr hmeanwhile hbracket).asStatement
  reassign := (moves_defining hexpr).reassign
  declareVariable := (moves_defining hexpr).declareVariable
  declareFunction := (moves_defining hexpr).declareFunction

end

/-- On every budget, expressions leave the machine standing on its memory. -/
theorem moves_ofFuel (world : World) (fuel : Nat) : Keeps Moves (evalExpression world fuel) := by
  induction fuel with
  | zero => exact fun m => moves_track.refl m
  | succ fuel ih =>
    rw [evalExpression_succ]
    exact (moves_discipline (r := .ofFuel world fuel) ih (expanding_meanwhile.ofFuel world fuel).2
      (bracketed_ofFuel world fuel).2).wholeExpression

end Scriptlet
