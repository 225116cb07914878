import Scriptlet.Proofs.Characters.Verbatim

/-!
Every evaluation recites. The constructs are gone through once. Bodies are read in the memory of the machine:
they are pieces of what is read, copies of such pieces, or scripts that are held while they run. Copies of
names and bodies are texts because what was read is one, so the bytes that are kept for good remain a text,
one copy behind the other.
-/

namespace Scriptlet

open Eval

/-- What is nested is verbatim, and reads its own lexemes. -/
structure RecitingReentry (r : TracedReentry) : Prop where
  reading : ReadingDiscipline r.run
  expression : r.expression.Reciting
  body : ∀ {body topLevel duplicate} {m : Machine}, body.source.InMemory → m.Lettered →
    (r.body body topLevel duplicate).Recites m

namespace RecitingReentry

variable {r : TracedReentry} (h : RecitingReentry r)

include h

/-! ### Texts and natives -/

theorem text (text : String) (duplicate topLevel : Bool) {m : Machine} (lettered : m.Lettered) :
    (Traced.text r text duplicate topLevel).Recites m := by
  have held := lettered.retain (Text.isText_encode text)
  let slot := (m.texts.retain (Text.encode text).toArray).1
  have inside : (r.body ⟨.text slot, 0, (Text.encode text).length⟩ topLevel duplicate).Recites
      { m.note.withTexts (m.texts.retain (Text.encode text).toArray).2 with depth := m.depth + 1 } :=
    h.body trivial (held.congr rfl rfl rfl)
  have whole := inside.bind fun _ _ _ after => .still (still_pure ()) after
  have entered := Traced.Recites.entering whole
  exact .noting (.reporting (.holding entered))

theorem file (path : String) {m : Machine} (lettered : m.Lettered) : (Traced.file r path).Recites m := by
  have contents := Traced.Recites.sameStores (sameStores_readScript r.world path) lettered
  exact contents.bind fun contents _ _ after => h.text contents true true after

theorem perform (action : Action) {m : Machine} (lettered : m.Lettered) :
    (Traced.perform r action).Recites m := by
  induction action generalizing m with
  | give value => exact .still (still_pure _) lettered
  | fail error =>
    have told := Traced.Recites.tell lettered fun _ _ (h : Occasion.refused error = _) => by cases h
    exact told.bind fun _ _ _ after => .still (still_fail _) after
  | takeLiteral next ih =>
    have same : Keeps SameStores takeLiteral := fun _ => ⟨rfl, rfl, rfl⟩
    have taken := Traced.Recites.sameStores same lettered
    exact taken.bind fun text? _ _ after => ih text? after
  | write stream bytes next ih =>
    have same : Keeps SameStores (write stream bytes) := fun _ => ⟨rfl, rfl, rfl⟩
    have written := Traced.Recites.sameStores same lettered
    exact written.bind fun _ _ _ after => ih after
  | look next ih =>
    have same : Keeps SameStores look := fun _ => ⟨rfl, rfl, rfl⟩
    have looked := Traced.Recites.sameStores same lettered
    exact looked.bind fun view _ _ after => ih view after
  | define name tag value next ih =>
    have defined := Traced.Recites.quiet ((lettering_define name tag value).attempt m) lettered
    exact defined.bind fun index _ _ after => ih index after
  | evalText text duplicate topLevel next ih =>
    have judged := (h.text text duplicate topLevel lettered).judged
    exact judged.bind fun ended _ _ after => ih ended after
  | evalFile path next ih =>
    have judged := (h.file path lettered).judged
    exact judged.bind fun ended _ _ after => ih ended after
  | ask question next ih =>
    have answered := Traced.Recites.sameStores (sameStores_ask r.world question) lettered
    exact answered.bind fun answer _ _ after => ih answer after

/-! ### Callees -/

theorem runFunction (number : Word) (args : List Word) {m : Machine} (lettered : m.Lettered) :
    (Traced.runFunction r number args).Recites m := by
  have noted : m.note.Lettered := lettered.congr rfl rfl rfl
  refine .noting (.bind (.tell noted fun _ _ h => by cases h) fun _ m₁ _ after => ?_)
  refine .bind (.still (still_read _) after) fun routine? m₂ found after => ?_
  obtain ⟨known, rfl⟩ : routine? = number.index?.bind (m₁.arena.routines[·]?) ∧ m₂ = m₁ := by
    cases found
    exact ⟨rfl, rfl⟩
  cases routine? with
  | none => exact .still (still_fail _) after
  | some routine =>
    -- the body of a routine is in memory, whatever has become of the text that it was read in
    obtain ⟨index, -, there⟩ := Option.bind_eq_some_iff.mp known.symm
    have memory : routine.body.source.InMemory := after.routines there
    have bound : Keeps SameStores (Call.bindParameters (routine.params.zip args)) := fun m =>
      (beside_bindParameters _ m).toSameStores
    refine .inFrame (.bind (.sameStores bound after) fun _ _ _ after => ?_)
    refine .bind (.sameStores (fun _ => ⟨rfl, rfl, rfl⟩) after) fun _ _ _ after => ?_
    exact (h.body memory after).bind fun _ _ _ after => .still (still_read _) after

theorem runCallee (callee : Symbol Native) (args : List Word) {literals : Nat} {list : Scanner}
    (form : CallForm) {m : Machine} (lettered : m.Lettered) (own : OwnQuotes list literals m) :
    (Traced.runCallee r callee args literals form list).Recites m := by
  refine .bind (.tell lettered fun _ _ h => by cases h) fun _ m' told lettered => ?_
  cases told
  split
  · exact .still (still_fail _) lettered
  · cases callee.tag with
    | native native arity =>
      have verbatim := own.verbatim lettered form
      have told : (Traced.tell (.starting form list)).Recites
          { m with literals := (m.literals.openFrame literals).2 } :=
        ⟨.refl _, verbatim.lettered, fun _ he => List.mem_singleton.mp he ▸ verbatim⟩
      exact .withPending (told.bind fun _ _ _ after => h.perform (native args) after)
    | func arity => exact h.runFunction callee.value args lettered
    | _ => exact .still (still_fail _) lettered

/-- The words are taken off the stack, and the strings stay. -/
theorem handOver (callee : Symbol Native) (count : Nat) {literals : Nat} {list : Scanner} (form : CallForm)
    {m : Machine} (lettered : m.Lettered) (own : OwnQuotes list literals m) :
    (Traced.handOver r callee count literals form list).Recites m := by
  have taken : Keeps SameStores (popOnto [] count) := fun m => (beside_popOnto [] count m).toSameStores
  refine .truncatingLiterals (.bind (.sameStores taken lettered) fun args' m' done after => ?_)
  have own' : OwnQuotes list literals m' := by
    obtain ⟨args, arena, history, popped⟩ := popOnto_elsewhere [] count m
    refine own.beside ((beside_popOnto [] count).done done) ?_
    cases popped.symm.trans done
    rfl
  exact h.runCallee callee args' form after own'

/-! ### Calls -/

theorem arguments : TracedArguments Traced.Reciting (fun _ => True) r where
  toTracedTrack := reciting_track
  advanceBy raw _ scanned := .advanceBy scanned.toLegible raw
  symbolAt hf :=
    .bind (.tell_bind (fun _ _ h => by cases h) (.still (still_symbolAt _))) fun s => hf s trivial
  push word := .beside (beside_push word)
  expression := h.expression

/-- Once words are handed over, the machine is back at the place of reading. -/
theorem handOver_recitesOn (callee : Symbol Native) (count : Nat) {literals : Nat} {list : Scanner}
    (form : CallForm) {m : Machine} (scanned : Scanned m) (own : OwnQuotes list literals m) :
    (Traced.handOver r callee count literals form list).RecitesOn m := by
  refine .of_back (h.handOver callee count form scanned.lettered own) scanned fun {value m'} done => ?_
  have returned := handOver_returned h.reading callee count literals m
  rw [← Traced.run_handOver r callee count literals form list, done] at returned
  obtain ⟨-, cursor, token, -⟩ := returned
  exact ⟨cursor, token⟩

omit h in
theorem recitesOn_list {α : Type} {list : Traced α} (reciting : list.Reciting) {m : Machine}
    (scanned : Scanned m) :
    (Traced.unwinding (Traced.withQuoting .argument list)).RecitesOn m ∧ ∀ {a m'},
      (Traced.unwinding (Traced.withQuoting .argument list)).run m = .done a m' → ∃ n,
        list.run { m with quoting := .argument } = .done a n ∧ m' = { n with quoting := m.quoting } ∧
          Stores m n ∧ n.cursor.source = m.cursor.source := by
  have quoting := reciting.wrapped (Traced.wraps_withQuoting list .argument)
  have recites := quoting.wrapped (Traced.wraps_unwinding (Traced.withQuoting .argument list)) m scanned
  refine ⟨recites, fun {a m'} listed => ?_⟩
  have stores := recites.stores
  rw [listed] at stores
  have source := (recites.leaves listed).2
  obtain ⟨n, inside, rfl⟩ := unwinding_eq_done listed
  exact ⟨n, inside, rfl, ⟨stores.durable, stores.texts⟩, source⟩

theorem inExpression (callee : Symbol Native) : (Traced.inExpression r callee).Reciting := by
  refine fun m scanned => .read_bind scanned (.read_bind scanned ?_)
  obtain ⟨recites, ended⟩ := recitesOn_list h.arguments.argumentsAfterCallee scanned
  refine recites.bind fun count m₁ listed scanned₁ => ?_
  have own : OwnQuotes m.cursor.scanner m.literals.size m₁ := by
    obtain ⟨n, arguments, rfl, stores, source⟩ := ended listed
    rw [Traced.run_argumentsAfterCallee] at arguments
    obtain ⟨-, lexemes, enclosed⟩ := enclosed_argumentsAfterCallee h.reading
      (scanned.faithful.withQuoting .argument) arguments
    exact (enclosed.ownQuotes scanned.toLegible stores source).beside (.of_eq rfl rfl rfl rfl rfl) rfl
  have handed := h.handOver_recitesOn callee count .parenthesised scanned₁ own
  refine handed.bind fun value m₂ _ scanned₂ => ?_
  have ended := h.arguments.advance m₂ scanned₂
  exact ended.bind fun _ m₃ _ scanned₃ => Traced.Reciting.still (still_pure _) m₃ scanned₃

theorem asStatement (callee : Symbol Native) : (Traced.asStatement r callee).Reciting := by
  refine fun m scanned => .read_bind scanned (.read_bind scanned ?_)
  obtain ⟨recites, ended⟩ := recitesOn_list h.arguments.argumentsAfterCommand scanned
  refine recites.bind fun counted m₁ listed scanned₁ => ?_
  have own : OwnQuotes m.cursor.scanner m.literals.size m₁ := by
    obtain ⟨n, arguments, rfl, stores, source⟩ := ended listed
    rw [Traced.run_argumentsAfterCommand] at arguments
    obtain ⟨count, inParens⟩ := counted
    have read := read_argumentsAfterCommand h.reading (scanned.faithful.withQuoting .argument) arguments
    have quotes : OwnQuotes m.cursor.scanner m.literals.size n := by
      cases inParens with
      | true =>
        obtain ⟨-, lexemes, enclosed⟩ := read
        exact enclosed.ownQuotes scanned.toLegible stores source
      | false => exact Listing.ownQuotes read scanned.toLegible stores source
    exact quotes.beside (.of_eq rfl rfl rfl rfl rfl) rfl
  let form : CallForm := if counted.2 then .parenthesised else .command
  have handed := h.handOver_recitesOn callee counted.1 form scanned₁ own
  refine handed.bind fun value m₂ _ scanned₂ => ?_
  split
  · exact h.arguments.advance m₂ scanned₂
  · exact Traced.Reciting.still (still_pure _) m₂ scanned₂

/-! ### Statements -/

omit h in
/-- A turn of a loop starts by reading on. If there is to be another, the cursor is back where it was. -/
theorem branchTurn (choice : (Traced.choice r).Reciting) {m : Machine} (legible : Legible m) :
    (Traced.branchTurn r m.cursor ()).Recites m ∧
      ∀ {next m'}, (Traced.branchTurn r m.cursor ()).run m = .done next m' →
        (next = .again () ∧ Legible m' ∧ m'.cursor = m.cursor) ∨
          next = .finish () ∧ Scanned m' ∧ m'.cursor.source = m.cursor.source := by
  have branch : (Traced.branch r).RecitesOn m :=
    (Traced.RecitesOn.advanceBy legible false).bind fun _ m' _ scanned => choice m' scanned
  refine ⟨branch.toRecites.bind fun held m₁ _ after => ?_, fun {next m'} done => ?_⟩
  · cases held with
    | true =>
      refine .bind (.sameStores (fun _ => ⟨rfl, rfl, rfl⟩) after) fun _ _ _ after => ?_
      exact .still (still_pure _) after
    | false => exact .still (still_pure _) after
  · obtain ⟨held, m₁, branched, done⟩ := bind_eq_done done
    obtain ⟨scanned, source⟩ := branch.leaves branched
    have stores := branch.stores
    rw [branched] at stores
    cases held with
    | true =>
      cases done
      have back : Stores m { m₁ with cursor := m.cursor } := ⟨stores.durable, stores.texts⟩
      exact .inl ⟨rfl, legible.stores back (scanned.lettered.congr rfl rfl rfl) rfl, rfl⟩
    | false =>
      cases done
      exact .inr ⟨rfl, scanned, source⟩

omit h in
theorem branchTurns (choice : (Traced.choice r).Reciting) {start : Cursor} (passes : Nat) {m : Machine}
    (legible : Legible m) (cursor : m.cursor = start) :
    (Traced.loop (Traced.branchTurn r start) passes ()).RecitesOn m := by
  subst cursor
  -- on the passes; where another turn is to come, the cursor is back at the start
  induction passes generalizing m with
  | zero => exact ⟨.still (fun _ => rfl) legible.lettered, fun _ _ done => by cases done⟩
  | succ passes ih =>
    obtain ⟨recites, leaves⟩ := branchTurn choice legible
    rw [Traced.loop_succ]
    refine ⟨recites.bind fun next m' done after => ?_, fun a m'' done => ?_⟩
    · obtain ⟨rfl, legible', cursor⟩ | ⟨rfl, -⟩ := leaves done
      · exact cursor ▸ (ih legible').toRecites
      · exact .still (still_pure _) after
    · obtain ⟨next, m', turned, done⟩ := bind_eq_done done
      obtain ⟨rfl, legible', cursor⟩ | ⟨rfl, scanned, source⟩ := leaves turned
      · have last := (ih legible').leaves
        rw [cursor] at last
        exact last done
      · cases done
        exact ⟨scanned, source⟩

omit h in
theorem recitesOn_keep {m : Machine} {slice : Slice} (scanned : Scanned m) (text : m.HasText slice) :
    (Traced.quiet (keep slice)).RecitesOn m := by
  have copied : Lettering m (allocate (·.addBytes (m.bytes slice)) m).machine :=
    related_allocate lettering_track fun _ _ granted =>
      ⟨.of_grows (.addBytes granted), fun lettered => lettered.addBytes text.isText granted⟩
  have kept : Lettering m (keep slice m).machine := by
    unfold keep
    split
    · split
      · exact copied
      · exact lettering_track.refl m
    · exact lettering_track.refl m
  refine .of_back (.quiet kept scanned.lettered) scanned fun {copy m'} done => ?_
  have aside := (aside_keep slice).done done
  exact ⟨aside.cursor, aside.token⟩

omit h in
theorem definedName : (Traced.quiet Statement.definedName).Reciting := by
  intro m scanned
  unfold Statement.definedName
  rw [Traced.quiet_bind]
  refine .read_bind scanned ?_
  cases token : m.token with
  | name name => exact recitesOn_keep scanned (scanned.token (by rw [token]; rfl)).2
  | _ => exact Traced.Reciting.still (still_fail _) m scanned

omit h in
/-- A body that is kept is in memory, and so is one that is copied. -/
theorem definedBody {α : Type} {f : Slice → Traced α}
    (hf : ∀ body : Slice, body.source.InMemory → (f body).Reciting) :
    (Traced.quiet Statement.definedBody >>= f).Reciting := by
  intro m scanned
  have last : ∀ {body m'}, Statement.definedBody m = .done body m' → body.source.InMemory := by
    intro body m' done
    unfold Statement.definedBody at done
    rw [token_bind] at done
    cases token : m.token with
    | text slice =>
      have memory : slice.source.InMemory := (scanned.token (by rw [token]; rfl)).1
      rw [token] at done
      unfold keep at done
      dsimp only at done
      split at done
      · split at done
        · obtain ⟨arena, granted, -⟩ := allocate_eq_done done
          rw [(Memory.holds_addBytes (a := m.memory) granted).1]
          trivial
        · cases done
          exact memory
      · cases done
        exact memory
    | _ =>
      rw [token] at done
      cases done
  have kept : (Traced.quiet Statement.definedBody).RecitesOn m := by
    unfold Statement.definedBody
    rw [Traced.quiet_bind]
    refine .read_bind scanned ?_
    cases token : m.token with
    | text body => exact recitesOn_keep scanned (scanned.token (by rw [token]; rfl)).2
    | _ => exact Traced.Reciting.still (still_fail _) m scanned
  exact kept.bind fun body m' done scanned' => hf body (last done) m' scanned'

theorem takeBody {α : Type} {f : Slice → Traced α}
    (hf : ∀ body : Slice, body.source.InMemory → (f body).Reciting) :
    (Traced.quiet Statement.takeBody >>= f).Reciting := by
  intro m scanned
  refine (h.arguments.takeBody m scanned).bind fun body m' done scanned' => hf body ?_ m' scanned'
  have done : Statement.takeBody m = .done body m' := done
  unfold Statement.takeBody at done
  rw [token_bind] at done
  cases token : m.token with
  | text slice =>
    rw [token] at done
    obtain ⟨_, m₁, -, done⟩ := bind_eq_done done
    cases done
    exact (scanned.token (by rw [token]; rfl)).1
  | _ =>
    rw [token] at done
    cases done

omit h in
theorem addRoutine {routine : Routine} (memory : routine.body.source.InMemory) :
    (Traced.quiet (allocate (·.addRoutine routine))).Reciting := by
  refine .of_recites (fun {m} lettered => .quiet ?_ lettered) fun done => ?_
  · refine related_allocate lettering_track fun number arena granted => ?_
    have aside := (aside_addRoutine routine).done (allocate_of_some granted)
    exact ⟨aside.toStores, fun lettered => lettered.addRoutine memory granted⟩
  · have aside := (aside_addRoutine routine).done done
    exact ⟨aside.cursor, aside.token⟩

theorem nestedBody {body : Slice} (memory : body.source.InMemory) : (Traced.nestedBody r body).Reciting := by
  have run : (r.body body false false).Reciting := by
    refine .of_recites (h.body memory) fun done => ?_
    have back := (h.reading.bracket body false false).done done
    exact ⟨back.cursor, back.token⟩
  have finished := run.bind fun _ => Traced.Reciting.still (still_pure ())
  exact finished.wrapped (Traced.wraps_noting _)

theorem discipline :
    TracedDiscipline Traced.Reciting (fun _ => True) (fun body => body.source.InMemory) r where
  toTracedArguments := h.arguments
  atToken atName other := .bind (.still (still_read _)) fun token => by
    cases token with
    | name name =>
      rw [atName]
      exact .tell_bind (fun _ _ h => by cases h) (.still (still_fail _))
    | _ => exact other _ fun _ h => by cases h
  plain hx := hx.wrapped (Traced.wraps_withQuoting _ .plain)
  storing _ _ _ := .tell_bind (fun _ _ h => by cases h) (.beside fun _ => .of_eq rfl rfl rfl rfl rfl)
  result _ := .beside fun _ => .of_eq rfl rfl rfl rfl rfl
  definedName := definedName
  definedBody := definedBody
  takeBody := h.takeBody
  addSymbol name value {tag} _ := .beside (beside_addSymbol name tag value)
  addRoutine := addRoutine
  repeating choice m scanned := .read_bind scanned (branchTurns choice r.passes scanned.toLegible rfl)
  nestedBody := h.nestedBody
  inExpression _ := h.inExpression _
  asStatement _ := h.asStatement _

/-! ### Bodies -/

theorem wholeBody {body : Slice} {topLevel duplicate : Bool} {m : Machine} (memory : body.source.InMemory)
    (lettered : m.Lettered) : (Traced.wholeBody r body topLevel duplicate).Recites m := by
  have legible : Legible { m with cursor := m.cursorAt body, quoting := .plain, duplicate } :=
    ⟨lettered.congr rfl rfl rfl, faithful_cursorAt m body duplicate, memory⟩
  have inside := (Traced.RecitesOn.advanceBy legible false).bind fun _ m' _ scanned =>
    h.discipline.statements m' scanned
  have within := inside.locating.wrapped (Traced.wraps_inBody _ body duplicate)
  exact within.wrapped (Traced.wraps_inScope _ topLevel)

end RecitingReentry

/-- On every budget, evaluation recites. -/
theorem recitingReentry_ofFuel (world : World) (fuel : Nat) : RecitingReentry (.ofFuel world fuel) := by
  have reading : ∀ fuel, ReadingDiscipline (TracedReentry.ofFuel world fuel).run := fun fuel => by
    rw [TracedReentry.run_ofFuel]
    exact readingDiscipline_ofFuel world fuel
  induction fuel with
  | zero => exact ⟨reading 0, .still fun _ => rfl, fun _ lettered => .still (fun _ => rfl) lettered⟩
  | succ fuel ih => exact ⟨reading (fuel + 1), ih.discipline.wholeExpression, ih.wholeBody⟩

/-! ### Byte for byte -/

/-- String literals arrive byte for byte. Take a script, or a body of it: the inside of a block or of a
quotation, however deep, where the script is or copied behind other texts. However it is read, in either way
of reading quotations, the place that reading has come to is between two characters, and so are both ends of
every name, operator, block and quotation. And in every run on a new machine, whenever a native starts, the
strings that it is given are quotations that were read since its name, in their order, and each is encoded by
just the bytes between the marks. So decoding never replaces anything. At every moment all that can be read
from is text, also what is copied for good. -/
theorem literals_byte_for_byte :
    (∀ {store start stop}, BodyIn store start stop → ∀ modes quoting,
      Text.IsBoundary store.toList (((Scanner.ofWindow store start stop).readOn modes).next quoting).2.pos ∧
      ∀ l after place, ((Scanner.ofWindow store start stop).readOn modes).next quoting = (.ok l, after) →
        l.place? = some place →
          Text.IsBoundary store.toList place.start ∧ Text.IsBoundary store.toList place.stop) ∧
    ∀ world fuel host, (Traced.perform (.ofFuel world fuel) host).run = host.perform (.ofFuel world fuel) ∧
      ∀ options start, Machine.new options = .ok start →
        ∀ e ∈ (Traced.perform (.ofFuel world fuel) host).events start, e.Verbatim := by
  refine ⟨fun body => body.isBoundary, fun world fuel host => ⟨?_, fun options start made => ?_⟩⟩
  · rw [Traced.run_perform, TracedReentry.run_ofFuel]
  · exact ((recitingReentry_ofFuel world fuel).perform host (lettered_new made)).verbatim

/-- The copy of a block with a quotation in it whose character takes two bytes, and a run that prints it. -/
theorem literals_byte_for_byte_accent :
    (∃ store after, BodyIn store 1 13 ∧
      ((Scanner.ofWindow store 1 13).readOn [.plain]).next .argument = (.ok (.quote ⟨9, 11⟩), after) ∧
      Text.IsBoundary store.toList 9 ∧ Text.IsBoundary store.toList 11 ∧
      Text.IsBoundary store.toList after.pos) ∧
    ∃ start events, Machine.new {} = .ok start ∧
      (Traced.perform (.ofFuel (fun _ _ => none) 20)
        (.evalText "print \"é\"" false true fun _ => .give 0)).events start = events ∧
      events.map (·.machine.literals.pending) = [[], [], ["é"]] ∧ ∀ e ∈ events, e.Verbatim := by
  have script := BodyIn.script "func f \x7b print \"é\" \x7d"
  have block : BodyIn (Text.encode "func f \x7b print \"é\" \x7d").toArray 8 20 :=
    .nested script [.plain, .plain] .plain (l := .block ⟨8, 20⟩) (Prod.ext (by decide +kernel) rfl) (.inl rfl)
  have told : ((Machine.new {}).toOption.map fun start =>
      ((Traced.perform (.ofFuel (fun _ _ => none) 20)
        (.evalText "print \"é\"" false true fun _ => .give 0)).events start).map
          (·.machine.literals.pending)) = some [[], [], ["é"]] := by
    decide +kernel
  obtain ⟨start, made, pending⟩ := Machine.exists_new told
  obtain ⟨boundaries, runs⟩ := literals_byte_for_byte
  refine ⟨⟨_, _, block.copied "f" "", Prod.ext (by decide +kernel) rfl, ?_⟩, start, _, made, rfl, pending,
    (runs _ _ _).2 _ _ made⟩
  obtain ⟨behind, places⟩ := boundaries (block.copied "f" "") [.plain] .argument
  obtain ⟨first, last⟩ := places (.quote ⟨9, 11⟩) _ _ (Prod.ext (by decide +kernel) rfl) rfl
  exact ⟨first, last, behind⟩

end Scriptlet
