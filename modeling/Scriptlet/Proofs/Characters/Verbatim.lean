import Scriptlet.Proofs.Characters.Memory
import Scriptlet.Proofs.Trace.Account

/-!
Literals byte for byte. When a native starts, the strings that it is given are quotations that were read
since its name, and each has the bytes that stand between the marks of the quotation: the string is what
these bytes spell in UTF-8, with nothing replaced (`Event.Verbatim`).

Decoding replaces what is not UTF-8, so this rests on the stores, which are texts at every moment. A
computation is vouched for from one machine to the other (`Traced.Recites`); what evaluates as it reads
needs to start where a text is read, and ends there (`Traced.Reciting`). The rules compose along the
constructs of evaluation.
-/

namespace Scriptlet

open Eval

variable {α β : Type}

/-! ### The strings of a call -/

/-- The strings above the first `literals` are quotations that were read since a place in the text, byte for
byte. -/
structure OwnQuotes (list : Scanner) (literals : Nat) (m : Machine) : Prop where
  there : list.rest <+: (m.store m.cursor.source).toList.drop list.pos
  quotes : ∃ lexemes, ∃ places : List Span, list.Path lexemes m.cursor.scanner ∧
    places.Sublist (lexemes.flatMap Lexeme.quoted) ∧
    (m.literals.stack.drop literals).map Text.encode = places.map list.bytesOf

/-- All that can be read from is text, and a native that starts is given, in the order of the text,
quotations that were read since its name, byte for byte. -/
structure Event.Verbatim (e : Event) : Prop where
  lettered : e.machine.Lettered
  literals : ∀ {form list}, e.what = .starting form list →
    list.rest <+: (e.machine.store e.machine.cursor.source).toList.drop list.pos ∧
    ∃ lexemes, ∃ places : List Span, ∃ strings, list.Path lexemes e.machine.cursor.scanner ∧
      places.Sublist (lexemes.flatMap Lexeme.quoted) ∧ GivesStrings e.machine strings ∧
      strings.map Text.encode = places.map list.bytesOf

theorem OwnQuotes.verbatim {list : Scanner} {literals : Nat} {m : Machine} (h : OwnQuotes list literals m)
    (lettered : m.Lettered) (form : CallForm) :
    Event.Verbatim ⟨.starting form list, { m with literals := (m.literals.openFrame literals).2 }⟩ := by
  refine ⟨lettered.congr rfl rfl rfl, fun {form' list'} starting => ?_⟩
  cases starting
  obtain ⟨lexemes, places, path, inList, bytes⟩ := h.quotes
  exact ⟨h.there, lexemes, places, _, path, inList, givesStrings_pending _, bytes⟩

theorem directQuotes_sublist (depth : Nat) (list : List Lexeme) :
    (directQuotes depth list).Sublist (list.flatMap Lexeme.quoted) := by
  induction list generalizing depth with
  | nil => exact .slnil
  | cons l rest ih =>
    rw [directQuotes, List.flatMap_cons]
    refine List.Sublist.append ?_ ?_
    · split
      · exact .refl _
      · exact List.nil_sublist _
    · split
      · exact ih _
      · exact List.nil_sublist _

/-- Strings that were read in a text are what stands there. -/
theorem ownQuotes_of_path {m n : Machine} {lexemes direct : List Lexeme} (legible : Legible m)
    (stores : Stores m n) (source : n.cursor.source = m.cursor.source)
    (path : m.cursor.scanner.Path lexemes n.cursor.scanner)
    (inList : (directQuotes 0 direct).Sublist (lexemes.flatMap Lexeme.quoted))
    (strings : n.literals.stack =
      m.literals.stack ++ (directQuotes 0 direct).map m.cursor.scanner.textOf) :
    OwnQuotes m.cursor.scanner m.literals.size n := by
  refine ⟨?_, lexemes, _, path, inList, ?_⟩
  · rw [source]
    exact legible.faithful.trans (List.IsPrefix.drop (stores.store_prefix m.cursor.source) _)
  · have own : n.literals.stack.drop m.literals.size =
        (directQuotes 0 direct).map m.cursor.scanner.textOf := by
      rw [strings]
      exact List.drop_left
    rw [own, List.map_map]
    refine List.map_congr_left fun inside hmem => ?_
    obtain ⟨l, read, quoted⟩ := List.mem_flatMap.mp (inList.subset hmem)
    have isQuote : l = .quote inside := by
      cases l with
      | quote inside' =>
        cases List.mem_singleton.mp quoted
        rfl
      | _ => cases quoted
    exact (path.isText legible.isPiece (isQuote ▸ read)).encode_decode

theorem OwnQuotes.beside {list : Scanner} {literals : Nat} {m m' : Machine} (h : OwnQuotes list literals m)
    (k : Beside m m') (same : m'.literals = m.literals) : OwnQuotes list literals m' := by
  refine ⟨?_, ?_⟩
  · rw [k.cursor]
    exact h.there.trans (List.IsPrefix.drop (k.stores.store_prefix _) _)
  · rw [k.cursor, same]
    exact h.quotes

theorem Enclosed.ownQuotes {m n : Machine} {list : List Lexeme}
    (enclosed : Enclosed { m with quoting := .argument } n list) (legible : Legible m) (stores : Stores m n)
    (source : n.cursor.source = m.cursor.source) : OwnQuotes m.cursor.scanner m.literals.size n := by
  refine ownQuotes_of_path legible stores source enclosed.path ?_ (enclosed.strings rfl)
  rw [List.flatMap_cons, List.flatMap_append]
  exact ((directQuotes_sublist 0 list).trans (List.sublist_append_left _ _)).trans
    (List.sublist_append_right _ _)

theorem Listing.ownQuotes {m n : Machine} (listing : Listing 0 { m with quoting := .argument } n)
    (legible : Legible m) (stores : Stores m n) (source : n.cursor.source = m.cursor.source) :
    OwnQuotes m.cursor.scanner m.literals.size n := by
  obtain ⟨list, next, reads⟩ := listing.reads
  exact ownQuotes_of_path legible stores source reads.path (directQuotes_sublist 0 _) (reads.strings rfl)

/-! ### From text to text -/

/-- What could be read still can, and if it was all text, so it is. -/
structure Lettering (m m' : Machine) : Prop where
  stores : Stores m m'
  lettered : m.Lettered → m'.Lettered

theorem lettering_track : Track Lettering where
  refl m := ⟨.refl m, id⟩
  trans h k := ⟨h.stores.trans k.stores, k.lettered ∘ h.lettered⟩

theorem SameStores.lettering {m m' : Machine} (h : SameStores m m') : Lettering m m' :=
  ⟨h.stores, fun lettered => lettered.sameStores h⟩

theorem sameStores_ask (world : World) (question : Question) : Keeps SameStores (world.ask question) :=
  sameStores_track.ask (fun _ _ => ⟨rfl, rfl, rfl⟩) world question

theorem sameStores_readScript (world : World) (path : String) :
    Keeps SameStores (reporting (readScript world path)) :=
  keeps_reporting sameStores_track (fun _ _ => ⟨rfl, rfl, rfl⟩)
    (keeps_readScript sameStores_track (sameStores_ask world) path)

theorem lettering_define (name : String) (tag : Tag Native) (value : Word) :
    Keeps Lettering (define name tag value) := by
  refine lettering_track.define (lettering_track.allocate fun granted => ?_)
    fun slice m => (beside_addSymbol slice tag value m).toSameStores.lettering
  exact ⟨.of_grows (.addBytes granted), fun lettered =>
    lettered.addBytes (Text.isText_encode name) granted⟩

namespace Traced

/-- From text to text, and all that is told is verbatim. -/
structure Recites (x : Traced α) (m : Machine) : Prop where
  stores : Stores m (x.run m).machine
  lettered : (x.run m).machine.Lettered
  verbatim : ∀ e ∈ x.events m, e.Verbatim

namespace Recites

variable {m : Machine} {x : Traced α}

theorem quiet {y : Eval α} (hy : Lettering m (y m).machine) (lettered : m.Lettered) :
    (Traced.quiet y).Recites m := ⟨hy.stores, hy.lettered lettered, fun _ he => by cases he⟩

theorem sameStores {y : Eval α} (hy : Keeps SameStores y) (lettered : m.Lettered) :
    (Traced.quiet y).Recites m := quiet (hy m).lettering lettered

theorem still {y : Eval α} (hy : Still y) (lettered : m.Lettered) : (Traced.quiet y).Recites m :=
  sameStores (sameStores_track.still hy) lettered

theorem bind {f : α → Traced β} (hx : x.Recites m)
    (hf : ∀ a m', x.run m = .done a m' → m'.Lettered → (f a).Recites m') : (x >>= f).Recites m := by
  have events : (x >>= f).events m =
      x.events m ++ (x.run m).thenTold fun a m' => (f a).events m' := rfl
  have run : (x >>= f).run m = (x.run m).andThen fun a => (f a).run := rfl
  obtain ⟨stores, lettered, verbatim⟩ := hx
  cases hm : x.run m with
  | done a m' =>
    rw [hm] at events run stores lettered
    have hf := hf a m' hm lettered
    refine ⟨run ▸ stores.trans hf.stores, run ▸ hf.lettered, fun e he => ?_⟩
    rw [events] at he
    exact (List.mem_append.mp he).elim (verbatim e) (hf.verbatim e)
  | _ =>
    rw [hm] at events run stores lettered
    have events : (x >>= f).events m = x.events m := events.trans (List.append_nil _)
    exact ⟨run ▸ stores, run ▸ lettered, events ▸ verbatim⟩

/-- Only where a native starts there is something to be said of strings. -/
theorem tell {what : Occasion} (lettered : m.Lettered) (other : ∀ form list, what ≠ .starting form list) :
    (Traced.tell what).Recites m :=
  ⟨.refl m, lettered, fun _ he => List.mem_singleton.mp he ▸
    ⟨lettered, fun starting => absurd starting (other _ _)⟩⟩

theorem around {y : Traced β} {start : Machine} (hx : x.Recites start) (starts : SameStores m start)
    (events : y.events m = x.events start) (ends : SameStores (x.run start).machine (y.run m).machine) :
    y.Recites m :=
  ⟨(starts.stores.trans hx.stores).trans ends.stores, hx.lettered.sameStores ends, events ▸ hx.verbatim⟩

theorem wrapped {start : Machine → Machine} {y : Traced α} (hx : x.Recites (start m))
    (wraps : Wraps SameStores start x y) : y.Recites m := by
  obtain ⟨change, run, same⟩ := wraps.run m
  refine hx.around (wraps.starts m) (wraps.events m) ?_
  rw [run, Outcome.machine_adjust]
  exact same _

theorem noting (hx : x.Recites m.note) : (Traced.noting x).Recites m :=
  hx.wrapped ((Traced.wraps_noting x).mono fun k => k.toSameStores)

theorem inFrame (hx : x.Recites m) : (Traced.inFrame x).Recites m :=
  hx.wrapped ((Traced.wraps_inFrame x).mono fun k => k.toSameStores)

theorem withPending {count : Nat} (hx : x.Recites { m with literals := (m.literals.openFrame count).2 }) :
    (Traced.withPending count x).Recites m :=
  hx.wrapped ((Traced.wraps_withPending x count).mono fun k => k.toSameStores)

theorem truncatingLiterals {count : Nat} (hx : x.Recites m) :
    (Traced.truncatingLiterals count x).Recites m :=
  hx.wrapped ((Traced.wraps_truncatingLiterals x count).mono fun k => k.toSameStores)

theorem locating (hx : x.Recites m) : (Traced.locating x).Recites m := by
  refine hx.around (sameStores_track.refl m) rfl ?_
  change SameStores _ ((x.run m).adjustError Machine.locate).machine
  rw [Outcome.machine_adjustError]
  exact sameStores_track.refl _

theorem reporting (hx : x.Recites m) : (Traced.reporting x).Recites m := by
  refine hx.around (sameStores_track.refl m) rfl ?_
  change SameStores (x.run m).machine (Eval.reporting x.run m).machine
  unfold Eval.reporting
  cases x.run m with
  | failed error m' =>
    dsimp only
    split <;> exact ⟨rfl, rfl, rfl⟩
  | _ => exact sameStores_track.refl _

theorem entering (hx : x.Recites { m with depth := m.depth + 1 }) : (Traced.entering x).Recites m :=
  wrapped hx ((wraps_entering x).mono fun k => k.toSameStores)

/-- A text is held in a slot that was free, and is taken out again. -/
theorem holding {x : Nat → Traced α} {text : Text.Bytes} {forGood : Bool}
    (hx : (x (m.texts.retain text.toArray).1).Recites (m.withTexts (m.texts.retain text.toArray).2)) :
    (Traced.holding text forGood x).Recites m := by
  have held : Stores m (m.withTexts (m.texts.retain text.toArray).2) :=
    ⟨List.prefix_rfl, (Memory.Grows.retain (a := m.memory) text.toArray).texts⟩
  obtain ⟨stores, lettered, verbatim⟩ := hx
  have run : ((Traced.holding text forGood x).run m).machine =
      if forGood then ((x _).run (m.withTexts (m.texts.retain text.toArray).2)).machine
      else ((x _).run (m.withTexts (m.texts.retain text.toArray).2)).machine.withTexts
        (((x _).run (m.withTexts (m.texts.retain text.toArray).2)).machine.texts.release
          (m.texts.retain text.toArray).1) := Outcome.machine_adjust _ _
  have grown := held.trans stores
  cases forGood with
  | true =>
    rw [if_pos rfl] at run
    exact ⟨run ▸ grown, run ▸ lettered, verbatim⟩
  | false =>
    rw [if_neg Bool.false_ne_true] at run
    refine ⟨run ▸ ⟨grown.durable, fun {slot bytes} there => ?_⟩, run ▸ lettered.release _, verbatim⟩
    have other : slot ≠ (m.texts.retain text.toArray).1 := by
      rintro rfl
      rw [Texts.text?_retain_slot] at there
      cases there
    exact (Texts.text?_release _ _ _).trans ((if_neg other).trans (grown.texts there))

theorem judged (hx : x.Recites m) : (Traced.judged x).Recites m := by
  have run : (Traced.judged x).run m = Eval.attempt x.run m := congrFun (run_judged rfl) m
  have machine : ((Traced.judged x).run m).machine = (x.run m).machine := by
    rw [run]
    unfold Eval.attempt
    cases x.run m <;> rfl
  refine ⟨machine ▸ hx.stores, machine ▸ hx.lettered, fun e he => ?_⟩
  rw [events_judged] at he
  rcases List.mem_append.mp he with he | he
  · exact hx.verbatim e he
  · have lettered := hx.lettered
    cases hm : x.run m with
    | failed error m' =>
      rw [hm] at he lettered
      cases List.mem_singleton.mp he
      exact ⟨lettered, fun starting => by cases starting⟩
    | _ =>
      rw [hm] at he
      cases he

end Recites

/-! ### Reading on -/

/-- All that is told is verbatim, and in the end a text is read still, and the same one. -/
structure RecitesOn (x : Traced α) (m : Machine) : Prop extends x.Recites m where
  leaves : ∀ ⦃a m'⦄, x.run m = .done a m' → Scanned m' ∧ m'.cursor.source = m.cursor.source

/-- Where a text is read, the computation recites, and reads on. -/
def Reciting (x : Traced α) : Prop := ∀ m, Scanned m → x.RecitesOn m

namespace RecitesOn

variable {m : Machine} {x : Traced α}

theorem bind {f : α → Traced β} (hx : x.RecitesOn m)
    (hf : ∀ a m', x.run m = .done a m' → Scanned m' → (f a).RecitesOn m') : (x >>= f).RecitesOn m := by
  have next : ∀ {a m'}, x.run m = .done a m' → (f a).RecitesOn m' := fun done =>
    hf _ _ done (hx.leaves done).1
  refine ⟨hx.toRecites.bind fun a m' done _ => (next done).toRecites, fun b m'' done => ?_⟩
  obtain ⟨a, m', first, second⟩ := bind_eq_done done
  obtain ⟨scanned, source⟩ := (next first).leaves second
  exact ⟨scanned, source.trans (hx.leaves first).2⟩

theorem of_back (hx : x.Recites m) (scanned : Scanned m)
    (back : ∀ {a m'}, x.run m = .done a m' → m'.cursor = m.cursor ∧ m'.token = m.token) :
    x.RecitesOn m := by
  refine ⟨hx, fun a m' done => ?_⟩
  obtain ⟨stores, lettered, -⟩ := hx
  rw [done] at stores lettered
  obtain ⟨cursor, token⟩ := back done
  exact ⟨scanned.aside ⟨stores, cursor, token⟩ lettered, congrArg Cursor.source cursor⟩

theorem read_bind {σ : Type} {g : Machine → σ} {f : σ → Traced β} (scanned : Scanned m)
    (hf : (f (g m)).RecitesOn m) : (Traced.quiet (read g) >>= f).RecitesOn m := by
  refine bind (of_back (.still (still_read _) scanned.lettered) scanned fun done => ?_) fun a m' done _ => ?_
  · cases done
    exact ⟨rfl, rfl⟩
  · cases done
    exact hf

theorem advanceBy (legible : Legible m) (raw : Bool) : (Traced.quiet (advanceBy raw)).RecitesOn m := by
  obtain ⟨cursor, token, literals, machine, source, -⟩ := advanceBy_machine raw m
  have same : SameStores m (Eval.advanceBy raw m).machine := machine ▸ ⟨rfl, rfl, rfl⟩
  refine ⟨⟨same.stores, legible.lettered.sameStores same, fun _ he => by cases he⟩, fun _ m' done => ?_⟩
  refine ⟨scanned_of_advanceBy legible done, ?_⟩
  have ended : m' = (Eval.advanceBy raw m).machine := congrArg Outcome.machine done.symm
  rw [ended, machine]
  exact source

end RecitesOn

namespace Reciting

variable {x : Traced α}

theorem bind {f : α → Traced β} (hx : x.Reciting) (hf : ∀ a, (f a).Reciting) : (x >>= f).Reciting :=
  fun m scanned => (hx m scanned).bind fun a m' _ scanned' => hf a m' scanned'

/-- What is verbatim wherever there are texts, and comes back to the place of reading. -/
theorem of_recites (recites : ∀ {m : Machine}, m.Lettered → x.Recites m)
    (back : ∀ {m a m'}, x.run m = .done a m' → m'.cursor = m.cursor ∧ m'.token = m.token) :
    x.Reciting := fun _ scanned => .of_back (recites scanned.lettered) scanned back

theorem beside {y : Eval α} (hy : Keeps Beside y) : (Traced.quiet y).Reciting :=
  of_recites (fun lettered => .sameStores (fun m => (hy m).toSameStores) lettered) fun done =>
    ⟨(hy.done done).cursor, (hy.done done).token⟩

theorem still {y : Eval α} (hy : Still y) : (Traced.quiet y).Reciting := beside (beside_track.still hy)

theorem tell_bind {what : Occasion} (other : ∀ form list, what ≠ .starting form list) {f : Unit → Traced β}
    (hf : (f ()).Reciting) : (Traced.tell what >>= f).Reciting := by
  refine bind (of_recites (fun lettered => .tell lettered other) fun done => ?_) fun _ => hf
  cases done
  exact ⟨rfl, rfl⟩

theorem wrapped {start : Machine → Machine} {y : Traced α} (hx : x.Reciting)
    (wraps : Wraps Beside start x y) : y.Reciting := by
  intro m scanned
  have before := wraps.starts m
  obtain ⟨recites, leaves⟩ := hx (start m) (scanned.beside before)
  obtain ⟨change, run, behind⟩ := wraps.run m
  refine ⟨recites.wrapped (wraps.mono fun k => k.toSameStores), fun a m' done => ?_⟩
  obtain ⟨m'', inside, rfl⟩ := Outcome.adjust_eq_done (run.symm.trans done)
  obtain ⟨scanned', source⟩ := leaves inside
  refine ⟨scanned'.beside (behind m''), ?_⟩
  rw [(behind m'').cursor, source, before.cursor]

end Reciting

end Traced

theorem reciting_track : TracedTrack Traced.Reciting := ⟨.bind, .still⟩

end Scriptlet
