import Mathlib.Data.List.Forall2
import Scriptlet.Proofs.Reach
import Scriptlet.Proofs.Tree.Spelling
import Scriptlet.Proofs.Tree.Walk

/-!
How a machine stands to a walk. The script is on a page: the text in one slot of the machine. A
machine matches the state of a walk if behind the vocabulary its table holds a symbol for every
binding, and its result and its output are those of the state. Then a name is found in the table
exactly where the state binds it, and each change of the state is matched by one of the machine.
-/

namespace Scriptlet.Tree

open Text (Bytes)
open Eval Machine

variable {F : Name → Bool}

/-! ### The page -/

/-- The text that holds the script, and its slot. -/
structure Page where
  slot : Nat
  text : Bytes

namespace Page

/-- A slice that marks out given bytes of the page. -/
def Shows (page : Page) (slice : Slice) (bytes : Bytes) : Prop :=
  ∃ before after, page.text = before ++ bytes ++ after ∧
    slice = ⟨.text page.slot, before.length, bytes.length⟩

/-- A cursor that has given items left to read. -/
def OpenAt (page : Page) (cursor : Cursor) (items : List Item) : Prop :=
  cursor.source = .text page.slot ∧
    ∃ before after, page.text = before ++ bytesOf items ++ after ∧
      cursor.scanner = ⟨before.length, bytesOf items⟩

variable {page : Page} {m : Machine}

theorem store_eq (h : m.texts.text? page.slot = some page.text.toArray) :
    m.store (.text page.slot) = page.text.toArray := by
  show m.texts.get page.slot = _
  unfold Texts.get
  rw [h]
  rfl

/-- A slice of the page reads as the bytes it shows. -/
theorem Shows.bytes {slice : Slice} {bytes : Bytes} (h : page.Shows slice bytes)
    (held : m.texts.text? page.slot = some page.text.toArray) : m.bytes slice = bytes := by
  obtain ⟨before, after, htext, rfl⟩ := h
  show Slice.bytesIn _ (m.store (.text page.slot)) = bytes
  rw [store_eq held, Slice.bytesIn, htext]
  simp [Slice.stop, List.extract_eq_take_drop]

/-- A body that is shown is open at its start. -/
theorem Shows.openAt {body : Slice} {items : List Item} (h : page.Shows body (bytesOf items))
    (held : m.texts.text? page.slot = some page.text.toArray) :
    page.OpenAt (m.cursorAt body) items := by
  obtain ⟨before, after, htext, rfl⟩ := h
  refine ⟨rfl, before, after, htext, ?_⟩
  show Scanner.ofWindow (m.store (.text page.slot)) _ _ = _
  rw [store_eq held, Scanner.ofWindow, htext]
  simp [Slice.stop, List.extract_eq_take_drop]

end Page

/-! ### Tables -/

def Name.bytes (x : Name) : Bytes := Text.encode x.text

theorem Name.bytes_inj {x y : Name} : x.bytes = y.bytes ↔ x = y := by
  constructor
  · intro h
    have text : x.text = y.text := Text.encode_inj.mp h
    obtain ⟨⟨xt, xw⟩, xf⟩ := x
    obtain ⟨⟨yt, yw⟩, yf⟩ := y
    cases text
    rfl
  · rintro rfl
    rfl

/-- A symbol that stands for a binding. The parameters and the body of a function are on the
page. -/
def Represents (page : Page) (routines : Array Routine) : Binding F → Symbol Native → Prop
  | .var x value, symbol => page.Shows symbol.name x.val.bytes ∧ symbol.tag = .var ∧ symbol.value = value
  | .func f params body, symbol =>
    page.Shows symbol.name f.val.bytes ∧ symbol.tag = .func params.length ∧
      ∃ routine, symbol.value.index?.bind (routines[·]?) = some routine ∧
        List.Forall₂ (fun x slice => page.Shows slice x.val.bytes) params routine.params ∧
        page.Shows routine.body (bytesOf (.newline :: lines body))

theorem Represents.name {page : Page} {routines : Array Routine} {b : Binding F}
    {symbol : Symbol Native} (h : Represents page routines b symbol) :
    page.Shows symbol.name b.name.bytes := by
  cases b with
  | var x value => exact h.1
  | func f params body => exact h.1

theorem Represents.mono {page : Page} {routines routines' : Array Routine} {b : Binding F}
    {symbol : Symbol Native} (h : Represents page routines b symbol)
    (more : ∀ {i : Nat} {routine}, routines[i]? = some routine → routines'[i]? = some routine) :
    Represents page routines' b symbol := by
  cases b with
  | var x value => exact h
  | func f params body =>
    obtain ⟨name, tag, routine, found, shown⟩ := h
    obtain ⟨number, hnumber, old⟩ := Option.bind_eq_some_iff.mp found
    exact ⟨name, tag, routine, Option.bind_eq_some_iff.mpr ⟨number, hnumber, more old⟩, shown⟩

def vocabularySymbols : List (Symbol Native) := vocabulary.map entrySymbol

/-- A table that holds the vocabulary and a symbol for every binding, the oldest first. -/
def Holds (page : Page) (arena : Arena Native) (bindings : List (Binding F)) : Prop :=
  ∃ symbols, arena.symbols.toList = vocabularySymbols ++ symbols.reverse ∧
    List.Forall₂ (Represents page arena.routines) bindings symbols

/-- A machine in the state of a walk, with the given words on its stack. -/
structure Matches (page : Page) (stack : Array Word) (s : State F) (m : Machine) : Prop where
  text : m.texts.text? page.slot = some page.text.toArray
  duplicate : m.duplicate = false
  literals : m.literals = {}
  stack : m.arena.stack = stack
  result : m.result = s.result
  out : m.written .out = s.out
  budget : Memory.Budgeted m.arena
  table : Holds page m.arena s.bindings

def contents (m : Machine) : Arena Native × Texts × Bool × Literals × Word × Array Chunk :=
  (m.arena, m.texts, m.duplicate, m.literals, m.result, m.transcript)

theorem Matches.congr {page : Page} {stack : Array Word} {s : State F} {m m' : Machine}
    (h : Matches page stack s m) (same : contents m' = contents m) : Matches page stack s m' := by
  simp only [contents, Prod.mk.injEq] at same
  obtain ⟨arena, texts, duplicate, literals, result, transcript⟩ := same
  have out : m'.written .out = m.written .out := by
    unfold Machine.written
    rw [transcript]
  exact ⟨by rw [texts]; exact h.text, by rw [duplicate]; exact h.duplicate,
    by rw [literals]; exact h.literals, by rw [arena]; exact h.stack,
    by rw [result]; exact h.result, out.trans h.out, by rw [arena]; exact h.budget,
    by rw [arena]; exact h.table⟩

/-! ### Looking up names -/

theorem newestBelow?_add {m : Machine} {name : Bytes} {n : Nat} (k : Nat)
    (h : ∀ i s, n ≤ i → m.arena.symbols[i]? = some s → m.bytes s.name ≠ name) :
    m.newestBelow? name (n + k) = m.newestBelow? name n := by
  induction k with
  | zero => rfl
  | succ k ih =>
    cases hs : m.arena.symbols[n + k]? with
    | some s => rw [← Nat.add_assoc, newestBelow?_succ name hs, if_neg (h _ s (by omega) hs), ih]
    | none => rw [← Nat.add_assoc, newestBelow?, hs, ih]

theorem index?_of_split {m : Machine} {older newer : List (Symbol Native)} {s : Symbol Native}
    {name : Bytes} (hs : m.arena.symbols.toList = older ++ s :: newer) (hname : m.bytes s.name = name)
    (hnewer : ∀ t ∈ newer, m.bytes t.name ≠ name) :
    m.index? name = some older.length ∧ m.arena.symbols[older.length]? = some s := by
  have found : m.arena.symbols[older.length]? = some s := by
    rw [← Array.getElem?_toList, hs]
    simp
  have size : m.arena.symbols.size = older.length + 1 + newer.length := by
    rw [← Array.length_toList, hs]
    simp only [List.length_append, List.length_cons]
    omega
  have others : ∀ i t, older.length + 1 ≤ i → m.arena.symbols[i]? = some t →
      m.bytes t.name ≠ name := by
    intro i t hi ht
    rw [← Array.getElem?_toList, hs, List.getElem?_append_right (by omega)] at ht
    obtain ⟨k, hk⟩ : ∃ k, i - older.length = k + 1 := ⟨i - older.length - 1, by omega⟩
    rw [hk, List.getElem?_cons_succ] at ht
    exact hnewer t (List.mem_of_getElem? ht)
  refine ⟨?_, found⟩
  unfold Machine.index?
  rw [size, newestBelow?_add _ others, newestBelow?_succ name found, if_pos hname]

theorem index?_of_absent {m : Machine} {name : Bytes}
    (h : ∀ s ∈ m.arena.symbols.toList, m.bytes s.name ≠ name) : m.index? name = none := by
  have others : ∀ i s, 0 ≤ i → m.arena.symbols[i]? = some s → m.bytes s.name ≠ name :=
    fun i s _ hs => h s (Array.mem_toList_iff.mpr (Array.mem_of_getElem? hs))
  unfold Machine.index?
  rw [← Nat.zero_add m.arena.symbols.size, newestBelow?_add _ others]
  rfl

/-! ### The vocabulary -/

theorem nodup_vocabulary : (vocabulary.map Prod.fst).Nodup := by decide

/-- A name is not in the vocabulary: the keywords and natives are excluded, and an operator does not
start with a letter. -/
theorem Name.not_mem_vocabulary (x : Name) : x.text ∉ vocabulary.map Prod.fst := by
  intro h
  have cases_ : x.text ∈ Operator.all.map Operator.spelling ∨ x.text ∈ reserved := by
    simpa [vocabulary, reserved, or_assoc] using h
  rcases cases_ with operator | word
  · obtain ⟨op, -, spelled⟩ := List.mem_map.mp operator
    obtain ⟨b, rest, hb, letter, -⟩ := x.toSpelled.bytes
    obtain ⟨c, rest', hc, class_, -⟩ := spelling_bytes op
    rw [spelled, hb] at hc
    cases hc
    rw [Byte.classOf_of_isLetter letter] at class_
    cases class_
  · exact x.free word

variable {page : Page} {stack : Array Word} {s : State F} {m : Machine}

/-- The names of the symbols that stand for bindings are those of the bindings. -/
theorem bytes_name_of_mem {routines : Array Routine} {bindings : List (Binding F)}
    {symbols : List (Symbol Native)} (h : List.Forall₂ (Represents page routines) bindings symbols)
    (held : m.texts.text? page.slot = some page.text.toArray) {symbol : Symbol Native}
    (mem : symbol ∈ symbols) : ∃ b ∈ bindings, m.bytes symbol.name = b.name.bytes := by
  induction h with
  | nil => cases mem
  | cons first rest ih =>
    rcases List.mem_cons.mp mem with rfl | mem
    · exact ⟨_, List.mem_cons_self, first.name.bytes held⟩
    · obtain ⟨b, hb, name⟩ := ih mem
      exact ⟨b, List.mem_cons_of_mem _ hb, name⟩

/-- A word of the vocabulary is found there, if no newer symbol has its name. -/
theorem index?_of_vocabulary {m : Machine} {newer : List (Symbol Native)}
    (table : m.arena.symbols.toList = vocabularySymbols ++ newer) {word : String} {tag : Tag Native}
    (mem : (word, tag) ∈ vocabulary) (others : ∀ s ∈ newer, m.bytes s.name ≠ Text.encode word) :
    ∃ i, m.index? (Text.encode word) = some i ∧
      m.arena.symbols[i]? = some ⟨.ofString word, tag, 0⟩ := by
  obtain ⟨before, after, hv⟩ := List.append_of_mem mem
  have split : m.arena.symbols.toList = before.map entrySymbol ++
      entrySymbol (word, tag) :: (after.map entrySymbol ++ newer) := by
    rw [table, vocabularySymbols, hv]
    simp
  have once : word ∉ after.map Prod.fst := by
    have nodup := nodup_vocabulary
    rw [hv, List.map_append, List.map_cons] at nodup
    exact (List.nodup_cons.mp (List.nodup_append.mp nodup).2.1).1
  refine ⟨_, index?_of_split split (bytes_ofString m word) fun symbol hsymbol => ?_⟩
  rcases List.mem_append.mp hsymbol with hsymbol | hsymbol
  · -- the vocabulary has a word once
    obtain ⟨entry, hentry, rfl⟩ := List.mem_map.mp hsymbol
    intro same
    have text : entry.1 = word := Text.encode_inj.mp ((bytes_ofString m entry.1).symm.trans same)
    exact once (text ▸ List.mem_map_of_mem hentry)
  · exact others symbol hsymbol

/-- A word of the vocabulary is found there, whatever a script has bound. -/
theorem Matches.index?_vocabulary (h : Matches page stack s m) {word : String} {tag : Tag Native}
    (mem : (word, tag) ∈ vocabulary) :
    ∃ i, m.index? (Text.encode word) = some i ∧
      m.arena.symbols[i]? = some ⟨.ofString word, tag, 0⟩ := by
  obtain ⟨symbols, table, represented⟩ := h.table
  refine index?_of_vocabulary table mem fun symbol hsymbol same => ?_
  obtain ⟨b, -, name⟩ := bytes_name_of_mem represented h.text (List.mem_reverse.mp hsymbol)
  have text : b.name.text = word := Text.encode_inj.mp (name.symm.trans same)
  exact b.name.not_mem_vocabulary (text ▸ List.mem_map_of_mem mem)

/-! ### Bound names -/

/-- A name is bound, with `depth` bindings older than the newest of it. -/
def State.BoundAt (s : State F) (name : Name) (depth : Nat) : Prop :=
  ∃ newer older, s.names = newer ++ name :: older ∧ older.length = depth ∧ name ∉ newer

theorem State.BoundAt.split {name : Name} {depth : Nat} (h : s.BoundAt name depth) :
    ∃ newer b older, s.bindings = newer ++ b :: older ∧ older.length = depth ∧ b.name = name ∧
      ∀ c ∈ newer, c.name ≠ name := by
  obtain ⟨newer, older, names, length, absent⟩ := h
  obtain ⟨newer', rest, hbindings, hnewer, hrest⟩ := List.map_eq_append_iff.mp names
  obtain ⟨b, older', rfl, hb, holder⟩ := List.map_eq_cons_iff.mp hrest
  refine ⟨newer', b, older', hbindings, ?_, hb, ?_⟩
  · rw [← length, ← holder, List.length_map]
  · intro c hc same
    exact absent (hnewer ▸ same ▸ List.mem_map_of_mem hc)

theorem setNewest_append {x : Variable F} {value : Word} {newer older : List (Binding F)}
    {b : Binding F} (hnewer : ∀ c ∈ newer, c.name ≠ x.val) (hb : b.name = x.val) :
    setNewest x value (newer ++ b :: older) = newer ++ .var x value :: older := by
  induction newer with
  | nil => simp [setNewest, hb]
  | cons c newer ih =>
    have other := hnewer c List.mem_cons_self
    rw [List.cons_append, setNewest, if_neg other,
      ih fun d hd => hnewer d (List.mem_cons_of_mem _ hd)]
    rfl

theorem boundAt_of_newest? {name : Name} {b : Binding F} (h : s.newest? name = some b) :
    b.name = name ∧ ∃ newer older, s.bindings = newer ++ b :: older ∧
      (∀ c ∈ newer, c.name ≠ name) ∧ s.BoundAt name older.length := by
  obtain ⟨hb, newer, older, hbindings, others⟩ := List.find?_eq_some_iff_append.mp h
  have same : b.name = name := by simpa using hb
  have different : ∀ c ∈ newer, c.name ≠ name := fun c hc => by simpa using others c hc
  refine ⟨same, newer, older, hbindings, different, newer.map Binding.name,
    older.map Binding.name, ?_, by simp, ?_⟩
  · rw [State.names, hbindings, List.map_append, List.map_cons, same]
  · intro mem
    obtain ⟨c, hc, hname⟩ := List.mem_map.mp mem
    exact different c hc hname

/-- The newest binding of a variable is one of a variable. -/
theorem newest?_eq_of_value? {x : Variable F} {value : Word} (h : s.value? x = some value) :
    ∃ y, s.newest? x.val = some (.var y value) := by
  unfold State.value? at h
  split at h
  · next y v found =>
    cases h
    exact ⟨y, found⟩
  · cases h

theorem newest?_eq_of_function? {f : Function F} {params : List (Variable F)}
    {body : List (Stmt F)} (h : s.function? f = some (params, body)) :
    ∃ g, s.newest? f.val = some (.func g params body) := by
  unfold State.function? at h
  split at h
  · next g params' body' found =>
    cases h
    exact ⟨g, found⟩
  · cases h

theorem newest?_eq_none_of_value? {x : Variable F} (h : s.value? x = none) :
    s.newest? x.val = none := by
  cases found : s.newest? x.val with
  | none => rfl
  | some b =>
    obtain ⟨same, -⟩ := boundAt_of_newest? found
    cases b with
    | var y value =>
      unfold State.value? at h
      rw [found] at h
      cases h
    | func g params body =>
      -- a function of that name would have the name of a function
      have function : F x.val = true := same ▸ g.property
      rw [x.property] at function
      cases function

theorem newest?_eq_none_of_function? {f : Function F} (h : s.function? f = none) :
    s.newest? f.val = none := by
  cases found : s.newest? f.val with
  | none => rfl
  | some b =>
    obtain ⟨same, -⟩ := boundAt_of_newest? found
    cases b with
    | func g params body =>
      unfold State.function? at h
      rw [found] at h
      cases h
    | var y value =>
      have variable_ : F f.val = false := same ▸ y.property
      rw [f.property] at variable_
      cases variable_

/-! ### Bound names in the table -/

theorem forall₂_append_left {α β : Type} {R : α → β → Prop} {l₁ l₂ : List α} {u : List β}
    (h : List.Forall₂ R (l₁ ++ l₂) u) :
    ∃ u₁ u₂, List.Forall₂ R l₁ u₁ ∧ List.Forall₂ R l₂ u₂ ∧ u = u₁ ++ u₂ := by
  have first := List.forall₂_take l₁.length h
  have second := List.forall₂_drop l₁.length h
  rw [List.take_left] at first
  rw [List.drop_left] at second
  exact ⟨_, _, first, second, (List.take_append_drop _ u).symm⟩

theorem modify_length_append {α : Type} (older newer : List α) (a : α) (f : α → α) :
    (older ++ a :: newer).modify older.length f = older ++ f a :: newer := by
  induction older with
  | nil => rfl
  | cons b older ih => rw [List.cons_append, List.length_cons, List.modify_succ_cons, ih]; rfl

namespace Matches

theorem index?_unbound (h : Matches page stack s m) {name : Name} (unbound : s.newest? name = none) :
    m.index? name.bytes = none := by
  obtain ⟨symbols, table, represented⟩ := h.table
  refine index?_of_absent fun symbol mem => ?_
  rw [table] at mem
  intro same
  rcases List.mem_append.mp mem with mem | mem
  · obtain ⟨entry, hentry, rfl⟩ := List.mem_map.mp mem
    have text : entry.1 = name.text := Text.encode_inj.mp ((bytes_ofString m entry.1).symm.trans same)
    exact name.not_mem_vocabulary (text ▸ List.mem_map_of_mem hentry)
  · obtain ⟨b, hb, hname⟩ := bytes_name_of_mem represented h.text (List.mem_reverse.mp mem)
    have bound : b.name = name := Name.bytes_inj.mp (hname.symm.trans same)
    have absent := List.find?_eq_none.mp unbound b hb
    simp [bound] at absent

theorem index?_bound (h : Matches page stack s m) {newer older : List (Binding F)} {b : Binding F}
    (hs : s.bindings = newer ++ b :: older) (hnewer : ∀ c ∈ newer, c.name ≠ b.name) :
    ∃ symbol, m.index? b.name.bytes = some (vocabularySymbols.length + older.length) ∧
      m.arena.symbols[vocabularySymbols.length + older.length]? = some symbol ∧
      Represents page m.arena.routines b symbol := by
  obtain ⟨symbols, table, represented⟩ := h.table
  rw [hs] at represented
  -- the table has the oldest first, so what is newer than a binding stands behind its symbol
  obtain ⟨newer', rest, hnew, hrest, rfl⟩ := forall₂_append_left represented
  obtain ⟨symbol, older', hsymbol, holder, rfl⟩ := List.forall₂_cons_left_iff.mp hrest
  have split : m.arena.symbols.toList =
      (vocabularySymbols ++ older'.reverse) ++ symbol :: newer'.reverse := by
    rw [table]
    simp
  have others : ∀ t ∈ newer'.reverse, m.bytes t.name ≠ b.name.bytes := by
    intro t ht same
    obtain ⟨c, hc, hname⟩ := bytes_name_of_mem hnew h.text (List.mem_reverse.mp ht)
    exact hnewer c hc (Name.bytes_inj.mp (hname.symm.trans same))
  have found := index?_of_split split (hsymbol.name.bytes h.text) others
  rw [List.length_append, List.length_reverse, ← holder.length_eq] at found
  exact ⟨symbol, found.1, found.2, hsymbol⟩

/-- A variable that is bound is found with its value. -/
theorem index?_of_value? (h : Matches page stack s m) {x : Variable F} {value : Word}
    (hx : s.value? x = some value) :
    ∃ depth symbol, s.BoundAt x.val depth ∧
      m.index? x.val.bytes = some (vocabularySymbols.length + depth) ∧
      m.arena.symbols[vocabularySymbols.length + depth]? = some symbol ∧ symbol.tag = .var ∧
      symbol.value = value := by
  obtain ⟨y, found⟩ := newest?_eq_of_value? hx
  obtain ⟨same, newer, older, hs, hnewer, bound⟩ := boundAt_of_newest? found
  obtain ⟨symbol, index, at_, -, tag, hvalue⟩ := h.index?_bound hs (same ▸ hnewer)
  exact ⟨older.length, symbol, bound, same ▸ index, at_, tag, hvalue⟩

/-- A function that is bound is found with its routine. -/
theorem index?_of_function? (h : Matches page stack s m) {f : Function F}
    {params : List (Variable F)} {body : List (Stmt F)} (hf : s.function? f = some (params, body)) :
    ∃ i symbol, m.index? f.val.bytes = some i ∧ m.arena.symbols[i]? = some symbol ∧
      Represents page m.arena.routines (.func f params body) symbol := by
  obtain ⟨g, found⟩ := newest?_eq_of_function? hf
  obtain ⟨same, newer, older, hs, hnewer, -⟩ := boundAt_of_newest? found
  obtain rfl : g = f := Subtype.ext same
  obtain ⟨symbol, index, symbolAt⟩ := h.index?_bound hs hnewer
  exact ⟨_, symbol, index, symbolAt⟩

/-! ### Changes -/

theorem size_symbols (h : Matches page stack s m) :
    m.arena.symbols.size = vocabularySymbols.length + s.bindings.length := by
  obtain ⟨symbols, table, represented⟩ := h.table
  rw [← Array.length_toList, table, List.length_append, List.length_reverse, represented.length_eq]

theorem addSymbol (h : Matches page stack s m) {name : Slice} {tag : Tag Native} {value : Word}
    {index : Nat} {arena : Arena Native}
    (granted : m.arena.addSymbol name tag value = some (index, arena)) {b : Binding F}
    (hb : Represents page m.arena.routines b ⟨name, tag, value⟩) :
    index = vocabularySymbols.length + s.bindings.length ∧
      Matches page stack (s.bind b) (m.withArena arena) := by
  obtain ⟨-, rfl, rfl⟩ := Arena.addSymbol_eq_some granted
  obtain ⟨symbols, table, represented⟩ := h.table
  refine ⟨h.size_symbols, h.text, h.duplicate, h.literals, h.stack, h.result, h.out,
    ⟨h.budget.charged, h.budget.fits, h.budget.small⟩, ⟨name, tag, value⟩ :: symbols, ?_,
    .cons hb represented⟩
  show (m.arena.symbols.push _).toList = _
  rw [Array.toList_push, table, List.reverse_cons, List.append_assoc]

/-- A new routine is matched by no change. -/
theorem addRoutine (h : Matches page stack s m) {routine : Routine} {number : Nat}
    {arena : Arena Native} (granted : m.arena.addRoutine routine = some (number, arena)) :
    Matches page stack s (m.withArena arena) ∧
      (Word.index? (Int64.ofNat number)).bind (arena.routines[·]?) = some routine := by
  have budget : Memory.Budgeted arena := by
    -- every routine is charged, so their number stays small
    obtain ⟨room, rfl, rfl⟩ := Arena.addRoutine_eq_some granted
    obtain ⟨charged, fits, small⟩ := h.budget
    have charge : wordAligned routineSize = routineSize := by decide
    have free : m.arena.free ≤ m.arena.size - m.arena.reserved := by
      simp only [Arena.free, Arena.highEnd]
      omega
    refine ⟨?_, ?_, small⟩
    · simp only [Array.size_push]
      rw [charge, Nat.add_mul, Nat.one_mul]
      exact Nat.add_le_add_right charged _
    · show m.arena.reserved + wordAligned routineSize ≤ m.arena.size
      omega
  have found := routine?_addRoutine granted budget
  have grown : Grows m (m.withArena arena) := Memory.Grows.addRoutine granted
  obtain ⟨-, rfl, rfl⟩ := Arena.addRoutine_eq_some granted
  obtain ⟨symbols, table, represented⟩ := h.table
  exact ⟨⟨h.text, h.duplicate, h.literals, h.stack, h.result, h.out, budget, symbols, table,
    represented.imp fun _ _ old => old.mono grown.routines⟩, found⟩

/-- Setting the value of a symbol is matched by an assignment. -/
theorem setValue (h : Matches page stack s m) {x : Variable F} {depth : Nat}
    (bound : s.BoundAt x.val depth) (value : Word) :
    Matches page stack (s.assign x value)
      (m.withArena (m.arena.setValue (vocabularySymbols.length + depth) value)) := by
  obtain ⟨symbols, table, represented⟩ := h.table
  obtain ⟨newer, b, older, hs, rfl, hb, hnewer⟩ := bound.split
  rw [hs] at represented
  obtain ⟨newer', rest, hnew, hrest, rfl⟩ := forall₂_append_left represented
  obtain ⟨symbol, older', hsymbol, holder, rfl⟩ := List.forall₂_cons_left_iff.mp hrest
  have tag : symbol.tag = .var := by
    cases b with
    | var y old => exact hsymbol.2.1
    | func f params body =>
      -- the name of a variable is not that of a function
      have function : F x.val = true := hb ▸ f.property
      rw [x.property] at function
      cases function
  have assigned : (s.assign x value).bindings = newer ++ .var x value :: older := by
    show setNewest x value s.bindings = _
    rw [hs]
    exact setNewest_append hnewer hb
  refine ⟨h.text, h.duplicate, h.literals, h.stack, h.result, h.out,
    ⟨h.budget.charged, h.budget.fits, h.budget.small⟩,
    newer' ++ { symbol with value } :: older', ?_, ?_⟩
  · show (m.arena.symbols.modify _ _).toList = _
    have split : vocabularySymbols ++ (newer' ++ symbol :: older').reverse =
        (vocabularySymbols ++ older'.reverse) ++ symbol :: newer'.reverse := by simp
    have place : vocabularySymbols.length + older.length =
        (vocabularySymbols ++ older'.reverse).length := by
      rw [List.length_append, List.length_reverse, holder.length_eq]
    rw [Array.toList_modify, table, split, place, modify_length_append]
    simp
  · rw [assigned]
    refine List.rel_append hnew (.cons ⟨?_, tag, rfl⟩ holder)
    exact hb ▸ hsymbol.name

/-- Dropping symbols is matched by cutting back the bindings. -/
theorem rollback (h : Matches page stack s m) (count : Nat) :
    Matches page stack (s.cut count)
      (m.withArena (m.arena.rollback (vocabularySymbols.length + count))) := by
  obtain ⟨symbols, table, represented⟩ := h.table
  refine ⟨h.text, h.duplicate, h.literals, h.stack, h.result, h.out,
    ⟨h.budget.charged, h.budget.fits, h.budget.small⟩,
    symbols.drop (s.bindings.length - count), ?_, List.forall₂_drop _ represented⟩
  have taken : (m.arena.symbols.take (vocabularySymbols.length + count)).toList =
      m.arena.symbols.toList.take (vocabularySymbols.length + count) := by simp
  rw [represented.length_eq]
  exact taken.trans (by rw [table, List.take_length_add_append, List.take_reverse])

theorem withResult (h : Matches page stack s m) (value : Word) :
    Matches page stack (s.withResult value) { m with result := value } :=
  ⟨h.text, h.duplicate, h.literals, h.stack, rfl, h.out, h.budget, h.table⟩

theorem write (h : Matches page stack s m) (bytes : Bytes) :
    Matches page stack (s.emit bytes) (m.write .out bytes) := by
  refine ⟨h.text, h.duplicate, h.literals, h.stack, h.result, ?_, h.budget, h.table⟩
  have out := h.out
  unfold Machine.written at out ⊢
  simp only [Machine.write, State.emit, ← out]
  simp

theorem withStack (h : Matches page stack s m) (other : Array Word) :
    Matches page other s (m.withArena { m.arena with stack := other }) :=
  ⟨h.text, h.duplicate, h.literals, rfl, h.result, h.out,
    ⟨h.budget.charged, h.budget.fits, h.budget.small⟩, h.table⟩

end Matches

end Scriptlet.Tree
