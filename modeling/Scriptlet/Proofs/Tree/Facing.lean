import Scriptlet.Proofs.Tree.Matching

/-!
Reading what is on the page. A machine stands before items if they are what is left to read; it
faces them when the first of them has been read ahead. From a machine that stands before items,
reading succeeds and leads to one that faces them, whichever items these are. What the token is
then is said by the first item; for a name it is decided by the bindings of the state.
-/

namespace Scriptlet.Tree

open Text (Bytes)
open Eval
open Machine (vocabulary)

variable {F : Name → Bool} {page : Page} {stack : Array Word} {s : State F} {m : Machine}
  {rest : List Item}

/-- The machine matches the state and has the items left to read. -/
structure Standing (page : Page) (stack : Array Word) (s : State F) (m : Machine)
    (items : List Item) : Prop where
  state : Matches page stack s m
  cursor : page.OpenAt m.cursor items

def Item.ReadAs (page : Page) (raw : Bool) (m : Machine) : Item → Token → Prop
  | .newline, t => t = .separator
  | .comma, t => t = .comma
  | .openParen, t => t = .openParen
  | .closeParen, t => t = .closeParen
  | .number n, t => t = .number (Int64.ofNat n)
  | .word w, t =>
    match raw, m.index? (Text.encode w.text) with
    | false, some index => t = .symbol index
    | _, _ => ∃ slice, t = .name slice ∧ page.Shows slice (Text.encode w.text)
  | .operator op, t =>
    ∃ index symbol, t = .symbol index ∧ m.arena.symbols[index]? = some symbol ∧
      symbol.tag = .operator op
  | .block inside, t => ∃ slice, t = .text slice ∧ page.Shows slice (bytesOf inside)

theorem Item.ReadAs.congr {raw : Bool} {m' : Machine} {item : Item} {t : Token}
    (h : item.ReadAs page raw m t) (same : m'.memory = m.memory) : item.ReadAs page raw m' t := by
  have arena : m'.arena = m.arena := congrArg Memory.arena same
  cases item with
  | word w =>
    simp only [Item.ReadAs, index?_congr same] at h ⊢
    exact h
  | operator op =>
    simp only [Item.ReadAs, arena] at h ⊢
    exact h
  | _ => exact h

/-- The token read ahead is that of the first item, or the end if there is none. -/
def ReadAhead (page : Page) (raw : Bool) (m : Machine) : List Item → Prop
  | [] => m.token = .eof
  | item :: _ => item.ReadAs page raw m m.token

/-- The machine matches the state and has read the first item ahead. -/
structure Facing (page : Page) (raw : Bool) (stack : Array Word) (s : State F) (m : Machine)
    (items : List Item) : Prop where
  state : Matches page stack s m
  ahead : ReadAhead page raw m items
  cursor : page.OpenAt m.cursor items.tail

/-- Behind the first item a machine stands before the others. -/
theorem Facing.standing {raw : Bool} {items : List Item} (h : Facing page raw stack s m items) :
    Standing page stack s m items.tail := ⟨h.state, h.cursor⟩

theorem Page.Shows.ofSpan {before after bytes : Bytes} (h : page.text = before ++ bytes ++ after) :
    page.Shows (.ofSpan (.text page.slot) ⟨before.length, before.length + bytes.length⟩) bytes :=
  ⟨before, after, h, by simp [Slice.ofSpan]⟩

/-! ### Reading on -/

/-- Reading at the end of the page leaves the machine there. -/
theorem Standing.advanceBy_nil (h : Standing page stack s m []) (raw : Bool) :
    ∃ m', advanceBy raw m = .done () m' ∧ Facing page raw stack s m' [] := by
  obtain ⟨source, before, after, htext, hscanner⟩ := h.cursor
  have next : m.cursor.scanner.next m.quoting = (.ok .eof, m.cursor.scanner) :=
    next_nil m.quoting (by rw [hscanner]; rfl)
  have read : readLexeme m =
      .done .eof { m with cursor := { m.cursor with mark := m.cursor.scanner.pos } } :=
    readLexeme_of_ok next
  refine ⟨{ m with cursor := { m.cursor with mark := m.cursor.scanner.pos }, token := .eof }, ?_,
    h.state.congr rfl, rfl, source, before, after, htext, hscanner⟩
  unfold Eval.advanceBy
  rw [bind_apply, read]
  rfl

theorem Standing.readLexeme {item : Item} (h : Standing page stack s m (item :: rest)) :
    ∃ before after m', page.text = before ++ (item.core ++ after) ∧
      Eval.readLexeme m = .done (item.lexemeAt before.length) m' ∧
      Standing page stack s m' rest := by
  obtain ⟨source, before, after, htext, hscanner⟩ := h.cursor
  have next := next_bytesOf_cons m.quoting before.length item rest
  rw [← hscanner] at next
  rw [bytesOf_cons] at htext
  let cursor : Cursor := { m.cursor with
    mark := m.cursor.scanner.pos
    scanner := ⟨before.length + item.blank.length + item.core.length, bytesOf rest⟩ }
  refine ⟨before ++ item.blank, bytesOf rest ++ after, { m with cursor }, ?_, ?_,
    h.state.congr rfl, source, before ++ item.blank ++ item.core, after, ?_, ?_⟩
  · simp only [htext, List.append_assoc]
  · unfold Eval.readLexeme
    simp only [next, List.length_append]
    rfl
  · simp only [htext, List.append_assoc]
  · simp only [cursor, List.length_append]

/-- Whatever item comes next, it is resolved to a token that it can be read as. -/
theorem Standing.resolve {item : Item} {before after : Bytes} (h : Standing page stack s m rest)
    (htext : page.text = before ++ (item.core ++ after)) (raw : Bool) :
    ∃ token, Eval.resolve raw (item.lexemeAt before.length) m = .done token m ∧
      item.ReadAs page raw m token := by
  have source := h.cursor.1
  cases item with
  | newline => exact ⟨_, rfl, rfl⟩
  | comma => exact ⟨_, rfl, rfl⟩
  | openParen => exact ⟨_, rfl, rfl⟩
  | closeParen => exact ⟨_, rfl, rfl⟩
  | number n => exact ⟨_, rfl, rfl⟩
  | word w =>
    have shown : page.Shows _ (Text.encode w.text) :=
      Page.Shows.ofSpan (htext.trans (List.append_assoc _ _ _).symm)
    have bytes := shown.bytes h.state.text
    -- both sides ask whether the name is to be looked up, and if it is found
    unfold Eval.resolve
    simp only [Item.lexemeAt, Item.ReadAs, source, bytes]
    cases raw with
    | true => exact ⟨_, rfl, _, rfl, shown⟩
    | false =>
      cases m.index? (Text.encode w.text) with
      | some index => exact ⟨_, rfl, rfl⟩
      | none => exact ⟨_, rfl, _, rfl, shown⟩
  | operator op =>
    have shown : page.Shows _ (Text.encode op.spelling) :=
      Page.Shows.ofSpan (htext.trans (List.append_assoc _ _ _).symm)
    have mem : (op.spelling, .operator op) ∈ vocabulary := by cases op <;> simp [vocabulary, Operator.all]
    obtain ⟨index, found, symbol⟩ := h.state.index?_vocabulary mem
    unfold Eval.resolve
    simp only [Item.lexemeAt, source, shown.bytes h.state.text, found]
    exact ⟨_, rfl, index, _, rfl, symbol, rfl⟩
  | block inside =>
    refine ⟨_, rfl, _, rfl, before ++ [Byte.openBrace], Byte.closeBrace :: after, ?_, ?_⟩
    · rw [htext]
      simp [Item.core]
    · simp [source, Slice.ofSpan]

/-- From a machine that stands before items, reading leads to one that faces them. -/
theorem Standing.advanceBy {items : List Item} (h : Standing page stack s m items) (raw : Bool) :
    ∃ m', Eval.advanceBy raw m = .done () m' ∧ Facing page raw stack s m' items := by
  cases items with
  | nil => exact h.advanceBy_nil raw
  | cons item rest =>
    obtain ⟨before, after, m₁, htext, read, standing⟩ := h.readLexeme
    obtain ⟨token, resolved, readAs⟩ := standing.resolve htext raw
    refine ⟨{ m₁ with token }, ?_, standing.state.congr rfl, readAs.congr rfl,
      standing.cursor⟩
    unfold Eval.advanceBy
    rw [bind_apply, read]
    show (Eval.resolve raw _ m₁).andThen _ = _
    rw [resolved]
    rfl

theorem Standing.advance {items : List Item} (h : Standing page stack s m items) :
    ∃ m', Eval.advance m = .done () m' ∧ Facing page false stack s m' items := h.advanceBy false

theorem Standing.advanceRaw {items : List Item} (h : Standing page stack s m items) :
    ∃ m', Eval.advanceRaw m = .done () m' ∧ Facing page true stack s m' items := h.advanceBy true

theorem Standing.advance_pure {α : Type} {items : List Item} (h : Standing page stack s m items)
    (value : α) : ∃ m', (Eval.advance >>= fun _ => pure value) m = .done value m' ∧
      Facing page false stack s m' items := by
  obtain ⟨m', advanced, facing⟩ := h.advance
  refine ⟨m', ?_, facing⟩
  rw [bind_apply, advanced]
  rfl

/-! ### What the token is -/

namespace Facing

/-- A word that is found is read as its symbol. -/
theorem token_of_index? {w : Spelled} (h : Facing page false stack s m (.word w :: rest)) {i : Nat}
    (found : m.index? (Text.encode w.text) = some i) : m.token = .symbol i := by
  have ahead := h.ahead
  simp only [ReadAhead, Item.ReadAs, found] at ahead
  exact ahead

theorem ofVocabulary {w : Spelled} (h : Facing page false stack s m (.word w :: rest))
    {tag : Tag Native} (mem : (w.text, tag) ∈ vocabulary) :
    ∃ i symbol, m.token = .symbol i ∧ m.arena.symbols[i]? = some symbol ∧ symbol.tag = tag := by
  obtain ⟨i, found, at_⟩ := h.state.index?_vocabulary mem
  exact ⟨i, _, h.token_of_index? found, at_, rfl⟩

theorem keyword {word : Keyword} (h : Facing page false stack s m (.keyword word :: rest)) :
    ∃ i symbol, m.token = .symbol i ∧ m.arena.symbols[i]? = some symbol ∧
      symbol.tag = .keyword word :=
  h.ofVocabulary (by cases word <;> simp [vocabulary, Spelled.ofKeyword, Keyword.all])

/-- The word for printing is read as the native that prints. -/
theorem print (h : Facing page false stack s m (.word .print :: rest)) :
    ∃ i symbol, m.token = .symbol i ∧ m.arena.symbols[i]? = some symbol ∧
      symbol.tag = .native Builtin.print 1 :=
  h.ofVocabulary (by simp [vocabulary, Spelled.print, Builtin.all])

theorem unbound {name : Name} (h : Facing page false stack s m (.name name :: rest))
    (unbound : s.newest? name = none) : ∃ slice, m.token = .name slice := by
  have absent : m.index? (Text.encode name.text) = none := h.state.index?_unbound unbound
  have ahead := h.ahead
  simp only [ReadAhead, Item.name, Item.ReadAs, absent] at ahead
  obtain ⟨slice, token, -⟩ := ahead
  exact ⟨slice, token⟩

theorem variable_ {x : Variable F} (h : Facing page false stack s m (.name x.val :: rest))
    {value : Word} (hx : s.value? x = some value) :
    ∃ depth symbol, s.BoundAt x.val depth ∧
      m.token = .symbol (vocabularySymbols.length + depth) ∧
      m.arena.symbols[vocabularySymbols.length + depth]? = some symbol ∧ symbol.tag = .var ∧
      symbol.value = value := by
  obtain ⟨depth, symbol, bound, found, symbolAt⟩ := h.state.index?_of_value? hx
  exact ⟨depth, symbol, bound, h.token_of_index? found, symbolAt⟩

theorem function {f : Function F} (h : Facing page false stack s m (.name f.val :: rest))
    {params : List (Variable F)} {body : List (Stmt F)} (hf : s.function? f = some (params, body)) :
    ∃ i symbol, m.token = .symbol i ∧ m.arena.symbols[i]? = some symbol ∧
      Represents page m.arena.routines (.func f params body) symbol := by
  obtain ⟨i, symbol, found, symbolAt⟩ := h.state.index?_of_function? hf
  exact ⟨i, symbol, h.token_of_index? found, symbolAt⟩

/-- A raw name is read as written, and is on the page. -/
theorem raw {w : Spelled} (h : Facing page true stack s m (.word w :: rest)) :
    ∃ slice, m.token = .name slice ∧ page.Shows slice (Text.encode w.text) := h.ahead

theorem operator {raw : Bool} {op : Operator}
    (h : Facing page raw stack s m (.operator op :: rest)) :
    ∃ i symbol, m.token = .symbol i ∧ m.arena.symbols[i]? = some symbol ∧
      symbol.tag = .operator op := h.ahead

theorem block {raw : Bool} {inside : List Item}
    (h : Facing page raw stack s m (.block inside :: rest)) :
    ∃ slice, m.token = .text slice ∧ page.Shows slice (bytesOf inside) := h.ahead

end Facing

end Scriptlet.Tree
