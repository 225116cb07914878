import Scriptlet.Proofs.Trace.Grounded

/-!
Quotations along a text. An argument list is a stretch of lexemes, and the strings of the call are the
quotations in it that stand in no parentheses. `directQuotes` finds them by counting parentheses, and
`Scanner.Path` says that a text has these lexemes from one place to another.

Reading one token in an argument list stacks the string of a quotation, and that string is what stands
there in the text (`advance_reads`).
-/

namespace Scriptlet

open Eval

/-! ### Lexemes along a text -/

def Lexeme.quoted : Lexeme → List Span
  | .quote inside => [inside]
  | _ => []

/-- How many parentheses are open behind a lexeme that stands in `depth` of them, unless it closes one
that was not opened. -/
def Lexeme.parensAfter? (depth : Nat) : Lexeme → Option Nat
  | .openParen => some (depth + 1)
  | .closeParen => if depth = 0 then none else some (depth - 1)
  | _ => some depth

def parensAfter? (depth : Nat) (list : List Lexeme) : Option Nat :=
  list.foldlM Lexeme.parensAfter? depth

/-- The quotations that stand in no parentheses, where `depth` are open at the start. -/
def directQuotes (depth : Nat) : List Lexeme → List Span
  | [] => []
  | l :: rest =>
    (if depth = 0 then l.quoted else []) ++
      match l.parensAfter? depth with
      | some depth => directQuotes depth rest
      | none => []

theorem parensAfter?_cons {depth : Nat} {l : Lexeme} {rest : List Lexeme} :
    parensAfter? depth (l :: rest) =
      (l.parensAfter? depth).bind fun depth => parensAfter? depth rest := List.foldlM_cons

theorem parensAfter?_append {depth depth' : Nat} {list : List Lexeme}
    (h : parensAfter? depth list = some depth') (rest : List Lexeme) :
    parensAfter? depth (list ++ rest) = parensAfter? depth' rest := by
  unfold parensAfter? at h ⊢
  rw [List.foldlM_append, h]
  rfl

theorem Lexeme.parensAfter?_add {depth depth' : Nat} {l : Lexeme}
    (h : l.parensAfter? depth = some depth') (k : Nat) :
    l.parensAfter? (depth + k) = some (depth' + k) := by
  cases l with
  | openParen =>
    cases h
    exact congrArg some (by omega)
  | closeParen =>
    unfold Lexeme.parensAfter? at h ⊢
    dsimp only at h ⊢
    split at h
    · cases h
    · cases h
      rw [if_neg (by omega)]
      exact congrArg some (by omega)
  | _ =>
    cases h
    rfl

/-- Parentheses around a list make no difference to those in it. -/
theorem parensAfter?_add {depth depth' : Nat} {list : List Lexeme}
    (h : parensAfter? depth list = some depth') (k : Nat) :
    parensAfter? (depth + k) list = some (depth' + k) := by
  induction list generalizing depth with
  | nil =>
    cases h
    rfl
  | cons l rest ih =>
    rw [parensAfter?_cons] at h ⊢
    obtain ⟨depth₁, first, h⟩ := Option.bind_eq_some_iff.mp h
    rw [Lexeme.parensAfter?_add first k]
    exact ih h

theorem directQuotes_append {depth depth' : Nat} {list : List Lexeme}
    (h : parensAfter? depth list = some depth') (rest : List Lexeme) :
    directQuotes depth (list ++ rest) = directQuotes depth list ++ directQuotes depth' rest := by
  induction list generalizing depth with
  | nil =>
    cases h
    rfl
  | cons l list ih =>
    rw [parensAfter?_cons] at h
    obtain ⟨depth₁, first, h⟩ := Option.bind_eq_some_iff.mp h
    rw [List.cons_append, directQuotes, directQuotes, first]
    dsimp only
    rw [ih h, List.append_assoc]

theorem directQuotes_deep {depth depth' : Nat} {list : List Lexeme}
    (h : parensAfter? depth list = some depth') {k : Nat} (hk : 0 < k) :
    directQuotes (depth + k) list = [] := by
  induction list generalizing depth with
  | nil => rfl
  | cons l list ih =>
    rw [parensAfter?_cons] at h
    obtain ⟨depth₁, first, h⟩ := Option.bind_eq_some_iff.mp h
    rw [directQuotes, Lexeme.parensAfter?_add first k, if_neg (by omega)]
    exact ih h

theorem directQuotes_single (l : Lexeme) : directQuotes 0 [l] = l.quoted := by
  cases l <;> rfl

namespace Scanner

def bytesOf (s : Scanner) (inside : Span) : Text.Bytes :=
  (s.rest.drop (inside.start - s.pos)).take (inside.stop - inside.start)

def textOf (s : Scanner) (inside : Span) : String :=
  Text.decode ((s.rest.drop (inside.start - s.pos)).take (inside.stop - inside.start))

/-- The lexemes by which a scanner comes to another, as an argument list is read. -/
inductive Path : Scanner → List Lexeme → Scanner → Prop where
  | nil (s : Scanner) : Path s [] s
  | cons {s next after : Scanner} {l : Lexeme} {rest : List Lexeme}
    (read : s.next .argument = (.ok l, next)) (path : Path next rest after) : Path s (l :: rest) after

theorem Path.append {s t u : Scanner} {xs ys : List Lexeme} (h : Path s xs t) (k : Path t ys u) :
    Path s (xs ++ ys) u := by
  induction h with
  | nil s => exact k
  | cons read _ ih => exact .cons read (ih k)

theorem Path.single {s after : Scanner} {l : Lexeme} (h : s.next .argument = (.ok l, after)) :
    Path s [l] after := .cons h (.nil after)

theorem Path.further {s after : Scanner} {list : List Lexeme} (h : Path s list after) :
    s.Further after := by
  induction h with
  | nil s => exact ⟨0, Nat.zero_le _, rfl⟩
  | cons read _ ih => exact (further_next read).trans ih

/-- A quotation is behind the place where reading it began. -/
theorem pos_le_of_next {quoting : Quoting} {s after : Scanner} {inside : Span}
    (h : s.next quoting = (.ok (.quote inside), after)) : s.pos ≤ inside.start := by
  unfold next readLexeme at h
  split at h
  · cases h
  · split at h
    iterate 5
      · cases h
    · unfold readBlock at h
      split at h <;> cases h
    · unfold readQuote at h
      dsimp only at h
      split at h
      · split at h
        · cases h
          simp only [skipBlank, pos_skip]
          omega
        · cases h
      · cases h
    · unfold readNumber at h
      dsimp only at h
      split at h <;> cases h
    · cases h
    · cases h
    · cases h

theorem Path.pos_le {s after : Scanner} {list : List Lexeme} (h : Path s list after) {inside : Span}
    (hmem : .quote inside ∈ list) : s.pos ≤ inside.start := by
  induction h with
  | nil s => cases hmem
  | cons read _ ih =>
    rcases List.mem_cons.mp hmem with rfl | hmem
    · exact pos_le_of_next read
    · obtain ⟨n, -, rfl⟩ := further_next read
      exact Nat.le_trans (Nat.le_add_right _ _) (ih hmem)

/-- What stands in a place is the same from further on. -/
theorem bytesOf_further {s after : Scanner} (h : s.Further after) {inside : Span}
    (behind : after.pos ≤ inside.start) : after.bytesOf inside = s.bytesOf inside := by
  obtain ⟨n, -, rfl⟩ := h
  rw [pos_skip] at behind
  unfold bytesOf
  rw [rest_skip, pos_skip, List.drop_drop]
  congr 2
  omega

theorem textOf_further {s after : Scanner} (h : s.Further after) {inside : Span}
    (behind : after.pos ≤ inside.start) : after.textOf inside = s.textOf inside :=
  congrArg Text.decode (bytesOf_further h behind)

end Scanner

theorem mem_of_mem_directQuotes {depth : Nat} {list : List Lexeme} {inside : Span}
    (h : inside ∈ directQuotes depth list) : .quote inside ∈ list := by
  induction list generalizing depth with
  | nil => cases h
  | cons l rest ih =>
    rw [directQuotes] at h
    rcases List.mem_append.mp h with h | h
    · split at h
      · cases l <;> first | (cases List.mem_singleton.mp h; exact List.mem_cons_self) | cases h
      · cases h
    · split at h
      · exact List.mem_cons_of_mem _ (ih h)
      · cases h

/-! ### One token -/

/-- What lists need to know of the token that a lexeme is read as. -/
structure Lexeme.Becomes (quoting : Quoting) (l : Lexeme) (t : Token) : Prop where
  openParen : t = .openParen ↔ l = .openParen
  closeParen : t = .closeParen ↔ l = .closeParen
  literal : quoting = .argument → l.quoted ≠ [] → t = .literal

def Token.opened (t : Token) : Nat := if t = .openParen then 1 else 0

theorem Lexeme.Becomes.parensAfter? {quoting : Quoting} {l : Lexeme} {t : Token}
    (h : l.Becomes quoting t) (ht : t ≠ .closeParen) (depth : Nat) :
    l.parensAfter? depth = some (depth + t.opened) := by
  have other : l ≠ .openParen → t.opened = 0 := fun hl => if_neg fun ht => hl (h.openParen.mp ht)
  cases l with
  | openParen => rw [h.openParen.mpr rfl]; rfl
  | closeParen => exact absurd (h.closeParen.mpr rfl) ht
  | _ => rw [other (by simp)]; rfl

/-- What is in a place of the window is read from there. -/
theorem Faithful.bytes {m : Machine} (h : Faithful m) {inside : Span}
    (behind : m.cursor.scanner.pos ≤ inside.start) (ordered : inside.start ≤ inside.stop)
    (within : inside.stop ≤ m.cursor.scanner.limit) :
    m.bytes (.ofSpan m.cursor.source inside) =
      (m.cursor.scanner.rest.drop (inside.start - m.cursor.scanner.pos)).take
        (inside.stop - inside.start) := by
  obtain ⟨tail, htail⟩ := h
  unfold Scanner.limit at within
  have length := congrArg List.length htail
  simp only [List.length_append, List.length_drop, Array.length_toList] at length
  change Slice.bytesIn _ (m.store m.cursor.source) = _
  have stop : (Slice.ofSpan m.cursor.source inside).stop = inside.stop := by
    simp only [Slice.stop, Slice.ofSpan]
    omega
  unfold Slice.bytesIn
  rw [stop]
  by_cases inStore : inside.stop ≤ (m.store m.cursor.source).size
  · have start : m.cursor.scanner.pos + (inside.start - m.cursor.scanner.pos) = inside.start := by
      omega
    rw [if_pos inStore, Array.toList_extract, List.extract_eq_take_drop]
    change ((m.store m.cursor.source).toList.drop inside.start).take (inside.stop - inside.start) = _
    rw [← start, ← List.drop_drop, ← htail, start, List.drop_append_of_le_length (by omega),
      List.take_append_of_le_length (by rw [List.length_drop]; omega)]
  · -- a window behind the end of the store is empty
    have empty : m.cursor.scanner.rest = [] := List.eq_nil_of_length_eq_zero (by omega)
    rw [if_neg inStore, empty]
    simp

/-- Reading on in an argument list stacks the string of a quotation. -/
theorem advance_reads {m m' : Machine} (h : Faithful m) (done : advance m = .done () m') :
    ∃ next, m.cursor.scanner.next .argument = (.ok next, m'.cursor.scanner) ∧
      next.Becomes m.quoting m'.token ∧
      (m.quoting = .argument → m'.literals.stack =
        m.literals.stack ++ next.quoted.map m.cursor.scanner.textOf) := by
  obtain ⟨lexeme, after, token, literals, hnext, resolved, rfl⟩ := advanceBy_eq_done done
  have read := Scanner.next_argument hnext
  refine ⟨lexeme, read, ?_⟩
  cases lexeme with
  | quote inside =>
    have place := (Scanner.within_next hnext).place rfl
    have bytes := h.bytes (Scanner.pos_le_of_next hnext) place.1 place.2.2
    unfold resolve at resolved
    dsimp only at resolved
    split at resolved
    · next hq =>
      cases resolved
      refine ⟨⟨by simp, by simp, fun hq' => ?_⟩, fun hq' => ?_⟩
      · change m.quoting = .plain at hq
        rw [hq] at hq'
        cases hq'
      · change m.quoting = .plain at hq
        rw [hq] at hq'
        cases hq'
    · cases resolved
      refine ⟨⟨by simp, by simp, fun _ _ => rfl⟩, fun _ => ?_⟩
      change m.literals.stack ++ [Text.decode (m.bytes (.ofSpan m.cursor.source inside))] = _
      rw [bytes]
      rfl
  | name place =>
    simp only [resolve, Bool.false_eq_true, if_false] at resolved
    split at resolved <;>
    · cases resolved
      exact ⟨⟨by simp, by simp, fun _ h => absurd rfl h⟩, fun _ => (List.append_nil _).symm⟩
  | operator place =>
    simp only [resolve] at resolved
    split at resolved
    · cases resolved
      exact ⟨⟨by simp, by simp, fun _ h => absurd rfl h⟩, fun _ => (List.append_nil _).symm⟩
    · cases resolved
  | _ =>
    cases resolved
    exact ⟨⟨by simp, by simp, fun _ h => absurd rfl h⟩, fun _ => (List.append_nil _).symm⟩

end Scriptlet
