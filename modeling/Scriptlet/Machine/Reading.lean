import Scriptlet.Machine.Outcome

/-!
Reading tokens, and telling where an error was found. Names are looked up as they are read,
so a token means what its name stood for at that moment. Where a name is about to be
defined, tokens are read raw: names are kept as written, though operators are looked up all
the same.
-/

namespace Scriptlet

namespace Eval

@[inline] def token : Eval Token := read (·.token)

theorem token_bind {α : Type} (f : Token → Eval α) (m : Machine) : (token >>= f) m = f m.token m := rfl

def symbolAt (index : Nat) : Eval (Symbol Native) := fun m =>
  match m.arena.symbols[index]? with
  | some s => .done s m
  | none => .failed .unknownSymbol m

theorem symbolAt_of_some {index : Nat} {s : Symbol Native} {m : Machine}
    (h : m.arena.symbols[index]? = some s) : symbolAt index m = .done s m := by
  unfold symbolAt
  rw [h]

theorem symbolAt_of_none {index : Nat} {m : Machine} (h : m.arena.symbols[index]? = none) :
    symbolAt index m = .failed .unknownSymbol m := by
  unfold symbolAt
  rw [h]

/-- The tag of the symbol read ahead, if a symbol was read. -/
def tokenTag? : Eval (Option (Tag Native)) := do
  match ← token with
  | .symbol index => return some (← symbolAt index).tag
  | _ => return none

def resolve (raw : Bool) (lexeme : Lexeme) : Eval Token := fun m =>
  let source := m.cursor.source
  match lexeme with
  | .eof => .done .eof m
  | .newline | .semicolon => .done .separator m
  | .comma => .done .comma m
  | .openParen => .done .openParen m
  | .closeParen => .done .closeParen m
  | .number value => .done (.number value) m
  | .name place =>
    let name := Slice.ofSpan source place
    if raw then .done (.name name) m
    else
      match m.index? (m.bytes name) with
      | some index => .done (.symbol index) m
      | none => .done (.name name) m
  | .operator place =>
    match m.index? (m.bytes (.ofSpan source place)) with
    | some index => .done (.symbol index) m
    | none => .failed (.ofComplaint .unknownOperator) m
  | .block inside => .done (.text (.ofSpan source inside)) m
  | .quote inside =>
    match m.quoting with
    | .plain => .done (.text (.ofSpan source inside)) m
    | .argument =>
      let text := Text.decode (m.bytes (.ofSpan source inside))
      .done .literal { m with literals := m.literals.push text }

/-- Reads the next lexeme of the body and marks where reading began. -/
def readLexeme : Eval Lexeme := fun m =>
  let cursor := { m.cursor with mark := m.cursor.scanner.pos }
  match cursor.scanner.next m.quoting with
  | (.ok lexeme, scanner) => .done lexeme { m with cursor := { cursor with scanner } }
  | (.error complaint, _) => .failed (.ofComplaint complaint) { m with cursor }

theorem readLexeme_of_ok {m : Machine} {l : Lexeme} {after : Scanner}
    (h : m.cursor.scanner.next m.quoting = (.ok l, after)) :
    readLexeme m = .done l { m with
      cursor := { m.cursor with scanner := after, mark := m.cursor.scanner.pos } } := by
  unfold readLexeme
  dsimp only
  rw [h]

theorem readLexeme_of_error {m : Machine} {complaint : Complaint} {after : Scanner}
    (h : m.cursor.scanner.next m.quoting = (.error complaint, after)) :
    readLexeme m = .failed (.ofComplaint complaint) { m with
      cursor := { m.cursor with mark := m.cursor.scanner.pos } } := by
  unfold readLexeme
  dsimp only
  rw [h]

def advanceBy (raw : Bool) : Eval Unit := do
  let lexeme ← readLexeme
  let token ← resolve raw lexeme
  update fun m => { m with token }

def advance : Eval Unit := advanceBy false

/-- Reads the next token and keeps a name as written. -/
def advanceRaw : Eval Unit := advanceBy true

/-- The slice to remember for a name or body: a copy, where the text that holds it may not
last. -/
def keep (s : Slice) : Eval Slice := fun m =>
  match s.source with
  | .text _ =>
    if m.duplicate then
      let bytes := m.bytes s
      allocate (·.addBytes bytes) m
    else .done s m
  | _ => .done s m

end Eval

namespace Machine

/-- The error with the place of the current token: an excerpt of the text from there on, and
the line if the body is in a script text. An error whose place is known keeps it. -/
def locate (m : Machine) (e : Error) : Error :=
  if e.context.isSome then e
  else
    let store := m.store m.cursor.source
    let start := min m.cursor.mark m.cursor.stop
    let rest := Slice.bytesIn ⟨m.cursor.source, start, m.cursor.stop - start⟩ store
    let e := e.before (Text.decode rest)
    match m.cursor.source, e.line with
    | .text _, none => e.onLine (some (Text.lineNumber store.toList start))
    | _, _ => e

/-- Telling where an error is does not change its kind. -/
theorem kind_locate (m : Machine) (e : Error) : (m.locate e).kind = e.kind := by
  unfold locate
  split
  · rfl
  · dsimp only
    split <;> rfl

theorem message_locate (m : Machine) (e : Error) : (m.locate e).message = e.message := by
  unfold locate
  split
  · rfl
  · dsimp only
    split <;> rfl

theorem locate_of_context {m : Machine} {e : Error} (h : e.context.isSome = true) : m.locate e = e :=
  if_pos h

theorem context_locate (m : Machine) (e : Error) : (m.locate e).context.isSome = true := by
  unfold locate
  split
  · assumption
  · dsimp only
    split <;> rfl

end Machine

end Scriptlet
