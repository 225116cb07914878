import Scriptlet.Proofs.Formula.Value
import Scriptlet.Proofs.Tree.Expression
import Scriptlet.Proofs.Window

/-!
Reading the signs of a formula. While a formula is read nothing changes but the place, the token and
the way of reading quotations, so every machine on the way is the first one, placed elsewhere. What
reading leads to depends neither on the token that is given up nor on where reading it began.
-/

namespace Scriptlet

open Text (Bytes)
open Eval

/-! ### Lexemes -/

theorem numberValue_eq {radix : Nat} (digits : Bytes) :
    Scanner.numberValue (Int64.ofNat radix) digits = Int64.ofNat (Numeral.ofDigits radix digits) := by
  have fold : ∀ (digits : Bytes) (n : Nat),
      digits.foldl (fun n b => n * Int64.ofNat radix + Int64.ofNat (Byte.digitValue b))
          (Int64.ofNat n) =
        Int64.ofNat (digits.foldl (fun n b => n * radix + Byte.digitValue b) n) := by
    intro digits
    induction digits with
    | nil => exact fun _ => rfl
    | cons b digits ih =>
      intro n
      rw [List.foldl_cons, List.foldl_cons, ← ih, Int64.ofNat_add, Int64.ofNat_mul]
  exact fold digits 0

theorem isRun_eq {accept : UInt8 → Bool} {text : String} (h : isRun accept text = true) :
    Text.encode text ≠ [] ∧ ∀ b ∈ Text.encode text, accept b = true := by
  simpa [isRun] using h

theorem blankLength_gap {gap : Bytes} (blank : ∀ b ∈ gap, Byte.isSpace b = true) (rest : Bytes) :
    Scanner.blankLength false (gap ++ rest) = gap.length + Scanner.blankLength false rest := by
  induction gap with
  | nil => simp
  | cons b gap ih =>
    have others := ih fun c hc => blank c (List.mem_cons_of_mem _ hc)
    rw [List.cons_append, Scanner.blankLength.eq_def]
    simp [blank b List.mem_cons_self, others]
    omega

namespace Numeral

/-- A numeral is read to its end, and for its value. -/
theorem readNumber (n : Numeral) (pos : Nat) {rest : Bytes} (border : Tree.Delimited rest) :
    Scanner.readNumber ⟨pos, Text.encode n.text ++ rest⟩ =
      (.number (Int64.ofNat n.value), ⟨pos + (Text.encode n.text).length, rest⟩) := by
  cases n with
  | decimal digits run =>
    obtain ⟨some_, digit⟩ := isRun_eq run
    have plain := Tree.startsHex_run digit some_ border
    have length := Tree.takeWhile_run digit border Byte.isInner_of_isDigit
    simp only [Scanner.readNumber, text, plain, length, value, ← numberValue_eq]
    simp [Scanner.skip]
  | hexadecimal upper digits run =>
    obtain ⟨some_, digit⟩ := isRun_eq run
    obtain ⟨b, tail, hdigits⟩ := List.exists_cons_of_ne_nil some_
    have length := Tree.takeWhile_run digit border Byte.isInner_of_isHexDigit
    obtain ⟨c, mark_eq, isMark⟩ : ∃ c, Text.encode (mark upper) = [0x30, c] ∧
        Byte.isHexMark c = true := by
      cases upper <;> exact ⟨_, rfl, rfl⟩
    have bytes : Text.encode (mark upper ++ digits) ++ rest =
        0x30 :: c :: (Text.encode digits ++ rest) := by
      rw [Text.encode_append, mark_eq]
      rfl
    have hex : Scanner.startsHex (0x30 :: c :: (Text.encode digits ++ rest)) = true := by
      rw [hdigits, List.cons_append, Scanner.startsHex, isMark, digit b (by simp [hdigits])]
      rfl
    simp only [Scanner.readNumber, text, bytes, hex, if_true, List.drop_succ_cons, List.drop_zero,
      length, value, ← numberValue_eq]
    simp [Scanner.skip, Text.encode_append, mark_eq]

theorem text_eq_cons (n : Numeral) :
    ∃ b rest, Text.encode n.text = b :: rest ∧ Byte.isDigit b = true := by
  cases n with
  | decimal digits run =>
    obtain ⟨some_, digit⟩ := isRun_eq run
    obtain ⟨b, tail, hdigits⟩ := List.exists_cons_of_ne_nil some_
    exact ⟨b, tail, hdigits, digit b (by simp [hdigits])⟩
  | hexadecimal upper digits run =>
    rw [text, Text.encode_append]
    cases upper <;> exact ⟨_, _, rfl, rfl⟩

end Numeral

namespace Sign

def lexemeAt (pos : Nat) : Sign → Lexeme
  | openParen => .openParen
  | closeParen => .closeParen
  | numeral n => .number (Int64.ofNat n.value)
  | word x => .name ⟨pos, pos + (Text.encode x.text).length⟩
  | operator op => .operator ⟨pos, pos + (Text.encode op.spelling).length⟩

def startClass : Sign → Byte.Class
  | openParen => .openParen
  | closeParen => .closeParen
  | numeral _ => .digit
  | word _ => .letter
  | operator _ => .operator

theorem text_eq_cons (sign : Sign) :
    ∃ b rest, Text.encode sign.text = b :: rest ∧ Byte.classOf b = sign.startClass := by
  cases sign with
  | openParen => exact ⟨_, _, rfl, by decide⟩
  | closeParen => exact ⟨_, _, rfl, by decide⟩
  | numeral n =>
    obtain ⟨b, rest, hn, digit⟩ := n.text_eq_cons
    exact ⟨b, rest, hn, Byte.classOf_of_isDigit digit⟩
  | word x =>
    obtain ⟨b, rest, hx, letter, -⟩ := x.bytes
    exact ⟨b, rest, hx, Byte.classOf_of_isLetter letter⟩
  | operator op =>
    obtain ⟨b, rest, hop, class_, -⟩ := Tree.spelling_bytes op
    exact ⟨b, rest, hop, class_⟩

/-- A sign is read as its lexeme, up to what it stands apart from. -/
theorem readLexeme (quoting : Quoting) (pos : Nat) (sign : Sign) {rest : Bytes}
    (apart : sign.Apart rest) :
    Scanner.readLexeme quoting ⟨pos, Text.encode sign.text ++ rest⟩ =
      (.ok (sign.lexemeAt pos), ⟨pos + (Text.encode sign.text).length, rest⟩) := by
  obtain ⟨b, tail, htext, hclass⟩ := sign.text_eq_cons
  have skipped : Scanner.skip ⟨pos, Text.encode sign.text ++ rest⟩ (Text.encode sign.text).length =
      ⟨pos + (Text.encode sign.text).length, rest⟩ := by simp [Scanner.skip]
  unfold Scanner.readLexeme
  simp only [htext, List.cons_append, hclass]
  rw [← List.cons_append, ← htext]
  cases sign with
  | openParen => exact Prod.ext rfl skipped
  | closeParen => exact Prod.ext rfl skipped
  | numeral n => simp only [startClass, text, n.readNumber pos apart, lexemeAt]
  | word x =>
    obtain ⟨-, -, -, -, names⟩ := x.bytes
    have run := Tree.takeWhile_run names apart Byte.isInner_of_isNameByte
    simp only [startClass, text, Scanner.readRun, run]
    exact Prod.ext rfl skipped
  | operator op =>
    obtain ⟨-, -, -, -, operators⟩ := Tree.spelling_bytes op
    have run := Tree.takeWhile_run operators apart Byte.isInner_of_isOperatorByte
    simp only [startClass, text, Scanner.readRun, run]
    exact Prod.ext rfl skipped

/-- Where the bytes of a sign are read as its lexeme, so they are behind blanks. -/
theorem next_of_readLexeme (quoting : Quoting) (pos : Nat) {sign : Sign} {gap rest : Bytes}
    (blank : ∀ b ∈ gap, Byte.isSpace b = true)
    (read : Scanner.readLexeme quoting ⟨pos + gap.length, Text.encode sign.text ++ rest⟩ =
      (.ok (sign.lexemeAt (pos + gap.length)),
        ⟨pos + gap.length + (Text.encode sign.text).length, rest⟩)) :
    Scanner.next quoting ⟨pos, gap ++ (Text.encode sign.text ++ rest)⟩ =
      (.ok (sign.lexemeAt (pos + gap.length)),
        ⟨pos + gap.length + (Text.encode sign.text).length, rest⟩) := by
  obtain ⟨b, tail, htext, hclass⟩ := sign.text_eq_cons
  have stops : Scanner.blankLength false (Text.encode sign.text ++ rest) = 0 := by
    rw [htext, List.cons_append]
    exact Scanner.blankLength_of_classOf (by rw [hclass]; cases sign <;> exact Byte.Class.noConfusion) _
  have skipped : Scanner.skipBlank ⟨pos, gap ++ (Text.encode sign.text ++ rest)⟩ =
      ⟨pos + gap.length, Text.encode sign.text ++ rest⟩ := by
    rw [Scanner.skipBlank, blankLength_gap blank, stops]
    simp [Scanner.skip]
  rw [Scanner.next, skipped, read]

theorem next (quoting : Quoting) (pos : Nat) {sign : Sign} {gap rest : Bytes}
    (blank : ∀ b ∈ gap, Byte.isSpace b = true) (apart : sign.Apart rest) :
    Scanner.next quoting ⟨pos, gap ++ (Text.encode sign.text ++ rest)⟩ =
      (.ok (sign.lexemeAt (pos + gap.length)),
        ⟨pos + gap.length + (Text.encode sign.text).length, rest⟩) :=
  next_of_readLexeme quoting pos blank (sign.readLexeme quoting _ apart)

end Sign

/-! ### Places -/

namespace Machine

/-- The machine with given bytes left to read, up to the same end as before. -/
def standingAt (m : Machine) (quoting : Quoting) (bytes : Bytes) : Machine :=
  { m with
    quoting
    cursor := { m.cursor with scanner := ⟨m.cursor.scanner.limit - bytes.length, bytes⟩ } }

/-- The bytes stand in the store that is read, and end where the window ends. -/
def Shows (m : Machine) (bytes : Bytes) : Prop :=
  ∃ before beyond, (m.store m.cursor.source).toList = before ++ (bytes ++ beyond) ∧
    before.length + bytes.length = m.cursor.scanner.limit

theorem Shows.rest {m : Machine} {bytes more : Bytes} (h : m.Shows (bytes ++ more)) : m.Shows more := by
  obtain ⟨before, beyond, store, limit⟩ := h
  refine ⟨before ++ bytes, beyond, by rw [store]; simp, ?_⟩
  simp only [List.length_append] at limit ⊢
  omega

/-- What is shown is what a slice of that place reads as. -/
theorem Shows.bytes {m : Machine} {bytes more : Bytes} (h : m.Shows (bytes ++ more)) {pos : Nat}
    (place : pos + (bytes ++ more).length = m.cursor.scanner.limit) :
    m.bytes (.ofSpan m.cursor.source ⟨pos, pos + bytes.length⟩) = bytes := by
  obtain ⟨before, beyond, store, limit⟩ := h
  obtain rfl : pos = before.length := by omega
  have array : m.store m.cursor.source = (before ++ (bytes ++ (more ++ beyond))).toArray := by
    apply Array.ext'
    rw [store]
    simp
  show Slice.bytesIn _ (m.store m.cursor.source) = bytes
  rw [array]
  simp [Slice.ofSpan, Slice.bytesIn, Slice.stop, List.extract_eq_take_drop]

/-- The newest symbol of a name is in the table, and has that name. -/
theorem symbol_of_index? {m : Machine} {name : Bytes} {i : Nat} (h : m.index? name = some i) :
    ∃ symbol, m.arena.symbols[i]? = some symbol ∧ m.bytes symbol.name = name := by
  have below : ∀ count, m.newestBelow? name count = some i →
      ∃ s, m.arena.symbols[i]? = some s ∧ m.bytes s.name = name := by
    intro count
    induction count with
    | zero => exact nofun
    | succ count ih =>
      intro found
      cases at_ : m.arena.symbols[count]? with
      | none =>
        simp only [newestBelow?, at_] at found
        exact ih found
      | some s =>
        rw [newestBelow?_succ name at_] at found
        split at found
        · next same =>
          cases found
          exact ⟨s, at_, same⟩
        · exact ih found
  exact below _ h

end Machine

/-- A symbol is read where a name or an operator stands that the machine knows. -/
theorem lexeme_of_symbol {raw : Bool} {lexeme : Lexeme} {m m' : Machine} {i : Nat}
    (h : resolve raw lexeme m = .done (.symbol i) m') :
    ∃ place, (lexeme = .name place ∨ lexeme = .operator place) ∧
      m.index? (m.bytes (.ofSpan m.cursor.source place)) = some i := by
  cases lexeme with
  | name place =>
    simp only [resolve] at h
    split at h
    · cases h
    · split at h
      · next found =>
        cases h
        exact ⟨place, .inl rfl, found⟩
      · cases h
  | operator place =>
    simp only [resolve] at h
    split at h
    · next found =>
      cases h
      exact ⟨place, .inr rfl, found⟩
    · cases h
  | quote inside =>
    simp only [resolve] at h
    split at h <;> cases h
  | _ => cases h

theorem symbol_of_advanceBy {raw : Bool} {m m' : Machine} {i : Nat}
    (h : advanceBy raw m = .done () m') (token : m'.token = .symbol i) :
    ∃ symbol, m'.arena.symbols[i]? = some symbol := by
  obtain ⟨lexeme, after, t, literals, -, resolved, rfl⟩ := advanceBy_eq_done h
  obtain rfl : t = .symbol i := token
  obtain ⟨place, -, found⟩ := lexeme_of_symbol resolved
  obtain ⟨symbol, at_, -⟩ := Machine.symbol_of_index? found
  exact ⟨symbol, at_⟩

/-- Reading does not depend on the token that is given up, nor on where reading it began. -/
theorem advance_congr {m n : Machine} (token : Token) (mark : Nat) (h : advance m = .done () n) :
    advance { m with token, cursor := { m.cursor with mark } } = .done () n := by
  obtain ⟨lexeme, after, t, literals, next, resolved, rfl⟩ := advanceBy_eq_done h
  have read : Eval.readLexeme { m with token, cursor := { m.cursor with mark } } =
      .done lexeme { m.readTo after with token } := readLexeme_of_ok next
  unfold advance advanceBy
  rw [bind_of_done read, bind_apply, resolve_withToken, resolved]
  rfl

/-! ### Facing a sign -/

variable {base m : Machine} {env : Tree.Spelled → Int} {quoting : Quoting}

/-- The spelling of an operator stands for it. -/
def Machine.Knows (m : Machine) (op : Operator) : Prop :=
  (m.lookup? op.spelling).map (·.tag.shape) = some (.operator op)

theorem tag_of_shape {tag : Tag Native} {op : Operator} (h : tag.shape = .operator op) :
    tag = .operator op := by
  cases tag <;> cases h
  rfl

def Machine.Binds (m : Machine) (x : Tree.Spelled) (value : Int) : Prop :=
  (m.value? x.text).map Int64.toInt = some value

def Sign.ReadAs (base : Machine) (env : Tree.Spelled → Int) : Sign → Token → Prop
  | .openParen, t => t = .openParen
  | .closeParen, t => t = .closeParen
  | .numeral n, t => t = .number (Int64.ofNat n.value)
  | .word x, t => ∃ index symbol, t = .symbol index ∧
    base.arena.symbols[index]? = some symbol ∧ symbol.tag = .var ∧ symbol.value.toInt = env x
  | .operator op, t => ∃ index symbol, t = .symbol index ∧
    base.arena.symbols[index]? = some symbol ∧ symbol.tag = .operator op

def Sign.Known (base : Machine) (env : Tree.Spelled → Int) : Sign → Prop
  | .word x => base.Binds x (env x)
  | .operator op => base.Knows op
  | _ => True

/-- From where `base` stands, elsewhere, reading leads to `m`. -/
def Faces (base : Machine) (quoting : Quoting) (bytes : Bytes) (m : Machine) : Prop :=
  advance (base.standingAt quoting bytes) = .done () m

/-- The machine has read a sign ahead, and has the rest left to read. -/
structure Facing (base : Machine) (env : Tree.Spelled → Int) (quoting : Quoting) (sign : Sign)
    (rest : Bytes) (m : Machine) : Prop where
  ahead : sign.ReadAs base env m.token
  arena : m.arena = base.arena
  quoting : m.quoting = quoting
  next : ∀ {quoting' n}, Faces base quoting' rest n →
    advance { m with quoting := quoting' } = .done () n

theorem Facing.advance {sign : Sign} {rest : Bytes} {n : Machine}
    (h : Facing base env quoting sign rest m) (faces : Faces base quoting rest n) :
    Eval.advance m = .done () n := by
  have advanced := h.next faces
  rwa [← h.quoting] at advanced

/-- A known sign that is spelled somewhere is resolved to what it can be read as. -/
theorem resolve_sign {sign : Sign} {rest : Bytes} (pos : Nat) (known : sign.Known base env)
    (shown : base.Shows (Text.encode sign.text ++ rest))
    (place : pos + (Text.encode sign.text ++ rest).length = base.cursor.scanner.limit)
    (memory : m.memory = base.memory) (source : m.cursor.source = base.cursor.source) :
    ∃ token, resolve false (sign.lexemeAt pos) m = .done token m ∧ sign.ReadAs base env token := by
  -- names are looked up in memory, and read from the store that the cursor is in
  have found : m.index? (m.bytes (.ofSpan m.cursor.source
      ⟨pos, pos + (Text.encode sign.text).length⟩)) = base.index? (Text.encode sign.text) := by
    rw [source, Machine.bytes, memory, index?_congr memory]
    exact congrArg base.index? (shown.bytes place)
  cases sign with
  | openParen => exact ⟨_, rfl, rfl⟩
  | closeParen => exact ⟨_, rfl, rfl⟩
  | numeral n => exact ⟨_, rfl, rfl⟩
  | word x =>
    obtain ⟨value, isValue, toInt⟩ := Option.map_eq_some_iff.mp known
    unfold Machine.value? Machine.lookup? at isValue
    simp only [resolve, Sign.lexemeAt, Sign.text, Bool.false_eq_true, if_false] at found ⊢
    rw [found]
    cases index : base.index? (Text.encode x.text) with
    | none => simp [index] at isValue
    | some i =>
      rw [index, Option.bind_some] at isValue
      split at isValue
      · next name symbol at_ =>
        cases isValue
        exact ⟨_, rfl, i, _, rfl, at_, rfl, toInt⟩
      · cases isValue
  | operator op =>
    obtain ⟨symbol, looked, tag⟩ := Option.map_eq_some_iff.mp known
    unfold Machine.lookup? at looked
    simp only [resolve, Sign.lexemeAt, Sign.text] at found ⊢
    rw [found]
    cases index : base.index? (Text.encode op.spelling) with
    | none => simp [index] at looked
    | some i =>
      rw [index, Option.bind_some] at looked
      exact ⟨_, rfl, i, symbol, rfl, looked, tag_of_shape tag⟩

/-- Where the lexeme of a known sign comes next, the sign is read. -/
theorem faces_sign_of_next (quoting : Quoting) {sign : Sign} {gap rest : Bytes}
    (known : sign.Known base env) (shown : base.Shows (gap ++ (Text.encode sign.text ++ rest)))
    (next : ∀ pos, Scanner.next quoting ⟨pos, gap ++ (Text.encode sign.text ++ rest)⟩ =
      (.ok (sign.lexemeAt (pos + gap.length)),
        ⟨pos + gap.length + (Text.encode sign.text).length, rest⟩)) :
    ∃ m, Faces base quoting (gap ++ (Text.encode sign.text ++ rest)) m ∧
      Facing base env quoting sign rest m := by
  obtain ⟨before, beyond, store, limit⟩ := id shown
  simp only [List.length_append] at limit
  let start := base.standingAt quoting (gap ++ (Text.encode sign.text ++ rest))
  let behind : Machine := { base.standingAt quoting rest with
    cursor := { (base.standingAt quoting rest).cursor with mark := start.cursor.scanner.pos } }
  have scanner : start.cursor.scanner.pos + gap.length + (Text.encode sign.text).length =
      base.cursor.scanner.limit - rest.length := by
    simp only [start, Machine.standingAt, List.length_append]
    omega
  have read : Eval.readLexeme start =
      .done (sign.lexemeAt (start.cursor.scanner.pos + gap.length)) behind := by
    have next := next start.cursor.scanner.pos
    rw [scanner] at next
    exact readLexeme_of_ok next
  have place : start.cursor.scanner.pos + gap.length + (Text.encode sign.text ++ rest).length =
      base.cursor.scanner.limit := by
    simp only [start, Machine.standingAt, List.length_append]
    omega
  obtain ⟨token, resolved, ahead⟩ := resolve_sign (m := behind) _ known shown.rest place rfl rfl
  refine ⟨{ behind with token }, ?_, ahead, rfl, rfl, fun faces => ?_⟩
  · exact (bind_of_done read _).trans (bind_of_done resolved _)
  · exact advance_congr token start.cursor.scanner.pos faces

/-- Where a known sign is spelled, it is read. -/
theorem faces_sign (quoting : Quoting) {sign : Sign} {gap rest : Bytes} (known : sign.Known base env)
    (shown : base.Shows (gap ++ (Text.encode sign.text ++ rest)))
    (blank : ∀ b ∈ gap, Byte.isSpace b = true) (apart : sign.Apart rest) :
    ∃ m, Faces base quoting (gap ++ (Text.encode sign.text ++ rest)) m ∧
      Facing base env quoting sign rest m :=
  faces_sign_of_next quoting known shown fun pos => Sign.next quoting pos blank apart

end Scriptlet
