import Scriptlet.Proofs.Formula.Climbing
import Scriptlet.Proofs.Lexical.Reading
import Scriptlet.Proofs.Moved.Opening
import Scriptlet.Proofs.Tree.Statement

/-!
Printed numbers read back. A word is printed as its decimal form on a line of its own, and the same
line behind the word for a return gives the word again.

There are no negative numerals. The minus sign of a negative word is read as an operator where an
atom is due, so it takes from zero what follows, and that is the magnitude of the word. The magnitude
of the least word is no word; as a numeral it wraps around to the least word, and so it does when it
is taken from zero.
-/

namespace Scriptlet

open Text (Bytes lineFeed)
open Eval
open Operator (maxLevel)

variable {base : Machine} {env : Tree.Spelled → Int} {quoting : Quoting}

/-- The decimal form of a word is that of its integer. -/
theorem Word.decimal_eq (n : Word) : n.decimal = toString n.toInt := by
  unfold Word.decimal
  cases n.toInt <;> rfl

/-! ### Reading a line -/

def Numeral.ofNat (k : Nat) : Numeral :=
  .decimal k.repr (by simpa [isRun, Tree.encode_repr_ne_nil] using fun _ => Tree.isDigit_of_mem_repr _)

theorem Numeral.word_ofNat (k : Nat) : Int64.ofNat (Numeral.ofNat k).value = Int64.ofNat k :=
  (numberValue_eq _).symm.trans (Tree.numberValue_repr k)

theorem faces_lineFeed (base : Machine) (quoting : Quoting) :
    ∃ last, Faces base quoting [lineFeed] last ∧ Stops maxLevel last := by
  obtain ⟨last, faces, token⟩ : ∃ last, Faces base quoting [lineFeed] last ∧ last.token = .separator :=
    ⟨_, rfl, rfl⟩
  exact ⟨last, faces, none, Tree.tokenTag?_of_other (by simp [token]), nofun⟩

/-- A minus sign is read by itself if no byte of an operator follows. -/
theorem next_minus (quoting : Quoting) (pos : Nat) {gap rest : Bytes}
    (blank : ∀ b ∈ gap, Byte.isSpace b = true) (apart : Lexical.Stops Byte.isOperatorByte rest) :
    Scanner.next quoting ⟨pos, gap ++ (Text.encode (Sign.operator .minus).text ++ rest)⟩ =
      (.ok ((Sign.operator .minus).lexemeAt (pos + gap.length)), ⟨pos + gap.length + 1, rest⟩) := by
  have spells : Lexical.Spells quoting (pos + gap.length) (Text.encode Operator.minus.spelling) rest
      ((Sign.operator .minus).lexemeAt (pos + gap.length)) :=
    .operator (by decide) (List.all_eq_true.mp rfl) apart
  exact Sign.next_of_readLexeme quoting pos blank spells.readLexeme

theorem knows_of_vocabulary (table : base.arena.symbols.toList = Tree.vocabularySymbols)
    (op : Operator) : base.Knows op := by
  have mem : (op.spelling, Tag.operator op) ∈ Machine.vocabulary := by
    cases op <;> simp [Machine.vocabulary, Operator.all]
  obtain ⟨i, found, symbolAt⟩ :=
    Tree.index?_of_vocabulary (table.trans (List.append_nil _).symm) mem (List.forall_mem_nil _)
  unfold Machine.Knows Machine.lookup?
  rw [found, Option.bind_some, symbolAt]
  rfl

theorem stops_digits (k : Nat) (rest : Bytes) :
    Lexical.Stops Byte.isOperatorByte (Text.encode k.repr ++ rest) := by
  intro b hb
  obtain ⟨c, digits, spelled⟩ := List.exists_cons_of_ne_nil (Tree.encode_repr_ne_nil k)
  have digit : Byte.isDigit c = true := Tree.isDigit_of_mem_repr c (spelled ▸ List.mem_cons_self)
  obtain rfl : c = b := by simpa [spelled] using hb
  have class_ := Byte.classOf_of_isDigit digit
  refine Bool.eq_false_iff.mpr fun operator => ?_
  rw [Lexical.classOf_of_isOperatorByte operator] at class_
  cases class_

/-- The bytes at the end of the last line are an expression of the value. -/
def ReadsAs (base : Machine) (quoting : Quoting) (bytes : Bytes) (value : Word) (height : Nat) : Prop :=
  ∃ m last, Faces base quoting (bytes ++ [lineFeed]) m ∧ startsExpression m = .done true m ∧
    Stops maxLevel last ∧
    ∀ (world : World) (fuel : Nat), height < fuel → evalExpression world fuel m = .done value last

/-- A natural number in decimal form reads as the word it is modulo the size of a word. -/
theorem readsAs_repr (quoting : Quoting) (k : Nat) (gap : Bytes) (blank : ∀ b ∈ gap, Byte.isSpace b = true)
    (shown : base.Shows (gap ++ Text.encode k.repr ++ [lineFeed])) :
    ReadsAs base quoting (gap ++ Text.encode k.repr) (Int64.ofNat k) 1 := by
  rw [List.append_assoc] at shown
  obtain ⟨last, behind, stops⟩ := faces_lineFeed base quoting
  have known : (Sign.numeral (.ofNat k)).Known base fun _ => 0 := trivial
  obtain ⟨m, faces, facing⟩ := faces_sign quoting known shown blank (Tree.delimited_cons_iff.mpr rfl)
  refine ⟨m, last, by rw [List.append_assoc]; exact faces, ?_, stops, fun world fuel enough => ?_⟩
  · have token : m.token = .number _ := facing.ahead
    rw [startsExpression, token_bind, token]
    rfl
  · obtain ⟨fuel, rfl⟩ : ∃ k, fuel = k + 1 := ⟨fuel - 1, by omega⟩
    rw [evalExpression_succ, ← Numeral.word_ofNat]
    exact wholeExpression_of_atom (Nat.lt_of_succ_lt_succ enough) (facing.atom_numeral behind) stops

/-- A minus sign before the digits of a word makes them read as zero less that word. -/
theorem readsAs_minus (quoting : Quoting) (knows : base.Knows .minus) (k : Nat) (gap : Bytes)
    (blank : ∀ b ∈ gap, Byte.isSpace b = true)
    (shown : base.Shows (gap ++ (Text.encode Operator.minus.spelling ++ Text.encode k.repr) ++ [lineFeed])) :
    ReadsAs base quoting (gap ++ (Text.encode Operator.minus.spelling ++ Text.encode k.repr))
      (0 - Int64.ofNat k) 2 := by
  rw [List.append_assoc, List.append_assoc] at shown
  have known : (Sign.operator .minus).Known base fun _ => 0 := knows
  obtain ⟨m, faces, facing⟩ := faces_sign_of_next quoting known shown fun pos =>
    next_minus quoting pos blank (stops_digits k [lineFeed])
  have digits : base.Shows ([] ++ Text.encode k.repr ++ [lineFeed]) := shown.rest.rest
  obtain ⟨m₁, last, faces₁, -, stops, operand⟩ := readsAs_repr quoting k [] (List.forall_mem_nil _) digits
  refine ⟨m, last, by rw [List.append_assoc, List.append_assoc]; exact faces, ?_, stops,
    fun world fuel enough => ?_⟩
  · obtain ⟨index, symbol, token, symbolAt, tag⟩ := facing.ahead
    rw [startsExpression, token_bind, token]
    simp only [bind_apply, Eval.symbolAt, facing.arena ▸ symbolAt, Outcome.andThen, tag]
    rfl
  · obtain ⟨fuel, rfl⟩ : ∃ k, fuel = k + 1 := ⟨fuel - 1, by omega⟩
    have left := Nat.lt_of_succ_lt_succ enough
    rw [evalExpression_succ]
    refine wholeExpression_of_atom (Nat.zero_lt_of_lt left) ?_ stops
    rw [facing.atom_operator faces₁]
    change (evalExpression world fuel m₁).andThen _ = _
    rw [operand world fuel left]
    rfl

/-- The decimal form of a word reads as the word. -/
theorem readsAs_decimal (quoting : Quoting) (knows : base.Knows .minus) (n : Word) (gap : Bytes)
    (blank : ∀ b ∈ gap, Byte.isSpace b = true)
    (shown : base.Shows (gap ++ Text.encode n.decimal ++ [lineFeed])) :
    ReadsAs base quoting (gap ++ Text.encode n.decimal) n 2 := by
  cases sign : n.toInt with
  | ofNat k =>
    have form : n.decimal = k.repr := by rw [Word.decimal, sign]
    have value : Int64.ofNat k = n := by
      rw [← Int64.ofInt_toInt n, sign, ← Int64.ofInt_eq_ofNat]
      rfl
    rw [form] at shown ⊢
    obtain ⟨m, last, faces, starts, stops, evaluated⟩ := readsAs_repr quoting k gap blank shown
    exact ⟨m, last, faces, starts, stops, fun world fuel enough =>
      value ▸ evaluated world fuel (Nat.lt_of_succ_lt enough)⟩
  | negSucc k =>
    have form : Text.encode n.decimal =
        Text.encode Operator.minus.spelling ++ Text.encode (k + 1).repr := by
      rw [Word.decimal, sign, Text.encode_append]
      rfl
    have value : 0 - Int64.ofNat (k + 1) = n := by
      rw [← Int64.ofInt_toInt n, sign, Int64.zero_sub, ← Int64.ofInt_eq_ofNat, ← Int64.ofInt_neg]
      rfl
    rw [form] at shown ⊢
    rw [← value]
    exact readsAs_minus quoting knows (k + 1) gap blank shown

/-! ### Evaluating a text -/

/-- The computation is done with a value, and the result register is a word. -/
def Outcome.Results {α : Type} (o : Outcome α) (value : α) (n : Word) : Prop :=
  ∃ m, o = .done value m ∧ m.result = n

theorem Outcome.Results.adjust {α : Type} {o : Outcome α} {value : α} {n : Word} (h : o.Results value n)
    {f : Machine → Machine} (keeps : ∀ m, (f m).result = m.result) : (o.adjust f).Results value n := by
  obtain ⟨m, rfl, result⟩ := h
  exact ⟨f m, rfl, (keeps m).trans result⟩

theorem Outcome.Results.reporting {α : Type} {x : Eval α} {m : Machine} {value : α} {n : Word}
    (h : (x m).Results value n) : (Eval.reporting x m).Results value n := by
  obtain ⟨k, done, result⟩ := h
  refine ⟨k, ?_, result⟩
  unfold Eval.reporting
  rw [done]

/-- Whatever encloses the statements of a text leaves the result register as they do. -/
theorem results_evalText {world : World} {fuel : Nat} {text : String} {duplicate : Bool} {m : Machine}
    {ending : Ending} {n : Word} (topLevel : Bool)
    (ran : (Statement.sequence (.ofFuel world fuel) fuel
      (m.starting (Text.encode text) duplicate)).Results ending n) :
    (evalText world (fuel + 1) text duplicate topLevel m).Results () n := by
  have statements : (locating (Statement.sequence (.ofFuel world fuel) fuel)
      (m.starting (Text.encode text) duplicate)).Results ending n := by
    obtain ⟨k, ran, result⟩ := ran
    exact ⟨k, by rw [locating, ran]; rfl, result⟩
  have inside : (inBody (m.bodyOf (Text.encode text)) duplicate (locating do
      advance
      Statement.statements (.ofFuel world fuel)) (m.opened (Text.encode text))).Results ending n := by
    rw [inBody_apply]
    exact statements.adjust fun _ => rfl
  have body : (evalBody world (fuel + 1) (m.bodyOf (Text.encode text)) topLevel duplicate
      (m.opened (Text.encode text))).Results ending n :=
    inside.adjust fun _ => by cases topLevel <;> rfl
  obtain ⟨k, done, result⟩ := body
  have ignored : ((do
      let _ ← evalBody world (fuel + 1) (m.bodyOf (Text.encode text)) topLevel duplicate :
      Eval Unit) (m.opened (Text.encode text))).Results () n :=
    ⟨k, by rw [bind_apply, done]; rfl, result⟩
  have entered := ignored.adjust (f := fun k => { k with depth := k.depth - 1 }) fun _ => rfl
  have held : (holding (Text.encode text) (!duplicate && topLevel) (fun slot => entering do
      let _ ← evalBody world (fuel + 1) ⟨.text slot, 0, (Text.encode text).length⟩ topLevel duplicate)
      m.note).Results () n :=
    entered.adjust fun k => by cases (!duplicate && topLevel) <;> rfl
  exact held.reporting

/-- The machine has read the word for a return, and has the bytes before it. -/
structure AtReturn (base : Machine) (bytes : Bytes) : Prop where
  leave : ∃ index s, base.token = .symbol index ∧ base.arena.symbols[index]? = some s ∧
    s.tag = .keyword .leave
  here : base.standingAt .plain bytes = base
  shown : base.Shows bytes

/-- A return whose expression reads as a word leaves the word in the result register. -/
theorem results_return (world : World) {fuel height : Nat} {bytes : Bytes} {n : Word}
    (h : AtReturn base (bytes ++ [lineFeed])) (reads : ReadsAs base .plain bytes n height)
    (enough : height < fuel) :
    (Eval.loop (Statement.turn (.ofFuel world fuel)) fuel () base).Results .returned n := by
  obtain ⟨index, s, token, symbolAt, leave⟩ := h.leave
  obtain ⟨m, last, faces, starts, -, evaluated⟩ := reads
  obtain ⟨fuel, rfl⟩ : ∃ k, fuel = k + 1 := ⟨fuel - 1, by omega⟩
  have advanced : advance base = .done () m := by rwa [Faces, h.here] at faces
  have value : (Reentry.ofFuel world (fuel + 1)).expression m = .done n last :=
    evaluated world _ enough
  have set : Statement.setResult (.ofFuel world (fuel + 1)) base =
      .done () { last with result := n } := by
    rw [Statement.setResult, bind_apply, advanced]
    dsimp only [Outcome.andThen]
    rw [bind_apply, starts]
    dsimp only [Outcome.andThen]
    rw [if_pos rfl, bind_apply, value]
    rfl
  have stated : Statement.statement (.ofFuel world (fuel + 1)) base =
      .done .returned { last with result := n } := by
    rw [Statement.statement, token_bind, token]
    simp only [bind_apply, Eval.symbolAt, symbolAt, Outcome.andThen, leave, Statement.ofKeyword, set]
    rfl
  have turned : Statement.turn (.ofFuel world (fuel + 1)) () base =
      .done (.finish .returned) { last with result := n } := by
    rw [Statement.turn_statement _ (by simp [token]) (by simp [token]), Statement.statementTurn, bind_apply,
      stated]
    rfl
  refine ⟨{ last with result := n }, ?_, rfl⟩
  rw [Eval.loop, turned]

/-- A text that starts with the word for a return, on a machine that has nothing but the vocabulary. -/
theorem advance_return {start : Machine} (table : start.arena.symbols.toList = Tree.vocabularySymbols)
    (rest : Bytes) (duplicate : Bool) :
    ∃ base, advance (start.starting (Text.encode "return" ++ Byte.blank :: rest) duplicate) =
        .done () base ∧ AtReturn base (Byte.blank :: rest) ∧ base.arena = start.arena := by
  let opened := start.starting (Text.encode "return" ++ Byte.blank :: rest) duplicate
  have mem : ("return", Tag.keyword .leave) ∈ Machine.vocabulary := by
    simp [Machine.vocabulary, Keyword.all, Keyword.spelling]
  have table' : opened.arena.symbols.toList = Tree.vocabularySymbols ++ [] :=
    table.trans (List.append_nil _).symm
  obtain ⟨index, known, symbolAt⟩ := Tree.index?_of_vocabulary table' mem (List.forall_mem_nil _)
  have token : Scanner.IsToken (Text.encode "return") := ⟨.name ⟨0, 6⟩, .inl rfl, by decide⟩
  have store : opened.store opened.cursor.source =
      (Text.encode "return" ++ Byte.blank :: rest).toArray := by
    rw [Machine.cursor_starting]
    exact Machine.store_opened ..
  refine ⟨_, Machine.advance_starting_of_known token Byte.delimits_blank rest duplicate known,
    ⟨⟨index, _, rfl, symbolAt, rfl⟩, ?_, Text.encode "return", [], ?_, rfl⟩, rfl⟩
  · have place : (Scanner.mk (Text.encode "return").length (Byte.blank :: rest)).limit -
        (Byte.blank :: rest).length = (Text.encode "return").length := Nat.add_sub_cancel ..
    unfold Machine.standingAt
    dsimp only [Machine.past]
    rw [place]
    rfl
  · change (opened.store opened.cursor.source).toList = _
    rw [store, List.append_nil]

/-- Printed numbers read back. With no literal pending, a word is printed as its decimal form and a
newline. On a new machine, the text of a return of what was printed is evaluated without an error, and
leaves the word in the result register. -/
theorem evalText_return_printed {options : Options} {start : Machine}
    (made : Machine.new options = .ok start) (world : World) {fuel : Nat} (enough : 4 ≤ fuel) (n : Word)
    (duplicate topLevel : Bool) :
    let printed := toString n.toInt ++ "\n"
    (∀ m : Machine, m.literals.pending = [] →
      runNative world fuel Builtin.print [n] m = .done 0 (m.write .out (Text.encode printed))) ∧
    ∃ m, evalText world fuel ("return " ++ printed) duplicate topLevel start = .done () m ∧
      m.result = n := by
  intro printed
  have line : printed = n.decimal ++ "\n" := congrArg (· ++ "\n") n.decimal_eq.symm
  refine ⟨fun m none_ => line ▸ Tree.perform_print _ n none_, ?_⟩
  obtain ⟨fuel, rfl⟩ : ∃ k, fuel = k + 1 := ⟨fuel - 1, by omega⟩
  have table : start.arena.symbols.toList = Tree.vocabularySymbols := by
    rw [(Machine.new_eq_ok made).1]
    simp [Tree.vocabularySymbols]
  have bytes : Text.encode ("return " ++ printed) =
      Text.encode "return" ++ Byte.blank :: (Text.encode n.decimal ++ [lineFeed]) := by
    rw [line, Text.encode_append, Text.encode_append]
    rfl
  obtain ⟨base, advanced, atReturn, arena⟩ :=
    advance_return table (Text.encode n.decimal ++ [lineFeed]) duplicate
  have knows : base.Knows .minus := knows_of_vocabulary (by rw [arena, table]) _
  have reads : ReadsAs base .plain (Byte.blank :: Text.encode n.decimal) n 2 :=
    readsAs_decimal .plain knows n [Byte.blank] (List.all_eq_true.mp rfl) atReturn.shown
  have returned := results_return world atReturn reads (Nat.lt_of_succ_lt_succ enough)
  have ran : (Statement.sequence (.ofFuel world fuel) fuel
      (start.starting (Text.encode ("return " ++ printed)) duplicate)).Results .returned n := by
    rw [bytes, Statement.sequence, bind_apply, advanced]
    exact returned
  exact results_evalText topLevel ran

/-- The least word reads back from its printed form, though its digits alone are no word. -/
theorem evalText_return_printed_least :
    ∃ start m, Machine.new {} = .ok start ∧ 4 ≤ 4 ∧
      runNative (fun _ _ => none) 4 Builtin.print [Int64.minValue] start =
        .done 0 (start.write .out (Text.encode "-9223372036854775808\n")) ∧
      evalText (fun _ _ => none) 4 "return -9223372036854775808\n" true true start = .done () m ∧
      m.result = Int64.minValue := by
  have nothing : (Machine.new {}).toOption.map (·.literals.pending) = some [] := by decide +kernel
  obtain ⟨start, made, none_⟩ := Machine.exists_new nothing
  obtain ⟨printed, m, evaluated, result⟩ := evalText_return_printed made (fun _ _ => none) (Nat.le_refl 4)
    Int64.minValue true true
  exact ⟨start, m, made, Nat.le_refl 4, printed start none_, evaluated, result⟩

end Scriptlet
