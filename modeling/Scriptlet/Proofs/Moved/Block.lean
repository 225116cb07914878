import Scriptlet.Proofs.Moved.Opening
import Scriptlet.Proofs.Twin.Pieces
import Mathlib.Data.List.Infix

/-!
A script in a block. The text `if 1 {`, a script, a line feed and the closing brace does what the script
does that is evaluated alone, as far as one can see from outside: it writes the same and leaves the same
result. The script is the same piece of text in both, six bytes further on in the second.

This needs braces that balance. The block is told from what follows it by its braces alone, wherever they
stand; a brace in a quotation or in a comment counts like any other, and the block of a script that has one
too many of them ends too early.
-/

namespace Scriptlet

open Text (Bytes lineFeed)
open Eval

variable {α : Type} {m m' n n' k : Machine} {r : Reentry}

namespace Relocation

variable {ρ : Relocation} {μ : Manner}

/-! ### A script that ends before a line feed -/

/-- At the end of a text there is nothing but the end. -/
theorem advance_nil (h : m.cursor.scanner.rest = []) :
    advance m = .done () (m.past m.cursor.scanner .eof) := by
  have read : m.cursor.scanner.next m.quoting = (.ok .eof, m.cursor.scanner) := by
    obtain ⟨name, options, arena, texts, ⟨source, ⟨pos, rest⟩, stop, mark⟩, token, quoting⟩ := m
    subst h
    rfl
  exact Machine.advance_eq_past read rfl

section

variable (fits : ρ.Fits) (relocates : ρ.Relocates r)

include fits relocates

omit fits relocates in
/-- The line feed is passed, and there is the end. -/
theorem pass_lineFeed (h : ρ.Abreast (.outer (some [])) m m') (eof : m.token = .eof) :
    m'.token = .separator ∧ ∃ k', advance m' = .done () k' ∧ k'.token = .eof ∧ ρ.Moved m k' := by
  cases h.place with
  | before cursors token within running => exact absurd eof (running nofun)
  | seam manner token token' source rest =>
    cases manner
    refine ⟨token', _, advance_nil rest, rfl, ?_⟩
    exact h.moved.place m.cursor _ m.token .eof
  | close manner => cases manner

omit fits relocates in
/-- At the end of a body its turns are over. -/
theorem loop_of_eof (passes : Nat) (eof : m.token = .eof) :
    Eval.loop (Statement.turn r) (passes + 1) () m = .done .ranOut m := by
  rw [Eval.loop, Statement.turn_eof r eof]

theorem done_statementTurn {turn : Turn Unit Ending} (h : ρ.Abreast (.outer (some [])) m m')
    (ran : Statement.statementTurn r m = .done turn n) :
    ∃ n', Statement.statementTurn r m' = .done turn n' ∧ ρ.Moved n n' ∧
      (turn = .again () → ρ.Abreast (.outer (some [])) n n' ∨ n.token = .eof ∧ n'.token = .eof) := by
  obtain ⟨ending, n₁, stated, ran⟩ := bind_eq_done ran
  have statement := Follow.of_tandem ((relocates.discipline fits _).statement (Manner.level_outer _) h)
  rw [stated] at statement
  obtain ⟨ending', n₁', stated', same, abreast⟩ := statement.of_done (Manner.level_outer _)
  subst same
  unfold Statement.statementTurn
  rw [bind_apply, stated']
  cases ending' with
  | returned =>
    cases ran
    exact ⟨n₁', rfl, abreast.moved, nofun⟩
  | ranOut =>
    obtain ⟨u, n₂, passed, again⟩ := bind_eq_done ran
    cases again
    change ∃ n', (Statement.passSeparator n₁').andThen _ = _ ∧ _
    by_cases eof : n₁.token = .eof
    · -- the end on one side, the line feed on the other
      obtain ⟨separator, k', advanced, eof', moved⟩ := pass_lineFeed abreast eof
      rw [passSeparator_eof eof] at passed
      cases passed
      rw [passSeparator_separator separator, advanced]
      exact ⟨k', rfl, moved, fun _ => .inr ⟨eof, eof'⟩⟩
    · have separator := Follow.of_tandem
        ((relocates.discipline fits _).passSeparator (Manner.level_outer _) abreast fun seam => eof seam.1)
      rw [passed] at separator
      obtain ⟨u', n₂', passed', abreast⟩ := separator.of_done (Manner.level_outer _)
      rw [passed']
      exact ⟨n₂', rfl, abreast.moved, fun _ => .inl abreast⟩

/-- Where the first machine has taken all its turns, the second takes one more, if it has to, to pass the line
feed. -/
theorem done_turns {passes : Nat} {ending : Ending} (h : ρ.Abreast (.outer (some [])) m m')
    (ran : Eval.loop (Statement.turn r) passes () m = .done ending k) :
    ∃ k', Eval.loop (Statement.turn r) (passes + 1) () m' = .done ending k' ∧ ρ.Moved k k' := by
  induction passes generalizing m m' with
  | zero => cases ran
  | succ passes ih =>
    by_cases eof : m.token = .eof
    · obtain ⟨separator, k', advanced, eof', moved⟩ := pass_lineFeed h eof
      rw [loop_of_eof passes eof] at ran
      cases ran
      refine ⟨k', ?_, moved⟩
      rw [Eval.loop, Statement.turn_separator r separator, bind_apply, advanced]
      exact loop_of_eof passes eof'
    · rw [Eval.loop] at ran ⊢
      have before : m'.token = ρ.token m.token := by
        cases h.place with
        | before cursors token => exact token
        | seam manner token => exact absurd token eof
        | close manner => cases manner
      have same : ∀ {t : Token}, t.slice? = none → (m'.token = t ↔ m.token = t) := fun plain => by
        rw [before]
        exact token_eq plain
      by_cases separator : m.token = .separator
      · rw [Statement.turn_separator r separator] at ran
        rw [Statement.turn_separator r ((same rfl).mpr separator), bind_apply]
        cases advanced : advance m with
        | failed e n =>
          rw [bind_apply, advanced] at ran
          cases ran
        | stopped why n =>
          rw [bind_apply, advanced] at ran
          cases ran
        | done u n =>
          rw [bind_apply, advanced] at ran
          have advance := follow_advance fits false h eof
          change ρ.Follow _ _ (Eval.advance m) (Eval.advance m') at advance
          rw [advanced] at advance
          obtain ⟨u', n', advanced', abreast⟩ := advance.of_done (Manner.level_outer _)
          rw [advanced']
          exact ih abreast ran
      · rw [Statement.turn_statement r eof separator] at ran
        rw [Statement.turn_statement r (mt (same rfl).mp eof) (mt (same rfl).mp separator)]
        cases stated : Statement.statementTurn r m with
        | failed e n =>
          rw [stated] at ran
          cases ran
        | stopped why n =>
          rw [stated] at ran
          cases ran
        | done turn n =>
          rw [stated] at ran
          obtain ⟨n', stated', moved, next⟩ := done_statementTurn fits relocates h stated
          rw [stated']
          cases turn with
          | finish ending' =>
            cases ran
            exact ⟨n', rfl, moved⟩
          | again u =>
            rcases next rfl with abreast | ⟨eof, eof'⟩
            · exact ih abreast ran
            · have ended := loop_eof eof ran
              subst ended
              cases passes with
              | zero => cases ran
              | succ passes =>
                have ended := (loop_of_eof passes eof).symm.trans ran
                cases ended
                exact ⟨n', loop_of_eof (passes + 1) eof', moved⟩

/-- A script, and the same script before a line feed, from their first token on. -/
theorem done_sequence {passes : Nat} {ending : Ending} (h : ρ.Standing (.outer (some [])) m m')
    (ran : Statement.sequence r passes m = .done ending k) :
    ∃ k', Statement.sequence r (passes + 1) m' = .done ending k' ∧ ρ.Moved k k' := by
  obtain ⟨u, n, advanced, ran⟩ := bind_eq_done ran
  have advance := follow_advanceBy fits false h
  change ρ.Follow _ _ (Eval.advance m) (Eval.advance m') at advance
  rw [advanced] at advance
  obtain ⟨u', n', advanced', abreast⟩ := advance.of_done (Manner.level_outer _)
  obtain ⟨k', ran', moved⟩ := done_turns fits relocates abreast ran
  refine ⟨k', ?_, moved⟩
  rw [Statement.sequence, bind_apply, advanced']
  exact ran'

end

end Relocation

/-! ### The text of a block -/

/-- A script as the body of a branch that is always taken. -/
def blockOf (script : Bytes) : Bytes :=
  0x69 :: 0x66 :: 0x20 :: 0x31 :: 0x20 :: 0x7B :: (script ++ [lineFeed, Byte.closeBrace])

def blockText (text : String) : String := "if 1 \x7b" ++ text ++ "\n\x7d"

theorem encode_blockText (text : String) : Text.encode (blockText text) = blockOf (Text.encode text) := by
  unfold blockText
  rw [Text.encode_append, Text.encode_append]
  rfl

/-- The braces of a script balance: there are as many of each kind, and nowhere more that close than open. -/
def BalancedBraces (script : Bytes) : Prop :=
  script.count Byte.closeBrace = script.count Byte.openBrace ∧
    ∀ before ∈ script.inits, before.count Byte.closeBrace ≤ before.count Byte.openBrace

instance (script : Bytes) : Decidable (BalancedBraces script) := inferInstanceAs (Decidable (_ ∧ _))

namespace Scanner

/-- A brace that closes is looked for behind bytes that close no more than is open. -/
theorem blockLength?_of_enough {depth : Nat} {bytes : Bytes} (enough : ∀ before ∈ bytes.inits,
    before.count Byte.closeBrace ≤ depth + before.count Byte.openBrace) (more : Bytes) :
    blockLength? depth (bytes ++ more) =
      (blockLength? (depth + bytes.count Byte.openBrace - bytes.count Byte.closeBrace) more).map
        (· + bytes.length) := by
  induction bytes generalizing depth with
  | nil => simp
  | cons b bytes ih =>
    have later : ∀ {depth' : Nat}, (∀ before : Bytes,
        (b :: before).count Byte.closeBrace ≤ depth + (b :: before).count Byte.openBrace →
          before.count Byte.closeBrace ≤ depth' + before.count Byte.openBrace) →
        blockLength? depth' (bytes ++ more) =
          (blockLength? (depth' + bytes.count Byte.openBrace - bytes.count Byte.closeBrace) more).map
            (· + bytes.length) := fun step => ih fun before hmem => step before (enough (b :: before) (by
        rw [List.mem_inits] at hmem ⊢
        exact List.cons_prefix_cons.mpr ⟨rfl, hmem⟩))
    rw [List.cons_append, blockLength?.eq_def]
    dsimp only
    by_cases opens : b = Byte.openBrace
    · subst opens
      have other : Byte.openBrace ≠ Byte.closeBrace := by decide
      rw [if_pos (beq_self_eq_true _), later fun before h => by
        rw [List.count_cons_self, List.count_cons_of_ne other] at h
        omega]
      rw [List.count_cons_self, List.count_cons_of_ne other, Option.map_map, List.length_cons]
      congr 2
      omega
    · rw [if_neg (by simpa using opens)]
      by_cases closes : b = Byte.closeBrace
      · subst closes
        have one := enough [Byte.closeBrace] (by simp [List.mem_inits])
        rw [List.count_singleton_self, List.count_singleton, if_neg (by decide)] at one
        obtain ⟨outer, rfl⟩ := Nat.exists_eq_succ_of_ne_zero (Nat.pos_iff_ne_zero.mp one)
        rw [if_pos (beq_self_eq_true _)]
        dsimp only
        rw [later fun before h => by
          rw [List.count_cons_self, List.count_cons_of_ne opens] at h
          omega]
        rw [List.count_cons_self, List.count_cons_of_ne opens, Option.map_map, List.length_cons]
        congr 2
        omega
      · rw [if_neg (by simpa using closes), later fun before h => by
          rw [List.count_cons_of_ne closes, List.count_cons_of_ne opens] at h
          exact h]
        rw [List.count_cons_of_ne closes, List.count_cons_of_ne opens, Option.map_map, List.length_cons]
        rfl

/-- Where braces balance, a block is closed by the brace behind the line feed. -/
theorem blockLength?_of_balanced {script : Bytes} (balanced : BalancedBraces script) :
    blockLength? 0 (script ++ [lineFeed, Byte.closeBrace]) = some (script.length + 1) := by
  rw [blockLength?_of_enough (fun before hmem => by rw [Nat.zero_add]; exact balanced.2 before hmem),
    balanced.1, Nat.zero_add, Nat.sub_self]
  simp only [Nat.add_comm script.length]
  rfl

theorem next_one (rest : Bytes) :
    (⟨2, 0x20 :: 0x31 :: 0x20 :: rest⟩ : Scanner).next .plain = (.ok (.number 1), ⟨4, 0x20 :: rest⟩) := by
  have alone : (⟨3, [0x31]⟩ : Scanner).next .plain = (.ok (.number 1), ⟨4, []⟩) := rfl
  change (⟨2, Byte.blank :: 0x31 :: 0x20 :: rest⟩ : Scanner).next .plain = _
  rw [next_blank]
  exact next_extend Byte.delimits_blank alone nofun rest

/-- The block ends at the last byte, if that closes it. -/
theorem next_block {rest : Bytes} {length : Nat} (closed : blockLength? 0 rest = some length)
    (last : rest.length = length + 1) :
    (⟨4, 0x20 :: 0x7B :: rest⟩ : Scanner).next .plain =
      (.ok (.block ⟨6, 6 + length⟩), ⟨7 + length, []⟩) := by
  have blank : (⟨5, 0x7B :: rest⟩ : Scanner).skipBlank = ⟨5, 0x7B :: rest⟩ := by
    rw [skipBlank, blankLength.eq_def]
    rfl
  have behind : (⟨5, 0x7B :: rest⟩ : Scanner).skip (length + 2) = ⟨7 + length, []⟩ := by
    have all : rest.length ≤ length + 1 := Nat.le_of_eq last
    simp only [skip, List.drop_succ_cons, List.drop_eq_nil_of_le all, Scanner.mk.injEq, and_true]
    omega
  change (⟨4, Byte.blank :: 0x7B :: rest⟩ : Scanner).next .plain = _
  rw [next_blank, next, blank]
  change readBlock ⟨5, 0x7B :: rest⟩ = _
  unfold readBlock
  rw [show blockLength? 0 ((⟨5, 0x7B :: rest⟩ : Scanner).rest.drop 1) = some length from closed]
  dsimp only
  rw [behind]

end Scanner

/-- The script is in the block, in the lines it has alone. -/
theorem fits_block (m : Machine) (script : Bytes) :
    (m.exchange script (blockOf script) 6 0 script.length script.length).Fits where
  high := Nat.le_refl _
  reach := Nat.le_refl _
  room := by
    change 6 + script.length ≤ (blockOf script).toArray.size
    simp [blockOf]
    omega
  bytes i _ hi := by
    have hi : i < script.length := hi
    change (blockOf script).toArray[6 + i]? = script.toArray[i]?
    rw [List.getElem?_toArray, List.getElem?_toArray, Nat.add_comm]
    change (script ++ [lineFeed, Byte.closeBrace])[i]? = script[i]?
    exact List.getElem?_append_left hi
  lines i _ hi := by
    have hi : i ≤ script.length := hi
    change ((blockOf script).toArray.toList.take (6 + i)).count lineFeed + 1 =
      (script.toArray.toList.take i).count lineFeed + 1
    rw [Nat.add_comm 6 i]
    change ((0x69 :: 0x66 :: 0x20 :: 0x31 :: 0x20 :: 0x7B ::
      (script ++ [lineFeed, Byte.closeBrace]).take i).count lineFeed) + 1 = (script.take i).count lineFeed + 1
    rw [List.take_append_of_le_length hi]
    rfl

/-! ### Reading the block -/

theorem wholeExpression_number (passes : r.passes ≠ 0) {value : Word} {slice : Slice}
    (number : m.token = .number value) (advanced : advance m = .done () n) (body : n.token = .text slice) :
    r.wholeExpression m = .done value n := by
  have level : ∀ level, Expression.upToLevel r level m = .done value n := fun level => by
    induction level with
    | zero =>
      change Expression.atom r m = _
      rw [Expression.atom, token_bind, number]
      change (advance m).andThen _ = _
      rw [advanced]
      rfl
    | succ level ih =>
      have last : Expression.levelTurn (level + 1) (Expression.upToLevel r level) value n =
          .done (.finish value) n := by
        unfold Expression.levelTurn Expression.operatorOfLevel tokenTag?
        rw [bind_assoc, bind_assoc, token_bind, body]
        rfl
      obtain ⟨passes, some⟩ := Nat.exists_eq_succ_of_ne_zero passes
      rw [Expression.upToLevel_succ, bind_apply, ih]
      change Eval.loop (Expression.levelTurn (level + 1) (Expression.upToLevel r level)) r.passes value n = _
      rw [some, Eval.loop, last]
  exact level _

/-- A branch that is taken, at the end of a text. -/
theorem statement_branch {index : Nat} {s : Symbol Native} {m₁ m₂ m₃ : Machine} {condition : Word}
    {slice : Slice} (symbol : m.token = .symbol index) (found : m.arena.symbols[index]? = some s)
    (keyword : s.tag = .keyword .cond) (advanced : advance m = .done () m₁)
    (evaluated : r.expression m₁ = .done condition m₂) (holds : condition ≠ 0) (body : m₂.token = .text slice)
    (behind : advance m₂ = .done () m₃) (eof : m₃.token = .eof) :
    Statement.statement r m = (r.body slice false false m₃.note).andThen fun _ n => .done .ranOut n := by
  have taken : Statement.takeBody m₂ = .done slice m₃ := by
    rw [Statement.takeBody, token_bind, body]
    exact bind_of_done behind _
  have alone : Statement.takeAlternative m₃ = .done none m₃ := by
    unfold Statement.takeAlternative tokenTag?
    rw [bind_assoc, token_bind, eof]
    rfl
  have branch : Statement.branch r m = (r.body slice false false m₃.note).andThen fun _ n => .done true n := by
    unfold Statement.branch
    rw [bind_of_done advanced, bind_of_done evaluated, bind_of_done taken, bind_of_done alone,
      if_pos holds, bind_apply]
    change ((r.body slice false false m₃.note).andThen _).andThen _ = _
    cases r.body slice false false m₃.note <;> rfl
  rw [Statement.statement, token_bind, symbol]
  dsimp only
  rw [bind_of_done (symbolAt_of_some found), keyword]
  change (Statement.branch r m).andThen _ = _
  rw [branch]
  cases r.body slice false false m₃.note <;> rfl

/-! ### In a block and alone -/

def Machine.scriptIn (m : Machine) (script : Bytes) : Slice :=
  ⟨.text (m.texts.retain (blockOf script).toArray).1, 6, script.length + 1⟩

def Machine.inside (m : Machine) (script : Bytes) (cursor : Cursor) : Machine :=
  ({ m.starting (blockOf script) false with cursor, token := .eof } : Machine).note.before
    (m.scriptIn script) false

/-- A script in a block, and the same script alone. -/
theorem standing_block (intact : m.memory.Intact true) (script : Bytes) (cursor : Cursor) :
    (m.exchange script (blockOf script) 6 0 script.length script.length).Standing (.outer (some []))
      (m.starting script false) (m.inside script cursor) := by
  have slot : (m.texts.retain (blockOf script).toArray).1 = (m.texts.retain script.toArray).1 :=
    Machine.fst_retain _ _ _
  have offset : (m.exchange script (blockOf script) 6 0 script.length script.length).offset
      (.text (m.texts.retain script.toArray).1) = 6 := Relocation.offset_slot _
  have scanner : (m.inside script cursor).cursor.scanner = ⟨6, script ++ [lineFeed]⟩ := by
    change Scanner.ofWindow ((m.opened (blockOf script)).store
      (.text (m.texts.retain (blockOf script).toArray).1)) 6 (6 + (script.length + 1)) = _
    rw [Machine.store_opened, Scanner.ofWindow_toArray _ (Nat.le_add_right _ _) (by simp [blockOf]; omega),
      Nat.add_sub_cancel_left]
    refine congrArg (Scanner.mk 6) ?_
    change (script ++ ([lineFeed] ++ [Byte.closeBrace])).take (script.length + 1) = _
    rw [← List.append_assoc, List.take_left' (by simp)]
  refine ⟨?_, ?_, ?_, nofun⟩
  · have opened : (m.exchange script (blockOf script) 6 0 script.length script.length).Moved (m.opened script)
        (m.opened (blockOf script)) := Relocation.moved_opened intact
    exact (((opened.withQuoting .plain).withDuplicate false).place (m.starting script false).cursor
      (m.inside script cursor).cursor .eof .eof).noteRight
  · rw [Machine.cursor_starting]
    exact congrArg Source.text slot
  · rw [Machine.cursor_starting]
    refine ⟨⟨0, script⟩, ?_, ?_, fun _ => ⟨Nat.le_refl _, ?_⟩, nofun⟩
    · exact (Scanner.extend_nil _).symm
    · rw [scanner, offset]
      rfl
    · change 0 + script.length ≤ script.length
      omega

/-- Before its body is run, the block has been read to its end. -/
theorem sequence_block (world : World) (fuel : Nat) (intact : m.memory.Intact true) {index : Nat}
    {s : Symbol Native} (known : m.index? (Text.encode "if") = some index)
    (found : m.arena.symbols[index]? = some s) (keyword : s.tag = .keyword .cond) {script : Bytes}
    (balanced : Scanner.blockLength? 0 (script ++ [lineFeed, Byte.closeBrace]) = some (script.length + 1)) :
    ∃ cursor, ∀ {ending n},
      (Reentry.ofFuel world (fuel + 2)).body (m.scriptIn script) false false
        ({ m.starting (blockOf script) false with cursor, token := .eof } : Machine).note = .done ending n →
      n.token = .eof →
      Statement.sequence (.ofFuel world (fuel + 2)) (fuel + 2) (m.starting (blockOf script) false) =
        .done .ranOut n := by
  have start := Machine.cursor_starting m (blockOf script) false
  have first := Machine.advance_starting intact ⟨.name ⟨0, 2⟩, .inl rfl, rfl⟩ known Byte.delimits_blank
    (0x31 :: 0x20 :: 0x7B :: (script ++ [lineFeed, Byte.closeBrace])) false
  change advance (m.starting (blockOf script) false) = .done () ((m.starting (blockOf script) false).past
    ⟨2, 0x20 :: 0x31 :: 0x20 :: 0x7B :: (script ++ [lineFeed, Byte.closeBrace])⟩ (.symbol index)) at first
  generalize hm₁ : (m.starting (blockOf script) false).past _ (.symbol index) = m₁ at first
  have second : advance m₁ = .done () (m₁.past ⟨4, 0x20 :: 0x7B :: (script ++ [lineFeed, Byte.closeBrace])⟩
      (.number 1)) := by
    subst hm₁
    exact Machine.advance_eq_past (Scanner.next_one _) rfl
  generalize hm₂ : m₁.past _ (.number 1) = m₂ at second
  have third : advance m₂ = .done () (m₂.past ⟨7 + (script.length + 1), []⟩ (.text (m.scriptIn script))) := by
    refine Machine.advance_eq_past (l := .block ⟨6, 6 + (script.length + 1)⟩) ?_ ?_
    · subst hm₂ hm₁
      exact Scanner.next_block balanced (by simp)
    · subst hm₂ hm₁
      change Outcome.done (Token.text ⟨(m.starting (blockOf script) false).cursor.source, 6,
        6 + (script.length + 1) - 6⟩) _ = _
      rw [start, Nat.add_sub_cancel_left]
      rfl
  generalize hm₃ : m₂.past _ (.text (m.scriptIn script)) = m₃ at third
  have fourth : advance m₃ = .done () (m₃.past m₃.cursor.scanner .eof) := by
    subst hm₃
    exact Relocation.advance_nil rfl
  refine ⟨(m₃.past m₃.cursor.scanner .eof).cursor, fun {ending n} ran eof => ?_⟩
  have branch := statement_branch (r := .ofFuel world (fuel + 2)) (m := m₁) (by subst hm₁; rfl)
    (by subst hm₁; exact found) keyword second
    (wholeExpression_number (r := .ofFuel world (fuel + 1)) (Nat.succ_ne_zero fuel) (by subst hm₂; rfl) third
      (by subst hm₃; rfl)) (by decide) (by subst hm₃; rfl) fourth rfl
  have same : m₃.past m₃.cursor.scanner .eof = ({ m.starting (blockOf script) false with
      cursor := (m₃.past m₃.cursor.scanner .eof).cursor, token := .eof } : Machine) := by
    subst hm₃ hm₂ hm₁
    rfl
  rw [same, ran] at branch
  have turn : Statement.turn (.ofFuel world (fuel + 2)) () m₁ = .done (.again ()) n := by
    rw [Statement.turn_statement _ (by subst hm₁; exact nofun) (by subst hm₁; exact nofun),
      Statement.statementTurn, bind_apply, branch]
    change (Statement.passSeparator n).andThen _ = _
    rw [passSeparator_eof eof]
    rfl
  rw [Statement.sequence, bind_apply, first]
  change Eval.loop _ (fuel + 1 + 1) () m₁ = _
  rw [Eval.loop, turn]
  exact Relocation.loop_of_eof fuel eof

/-- Alone and in a block, on a budget that is large enough. -/
theorem evalTextEnding_block {world : World} {fuel : Nat} (intact : m.memory.Intact true) {index : Nat}
    {s : Symbol Native} (known : m.index? (Text.encode "if") = some index)
    (found : m.arena.symbols[index]? = some s) (keyword : s.tag = .keyword .cond) {text : String}
    (balanced : BalancedBraces (Text.encode text)) {ending : Ending}
    (ran : evalTextEnding world (fuel + 1) text false m = .done ending n) :
    ∃ n', evalTextEnding world (fuel + 3) (blockText text) false m = .done .ranOut n' ∧
      n'.transcript = n.transcript ∧ n'.result = n.result := by
  rw [evalTextEnding_succ] at ran
  obtain ⟨k, read, rfl⟩ := conclude_eq_done ran
  -- with a little more fuel the script does the same
  have same := (below_sequence world (Nat.le_succ fuel) (Nat.le_refl fuel)
    (m.starting (Text.encode text) false)).eq (by rw [read]; exact id)
  rw [read] at same
  obtain ⟨cursor, finish⟩ := sequence_block world fuel intact known found keyword
    (Scanner.blockLength?_of_balanced balanced)
  have fits := fits_block m (Text.encode text)
  obtain ⟨k', ran', moved⟩ := Relocation.done_sequence fits (Relocation.relocates_ofFuel fits world (fuel + 1))
    (standing_block intact (Text.encode text) cursor) same.symm
  generalize hx : ({ m.starting (blockOf (Text.encode text)) false with cursor, token := .eof } :
    Machine).note = x at finish
  have body : (Reentry.ofFuel world (fuel + 2)).body (m.scriptIn (Text.encode text)) false false x =
      .done ending ((k'.backAt x).withArena ((k'.backAt x).arena.rollback x.arena.symbols.size)) := by
    have inside : x.before (m.scriptIn (Text.encode text)) false = m.inside (Text.encode text) cursor := by
      rw [← hx]
      rfl
    rw [show (Reentry.ofFuel world (fuel + 2)).body = evalBody world (fuel + 2) from rfl, evalBody_succ]
    unfold Reentry.wholeBody inScope restoring
    dsimp only
    rw [inBody_apply, inside]
    change ((locating (Statement.sequence (.ofFuel world (fuel + 1)) (fuel + 1)) _).adjust _).adjust _ = _
    unfold locating
    rw [ran']
    rfl
  have whole := finish body (by subst hx; rfl)
  rw [← encode_blockText] at whole
  generalize last : (k'.backAt x).withArena _ = n' at whole
  refine ⟨m.closing (Text.encode (blockText text)) false n', ?_, ?_, ?_⟩
  · rw [evalTextEnding_succ, whole]
    rfl
  · subst last hx
    cases moved
    rfl
  · subst last hx
    cases moved
    rfl

/-- `if` means what it means at first. -/
def Machine.KnowsIf (m : Machine) : Prop := ∃ s, m.lookup? "if" = some s ∧ s.tag = .keyword .cond

/-- A script with braces in a quotation, in a comment and around a body, and with a return. -/
def bracedText : String :=
  "print \"\x7b\x7d\" # \x7b and \x7d\nfunc f(x) \x7breturn x + k\x7d\nprint f(1)\nreturn\nprint 2"

/-- The machine knows `if`, and comes to write this when it evaluates the text. -/
def Machine.ready (m : Machine) (text : String) (bytes : Bytes) : Bool :=
  (evalText (fun _ _ => none) 20 text false true m).output? = some bytes &&
    (m.lookup? "if").any fun s => s.tag matches .keyword .cond

theorem of_ready {text : String} {bytes : Bytes} (h : m.ready text bytes = true) :
    m.KnowsIf ∧ ∃ n, m.Evaluates (fun _ _ => none) text false (.done () n) ∧ n.written .out = bytes := by
  obtain ⟨output, known⟩ := Bool.and_eq_true_iff.mp h
  obtain ⟨u, n, ran, written⟩ := output?_eq_some (of_decide_eq_true output)
  obtain ⟨s, found, keyword⟩ := (Option.any_eq_true _ _).mp known
  refine ⟨⟨s, found, ?_⟩, n, ⟨⟨20, ran⟩, id⟩, written⟩
  split at keyword
  · assumption
  · cases keyword

/-- The script succeeds alone, and does not succeed in a block. -/
def Machine.BlockFails (m : Machine) (world : World) (text : String) : Prop :=
  (∃ n, m.Evaluates world text false (.done () n)) ∧
    ∀ n', ¬ m.Evaluates world (blockText text) false (.done () n')

def Machine.blockFails (m : Machine) (text : String) (bytes : Bytes) : Bool :=
  m.ready text bytes &&
    (evalText (fun _ _ => none) 20 (blockText text) false true m matches .failed _ _)

theorem of_blockFails {text : String} {bytes : Bytes} (h : m.blockFails text bytes = true) :
    m.KnowsIf ∧ m.BlockFails (fun _ _ => none) text := by
  obtain ⟨ready, failed⟩ := Bool.and_eq_true_iff.mp h
  obtain ⟨knows, n, ran, -⟩ := of_ready ready
  refine ⟨knows, ⟨n, ran⟩, fun n' ran' => ?_⟩
  split at failed
  · next e k block =>
    cases Machine.Evaluates.unique ran' ⟨⟨20, block⟩, id⟩
  · cases failed

/-- The body that went stood where this text has its last statement. -/
def strayText : String := "f()    print 8"

end Scriptlet
