import Scriptlet.Proofs.Lexical.Reading
import Scriptlet.Session.CommandLine

/-!
When the prompt submits what it has gathered. The prompt and the reader of lexemes count braces each
in its own way: the prompt takes all braces of the text together, the reader counts inside of blocks
and passes over the strings and comments between them. Both come down to the same number but for the
braces that are loose, those in strings and comments outside of blocks. A block that is read has as
many braces opened as closed, and one that is not finished has some more opened; so the two agree
wherever the loose braces do not tip the balance.
-/

namespace Scriptlet

open Text (Bytes)

namespace Lexical

/-! ### Braces opened and closed -/

/-- How many more braces some bytes open than close, negative if they close more. -/
def tally (bytes : Bytes) : Int := bytes.count Byte.openBrace - bytes.count Byte.closeBrace

@[simp] theorem tally_nil : tally [] = 0 := rfl

@[simp] theorem tally_append (bytes rest : Bytes) :
    tally (bytes ++ rest) = tally bytes + tally rest := by
  simp only [tally, List.count_append]
  omega

theorem tally_cons (b : UInt8) (rest : Bytes) :
    tally (b :: rest) =
      (if b = Byte.openBrace then 1 else if b = Byte.closeBrace then -1 else 0) + tally rest := by
  have different : Byte.openBrace ≠ Byte.closeBrace := by decide
  simp only [tally, List.count_cons, beq_iff_eq]
  split
  · next isOpen =>
    subst isOpen
    simp only [if_neg different]
    omega
  · split <;> omega

theorem tally_eq_zero {bytes : Bytes}
    (h : ∀ b ∈ bytes, b ≠ Byte.openBrace ∧ b ≠ Byte.closeBrace) : tally bytes = 0 := by
  have noOpen : bytes.count Byte.openBrace = 0 :=
    List.count_eq_zero.mpr fun mem => (h _ mem).1 rfl
  have noClose : bytes.count Byte.closeBrace = 0 :=
    List.count_eq_zero.mpr fun mem => (h _ mem).2 rfl
  rw [tally, noOpen, noClose]
  rfl

/-- A run of accepted bytes has no brace if braces are not accepted. -/
theorem tally_run {accept : UInt8 → Bool} {run : Bytes} (inside : ∀ b ∈ run, accept b = true)
    (braces : accept Byte.openBrace = false ∧ accept Byte.closeBrace = false) : tally run = 0 := by
  refine tally_eq_zero fun b mem => ⟨?_, ?_⟩
  · rintro rfl
    exact absurd (inside _ mem) (by simp [braces.1])
  · rintro rfl
    exact absurd (inside _ mem) (by simp [braces.2])

/-- Where no brace is closed that was not opened, the open ones are those opened and not closed. -/
theorem depthAfter?_eq_tally {depth inner : Nat} {bytes : Bytes}
    (h : depthAfter? depth bytes = some inner) : (inner : Int) = depth + tally bytes := by
  induction bytes generalizing depth with
  | nil =>
    cases h
    simp
  | cons b rest ih =>
    obtain ⟨next, count, more⟩ : ∃ next, countBrace? depth b = some next ∧
        depthAfter? next rest = some inner := Option.bind_eq_some_iff.mp h
    have step : (next : Int) =
        depth + (if b = Byte.openBrace then 1 else if b = Byte.closeBrace then -1 else 0) := by
      unfold countBrace? at count
      simp only [beq_iff_eq] at count
      split at count
      · next isOpen =>
        cases count
        simp [isOpen]
      · next notOpen =>
        split at count
        · next isClose =>
          cases depth with
          | zero => cases count
          | succ outer =>
            cases count
            rw [if_neg notOpen, if_pos isClose]
            omega
        · next notClose =>
          cases count
          simp [notOpen, notClose]
    rw [ih more, step, tally_cons]
    omega

/-! ### Braces of lexemes -/

variable {quoting : Quoting} {pos : Nat} {spelled rest bytes run unread : Bytes} {l : Lexeme}
  {pieces : List Piece} {last : Bytes}

/-- How many more braces a piece opens than it closes outside of a block: in the comments before it,
and in the string that it may be. -/
def Piece.loose (p : Piece) : Int :=
  tally p.blank + match p.lexeme with
    | .quote _ => tally p.spelled
    | _ => 0

/-- How many more braces some pieces, and the blank material behind them, open than they close outside of a
block. -/
def looseTally : (pieces : List Piece) → (last : Bytes) → Int
  | [], last => tally last
  | p :: pieces, last => p.loose + looseTally pieces last

/-- A lexeme that is not a string has as many braces opened as closed. -/
theorem Spells.tally (h : Spells quoting pos spelled rest l) (blank : Bytes) :
    tally (blank ++ spelled) = Piece.loose ⟨blank, spelled, l⟩ := by
  rw [tally_append, Piece.loose]
  congr 1
  cases h with
  | newline | semicolon | comma | openParen | closeParen => rfl
  | @name b run _ lead inside =>
    have first : Byte.isNameByte b = true := by simp only [Byte.isNameByte, lead, Bool.true_or]
    exact tally_run (List.forall_mem_cons.mpr ⟨first, inside⟩) (by decide)
  | operator _ inside => exact tally_run inside (by decide)
  | @hexadecimal mark digits _ isMark _ inside =>
    have noMark : mark ≠ Byte.openBrace ∧ mark ≠ Byte.closeBrace := by
      simp only [Byte.isHexMark, Bool.or_eq_true, beq_iff_eq] at isMark
      rcases isMark with rfl | rfl <;> decide
    simp only [tally_cons, if_neg noMark.1, if_neg noMark.2, tally_run inside (by decide)]
    rfl
  | decimal _ inside => exact tally_run inside (by decide)
  | block isBlock =>
    have closed := depthAfter?_eq_tally isBlock.closes
    simp only [Int.natCast_zero, Int.zero_add] at closed
    exact closed.symm
  | quote => rfl

theorem Splits.tally (h : Splits quoting pos bytes pieces last) :
    tally bytes = looseTally pieces last := by
  induction h with
  | last => rfl
  | cons _ spells _ ih => rw [← List.append_assoc, tally_append, spells.tally, ih, looseTally]

/-! ### Texts that cannot be read to their end -/

/-- How some bytes split into pieces up to a place, behind the blank material `run`, from which
`unread` is left. -/
inductive Reaches (quoting : Quoting) :
    (pos : Nat) → (bytes : Bytes) → List Piece → (run unread : Bytes) → Prop where
  | here {pos : Nat} {run unread : Bytes} (blank : LongestBlank run unread) :
    Reaches quoting pos (run ++ unread) [] run unread
  | cons {pos : Nat} {run spelled rest run' unread : Bytes} {l : Lexeme} {pieces : List Piece}
      (blank : LongestBlank run (spelled ++ rest))
      (spells : Spells quoting (pos + run.length) spelled rest l)
      (more : Reaches quoting (pos + run.length + spelled.length) rest pieces run' unread) :
    Reaches quoting pos (run ++ (spelled ++ rest)) (⟨run, spelled, l⟩ :: pieces) run' unread

theorem Reaches.tally (h : Reaches quoting pos bytes pieces run unread) :
    tally bytes = looseTally pieces run + tally unread := by
  induction h with
  | here => simp [looseTally]
  | cons _ spells _ ih =>
    rw [← List.append_assoc, tally_append, spells.tally, ih, looseTally, Int.add_assoc]

/-- A text whose lexemes cannot be read splits up to the place where it is given up. -/
theorem exists_reaches {s : Scanner} {c : Complaint} (h : s.lexemes quoting = .error c) :
    ∃ pieces run unread stuck after, Reaches quoting s.pos s.rest pieces run unread ∧
      Scanner.readLexeme quoting ⟨stuck, unread⟩ = (.error c, after) := by
  fun_induction Scanner.lexemes quoting s with
  | case1 s c' after read =>
    cases h
    obtain ⟨run, bytes, -, blank⟩ := exists_longestBlank s
    refine ⟨[], run, s.skipBlank.rest, s.skipBlank.pos, after, ?_, read⟩
    rw [bytes]
    exact .here blank
  | case2 => cases h
  | case3 => cases h
  | case4 s l after read hl shorter c' _ ih =>
    cases h
    obtain ⟨run, bytes, start, blank⟩ := exists_longestBlank s
    obtain ⟨spelled, bytes', stop, spells⟩ := spells_of_readLexeme read hl
    obtain ⟨pieces, run', unread, stuck, after', reaches, given_up⟩ := ih ‹_›
    rw [start] at stop spells
    rw [bytes'] at bytes blank
    rw [stop] at reaches
    refine ⟨⟨run, spelled, l⟩ :: pieces, run', unread, stuck, after', ?_, given_up⟩
    rw [bytes]
    exact .cons blank spells reaches

/-- Some bytes that start a block and do not finish it: `depth + 1` braces are open at their end. -/
structure Unfinished (unread : Bytes) (depth : Nat) : Prop where
  opens : unread.head? = some Byte.openBrace
  isOpen : depthAfter? 0 unread = some (depth + 1)

/-- Where the end of a block is missed, a block was started and not finished. -/
theorem unfinished_of_readLexeme {s after : Scanner}
    (h : s.readLexeme quoting = (.error .unterminatedBlock, after)) :
    ∃ depth, Unfinished s.rest depth := by
  unfold Scanner.readLexeme at h
  split at h
  · cases h
  next b tail bytes =>
  split at h <;> rename_i hclass
  case h_6 =>
    cases eq_of_onlyByte? (congrArg onlyByte? hclass)
    unfold Scanner.readBlock at h
    split at h
    · cases h
    · next never =>
      rw [bytes] at never ⊢
      obtain ⟨depth, isOpen⟩ := staysOpen_of_blockLength?_eq_none never tail.length (by simp)
      refine ⟨depth, rfl, ?_⟩
      rw [depthAfter?_openBrace]
      simpa using isOpen
  case h_7 =>
    unfold Scanner.readQuote at h
    simp only at h
    split at h
    · split at h <;> cases h
    · cases h
  all_goals cases h

end Lexical

/-! ### What the prompt counts -/

/-- The bytes of a sequence of more than one are no braces. -/
theorem Lexical.ofNat_ne_brace {n : Nat} (low : 128 ≤ n) (high : n < 256) :
    UInt8.ofNat n ≠ Byte.openBrace ∧ UInt8.ofNat n ≠ Byte.closeBrace := by
  have toNat : (UInt8.ofNat n).toNat = n := Nat.mod_eq_of_lt high
  have braces : Byte.openBrace.toNat = 123 ∧ Byte.closeBrace.toNat = 125 := by decide
  constructor
  · intro same
    rw [same] at toNat
    omega
  · intro same
    rw [same] at toNat
    omega

/-- A character is a brace where its bytes are. -/
theorem Lexical.tally_utf8EncodeChar (c : Char) :
    tally (String.utf8EncodeChar c) =
      if c = '\x7b' then 1 else if c = '\x7d' then -1 else 0 := by
  by_cases short : c.val.toNat ≤ 127
  case pos =>
    have ascii : ∀ n : Fin 128, tally [UInt8.ofNat n.val] =
        if n.val = 123 then 1 else if n.val = 125 then -1 else 0 := by decide
    have code : ∀ d : Char, c = d ↔ c.val.toNat = d.val.toNat := fun d =>
      ⟨fun same => by rw [same], fun same => Char.ext (UInt32.toNat_inj.mp same)⟩
    simp only [String.utf8EncodeChar, if_pos short, code]
    exact ascii ⟨c.val.toNat, by omega⟩
  case neg =>
    have notBrace : c ≠ '\x7b' ∧ c ≠ '\x7d' := by
      constructor <;> rintro rfl <;> exact short (by decide)
    rw [if_neg notBrace.1, if_neg notBrace.2]
    simp only [String.utf8EncodeChar, if_neg short]
    split
    · refine tally_eq_zero ?_
      simp only [List.forall_mem_cons]
      exact ⟨ofNat_ne_brace (by omega) (by omega), ofNat_ne_brace (by omega) (by omega), by simp⟩
    · split
      · refine tally_eq_zero ?_
        simp only [List.forall_mem_cons]
        exact ⟨ofNat_ne_brace (by omega) (by omega), ofNat_ne_brace (by omega) (by omega),
          ofNat_ne_brace (by omega) (by omega), by simp⟩
      · refine tally_eq_zero ?_
        simp only [List.forall_mem_cons]
        exact ⟨ofNat_ne_brace (by omega) (by omega), ofNat_ne_brace (by omega) (by omega),
          ofNat_ne_brace (by omega) (by omega), ofNat_ne_brace (by omega) (by omega), by simp⟩

theorem Lexical.tally_encode (text : String) :
    tally (Text.encode text) = Prompt.braceDepth text := by
  have chars : ∀ (l : List Char) (depth : Int),
      l.foldl (fun depth c => if c = '\x7b' then depth + 1 else if c = '\x7d' then depth - 1
        else depth) depth = depth + tally (l.flatMap String.utf8EncodeChar) := by
    intro l
    induction l with
    | nil => simp
    | cons c l ih =>
      intro depth
      rw [List.foldl_cons, ih, List.flatMap_cons, tally_append, tally_utf8EncodeChar]
      split
      · omega
      · split <;> omega
  have bytes : Text.encode text = text.toList.flatMap String.utf8EncodeChar := by
    rw [Text.encode, ← String.utf8Encode_toList, List.utf8Encode]
    simp
  rw [bytes, Prompt.braceDepth, chars, Int.zero_add]

namespace Prompt

open Lexical (Splits Reaches Unfinished looseTally)

variable {p : Prompt} {line : String}

/-! ### Taking a line -/

/-- Whether a line is text, and not an interrupt or a command to the prompt. -/
def Gathers (p : Prompt) (line : String) : Prop :=
  line ≠ interrupt ∧ ¬(p.pending = "" ∧ (Text.trimStart line.toList).head? = some '.')

def textWith (p : Prompt) (line : String) : String := p.pending ++ line ++ "\n"

def withLine (p : Prompt) (line : String) : Prompt :=
  let p' := if (Text.trim line.toList).isEmpty then p else p.emit (.remember line)
  { p' with pending := p'.pending ++ line ++ "\n" }

/-- The line is kept for later: nothing is evaluated and there is more to read. -/
def Keeps (p : Prompt) (world : World) (fuel : Nat) (line : String) : Prop :=
  p.takeLine world fuel line = (p.withLine line, .more, none)

def Submits (p : Prompt) (world : World) (fuel : Nat) (line : String) : Prop :=
  let submitted := (p.withLine line).submit world fuel
  p.takeLine world fuel line = (submitted.1, .more, submitted.2)

theorem pending_withLine (p : Prompt) (line : String) : (p.withLine line).pending = p.textWith line := by
  unfold withLine
  split <;> rfl

/-- A line is kept if the text has more braces opened than closed, and submitted otherwise. -/
theorem Gathers.takeLine (h : p.Gathers line) (world : World) (fuel : Nat) :
    (0 < braceDepth (p.textWith line) → p.Keeps world fuel line) ∧
      (braceDepth (p.textWith line) ≤ 0 → p.Submits world fuel line) := by
  have gathered : p.takeLine world fuel line =
      ((p.gather world fuel line).1, .more, (p.gather world fuel line).2) := by
    rw [Prompt.takeLine, if_neg h.1, if_neg h.2]
  have decided : p.gather world fuel line =
      if braceDepth (p.withLine line).pending > 0 then (p.withLine line, none)
      else (p.withLine line).submit world fuel := rfl
  rw [pending_withLine] at decided
  constructor
  · intro more
    rw [Keeps, gathered, decided, if_pos more]
  · intro enough
    rw [Submits, gathered, decided, if_neg (Int.not_lt.mpr enough)]

/-- The prompt submits a text that can be read at once, unless its strings and comments outside of
blocks open more braces than they close: then it keeps reading. A text with a block that is not
finished it keeps, unless the strings and comments before that block close more braces than they open
by as many as the block has open, or more. -/
theorem takeLine_blocks (p : Prompt) (world : World) (fuel : Nat) (line : String)
    (gathers : p.Gathers line) :
    let bytes := Text.encode (p.textWith line)
    (∀ ls, Lexeme.ofText (p.textWith line) = .ok ls →
      ∃ pieces last, Splits .plain 0 bytes pieces last ∧ pieces.map Lexical.Piece.lexeme = ls ∧
        (looseTally pieces last ≤ 0 → p.Submits world fuel line) ∧
        (0 < looseTally pieces last → p.Keeps world fuel line)) ∧
    (Lexeme.ofText (p.textWith line) = .error .unterminatedBlock →
      ∃ pieces run unread depth, Reaches .plain 0 bytes pieces run unread ∧
        Unfinished unread depth ∧
        (0 < looseTally pieces run + (depth + 1) → p.Keeps world fuel line)) := by
  intro bytes
  obtain ⟨keeps, submits⟩ := gathers.takeLine world fuel
  have counted : braceDepth (p.textWith line) = Lexical.tally bytes :=
    (Lexical.tally_encode (p.textWith line)).symm
  refine ⟨fun ls read => ?_, fun missed => ?_⟩
  · obtain ⟨pieces, last, splits, lexemes⟩ := Lexical.exists_splits read
    have loose : Lexical.tally bytes = looseTally pieces last := splits.tally
    rw [counted, loose] at keeps submits
    exact ⟨pieces, last, splits, lexemes, submits, keeps⟩
  · obtain ⟨pieces, run, unread, stuck, after, reaches, given_up⟩ := Lexical.exists_reaches missed
    obtain ⟨depth, unfinished⟩ := Lexical.unfinished_of_readLexeme given_up
    have inner : ((depth + 1 : Nat) : Int) = (0 : Nat) + Lexical.tally unread :=
      Lexical.depthAfter?_eq_tally unfinished.isOpen
    have loose : Lexical.tally bytes = looseTally pieces run + Lexical.tally unread := reaches.tally
    have total : braceDepth (p.textWith line) = looseTally pieces run + (depth + 1) := by
      rw [counted, loose]
      omega
    rw [total] at keeps
    exact ⟨pieces, run, unread, depth, reaches, unfinished, keeps⟩

/-- The first line of a loop is kept, and with the last line the loop is submitted. -/
theorem takeLine_blocks_while :
    let p : Prompt := { options := {} }
    (p.Gathers "while x \x7b" ∧ p.Keeps (fun _ _ => none) 0 "while x \x7b") ∧
      let p' := p.withLine "while x \x7b"
      p'.Gathers "\x7d" ∧ p'.Submits (fun _ _ => none) 0 "\x7d" := by
  intro p
  have first : p.Gathers "while x \x7b" := by unfold Gathers; decide +kernel
  refine ⟨⟨first, ?_⟩, ?_⟩
  · have missed : Lexeme.ofText (p.textWith "while x \x7b") = .error .unterminatedBlock := by
      decide +kernel
    obtain ⟨pieces, run, unread, depth, reaches, unfinished, keeps⟩ :=
      (takeLine_blocks p (fun _ _ => none) 0 _ first).2 missed
    refine keeps ?_
    have inner := Lexical.depthAfter?_eq_tally unfinished.isOpen
    have one : Lexical.tally (Text.encode (p.textWith "while x \x7b")) = 1 := by decide +kernel
    rw [reaches.tally] at one
    omega
  · intro p'
    have second : p'.Gathers "\x7d" := by unfold Gathers; decide +kernel
    have read : Lexeme.ofText (p'.textWith "\x7d") =
        .ok [.name ⟨0, 5⟩, .name ⟨6, 7⟩, .block ⟨9, 10⟩, .newline] := by
      decide +kernel
    obtain ⟨pieces, last, splits, -, submits, -⟩ :=
      (takeLine_blocks p' (fun _ _ => none) 0 _ second).1 _ read
    refine ⟨second, submits ?_⟩
    rw [← splits.tally]
    decide +kernel

/-- A brace in a string counts like any other: the text can be read, but the prompt reads on. -/
theorem takeLine_blocks_string :
    Lexeme.ofText "print \"\x7b\"\n" = .ok [.name ⟨0, 5⟩, .quote ⟨7, 8⟩, .newline] ∧
      (CommandLine.run (fun _ _ => none) 20 [] ["print \"\x7b\""]).effects =
        [.say .out "pocket1> ", .remember "print \"\x7b\"", .say .out "| "] := by
  decide +kernel

end Prompt

end Scriptlet
