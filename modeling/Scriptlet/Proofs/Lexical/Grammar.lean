import Scriptlet.Lexeme.Scan
import Scriptlet.Proofs.Formula.Syntax

/-!
The grammar of lexemes. A text is blank material and lexemes in turn, and each of them goes as far
as it can. The grammar says what blank material is and how each lexeme is spelled; it does not say
how to find out.

Whether a piece goes as far as it can is a question of what stands behind it, so every notion here
has the bytes behind the piece as an argument. For a run of one kind of byte it is enough to look at
the next byte (`Stops`). For blank material it is not: behind a backslash the next two bytes decide.
So the longest blank is the one that no other blank outdoes.
-/

namespace Scriptlet.Lexical

open Text (Bytes lineFeed)

/-- Nothing comes, or a byte that a run of accepted bytes does not go on with. -/
def Stops (accept : UInt8 → Bool) (rest : Bytes) : Prop := ∀ b ∈ rest.head?, accept b = false

/-! ### Blank material -/

/-- What may stand between lexemes, when `rest` comes behind it. A comment goes on to the end of its
line or of the text and does not include the line feed. -/
inductive Blank (rest : Bytes) : Bytes → Prop where
  | nil : Blank rest []
  | space {b : UInt8} {run : Bytes} (isSpace : Byte.isSpace b = true) (more : Blank rest run) :
      Blank rest (b :: run)
  | continued {run : Bytes} (more : Blank rest run) :
      Blank rest (Byte.backslash :: lineFeed :: run)
  | continuedReturn {run : Bytes} (more : Blank rest run) :
      Blank rest (Byte.backslash :: Byte.carriageReturn :: lineFeed :: run)
  | comment {words run : Bytes} (oneLine : lineFeed ∉ words)
      (ends : Stops (· != lineFeed) (run ++ rest)) (more : Blank rest run) :
      Blank rest (Byte.hash :: (words ++ run))

/-- Blank material that no blank material at the same place is longer than. -/
structure LongestBlank (run rest : Bytes) : Prop where
  blank : Blank rest run
  longest : ∀ {run' rest'}, run' ++ rest' = run ++ rest → Blank rest' run' →
    run'.length ≤ run.length

/-! ### Braces -/

/-- How many braces are open behind a byte, when `depth` are open before it. There is no answer if a
brace is closed that was not opened. -/
def countBrace? (depth : Nat) (b : UInt8) : Option Nat :=
  if b == Byte.openBrace then some (depth + 1)
  else if b == Byte.closeBrace then
    match depth with
    | 0 => none
    | outer + 1 => some outer
  else some depth

/-- How many braces are open behind some bytes, when `depth` are open before them. -/
def depthAfter? (depth : Nat) (bytes : Bytes) : Option Nat := bytes.foldlM countBrace? depth

/-- A block: it starts with a brace and ends at the first point at which no brace is open. -/
structure IsBlock (spelled : Bytes) : Prop where
  opens : spelled.head? = some Byte.openBrace
  closes : depthAfter? 0 spelled = some 0
  first : ∀ n, 0 < n → n < spelled.length → depthAfter? 0 (spelled.take n) ≠ some 0

/-! ### Lexemes -/

/-- A hexadecimal number comes first: a zero, the mark and at least one digit. -/
def LeadsHex (bytes : Bytes) : Prop :=
  ∃ mark digit more, bytes = 0x30 :: mark :: digit :: more ∧ Byte.isHexMark mark = true ∧
    Byte.isHexDigit digit = true

/-- How a lexeme is spelled that starts at `pos` and has `rest` behind it. -/
inductive Spells (quoting : Quoting) (pos : Nat) : (spelled rest : Bytes) → Lexeme → Prop where
  | newline {rest : Bytes} : Spells quoting pos [lineFeed] rest .newline
  | semicolon {rest : Bytes} : Spells quoting pos [0x3B] rest .semicolon
  | comma {rest : Bytes} : Spells quoting pos [0x2C] rest .comma
  | openParen {rest : Bytes} : Spells quoting pos [0x28] rest .openParen
  | closeParen {rest : Bytes} : Spells quoting pos [0x29] rest .closeParen
  | name {b : UInt8} {run rest : Bytes} (lead : Byte.isLetter b = true)
      (inside : ∀ c ∈ run, Byte.isNameByte c = true) (longest : Stops Byte.isNameByte rest) :
      Spells quoting pos (b :: run) rest (.name ⟨pos, pos + (b :: run).length⟩)
  | operator {run rest : Bytes} (nonempty : run ≠ [])
      (inside : ∀ c ∈ run, Byte.isOperatorByte c = true)
      (longest : Stops Byte.isOperatorByte rest) :
      Spells quoting pos run rest (.operator ⟨pos, pos + run.length⟩)
  | hexadecimal {mark : UInt8} {digits rest : Bytes} (isMark : Byte.isHexMark mark = true)
      (nonempty : digits ≠ []) (inside : ∀ c ∈ digits, Byte.isHexDigit c = true)
      (longest : Stops Byte.isHexDigit rest) :
      Spells quoting pos (0x30 :: mark :: digits) rest
        (.number (Int64.ofNat (Numeral.ofDigits 16 digits)))
  | decimal {digits rest : Bytes} (nonempty : digits ≠ [])
      (inside : ∀ c ∈ digits, Byte.isDigit c = true) (longest : Stops Byte.isDigit rest)
      (plain : ¬LeadsHex (digits ++ rest)) :
      Spells quoting pos digits rest (.number (Int64.ofNat (Numeral.ofDigits 10 digits)))
  | block {spelled rest : Bytes} (isBlock : IsBlock spelled) :
      Spells quoting pos spelled rest (.block ⟨pos + 1, pos + spelled.length - 1⟩)
  | quote {inside rest : Bytes} (unquoted : Byte.quotationMark ∉ inside)
      (oneLine : quoting = .plain → lineFeed ∉ inside) :
      Spells quoting pos (Byte.quotationMark :: (inside ++ [Byte.quotationMark])) rest
        (.quote ⟨pos + 1, pos + 1 + inside.length⟩)

/-! ### Texts -/

/-- A lexeme of a text with its spelling and the blank material before it. -/
structure Piece where
  blank : Bytes
  spelled : Bytes
  lexeme : Lexeme

namespace Piece

def bytes (p : Piece) : Bytes := p.blank ++ p.spelled

/-- How much of its spelling a lexeme leaves out in front and behind: blocks and quotations tell
where their inside is. -/
def margin (p : Piece) : Nat :=
  match p.lexeme with
  | .block _ | .quote _ => 1
  | _ => 0

def inner (p : Piece) : Bytes := (p.spelled.drop p.margin).take (p.spelled.length - 2 * p.margin)

end Piece

/-- How some bytes, which start at `pos`, split into pieces and the blank material behind the last of
them. -/
inductive Splits (quoting : Quoting) :
    (pos : Nat) → (bytes : Bytes) → List Piece → (last : Bytes) → Prop where
  | last {pos : Nat} {run : Bytes} (blank : LongestBlank run []) : Splits quoting pos run [] run
  | cons {pos : Nat} {run spelled rest : Bytes} {l : Lexeme} {pieces : List Piece} {last : Bytes}
      (blank : LongestBlank run (spelled ++ rest))
      (spells : Spells quoting (pos + run.length) spelled rest l)
      (more : Splits quoting (pos + run.length + spelled.length) rest pieces last) :
      Splits quoting pos (run ++ (spelled ++ rest)) (⟨run, spelled, l⟩ :: pieces) last

theorem Splits.bytes_eq {quoting : Quoting} {pos : Nat} {bytes : Bytes} {pieces : List Piece}
    {last : Bytes} (h : Splits quoting pos bytes pieces last) :
    bytes = pieces.flatMap Piece.bytes ++ last := by
  induction h with
  | last => rfl
  | cons _ _ _ ih => simp [Piece.bytes, ← ih]

end Scriptlet.Lexical
