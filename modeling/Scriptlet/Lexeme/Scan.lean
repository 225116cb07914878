import Scriptlet.Error
import Scriptlet.Lexeme.Basic

/-!
Reading lexemes. A `Scanner` is a position and the bytes from there to the end of its
window; bytes outside the window are not part of it, so nothing read can depend on them.
Reading gives a lexeme or a complaint, and in either case the scanner to go on with.

Between lexemes stands blank material: spaces, line continuations and comments. A block is
read by counting braces alone, so its inside need not be well formed.
-/

namespace Scriptlet

open Text (Bytes lineFeed)

/-- A place in a text: the offset of the next byte, and the bytes that are left of the
window. -/
structure Scanner where
  pos : Nat
  rest : Bytes
  deriving DecidableEq, Repr

namespace Scanner

/-- The scanner at the start of the window `start`, `stop` of a text. A window that reaches
past the end of the text is cut there. -/
def ofWindow (text : Array UInt8) (start stop : Nat) : Scanner :=
  let stop := min stop text.size
  let start := min start stop
  ⟨start, (text.extract start stop).toList⟩

def ofText (text : String) : Scanner := ⟨0, Text.encode text⟩

def skip (s : Scanner) (n : Nat) : Scanner := ⟨s.pos + n, s.rest.drop n⟩

/-! ### Measuring what comes next -/

/-- How many bytes of blank material come next; `comment` tells whether a comment is being
read, which ends before the next line feed. -/
def blankLength (comment : Bool) : Bytes → Nat
  | [] => 0
  | b :: rest =>
    if comment && b != lineFeed then blankLength true rest + 1
    else if Byte.isSpace b then blankLength false rest + 1
    else if b == Byte.hash then blankLength true rest + 1
    else if b == Byte.backslash then
      match rest with
      | c :: rest' =>
        if c == lineFeed then blankLength false rest' + 2
        else if c == Byte.carriageReturn then
          match rest' with
          | d :: rest'' => if d == lineFeed then blankLength false rest'' + 3 else 0
          | [] => 0
        else 0
      | [] => 0
    else 0

/-- How many bytes stand before the brace that closes `depth + 1` open ones, if there is one. -/
def blockLength? (depth : Nat) : Bytes → Option Nat
  | [] => none
  | b :: rest =>
    if b == Byte.openBrace then (blockLength? (depth + 1) rest).map (· + 1)
    else if b == Byte.closeBrace then
      match depth with
      | 0 => some 0
      | outer + 1 => (blockLength? outer rest).map (· + 1)
    else (blockLength? depth rest).map (· + 1)

def isQuotable (quoting : Quoting) (b : UInt8) : Bool :=
  b != Byte.quotationMark && (quoting == .argument || b != lineFeed)

/-- The word that digits denote in a radix, modulo the size of a word. -/
def numberValue (radix : Word) (digits : Bytes) : Word :=
  digits.foldl (fun n b => n * radix + Int64.ofNat (Byte.digitValue b)) 0

/-! ### Reading one lexeme -/

/-- Reads a maximal run of bytes of one kind. -/
def readRun (accept : UInt8 → Bool) (s : Scanner) : Span × Scanner :=
  let length := (s.rest.takeWhile accept).length
  (⟨s.pos, s.pos + length⟩, s.skip length)

/-- Whether a hexadecimal number comes next: a zero, the mark and at least one digit. -/
def startsHex : Bytes → Bool
  | zero :: mark :: digit :: _ => zero == 0x30 && Byte.isHexMark mark && Byte.isHexDigit digit
  | _ => false

def readNumber (s : Scanner) : Lexeme × Scanner :=
  if startsHex s.rest then
    let digits := (s.rest.drop 2).takeWhile Byte.isHexDigit
    (.number (numberValue 16 digits), s.skip (digits.length + 2))
  else
    let digits := s.rest.takeWhile Byte.isDigit
    (.number (numberValue 10 digits), s.skip digits.length)

def readBlock (s : Scanner) : Except Complaint Lexeme × Scanner :=
  match blockLength? 0 (s.rest.drop 1) with
  | some length => (.ok (.block ⟨s.pos + 1, s.pos + 1 + length⟩), s.skip (length + 2))
  | none => (.error .unterminatedBlock, s.skip s.rest.length)

def readQuote (quoting : Quoting) (s : Scanner) : Except Complaint Lexeme × Scanner :=
  let inside := s.skip 1
  let length := (inside.rest.takeWhile (isQuotable quoting)).length
  let after := inside.skip length
  match after.rest with
  | b :: _ =>
    if b == Byte.quotationMark then (.ok (.quote ⟨inside.pos, after.pos⟩), after.skip 1)
    else (.error .unterminatedString, after)
  | [] => (.error .unterminatedString, after)

/-- Reads the lexeme that starts right here. -/
def readLexeme (quoting : Quoting) (s : Scanner) : Except Complaint Lexeme × Scanner :=
  match s.rest with
  | [] => (.ok .eof, s)
  | b :: _ =>
    match Byte.classOf b with
    | .newline => (.ok .newline, s.skip 1)
    | .semicolon => (.ok .semicolon, s.skip 1)
    | .comma => (.ok .comma, s.skip 1)
    | .openParen => (.ok .openParen, s.skip 1)
    | .closeParen => (.ok .closeParen, s.skip 1)
    | .openBrace => readBlock s
    | .quotationMark => readQuote quoting s
    | .digit =>
      let (lexeme, after) := readNumber s
      (.ok lexeme, after)
    | .letter =>
      let (place, after) := readRun Byte.isNameByte s
      (.ok (.name place), after)
    | .operator =>
      let (place, after) := readRun Byte.isOperatorByte s
      (.ok (.operator place), after)
    | .other => (.error .unexpectedCharacter, s)

def skipBlank (s : Scanner) : Scanner := s.skip (blankLength false s.rest)

def next (quoting : Quoting) (s : Scanner) : Except Complaint Lexeme × Scanner :=
  readLexeme quoting s.skipBlank

/-! ### Reading all lexemes -/

@[simp] theorem rest_skip (s : Scanner) (n : Nat) : (s.skip n).rest = s.rest.drop n := rfl

@[simp] theorem pos_skip (s : Scanner) (n : Nat) : (s.skip n).pos = s.pos + n := rfl

/-- Skipping at least one byte of what is left leaves less. -/
theorem length_rest_skip_lt {s : Scanner} {n : Nat} (hn : 0 < n) (hs : s.rest ≠ []) :
    (s.skip n).rest.length < s.rest.length := by
  have := List.length_pos_iff.mpr hs
  simp only [rest_skip, List.length_drop]
  omega

theorem length_rest_readRun_lt {accept : UInt8 → Bool} {s : Scanner} {b : UInt8} {tail : Bytes}
    (hs : s.rest = b :: tail) (hb : accept b = true) :
    (s.readRun accept).2.rest.length < s.rest.length :=
  length_rest_skip_lt (by simp [hs, hb]) (by simp [hs])

theorem length_rest_readNumber_lt {s : Scanner} {b : UInt8} {tail : Bytes}
    (hs : s.rest = b :: tail) (hb : Byte.isDigit b = true) :
    s.readNumber.2.rest.length < s.rest.length := by
  unfold readNumber
  split
  · exact length_rest_skip_lt (Nat.succ_pos _) (by simp [hs])
  · exact length_rest_skip_lt (by simp [hs, hb]) (by simp [hs])

theorem length_rest_readBlock_lt {s after : Scanner} {l : Lexeme} (hs : s.rest ≠ [])
    (h : s.readBlock = (.ok l, after)) : after.rest.length < s.rest.length := by
  unfold readBlock at h
  split at h
  · obtain ⟨-, rfl⟩ := Prod.mk.inj h
    exact length_rest_skip_lt (Nat.succ_pos _) hs
  · cases h

theorem length_rest_readQuote_lt {quoting : Quoting} {s after : Scanner} {l : Lexeme}
    (hs : s.rest ≠ []) (h : s.readQuote quoting = (.ok l, after)) :
    after.rest.length < s.rest.length := by
  have hpos := List.length_pos_iff.mpr hs
  unfold readQuote at h
  simp only at h
  split at h
  · split at h
    · obtain ⟨-, rfl⟩ := Prod.mk.inj h
      simp only [rest_skip, List.length_drop]
      omega
    · cases h
  · cases h

/-- Reading a lexeme other than the end of the text leaves less to read. -/
theorem length_rest_readLexeme_lt {quoting : Quoting} {s after : Scanner} {l : Lexeme}
    (h : s.readLexeme quoting = (.ok l, after)) (hl : l ≠ .eof) :
    after.rest.length < s.rest.length := by
  unfold readLexeme at h
  split at h
  · cases h
    exact absurd rfl hl
  · next b tail hs =>
    have hne : s.rest ≠ [] := by simp [hs]
    split at h <;> rename_i hc
    iterate 5
      · cases h
        exact length_rest_skip_lt Nat.one_pos hne
    · exact length_rest_readBlock_lt hne h
    · exact length_rest_readQuote_lt hne h
    · cases h
      exact length_rest_readNumber_lt hs (Byte.isDigit_of_classOf hc)
    · cases h
      exact length_rest_readRun_lt hs (Byte.isNameByte_of_classOf hc)
    · cases h
      exact length_rest_readRun_lt hs (Byte.isOperatorByte_of_classOf hc)
    · cases h

/-- Every lexeme but the end of the text takes at least one byte. -/
theorem length_rest_next_lt {quoting : Quoting} {s after : Scanner} {l : Lexeme}
    (h : s.next quoting = (.ok l, after)) (hl : l ≠ .eof) :
    after.rest.length < s.rest.length := by
  refine Nat.lt_of_lt_of_le (length_rest_readLexeme_lt h hl) ?_
  simp [skipBlank]

/-- All lexemes up to the end of the window, without the end itself. -/
def lexemes (quoting : Quoting) (s : Scanner) : Except Complaint (List Lexeme) :=
  match h : s.next quoting with
  | (.error complaint, _) => .error complaint
  | (.ok lexeme, after) =>
    if hl : lexeme = .eof then .ok []
    else
      have : after.rest.length < s.rest.length := length_rest_next_lt h hl
      match lexemes quoting after with
      | .ok more => .ok (lexeme :: more)
      | .error complaint => .error complaint
termination_by s.rest.length

end Scanner

def Lexeme.ofText (text : String) : Except Complaint (List Lexeme) :=
  (Scanner.ofText text).lexemes .plain

end Scriptlet
