/-!
UTF-8 in both directions. Scripts, names and output are runs of bytes; a text that a person
or a host sees is a `String`. Writing is the usual encoding. Reading has to give a text for
every run of bytes, so each maximal piece that cannot be part of a well-formed sequence is
read as one replacement character.

The reader is a transducer: its state is what the bytes read so far still promise, and each
byte yields at most two characters. That makes it structurally recursive on the bytes.
-/

namespace Scriptlet.Text

abbrev Bytes := List UInt8

def encode (s : String) : Bytes := s.toByteArray.data.toList

theorem encode_append (s t : String) : encode (s ++ t) = encode s ++ encode t := by
  simp [encode]

/-- Stands for a piece of input that is no well-formed sequence. -/
def replacement : Char := '\uFFFD'

/-- An unfinished sequence: the bits read so far, how many bytes are still to come, and the
range in which the next of them has to lie. -/
structure Unfinished where
  bits : Nat
  missing : Nat
  low : UInt8
  high : UInt8
  deriving DecidableEq, Repr

/-- What a byte that starts a sequence promises, if it can start one. The range of the
second byte excludes overlong forms, surrogates and values above U+10FFFF. -/
def Unfinished.ofLead? (b : UInt8) : Option Unfinished :=
  if b < 0x80 then some ⟨b.toNat, 0, 0x80, 0xBF⟩
  else if b < 0xC2 then none
  else if b < 0xE0 then some ⟨b.toNat - 0xC0, 1, 0x80, 0xBF⟩
  else if b = 0xE0 then some ⟨0x0, 2, 0xA0, 0xBF⟩
  else if b = 0xED then some ⟨0xD, 2, 0x80, 0x9F⟩
  else if b < 0xF0 then some ⟨b.toNat - 0xE0, 2, 0x80, 0xBF⟩
  else if b = 0xF0 then some ⟨0x0, 3, 0x90, 0xBF⟩
  else if b < 0xF4 then some ⟨b.toNat - 0xF0, 3, 0x80, 0xBF⟩
  else if b = 0xF4 then some ⟨0x4, 3, 0x80, 0x8F⟩
  else none

/-- Hands over the character once no byte is missing. -/
def Unfinished.settle (u : Unfinished) : List Char × Option Unfinished :=
  if u.missing = 0 then ([Char.ofNat u.bits], none) else ([], some u)

def startSequence (b : UInt8) : List Char × Option Unfinished :=
  match Unfinished.ofLead? b with
  | some u => u.settle
  | none => ([replacement], none)

/-- Reads one byte. A byte outside the promised range ends the unfinished piece, which
becomes one replacement character, and is then read afresh. -/
def decodeByte : Option Unfinished → UInt8 → List Char × Option Unfinished
  | none, b => startSequence b
  | some u, b =>
    if u.low ≤ b ∧ b ≤ u.high then
      Unfinished.settle ⟨u.bits * 64 + (b.toNat - 0x80), u.missing - 1, 0x80, 0xBF⟩
    else
      let (chars, next) := startSequence b
      (replacement :: chars, next)

/-- The characters of a run of bytes that follows an unfinished sequence. -/
def decodeFrom : Option Unfinished → Bytes → List Char
  | none, [] => []
  | some _, [] => [replacement]
  | state, b :: rest =>
    let (chars, next) := decodeByte state b
    chars ++ decodeFrom next rest

/-- The text of a run of bytes, with one replacement character for each maximal piece that
is not well formed. -/
def decode (bytes : Bytes) : String := String.ofList (decodeFrom none bytes)

end Scriptlet.Text
