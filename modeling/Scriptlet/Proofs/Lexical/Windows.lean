import Scriptlet.Proofs.Lexical.Reading
import Scriptlet.Proofs.Twin.Lexing

/-!
Windows on a text. A body is read through a window on the text that it stands in, which may be much longer:
a script, or all that was ever copied. What is read depends on the bytes in the window alone, and where the
window is shows in the positions only. This is so for any number of lexemes, however their quotations are
to be read, and behind a complaint too.

Reading may also be taken up anew: a scanner that was made for what is left of a window is the one that has
come there.
-/

namespace Scriptlet.Scanner

open Lexical (window windowStart ofWindow_eq)

/-! ### Reading on -/

/-- What comes of reading on, one lexeme or complaint after the other, each with the position behind it.
Each has its own way of reading quotations, and a complaint does not end it. -/
def readings (s : Scanner) : List Quoting → List (Except Complaint Lexeme × Nat)
  | [] => []
  | quoting :: more => ((s.next quoting).1, (s.next quoting).2.pos) :: (s.next quoting).2.readings more

def readOn (s : Scanner) : List Quoting → Scanner
  | [] => s
  | quoting :: more => (s.next quoting).2.readOn more

theorem readings_append (s : Scanner) (first second : List Quoting) :
    s.readings (first ++ second) = s.readings first ++ (s.readOn first).readings second := by
  induction first generalizing s with
  | nil => rfl
  | cons quoting first ih => rw [List.cons_append, readings, readings, readOn, ih, List.cons_append]

/-- The same reading in a text that lies `k` bytes further on. -/
def shiftReading (k : Nat) (reading : Except Complaint Lexeme × Nat) : Except Complaint Lexeme × Nat :=
  (reading.1.map (Lexeme.shift k), k + reading.2)

theorem readings_shift (k : Nat) (s : Scanner) (modes : List Quoting) :
    (s.shift k).readings modes = (s.readings modes).map (shiftReading k) := by
  induction modes generalizing s with
  | nil => rfl
  | cons quoting more ih =>
    rw [readings, readings, next_shift, ih, List.map_cons]
    rfl

theorem further_readOn (s : Scanner) (modes : List Quoting) : s.Further (s.readOn modes) := by
  induction modes generalizing s with
  | nil => exact .refl s
  | cons quoting more ih => exact (further_snd_next quoting s).trans (ih _)

/-! ### Windows -/

theorem toList_extract_eq_window (text : Array UInt8) (start stop : Nat) :
    (text.extract start stop).toList = window text start stop := by
  rw [Array.toList_extract, List.extract_eq_take_drop, window, List.drop_take]

/-- A window is a text of its own, in another place. -/
theorem ofWindow_eq_shift (text : Array UInt8) (start stop : Nat) :
    ofWindow text start stop =
      (ofWindow (text.extract start stop) 0 (stop - start)).shift (windowStart text start stop) := by
  have whole : window (text.extract start stop) 0 (stop - start) = window text start stop := by
    rw [window, List.drop_zero, List.take_of_length_le, toList_extract_eq_window]
    simp only [Array.length_toList, Array.size_extract]
    omega
  rw [ofWindow_eq, ofWindow_eq, whole]
  simp [shift, windowStart]

/-- What is left of a window is the window from there on. -/
theorem Further.eq_ofWindow {text : Array UInt8} {start stop : Nat} {s : Scanner}
    (h : (ofWindow text start stop).Further s) : s = ofWindow text s.pos stop := by
  obtain ⟨n, fits, rfl⟩ := h
  rw [ofWindow_eq] at fits ⊢
  rw [ofWindow_eq]
  simp only [window, List.length_drop, List.length_take, Array.length_toList] at fits
  simp only [skip, windowStart, window, List.drop_drop, mk.injEq]
  refine ⟨by omega, ?_⟩
  by_cases inside : start ≤ min stop text.size
  · rw [Nat.min_eq_left inside]
  · rw [List.drop_eq_nil_of_le, List.drop_eq_nil_of_le] <;>
    · simp only [List.length_take, Array.length_toList]
      omega

/-- Lexing is local to its window. Whatever is read through a window on a text, in whatever ways of reading
quotations and also behind complaints, is what is read of the bytes in the window as a text of their own,
with each place and each position further on by as much as the window is. The bytes outside of the window
could be any others, or missing. And at each moment reading can be taken up anew from the position that was
reached, with a scanner for the rest of the window. -/
theorem readings_ofWindow (text : Array UInt8) {start stop : Nat} (ordered : start ≤ stop)
    (inside : stop ≤ text.size) (modes : List Quoting) :
    (ofWindow text start stop).readings modes =
        ((ofWindow (text.extract start stop) 0 (stop - start)).readings modes).map (shiftReading start) ∧
      (∀ text' : Array UInt8, stop ≤ text'.size → (∀ i, start ≤ i → i < stop → text'[i]? = text[i]?) →
        (ofWindow text' start stop).readings modes = (ofWindow text start stop).readings modes) ∧
      ∀ first second, modes = first ++ second →
        (ofWindow text start stop).readings modes = (ofWindow text start stop).readings first ++
          (ofWindow text ((ofWindow text start stop).readOn first).pos stop).readings second := by
  have begins : ∀ text' : Array UInt8, stop ≤ text'.size → windowStart text' start stop = start := by
    intro text' inside'
    simp only [windowStart]
    omega
  refine ⟨?_, fun text' inside' same => ?_, ?_⟩
  · rw [ofWindow_eq_shift, readings_shift, begins text inside]
  · have bytes : text'.extract start stop = text.extract start stop := by
      refine Array.ext_getElem? fun i => ?_
      rw [Array.getElem?_extract, Array.getElem?_extract, Nat.min_eq_left inside, Nat.min_eq_left inside']
      split
      · exact same (start + i) (Nat.le_add_right _ _) (by omega)
      · rfl
    rw [ofWindow_eq_shift, ofWindow_eq_shift text, begins text inside, begins text' inside', bytes]
  · rintro first second rfl
    rw [readings_append, ← (further_readOn _ first).eq_ofWindow]

/-- The window is cut in a hexadecimal number and before the mark that would close a quotation. -/
theorem readings_ofWindow_cut :
    1 ≤ 7 ∧ 7 ≤ (Text.encode "(0x \"ab\")").toArray.size ∧
      (ofWindow (Text.encode "(0x \"ab\")").toArray 1 7).readings [.argument, .plain, .argument, .plain] =
        [(.ok (.number 0), 2), (.ok (.name ⟨2, 3⟩), 3), (.error .unterminatedString, 7), (.ok .eof, 7)] := by
  have inside : 7 ≤ (Text.encode "(0x \"ab\")").toArray.size := by decide
  refine ⟨by decide, inside, ?_⟩
  rw [(readings_ofWindow _ (by decide) inside _).1]
  decide

end Scriptlet.Scanner
