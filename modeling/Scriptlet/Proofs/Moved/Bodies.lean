import Scriptlet.Proofs.Moved.Calls
import Scriptlet.Proofs.Twin.Bodies

/-!
Whole bodies on two machines of which the second has the other text. A body that lies in the piece starts
as much further on in the other text as its slice says, and has the same bytes there, so the two are read
in lockstep to their end. An error is told to be in the same line, with the same excerpt.

This ties the knot: on every budget, what is nested in a construct can be moved (`relocates_ofFuel`).
-/

namespace Scriptlet

open Text (Bytes)
open Eval

variable {α : Type} {m m' n n' : Machine}

namespace Relocation

variable {ρ : Relocation}

/-! ### The start of a body -/

theorem ofWindow_shift {xs ys : Array UInt8} {k start stop : Nat} (ordered : start ≤ stop)
    (hx : stop ≤ xs.size) (hy : k + stop ≤ ys.size)
    (same : ∀ i, start ≤ i → i < stop → ys[k + i]? = xs[i]?) :
    Scanner.ofWindow ys (k + start) (k + stop) = (Scanner.ofWindow xs start stop).shift k := by
  unfold Scanner.ofWindow Scanner.shift
  dsimp only
  rw [Nat.min_eq_left hx, Nat.min_eq_left hy, Nat.min_eq_left ordered,
    Nat.min_eq_left (Nat.add_le_add_left ordered k), extract_congr hx hy same]

/-- A body starts as much further on as its slice. -/
theorem scanner_cursorAt (fits : ρ.Fits) (h : ρ.Moved m m') {body : Slice} (inside : ρ.Inside body) :
    (m'.cursorAt (ρ.slice body)).scanner =
      (m.cursorAt body).scanner.shift (ρ.offset body.source) := by
  change Scanner.ofWindow (m'.store body.source) (ρ.offset body.source + body.start)
      (ρ.slice body).stop = (Scanner.ofWindow (m.store body.source) body.start body.stop).shift _
  have ordered : body.start ≤ body.stop := Nat.le_add_right _ _
  rw [stop_slice, h.store]
  by_cases source : body.source = .text ρ.slot
  · obtain ⟨low, high⟩ := inside source
    have below := Nat.le_trans high fits.high
    have room := fits.room
    rw [if_pos source, source, offset_slot, store_slot h.settled]
    refine ofWindow_shift ordered (Nat.le_trans below fits.reach) (by omega) fun i hi hi' => ?_
    exact fits.bytes i (by omega) (by omega)
  · rw [if_neg source, ρ.offset_of_ne source]
    simp only [Nat.zero_add, Scanner.shift]

theorem limit_cursorAt (body : Slice) (m : Machine) : (m.cursorAt body).scanner.limit ≤ body.stop := by
  change (Scanner.ofWindow (m.store body.source) body.start body.stop).limit ≤ body.stop
  have ordered : body.start ≤ body.stop := Nat.le_add_right _ _
  simp only [Scanner.ofWindow, Scanner.limit, Array.length_toList, Array.size_extract]
  omega

/-- A body of the piece starts where its slice does. -/
theorem low_cursorAt (fits : ρ.Fits) (settled : ρ.Settled m) {body : Slice} (inside : ρ.Inside body)
    (source : body.source = .text ρ.slot) : ρ.low ≤ (m.cursorAt body).scanner.pos := by
  obtain ⟨low, high⟩ := inside source
  have ordered : body.start ≤ body.stop := Nat.le_add_right _ _
  have below := Nat.le_trans (Nat.le_trans high fits.high) fits.reach
  rw [m.pos_cursorAt, source, store_slot settled, Nat.min_eq_left (Nat.le_trans ordered below)]
  exact low

theorem standing_before (fits : ρ.Fits) (h : ρ.Moved m m') {body : Slice} (inside : ρ.Inside body)
    (duplicate : Bool) :
    ρ.Standing .inner (m.before body duplicate) (m'.before (ρ.slice body) duplicate) := by
  have scanner := scanner_cursorAt fits h inside
  refine ⟨((h.withQuoting .plain).withDuplicate duplicate).place _ _ _ _, rfl, ?_, fun _ => ?_⟩
  · refine ⟨(m.cursorAt body).scanner, ?_, ?_, fun source => ?_, nofun⟩
    · exact (Scanner.extend_nil _).symm
    · exact scanner.trans (Scanner.extend_nil _).symm
    · have source : body.source = .text ρ.slot := source
      exact ⟨low_cursorAt fits h.settled inside source,
        Nat.le_trans (limit_cursorAt body m) (inside source).2⟩
  · refine ⟨rfl, ρ.stop_slice body, congrArg Scanner.pos scanner, fun source => ?_⟩
    have source : body.source = .text ρ.slot := source
    have ordered : body.start ≤ body.stop := Nat.le_add_right _ _
    exact ⟨low_cursorAt fits h.settled inside source, Nat.le_trans (inside source).1 ordered,
      (inside source).2⟩

/-! ### Errors that leave a body -/

/-- An error is told to be at the same place. -/
theorem locate_moved (fits : ρ.Fits) (h : ρ.Moved m m') (spot : ρ.Spot m.cursor m'.cursor) (e : Error) :
    m'.locate e = m.locate e := by
  obtain ⟨source, stop, mark, within⟩ := spot
  unfold Machine.locate
  split
  · rfl
  dsimp only
  have start : min m'.cursor.mark m'.cursor.stop =
      ρ.offset m.cursor.source + min m.cursor.mark m.cursor.stop := by
    rw [stop, mark]
    omega
  have length : ρ.offset m.cursor.source + m.cursor.stop -
      (ρ.offset m.cursor.source + min m.cursor.mark m.cursor.stop) =
        m.cursor.stop - min m.cursor.mark m.cursor.stop := by omega
  have inside : m.cursor.source = .text ρ.slot →
      ρ.low ≤ min m.cursor.mark m.cursor.stop ∧ m.cursor.stop ≤ ρ.high := fun same => by
    obtain ⟨low, low', high⟩ := within same
    omega
  have bytes := h.bytes fits (s := ⟨m.cursor.source, min m.cursor.mark m.cursor.stop,
    m.cursor.stop - min m.cursor.mark m.cursor.stop⟩) fun same => by
      obtain ⟨low, high⟩ := inside same
      have reach := fits.high
      refine ⟨low, ?_⟩
      change min m.cursor.mark m.cursor.stop + (m.cursor.stop - min m.cursor.mark m.cursor.stop) ≤ _
      omega
  have lines : Text.lineNumber (m'.store m.cursor.source).toList
      (ρ.offset m.cursor.source + min m.cursor.mark m.cursor.stop) =
        Text.lineNumber (m.store m.cursor.source).toList (min m.cursor.mark m.cursor.stop) := by
    rw [h.store]
    by_cases same : m.cursor.source = .text ρ.slot
    · obtain ⟨low, high⟩ := inside same
      rw [if_pos same, same, offset_slot, store_slot h.settled]
      exact fits.lines _ low (Nat.le_trans (Nat.min_le_right _ _) high)
    · rw [if_neg same, ρ.offset_of_ne same, Nat.zero_add]
  rw [start, source, stop, length, lines]
  change Slice.bytesIn ⟨m.cursor.source, ρ.offset m.cursor.source + _, _⟩ (m'.store m.cursor.source) =
    Slice.bytesIn _ (m.store m.cursor.source) at bytes
  rw [bytes]

theorem Follow.leave (fits : ρ.Fits) {P : Machine → Machine → Prop} {o o' : Outcome α}
    {g g' : Machine → Machine} (follow : ρ.Follow .inner (Equally P) o o')
    (moved : ∀ {k k'}, P k k' → ρ.Moved k k')
    (back : ∀ {k k'}, ρ.Moved k k' → ρ.Moved (g k) (g' k')) :
    ρ.Stay ((o.adjustError Machine.locate).adjust g) ((o'.adjustError Machine.locate).adjust g') := by
  cases follow with
  | done done => exact .done ⟨done.1, back (moved done.2)⟩
  | @failed e k k' fell =>
    have told := locate_moved fits fell.moved (fell.spot rfl) e
    unfold Outcome.adjustError
    dsimp only
    rw [told]
    exact .failed (back fell.moved)
  | stopped => exact .stopped
  | apart apart => exact absurd apart (Manner.not_apart Manner.level_inner rfl)

section

variable {r : Reentry} (fits : ρ.Fits) (relocates : ρ.Relocates r)

include fits relocates

/-! ### Sequences of statements -/

variable {μ : Manner}

omit fits relocates in
/-- Texts that end in the same way have no seam. -/
theorem Abreast.not_seam (level : μ.Level) (even : μ.tail' = []) (h : ρ.Abreast μ m m') :
    ¬ (m.token = .eof ∧ m'.token = .separator) := by
  rintro ⟨eof, separator⟩
  cases h.place with
  | before cursors token =>
    rw [token, eof] at separator
    cases separator
  | seam manner =>
    rw [manner] at even
    cases even
  | close manner => exact level _ _ manner

theorem follow_turns (level : μ.Level) (even : μ.tail' = []) (passes : Nat) (h : ρ.Abreast μ m m') :
    ρ.Follow μ (Equally (ρ.Abreast μ)) (Eval.loop (Statement.turn r) passes () m)
      (Eval.loop (Statement.turn r) passes () m') :=
  Follow.of_tandem
    ((relocates.discipline fits μ).turns level (fun h => Abreast.not_seam level even h) passes h)

/-- A body does the same from its new place. -/
theorem stay_wholeBody {body : Slice} (topLevel duplicate : Bool) (h : ρ.Moved m m')
    (inside : ρ.Inside body) :
    ρ.Stay (r.wholeBody body topLevel duplicate m) (r.wholeBody (ρ.slice body) topLevel duplicate m') := by
  unfold Reentry.wholeBody inScope restoring
  dsimp only
  rw [h.size_symbols]
  refine Stay.adjust ?_ fun {n n'} moved => ?_
  · rw [inBody_apply, inBody_apply]
    refine Follow.leave fits (P := ρ.Abreast .inner) (Follow.bind
      (follow_advanceBy fits false (standing_before fits h inside duplicate)) (.inl Manner.level_inner)
      fun abreast => ?_) Abreast.moved fun {k k'} moved => ?_
    · exact follow_turns fits relocates Manner.level_inner rfl r.passes abreast
    · unfold Machine.backAt
      rw [h.quoting, h.duplicate]
      exact ((moved.withQuoting m.quoting).withDuplicate m.duplicate).place _ _ _ _
  · cases topLevel with
    | true => exact moved
    | false => exact moved.rollback _

end

/-! ### Every budget -/

/-- On every budget, what is nested in a construct can be moved. -/
theorem relocates_ofFuel (fits : ρ.Fits) (world : World) (fuel : Nat) :
    ρ.Relocates (.ofFuel world fuel) := by
  have ahead := ahead_ofFuel world fuel
  have bracket := (bracketed_ofFuel world fuel).2
  obtain ⟨grows, growsBody⟩ := grows_ofFuel world fuel
  induction fuel with
  | zero => exact ⟨fun _ => .stopped, fun atClose => .stalled atClose.outside, fun _ _ _ _ => .stopped,
      ahead, bracket, grows, growsBody⟩
  | succ fuel ih =>
    have relocates := ih (ahead_ofFuel world fuel) (bracketed_ofFuel world fuel).2
      (grows_ofFuel world fuel).1 (grows_ofFuel world fuel).2
    refine ⟨fun h => ?_, fun atClose => ?_, fun topLevel duplicate h inside => ?_, ahead, bracket, grows,
      growsBody⟩
    · exact Follow.of_tandem ((relocates.discipline fits _).upToLevel Operator.maxLevel h)
    · exact atClose.upToLevel relocates.ahead relocates.bracket Operator.maxLevel
    · exact stay_wholeBody fits relocates topLevel duplicate h inside

end Relocation

end Scriptlet
