import Scriptlet.Proofs.Twin.Lexing

/-!
Two texts with a piece in common. A scanner reads the piece in one text, another one reads it in the
other text, some way further on. What the texts have behind the piece tells how the scanners are related
(`Manner`): nothing at all, or a line feed in the second text only, or a blank in the first where there
is a parenthesis in the second.

In the piece the scanners read the same lexemes. Where it ends, the first may be at the end of its text
and the second at the line feed (the *seam*); or the second is at the parenthesis, and the first reads what
comes behind the blank (`Scanner.sideBySide`). A lexeme that starts in the piece may also go on behind it,
such as a block or a comment; then the first scanner is past the end of the piece, and nothing is said of
the second.
-/

namespace Scriptlet

open Text (Bytes lineFeed)

def Byte.blank : UInt8 := 0x20

def Byte.closeParen : UInt8 := 0x29

theorem Byte.delimits_blank : Byte.Delimits Byte.blank := ⟨rfl, rfl, rfl, rfl, rfl⟩

theorem Byte.delimits_closeParen : Byte.Delimits Byte.closeParen := ⟨rfl, rfl, rfl, rfl, rfl⟩

/-- What two machines have before them that read the same piece of text. -/
inductive Manner where
  /-- Nothing but that piece; and errors will be told to be at the same place of it. -/
  | inner
  /-- The second text may go on behind a line feed. -/
  | outer (more : Option Bytes)
  /-- The first text goes on behind a blank, and the second behind a parenthesis and a blank. Both pieces end
  at the place `close`. -/
  | bridge (rest : Bytes) (close : Nat)

namespace Manner

def tail : Manner → Bytes
  | bridge rest _ => Byte.blank :: rest
  | inner | outer _ => []

def tail' : Manner → Bytes
  | inner | outer none => []
  | outer (some more) => lineFeed :: more
  | bridge rest _ => Byte.closeParen :: Byte.blank :: rest

end Manner

theorem Lexeme.shift_eq_eof {l : Lexeme} {k : Nat} : l.shift k = .eof ↔ l = .eof := by
  cases l <;> simp [Lexeme.shift]

namespace Scanner

variable {quoting : Quoting} {s after : Scanner} {l : Lexeme} {d : UInt8} {more : Bytes} {k : Nat} {μ : Manner}

@[simp] theorem extend_nil (s : Scanner) : s.extend [] = s := by
  simp [extend]

@[simp] theorem limit_shift (k : Nat) (s : Scanner) : (s.shift k).limit = k + s.limit :=
  Nat.add_assoc _ _ _

/-- The piece of text that a lexeme stands for is in the window, and does not start before the scanner. -/
theorem place_next (h : s.next quoting = (.ok l, after)) {place : Span} (hplace : l.place? = some place) :
    s.pos ≤ place.start ∧ place.start ≤ place.stop ∧ place.stop ≤ s.limit := by
  have within := (within_next h).place hplace
  refine ⟨?_, within.1, within.2.2⟩
  have base := next_shift quoting s.pos ⟨0, s.rest⟩
  rw [show shift s.pos ⟨0, s.rest⟩ = s from rfl, h] at base
  generalize (⟨0, s.rest⟩ : Scanner).next quoting = read at base
  obtain ⟨result, rest⟩ := read
  cases result with
  | error complaint => cases base
  | ok l₀ =>
    cases base
    cases l₀ <;> cases hplace <;> exact Nat.le_add_right _ _

theorem pos_lt_of_readLexeme (h : s.readLexeme quoting = (.ok l, after)) (hl : l ≠ .eof) :
    s.pos < after.pos := by
  have less := length_rest_readLexeme_lt h hl
  obtain ⟨n, hn, rfl⟩ := further_readLexeme h
  simp only [rest_skip, List.length_drop] at less
  simp only [pos_skip]
  omega

theorem pos_lt_of_next (h : s.next quoting = (.ok l, after)) (hl : l ≠ .eof) : s.pos < after.pos :=
  Nat.lt_of_le_of_lt (Nat.le_add_right _ _) (pos_lt_of_readLexeme (s := s.skipBlank) h hl)

/-! ### Lexemes that go on behind a piece of text -/

theorem blankLength_le_append (comment : Bool) (bytes more : Bytes) :
    blankLength comment bytes ≤ blankLength comment (bytes ++ more) := by
  fun_induction blankLength comment bytes with
  | case2 comment b rest inside ih =>
    conv => rhs; rw [List.cons_append, blankLength.eq_def]
    simp only [inside, if_true]
    exact Nat.succ_le_succ ih
  | case3 comment b rest outside space ih =>
    conv => rhs; rw [List.cons_append, blankLength.eq_def]
    simp only [outside, space, if_true, if_false, Bool.false_eq_true]
    exact Nat.succ_le_succ ih
  | case4 comment b rest outside space hash ih =>
    conv => rhs; rw [List.cons_append, blankLength.eq_def]
    simp only [outside, space, hash, if_true, if_false, Bool.false_eq_true]
    exact Nat.succ_le_succ ih
  | case5 comment b outside space hash backslash c rest' feed ih =>
    conv => rhs; rw [List.cons_append, blankLength.eq_def]
    simp only [outside, space, hash, backslash, List.cons_append, feed, if_true, if_false,
      Bool.false_eq_true]
    exact Nat.add_le_add_right ih 2
  | case6 comment b outside space hash backslash c feed ret e rest'' feed' ih =>
    conv => rhs; rw [List.cons_append, blankLength.eq_def]
    simp only [outside, space, hash, backslash, List.cons_append, feed, ret, feed', if_true, if_false,
      Bool.false_eq_true]
    exact Nat.add_le_add_right ih 3
  | _ => exact Nat.zero_le _

theorem length_le_blockLength? {depth length : Nat} {bytes : Bytes} (open_ : blockLength? depth bytes = none)
    (h : blockLength? depth (bytes ++ more) = some length) : bytes.length ≤ length := by
  refine Nat.le_of_not_lt fun short => ?_
  fun_induction blockLength? depth bytes generalizing length with
  | case1 => cases short
  | case2 depth b rest opens ih | case5 depth b rest opens closes ih =>
    rw [List.cons_append, blockLength?.eq_def] at h
    simp only [if_true, if_false, Bool.false_eq_true, *] at h
    obtain ⟨inner, hinner, rfl⟩ := Option.map_eq_some_iff.mp h
    exact ih (Option.map_eq_none_iff.mp open_) hinner (Nat.lt_of_succ_lt_succ short)
  | case3 b rest opens closes => cases open_
  | case4 b rest opens closes outer ih =>
    rw [List.cons_append, blockLength?, if_neg opens, if_pos closes] at h
    obtain ⟨inner, hinner, rfl⟩ := Option.map_eq_some_iff.mp h
    exact ih (Option.map_eq_none_iff.mp open_) hinner (Nat.lt_of_succ_lt_succ short)

/-- A lexeme that is cut short where a piece of text ends goes on behind it, if it can be read there. -/
theorem past_of_readLexeme {complaint : Complaint} (some : s.rest ≠ [])
    (cut : s.readLexeme quoting = (.error complaint, after)) {after' : Scanner}
    (h : (s.extend (d :: more)).readLexeme quoting = (.ok l, after')) : s.limit < after'.pos := by
  obtain ⟨b, rest, hs⟩ := List.exists_cons_of_ne_nil some
  unfold readLexeme at cut h
  rw [hs] at cut
  rw [rest_extend, hs, List.cons_append] at h
  dsimp only at cut h
  split at cut <;> rename_i hclass <;> rw [hclass] at h <;> dsimp only at h
  iterate 5 cases cut
  · -- a block
    unfold readBlock at cut h
    rw [hs] at cut
    rw [rest_extend, hs, List.cons_append] at h
    simp only [List.drop_succ_cons, List.drop_zero] at cut h
    split at cut
    · cases cut
    · next none =>
      split at h
      · next length found =>
        have long := length_le_blockLength? none found
        cases h
        simp only [limit, hs, pos_skip, pos_extend, List.length_cons]
        omega
      · cases h
  · -- a quotation
    unfold readQuote at cut h
    simp only [rest_skip, rest_extend, hs, List.cons_append, List.drop_succ_cons, List.drop_zero] at cut h
    cases hstop : rest.drop (rest.takeWhile (isQuotable quoting)).length with
    | nil =>
      have all : rest.length ≤ ((rest ++ d :: more).takeWhile (isQuotable quoting)).length := by
        have whole : (rest.takeWhile (isQuotable quoting)).length = rest.length :=
          Nat.le_antisymm (length_takeWhile_le _ _) (List.drop_eq_nil_iff.mp hstop)
        rw [List.takeWhile_append, if_pos whole, List.length_append]
        exact Nat.le_add_right _ _
      split at h
      · split at h
        · cases h
          simp only [limit, hs, pos_skip, pos_extend, List.length_cons]
          omega
        · cases h
      · cases h
    | cons c rest' =>
      rw [hstop] at cut
      rw [takeWhile_append_of_stop hstop, List.drop_append_of_le_length (length_takeWhile_le _ _), hstop,
        List.cons_append] at h
      dsimp only at cut h
      split at cut
      · cases cut
      · next other =>
        rw [if_neg other] at h
        cases h
  · cases cut
  · cases cut
  · cases cut
  · cases h

/-- A lexeme that starts in a piece of text, but not as it does there, goes on behind it. -/
theorem past_of_next (other : d ≠ lineFeed ∧ d ≠ Byte.carriageReturn)
    (cut : ∀ l₀ after₀, s.next quoting = (.ok l₀, after₀) → l₀ = .eof)
    (h : (s.extend (d :: more)).next quoting = (.ok l, after)) : s.limit < after.pos := by
  by_cases blank : s.skipBlank.rest = []
  · -- nothing but blanks: the lexeme starts behind them
    have all : s.rest.length ≤ blankLength false s.rest := List.drop_eq_nil_iff.mp blank
    have longer := blankLength_le_append false s.rest (d :: more)
    by_cases hl : l = .eof
    · subst hl
      have none := rest_of_readLexeme_eof (s := (s.extend (d :: more)).skipBlank) h
      have whole : (s.rest ++ d :: more).length ≤ blankLength false (s.rest ++ d :: more) :=
        List.drop_eq_nil_iff.mp none
      obtain ⟨n, -, rfl⟩ := further_readLexeme (s := (s.extend (d :: more)).skipBlank) h
      simp only [List.length_append, List.length_cons] at whole
      simp only [limit, skipBlank, pos_skip, pos_extend, rest_extend]
      omega
    · have further := pos_lt_of_readLexeme (s := (s.extend (d :: more)).skipBlank) h hl
      simp only [skipBlank, pos_skip, pos_extend, rest_extend] at further
      simp only [limit]
      omega
  · have skipped : (s.extend (d :: more)).skipBlank = s.skipBlank.extend (d :: more) := by
      have inside : blankLength false s.rest < s.rest.length :=
        Nat.lt_of_not_le fun all => blank (List.drop_eq_nil_of_le all)
      have length : blankLength false (s.rest ++ d :: more) = blankLength false s.rest :=
        blankLength_append (.inr other) (.inr inside) more
      unfold skipBlank
      rw [rest_extend, length, skip_extend (blankLength_le false s.rest)]
    cases read : s.skipBlank.readLexeme quoting with
    | mk result after₀ =>
      cases result with
      | ok l₀ =>
        have ended := cut l₀ after₀ read
        subst ended
        exact absurd (rest_of_readLexeme_eof read) blank
      | error complaint =>
        unfold next at h
        rw [skipped] at h
        have past := past_of_readLexeme blank read h
        rw [skipBlank, limit_skip (blankLength_le false s.rest)] at past
        exact past

/-! ### Two scanners -/

/-- What two scanners read that have a piece of text before them, which is all that `s` has, and behind
it what the manner tells; the second is `k` bytes further on. -/
inductive SideBySide (μ : Manner) (k : Nat) (quoting : Quoting) (s : Scanner) : Prop
  /-- Both scanners read a lexeme of the piece. -/
  | same {l : Lexeme} {after : Scanner} (here : s.next quoting = (.ok l, after))
    (read : (s.extend μ.tail).next quoting = (.ok l, after.extend μ.tail))
    (read' : ((s.shift k).extend μ.tail').next quoting = (.ok (l.shift k), (after.shift k).extend μ.tail'))
    (running : l = .eof → μ.tail = [] ∧ μ.tail' = [])
  /-- The first scanner has to complain. -/
  | complaint {complaint : Complaint} {after : Scanner}
    (read : (s.extend μ.tail).next quoting = (.error complaint, after))
    (read' : μ.tail' = [] → ∃ after', ((s.shift k).extend μ.tail').next quoting = (.error complaint, after'))
  /-- The first scanner is at its end, and the second at the line feed. -/
  | seam {more : Bytes} {after : Scanner} (manner : μ = .outer (some more))
    (read : (s.extend μ.tail).next quoting = (.ok .eof, after))
    (read' : ((s.shift k).extend μ.tail').next quoting = (.ok .newline, ⟨k + s.limit + 1, more⟩))
  /-- The second scanner is at the parenthesis, and the first reads on behind the blank. -/
  | close {rest : Bytes} {close : Nat} {l : Lexeme} {after : Scanner} (manner : μ = .bridge rest close)
    (ended : s.pos = s.limit) (read : (s.extend μ.tail).next quoting = (.ok l, after))
    (further : (⟨s.limit + 1, rest⟩ : Scanner).next quoting = (.ok l, after))
    (read' : ((s.shift k).extend μ.tail').next quoting =
      (.ok .closeParen, ⟨k + s.limit + 1, Byte.blank :: rest⟩))
  /-- The lexeme of the first scanner goes on behind the piece. -/
  | past {rest : Bytes} {close : Nat} {l : Lexeme} {after : Scanner} (manner : μ = .bridge rest close)
    (begun : s.pos < s.limit) (read : (s.extend μ.tail).next quoting = (.ok l, after))
    (far : s.limit < after.pos)

theorem next_blank (pos : Nat) (rest : Bytes) (quoting : Quoting) :
    (⟨pos, Byte.blank :: rest⟩ : Scanner).next quoting = (⟨pos + 1, rest⟩ : Scanner).next quoting := by
  have length : blankLength false (Byte.blank :: rest) = blankLength false rest + 1 := by
    rw [blankLength.eq_def]
    rfl
  have skipped : (⟨pos, Byte.blank :: rest⟩ : Scanner).skipBlank = (⟨pos + 1, rest⟩ : Scanner).skipBlank := by
    simp only [skipBlank, skip, length, List.drop_succ_cons, Scanner.mk.injEq, and_true]
    omega
  rw [next, next, skipped]

theorem next_closeParen (pos : Nat) (rest : Bytes) (quoting : Quoting) :
    (⟨pos, Byte.closeParen :: rest⟩ : Scanner).next quoting = (.ok .closeParen, ⟨pos + 1, rest⟩) := by
  rw [next, skipBlank, blankLength.eq_def]
  rfl

/-- Where there is nothing behind the piece, the scanners read the same. -/
theorem sideBySide_of_nil (tail : μ.tail = []) (tail' : μ.tail' = []) (k : Nat) (quoting : Quoting)
    (s : Scanner) : SideBySide μ k quoting s := by
  have moved := next_shift quoting k s
  cases here : s.next quoting with
  | mk result after =>
    rw [here] at moved
    cases result with
    | ok l =>
      refine .same here ?_ ?_ fun _ => ⟨tail, tail'⟩
      · rw [tail, extend_nil, extend_nil]
        exact here
      · rw [tail', extend_nil, extend_nil]
        exact moved
    | error complaint =>
      have read : (s.extend μ.tail).next quoting = (.error complaint, after) := by
        rw [tail, extend_nil]
        exact here
      refine .complaint read fun _ => ⟨after.shift k, ?_⟩
      rw [tail', extend_nil]
      exact moved

theorem sideBySide (μ : Manner) (k : Nat) (quoting : Quoting) (s : Scanner) : SideBySide μ k quoting s := by
  have moved := next_shift quoting k s
  cases here : s.next quoting with
  | mk result after =>
    rw [here] at moved
    cases μ with
    | inner => exact sideBySide_of_nil rfl rfl k quoting s
    | outer more? =>
      cases more? with
      | none => exact sideBySide_of_nil rfl rfl k quoting s
      | some more =>
        have read : (s.extend []).next quoting = (result, after) := by
          rw [extend_nil]
          exact here
        cases result with
        | error complaint => exact .complaint read nofun
        | ok l =>
          by_cases hl : l = .eof
          · subst hl
            refine .seam rfl read ?_
            have feed := next_extend_eof moved more
            rw [limit_shift] at feed
            exact feed
          · refine .same here ?_ ?_ fun h => absurd h hl
            · exact read.trans (by rw [Manner.tail, extend_nil])
            · exact next_extend Byte.delimits_lineFeed moved (mt Lexeme.shift_eq_eof.mp hl) more
    | bridge rest close =>
      by_cases inside : ∃ l, result = .ok l ∧ l ≠ .eof
      · obtain ⟨l, rfl, hl⟩ := inside
        refine .same here ?_ ?_ fun h => absurd h hl
        · exact next_extend Byte.delimits_blank here hl rest
        · exact next_extend Byte.delimits_closeParen moved (mt Lexeme.shift_eq_eof.mp hl) (Byte.blank :: rest)
      · -- the lexeme is not one of the piece
        cases read : (s.extend (Byte.blank :: rest)).next quoting with
        | mk result₁ after₁ =>
          cases result₁ with
          | error complaint => exact .complaint read nofun
          | ok l₁ =>
            by_cases ended : s.rest = []
            · have limit : s.pos = s.limit := by simp [limit, ended]
              refine .close rfl limit read ?_ ?_
              · rw [← next_blank, ← read, extend, ended, ← limit]
                rfl
              · rw [← limit]
                change (⟨k + s.pos, s.rest ++ Byte.closeParen :: Byte.blank :: rest⟩ : Scanner).next
                  quoting = _
                rw [ended]
                exact next_closeParen (k + s.pos) (Byte.blank :: rest) quoting
            · refine .past rfl ?_ read (past_of_next (by decide) (fun l₀ after₀ h₀ => ?_) read)
              · have some := List.length_pos_iff.mpr ended
                simp only [limit]
                omega
              · rw [here] at h₀
                cases h₀
                exact Decidable.byContradiction fun hl => inside ⟨l₀, rfl, hl⟩

end Scanner

end Scriptlet
