import Scriptlet.Proofs.Moved.Lexing
import Scriptlet.Proofs.Moved.Ahead
import Scriptlet.Proofs.Moved.Relocation
import Scriptlet.Proofs.Twin.Reading

/-!
Two machines that read the same piece of text. The second has another text in a slot than the first, and
all that the first has of that slot is moved (`Relocation.Moved`). Where both have the same piece before
them, they read the same tokens (`Relocation.follow_advanceBy`).

What comes behind the piece may differ. Either the first machine is at its end when the second has a line
feed to read, or the first reads on when the second is at a parenthesis. So machines may be abreast in
three places: before the end of the piece, at the line feed, and at the parenthesis.

`Follow` says of two outcomes that the second is like the first, unless the first is `Manner.Apart`: it
has failed where the texts differ, or it has read on, past the place where the second has the parenthesis.
Then nothing is said of the second.
-/

namespace Scriptlet

open Text (Bytes lineFeed)
open Eval

variable {α β ι : Type} {μ : Manner} {m m' n n' : Machine}

/-! ### Apart -/

namespace Manner

/-- The pieces end in the same way, or with a line feed. -/
def Level (μ : Manner) : Prop := ∀ rest close, μ ≠ .bridge rest close

theorem level_inner : inner.Level := fun _ _ => nofun

theorem level_outer (more : Option Bytes) : (outer more).Level := fun _ _ => nofun

/-- The machine has read a token that is not the first one behind the piece. -/
def Astray (μ : Manner) (m : Machine) : Prop :=
  ∃ rest close, μ = .bridge rest close ∧ close < m.cursor.scanner.pos ∧ m.cursor.mark ≠ close

/-- What the machine has begun to read is not a token of the piece. -/
def Outside (μ : Manner) (m : Machine) : Prop :=
  ∃ rest close, μ = .bridge rest close ∧
    ¬ (m.cursor.mark < m.cursor.scanner.pos ∧ m.cursor.scanner.pos ≤ close)

/-- An outcome that need not be the same for the second machine. -/
inductive Apart (μ : Manner) : Outcome α → Prop
  | failed {more : Bytes} {e : Error} {n : Machine} (manner : μ = .outer (some more)) : Apart μ (.failed e n)
  | astray {o : Outcome α} (h : μ.Astray o.machine) : Apart μ o
  | refused {e : Error} {n : Machine} (kind : e.kind = .syntaxError ∨ e.kind = .unknownSymbol)
    (h : μ.Outside n) : Apart μ (.failed e n)
  | stalled {why : Stop} {n : Machine} (h : μ.Outside n) : Apart μ (.stopped why n)

theorem Astray.ahead (h : μ.Astray m) (on : Ahead m n) : μ.Astray n := by
  obtain ⟨rest, close, manner, pos, mark⟩ := h
  refine ⟨rest, close, manner, Nat.lt_of_lt_of_le pos on.pos, fun same => ?_⟩
  rcases on.mark with stays | further
  · exact mark (stays ▸ same)
  · omega

theorem Astray.of_cursor (h : μ.Astray m) (same : n.cursor = m.cursor) : μ.Astray n :=
  h.ahead (.of_cursor same)

theorem Outside.of_cursor (h : μ.Outside m) (same : n.cursor = m.cursor) : μ.Outside n := by
  unfold Outside at h ⊢
  rw [same]
  exact h

/-- Pieces that end in the same way leave no room. -/
theorem not_apart (level : μ.Level) (even : μ.tail' = []) {o : Outcome α} : ¬ μ.Apart o := by
  intro apart
  cases apart with
  | failed manner =>
    rw [manner] at even
    cases even
  | astray h =>
    obtain ⟨rest, close, manner, -⟩ := h
    exact level rest close manner
  | refused kind h =>
    obtain ⟨rest, close, manner, -⟩ := h
    exact level rest close manner
  | stalled h =>
    obtain ⟨rest, close, manner, -⟩ := h
    exact level rest close manner

theorem Apart.bind {x : Eval α} {f : α → Eval β} (h : μ.Apart (x m))
    (ahead : μ.Level ∨ ∀ a, Keeps Ahead (f a)) : μ.Apart ((x >>= f) m) := by
  rw [bind_apply]
  generalize x m = o at h
  cases h with
  | failed manner => exact .failed manner
  | refused kind h => exact .refused kind h
  | stalled h => exact .stalled h
  | astray h =>
    cases o with
    | done a n =>
      rcases ahead with level | ahead
      · obtain ⟨rest, close, manner, -⟩ := h
        exact absurd manner (level rest close)
      · exact .astray (h.ahead (ahead a n))
    | failed e n => exact .astray h
    | stopped why n => exact .astray h

theorem Apart.adjust {o : Outcome α} {g : Machine → Machine} (h : μ.Apart o)
    (same : ∀ n, (g n).cursor = n.cursor) : μ.Apart (o.adjust g) := by
  cases h with
  | failed manner => exact .failed manner
  | refused kind h => exact .refused kind (h.of_cursor (same _))
  | stalled h => exact .stalled (h.of_cursor (same _))
  | astray h =>
    refine .astray ?_
    rw [Outcome.machine_adjust]
    exact h.of_cursor (same _)

theorem Apart.adjustUndone {o : Outcome α} {g : Machine → Machine} (h : μ.Apart o)
    (same : ∀ n, (g n).cursor = n.cursor) : μ.Apart (o.adjustUndone g) := by
  cases h with
  | failed manner => exact .failed manner
  | refused kind h => exact .refused kind (h.of_cursor (same _))
  | stalled h => exact .stalled (h.of_cursor (same _))
  | astray h =>
    cases o with
    | done a n => exact .astray h
    | failed e n => exact .astray (h.of_cursor (same n))
    | stopped why n => exact .astray (h.of_cursor (same n))

theorem Apart.loop {turn : ι → Eval (Turn ι α)} {i : ι} (h : μ.Apart (turn i m))
    (ahead : μ.Level ∨ ∀ i, Keeps Ahead (turn i)) (passes : Nat) :
    μ.Apart (Eval.loop turn (passes + 1) i m) := by
  unfold Eval.loop
  generalize turn i m = o at h
  cases h with
  | failed manner => exact .failed manner
  | refused kind h => exact .refused kind h
  | stalled h => exact .stalled h
  | astray h =>
    cases o with
    | done t n =>
      cases t with
      | again i =>
        rcases ahead with level | ahead
        · obtain ⟨rest, close, manner, -⟩ := h
          exact absurd manner (level rest close)
        · exact .astray (h.ahead (ahead_track.loop ahead passes i n))
      | finish a => exact .astray h
    | failed e n => exact .astray h
    | stopped why n => exact .astray h

end Manner

/-! ### Outcomes -/

/-- Two outcomes. If both are done, they are related by `D`; if both fail, then with the same error, and the
machines are related by `F`. Where the first one is `A`, nothing is said of the second. -/
inductive Matched (A : Outcome α → Prop) (D : α → α → Machine → Machine → Prop)
    (F : Machine → Machine → Prop) : Outcome α → Outcome α → Prop
  | done {a a' : α} {n n' : Machine} (h : D a a' n n') : Matched A D F (.done a n) (.done a' n')
  | failed {e : Error} {n n' : Machine} (h : F n n') : Matched A D F (.failed e n) (.failed e n')
  | stopped {why : Stop} {n n' : Machine} : Matched A D F (.stopped why n) (.stopped why n')
  | apart {o o' : Outcome α} (h : A o) : Matched A D F o o'

namespace Relocation

variable (ρ : Relocation)

/-! ### Where machines read -/

/-- Where the slices of a piece may end. -/
def bound : Manner → Nat
  | .bridge _ _ => ρ.reach
  | .inner | .outer _ => ρ.high

def token : Token → Token
  | .name slice => .name (ρ.slice slice)
  | .text slice => .text (ρ.slice slice)
  | other => other

/-- Places at which an error would be told to be the same. -/
structure Spot (c c' : Cursor) : Prop where
  source : c'.source = c.source
  stop : c'.stop = ρ.offset c.source + c.stop
  mark : c'.mark = ρ.offset c.source + c.mark
  within : c.source = .text ρ.slot → ρ.low ≤ c.mark ∧ ρ.low ≤ c.stop ∧ c.stop ≤ ρ.high

/-- A piece of text that both cursors have before them, and behind it what the manner tells. Behind a
blank there is no quotation. -/
structure Piece (μ : Manner) (c c' : Cursor) (piece : Scanner) : Prop where
  here : c.scanner = piece.extend μ.tail
  there : c'.scanner = (piece.shift (ρ.offset c.source)).extend μ.tail'
  within : c.source = .text ρ.slot → ρ.low ≤ piece.pos ∧ piece.limit ≤ ρ.bound μ
  close : ∀ rest close, μ = .bridge rest close → piece.limit = close ∧
    ∀ place after, (⟨close + 1, rest⟩ : Scanner).next .argument ≠ (.ok (.quote place), after)

structure Cursors (μ : Manner) (c c' : Cursor) : Prop where
  source : c'.source = c.source
  piece : ∃ piece, ρ.Piece μ c c' piece
  spot : μ = .inner → ρ.Spot c c'

/-- How far two machines are, by their cursors and tokens. -/
inductive Place (μ : Manner) (c : Cursor) (t : Token) (c' : Cursor) (t' : Token) : Prop
  /-- Both machines have read the same token. It is not the end, if there is something behind the piece. -/
  | before (cursors : ρ.Cursors μ c c') (token : t' = ρ.token t)
    (within : ∀ {slice}, t.slice? = some slice → ρ.Within (ρ.bound μ) slice)
    (running : μ.tail' ≠ [] → t ≠ .eof)
    (begun : ∀ rest close, μ = .bridge rest close → c.mark < close ∧ c.scanner.pos ≤ close)
  /-- The first machine is at the end, and the second behind the line feed. -/
  | seam {more : Bytes} (manner : μ = .outer (some more)) (token : t = .eof) (token' : t' = .separator)
    (source : c'.source = c.source) (rest : c'.scanner.rest = more)
  /-- The first machine has read what is behind the blank, and the second the parenthesis. -/
  | close {rest : Bytes} {close : Nat} {l : Lexeme} (manner : μ = .bridge rest close)
    (token' : t' = .closeParen) (mark : c.mark = close) (far : close < c.scanner.pos)
    (read : (⟨close + 1, rest⟩ : Scanner).next .argument = (.ok l, c.scanner))
    (source : c'.source = c.source)
    (there : c'.scanner = ⟨ρ.offset c.source + close + 1, Byte.blank :: rest⟩)

/-- The second machine has the other text, and all slices of the first in their new place. -/
inductive Moved (m : Machine) : Machine → Prop
  | put (settled : ρ.Settled m) (cursor : Cursor) (token : Token) (history : History) :
    Moved m (ρ.put m cursor token history)

/-- Machines that have the same piece before them; their tokens may be anything. -/
structure Standing (μ : Manner) (m m' : Machine) : Prop where
  moved : ρ.Moved m m'
  cursors : ρ.Cursors μ m.cursor m'.cursor

structure Abreast (μ : Manner) (m m' : Machine) : Prop where
  moved : ρ.Moved m m'
  place : ρ.Place μ m.cursor m.token m'.cursor m'.token

/-- What is left of two machines that failed. -/
structure Fell (μ : Manner) (m m' : Machine) : Prop where
  moved : ρ.Moved m m'
  spot : μ = .inner → ρ.Spot m.cursor m'.cursor

variable {ρ}

theorem Standing.fell (h : ρ.Standing μ m m') : ρ.Fell μ m m' := ⟨h.moved, h.cursors.spot⟩

theorem Abreast.fell (h : ρ.Abreast μ m m') : ρ.Fell μ m m' := by
  refine ⟨h.moved, fun inner => ?_⟩
  cases h.place with
  | before cursors => exact cursors.spot inner
  | seam manner => cases inner.symm.trans manner
  | close manner => cases inner.symm.trans manner

variable (ρ) in
/-- What a part of a script does on two machines. -/
def Follow (μ : Manner) (Q : α → α → Machine → Machine → Prop) (o o' : Outcome α) : Prop :=
  Matched μ.Apart Q (ρ.Fell μ) o o'

namespace Follow

variable {Q : Post α} {P : Post β} {o o' : Outcome α}

theorem imp {Q' : Post α} (h : ρ.Follow μ Q o o')
    (hQ : ∀ {a a' n n'}, Q a a' n n' → Q' a a' n n') : ρ.Follow μ Q' o o' := by
  cases h with
  | done h => exact .done (hQ h)
  | failed h => exact .failed h
  | stopped => exact .stopped
  | apart h => exact .apart h

/-- Parts that follow one another. The second has to read on, if the first machine may be astray. -/
theorem bind {x x' : Eval α} {f f' : α → Eval β} (h : ρ.Follow μ Q (x m) (x' m'))
    (ahead : μ.Level ∨ ∀ a, Keeps Ahead (f a))
    (next : ∀ {a a' n n'}, Q a a' n n' → ρ.Follow μ P (f a n) (f' a' n')) :
    ρ.Follow μ P ((x >>= f) m) ((x' >>= f') m') := by
  by_cases apart : μ.Apart (x m)
  · exact .apart (apart.bind ahead)
  · rw [bind_apply, bind_apply]
    generalize x m = o at h apart
    generalize x' m' = o' at h
    cases h with
    | done h => exact next h
    | failed h => exact .failed h
    | stopped => exact .stopped
    | apart h => exact absurd h apart

theorem adjust {Q' : Post α} {g g' : Machine → Machine} (h : ρ.Follow μ Q o o')
    (same : ∀ n, (g n).cursor = n.cursor) (hQ : ∀ {a a' n n'}, Q a a' n n' → Q' a a' (g n) (g' n'))
    (hF : ∀ {n n'}, ρ.Fell μ n n' → ρ.Fell μ (g n) (g' n')) :
    ρ.Follow μ Q' (o.adjust g) (o'.adjust g') := by
  cases h with
  | done h => exact .done (hQ h)
  | failed h => exact .failed (hF h)
  | stopped => exact .stopped
  | apart h => exact .apart (h.adjust same)

theorem adjustUndone {g g' : Machine → Machine} (h : ρ.Follow μ Q o o')
    (same : ∀ n, (g n).cursor = n.cursor) (hF : ∀ {n n'}, ρ.Fell μ n n' → ρ.Fell μ (g n) (g' n')) :
    ρ.Follow μ Q (o.adjustUndone g) (o'.adjustUndone g') := by
  cases h with
  | done h => exact .done h
  | failed h => exact .failed (hF h)
  | stopped => exact .stopped
  | apart h => exact .apart (h.adjustUndone same)

/-- Loops that go round side by side, under an invariant. -/
theorem loop {turn turn' : ι → Eval (Turn ι α)} {I : ι → Machine → Machine → Prop}
    (ahead : μ.Level ∨ ∀ i, Keeps Ahead (turn i))
    (hturn : ∀ {i n n'}, I i n n' → ρ.Follow μ (Turns I Q) (turn i n) (turn' i n')) (passes : Nat) {i : ι}
    (hI : I i m m') : ρ.Follow μ Q (Eval.loop turn passes i m) (Eval.loop turn' passes i m') := by
  induction passes generalizing i m m' with
  | zero => exact .stopped
  | succ passes ih =>
    by_cases apart : μ.Apart (turn i m)
    · exact .apart (apart.loop ahead passes)
    · have step := hturn hI
      unfold Eval.loop
      generalize turn i m = o at step apart ⊢
      generalize turn' i m' = o' at step ⊢
      cases step with
      | done h =>
        cases h with
        | again hI => exact ih hI
        | finish h => exact .done h
      | failed h => exact .failed h
      | stopped => exact .stopped
      | apart h => exact absurd h apart

/-- What follows may make use of how the first computation was done. -/
theorem knowing (h : ρ.Follow μ Q o o') :
    ρ.Follow μ (fun a a' n n' => o = .done a n ∧ Q a a' n n') o o' := by
  cases h with
  | done h => exact .done ⟨rfl, h⟩
  | failed h => exact .failed h
  | stopped => exact .stopped
  | apart h => exact .apart h

/-- Where the first machine cannot be astray, what is done on it is done on the second. -/
theorem of_done (level : μ.Level) {a : α} (h : ρ.Follow μ Q (.done a n) o') :
    ∃ a' n', o' = .done a' n' ∧ Q a a' n n' := by
  cases h with
  | done h => exact ⟨_, _, rfl, h⟩
  | apart h =>
    cases h with
    | astray h =>
      obtain ⟨rest, close, manner, -⟩ := h
      exact absurd manner (level rest close)

end Follow

/-! ### Changes on both sides -/

theorem moved_of_eq (settled : ρ.Settled n) (same : n' = ρ.put n n'.cursor n'.token n'.history) :
    ρ.Moved n n' := same ▸ .put settled _ _ _

namespace Moved

variable (h : ρ.Moved m m')

include h

theorem settled : ρ.Settled m := by
  cases h with
  | put settled => exact settled

theorem quoting : m'.quoting = m.quoting := by
  cases h
  rfl

theorem literals : m'.literals = m.literals := by
  cases h
  rfl

theorem stack : m'.arena.stack = m.arena.stack := by
  cases h
  rfl

theorem duplicate : m'.duplicate = m.duplicate := by
  cases h
  rfl

theorem size_symbols : m'.arena.symbols.size = m.arena.symbols.size := by
  cases h
  exact Array.size_map

theorem symbols (i : Nat) : m'.arena.symbols[i]? = (m.arena.symbols[i]?).map ρ.symbol := by
  cases h
  exact symbols_put i

theorem store (source : Source) :
    m'.store source = if source = .text ρ.slot then ρ.new else m.store source := by
  cases h with
  | put settled => exact store_put settled source

theorem bytes (fits : ρ.Fits) {s : Slice} (within : ρ.Within ρ.reach s) :
    m'.bytes (ρ.slice s) = m.bytes s := by
  cases h with
  | put settled => exact bytes_put fits settled within

theorem index? (fits : ρ.Fits) (name : Bytes) : m'.index? name = m.index? name := by
  cases h with
  | put settled => exact index?_put fits settled name

theorem place (cursor cursor' : Cursor) (token token' : Token) :
    ρ.Moved { m with cursor, token } { m' with cursor := cursor', token := token' } := by
  cases h with
  | put settled => exact moved_of_eq (settled.of_arena rfl rfl) rfl

theorem withQuoting (quoting : Quoting) : ρ.Moved { m with quoting } { m' with quoting } := by
  cases h with
  | put settled => exact moved_of_eq (settled.of_arena rfl rfl) rfl

theorem withDuplicate (duplicate : Bool) : ρ.Moved { m with duplicate } { m' with duplicate } := by
  cases h with
  | put settled => exact moved_of_eq (settled.of_arena rfl rfl) rfl

theorem withLiterals (literals : Literals) : ρ.Moved { m with literals } { m' with literals } := by
  cases h with
  | put settled => exact moved_of_eq (settled.of_arena rfl rfl) rfl

theorem withResult (result : Word) : ρ.Moved { m with result } { m' with result } := by
  cases h with
  | put settled => exact moved_of_eq (settled.of_arena rfl rfl) rfl

theorem note : ρ.Moved m.note m'.note := by
  cases h with
  | put settled => exact moved_of_eq (settled.of_arena rfl rfl) rfl

theorem withAsked (asked : Nat) : ρ.Moved { m with asked } { m' with asked } := by
  cases h with
  | put settled => exact moved_of_eq (settled.of_arena rfl rfl) rfl

theorem withDepth (depth : Nat) : ρ.Moved { m with depth } { m' with depth } := by
  cases h with
  | put settled => exact moved_of_eq (settled.of_arena rfl rfl) rfl

theorem write (stream : Stream) (bytes : Bytes) : ρ.Moved (m.write stream bytes) (m'.write stream bytes) := by
  cases h with
  | put settled => exact moved_of_eq (settled.of_arena rfl rfl) rfl

theorem view (fits : ρ.Fits) : m'.view = m.view := by
  cases h with
  | put settled => exact view_put fits settled

theorem texts : m'.texts = ρ.texts m.texts := by
  cases h
  rfl

theorem withTexts {texts : Texts} (there : texts.text? ρ.slot = some ρ.old) :
    ρ.Moved (m.withTexts texts) (m'.withTexts (ρ.texts texts)) := by
  cases h with
  | put settled => exact moved_of_eq (settled.of_arena (there.trans settled.text.symm) rfl) rfl

theorem arena : m'.arena = ρ.arena m.arena := by
  cases h
  rfl

theorem withArena {arena : Arena Native} (settled : ρ.Settled (m.withArena arena)) :
    ρ.Moved (m.withArena arena) (m'.withArena (ρ.arena arena)) := by
  cases h
  exact moved_of_eq settled rfl

theorem withStack (stack : Array Word) :
    ρ.Moved (m.withArena { m.arena with stack }) (m'.withArena { m'.arena with stack }) := by
  have moved := h.withArena (h.settled.stack stack)
  rw [h.arena]
  exact moved

theorem rollback (count : Nat) :
    ρ.Moved (m.withArena (m.arena.rollback count)) (m'.withArena (m'.arena.rollback count)) := by
  have moved := h.withArena (h.settled.rollback count)
  rw [← rollback_arena, ← h.arena] at moved
  exact moved

end Moved

/-! ### Reading a token -/

theorem offset_of_within (source : Source) (place : Span) :
    Slice.ofSpan source (place.shift (ρ.offset source)) = ρ.slice (.ofSpan source place) :=
  (ρ.slice_ofSpan source place).symm

/-- What is made of a lexeme in the new place is what is made of it in the old one, in its new place. -/
theorem token_of_makes {l : Lexeme} {source : Source} {t t' : Token}
    (h : l.Makes source source 0 (ρ.offset source) t t') : t' = ρ.token t := by
  cases h with
  | bare bare => cases t <;> first | rfl | cases bare
  | name | text =>
    rw [offset_of_within, Span.shift_zero]
    rfl

/-- The same lexeme means the same to both machines. -/
theorem resolve_moved (fits : ρ.Fits) (h : ρ.Moved m m') (source : m'.cursor.source = m.cursor.source)
    (raw : Bool) (l : Lexeme) {stop : Nat} (reach : stop ≤ ρ.reach)
    (within : ∀ {place}, l.place? = some place → ρ.Within stop (.ofSpan m.cursor.source place)) :
    (∃ t literals, resolve raw l m = .done t { m with literals } ∧
      resolve raw (l.shift (ρ.offset m.cursor.source)) m' = .done (ρ.token t) { m' with literals } ∧
      (t = .eof → l = .eof) ∧ ∀ {slice}, t.slice? = some slice → ρ.Within stop slice) ∨
      resolve raw l m = .failed (.ofComplaint .unknownOperator) m ∧
        resolve raw (l.shift (ρ.offset m.cursor.source)) m' = .failed (.ofComplaint .unknownOperator) m' := by
  have bytes : ∀ {place}, l.place? = some place →
      m'.bytes (.ofSpan m'.cursor.source (place.shift (ρ.offset m.cursor.source))) =
        m.bytes (.ofSpan m.cursor.source (place.shift 0)) := fun {place} hplace => by
    rw [source, offset_of_within, Span.shift_zero]
    exact h.bytes fits ((within hplace).le ρ reach)
  have together := resolve_together h.quoting h.literals (h.index? fits) raw l 0 (ρ.offset m.cursor.source)
    bytes
  rw [Lexeme.shift_zero, source] at together
  rcases together with ⟨t, t', literals, made, resolved, resolved'⟩ | unknown
  · rw [token_of_makes made] at resolved'
    refine .inl ⟨t, literals, resolved, resolved', made.ended, fun {slice} hs => ?_⟩
    cases made with
    | bare bare => cases bare.symm.trans hs
    | name hspan | text hspan =>
      cases hs
      rw [Span.shift_zero]
      exact within hspan
  · exact .inr unknown

theorem bound_le (fits : ρ.Fits) (μ : Manner) : ρ.bound μ ≤ ρ.reach := by
  cases μ with
  | bridge => exact Nat.le_refl _
  | inner => exact fits.high
  | outer => exact fits.high

/-- Where reading a token begins, an error would be told to be at the same place. -/
theorem Spot.begin {c c' : Cursor} (h : ρ.Spot c c') {piece : Scanner} (p : ρ.Piece μ c c' piece)
    {after after' : Scanner} :
    ρ.Spot { c with scanner := after, mark := c.scanner.pos }
      { c' with scanner := after', mark := c'.scanner.pos } where
  source := h.source
  stop := h.stop
  mark := by
    rw [p.here, p.there]
    rfl
  within same := by
    have low := (p.within same).1
    rw [p.here]
    exact ⟨low, (h.within same).2⟩

theorem Piece.further {c c' : Cursor} {piece after : Scanner} (p : ρ.Piece μ c c' piece) {quoting : Quoting}
    {l : Lexeme} (read : piece.next quoting = (.ok l, after)) :
    ρ.Piece μ { c with scanner := after.extend μ.tail, mark := c.scanner.pos }
      { c' with scanner := (after.shift (ρ.offset c.source)).extend μ.tail', mark := c'.scanner.pos }
      after where
  here := rfl
  there := rfl
  within same := by
    obtain ⟨n, -, rfl⟩ := Scanner.further_next read
    rw [(Scanner.within_next read).limit]
    exact ⟨Nat.le_trans (p.within same).1 (Nat.le_add_right _ _), (p.within same).2⟩
  close rest close manner := by
    rw [(Scanner.within_next read).limit]
    exact p.close rest close manner

/-- A lexeme that is no quotation leaves the literals alone. -/
theorem resolve_unquoted (raw : Bool) {l : Lexeme} (unquoted : ∀ place, l ≠ .quote place) (m : Machine) :
    (∃ t, resolve raw l m = .done t m) ∨ resolve raw l m = .failed (.ofComplaint .unknownOperator) m := by
  cases l with
  | quote place => exact absurd rfl (unquoted place)
  | operator place =>
    simp only [resolve]
    split
    · exact .inl ⟨_, rfl⟩
    · exact .inr rfl
  | name place =>
    simp only [resolve]
    split
    · exact .inl ⟨_, rfl⟩
    · split <;> exact .inl ⟨_, rfl⟩
  | _ => exact .inl ⟨_, rfl⟩

/-- Where the lexeme is one of the piece, it has its place there. -/
theorem Piece.inside {c c' : Cursor} {piece after : Scanner} (p : ρ.Piece μ c c' piece) {quoting : Quoting}
    {l : Lexeme} (read : piece.next quoting = (.ok l, after)) {place : Span} (hplace : l.place? = some place) :
    ρ.Within (ρ.bound μ) (.ofSpan c.source place) := fun same => by
  obtain ⟨first, ordered, last⟩ := Scanner.place_next read hplace
  obtain ⟨low, high⟩ := p.within same
  refine ⟨Nat.le_trans low first, ?_⟩
  change place.start + (place.stop - place.start) ≤ _
  omega

/-- A lexeme of the piece ends where the piece does, or before. -/
theorem Piece.begun {c c' : Cursor} {piece after : Scanner} (p : ρ.Piece μ c c' piece) {quoting : Quoting}
    {l : Lexeme} (read : piece.next quoting = (.ok l, after)) (running : l = .eof → μ.tail' = [])
    {rest : Bytes} {close : Nat} (manner : μ = .bridge rest close) :
    piece.pos < close ∧ after.pos ≤ close := by
  subst manner
  have before := Scanner.pos_lt_of_next read fun eof => nomatch running eof
  have limit := (Scanner.within_next read).limit
  have close := (p.close rest close rfl).1
  rw [← close, ← limit]
  simp only [Scanner.limit] at limit ⊢
  refine ⟨?_, Nat.le_add_right _ _⟩
  omega

theorem follow_lexeme (fits : ρ.Fits) (raw : Bool) {l : Lexeme} (h : ρ.Standing μ m m')
    (within : ∀ {place}, l.place? = some place → ρ.Within (ρ.bound μ) (.ofSpan m.cursor.source place))
    (running : l = .eof → μ.tail' = [])
    (begun : ∀ rest close, μ = .bridge rest close → m.cursor.mark < close ∧ m.cursor.scanner.pos ≤ close) :
    ρ.Follow μ (fun (_ _ : Unit) n n' => ρ.Abreast μ n n')
      ((do let token ← resolve raw l; update fun m => { m with token } : Eval Unit) m)
      ((do
        let token ← resolve raw (l.shift (ρ.offset m.cursor.source))
        update fun m => { m with token } : Eval Unit) m') := by
  obtain ⟨moved, cursors⟩ := h
  rw [bind_apply, bind_apply]
  rcases resolve_moved fits moved cursors.source raw l (bound_le fits μ) within with
    ⟨t, literals, resolved, resolved', ended, inside⟩ | ⟨unknown, unknown'⟩
  · rw [resolved, resolved']
    refine .done ⟨?_, .before cursors rfl inside (fun tail eof => tail (running (ended eof))) begun⟩
    exact (moved.withLiterals literals).place _ _ t (ρ.token t)
  · rw [unknown, unknown']
    exact .failed ⟨moved, cursors.spot⟩

/-- Two machines read the next token. -/
theorem follow_advanceBy (fits : ρ.Fits) (raw : Bool) (h : ρ.Standing μ m m') :
    ρ.Follow μ (fun _ _ n n' => ρ.Abreast μ n n') (advanceBy raw m) (advanceBy raw m') := by
  obtain ⟨moved, source, ⟨piece, p⟩, spot⟩ := h
  have begun : ∀ after after', μ = .inner →
      ρ.Spot { m.cursor with scanner := after, mark := m.cursor.scanner.pos }
        { m'.cursor with scanner := after', mark := m'.cursor.scanner.pos } := fun after after' inner =>
    (spot inner).begin p
  have pos : m.cursor.scanner.pos = piece.pos := by
    rw [p.here]
    rfl
  unfold advanceBy
  rw [bind_apply, bind_apply]
  cases Scanner.sideBySide μ (ρ.offset m.cursor.source) m.quoting piece with
  | @same l after here read read' running =>
    rw [← p.here] at read
    rw [← p.there, ← moved.quoting] at read'
    rw [readLexeme_of_ok read, readLexeme_of_ok read']
    have core := moved.place { m.cursor with scanner := after.extend μ.tail, mark := m.cursor.scanner.pos }
      { m'.cursor with scanner := (after.shift (ρ.offset m.cursor.source)).extend μ.tail',
                       mark := m'.cursor.scanner.pos } m.token m'.token
    refine follow_lexeme fits raw ⟨core, source, ⟨after, p.further here⟩, begun _ _⟩ (p.inside here)
      (fun eof => (running eof).2) fun rest close manner => ?_
    have inside := p.begun here (fun eof => (running eof).2) manner
    rw [← pos] at inside
    exact inside
  | @complaint complaint after read read' =>
    rw [← p.here] at read
    rw [readLexeme_of_error read]
    have both : μ.tail' = [] → ρ.Follow μ (fun (_ _ : Unit) n n' => ρ.Abreast μ n n')
        (.failed (.ofComplaint complaint) { m with cursor := { m.cursor with mark := m.cursor.scanner.pos } })
        ((readLexeme m').andThen fun lexeme => (do
          let token ← resolve raw lexeme
          update fun m => { m with token } : Eval Unit)) := by
      intro none
      obtain ⟨after', read'⟩ := read' none
      rw [← p.there, ← moved.quoting] at read'
      rw [readLexeme_of_error read']
      exact .failed ⟨moved.place _ _ m.token m'.token, begun _ _⟩
    cases μ with
    | inner => exact both rfl
    | outer more? =>
      cases more? with
      | none => exact both rfl
      | some more => exact .apart (.failed rfl)
    | bridge rest close =>
      refine .apart (.refused (.inl rfl) ⟨rest, close, rfl, fun inside => ?_⟩)
      exact Nat.lt_irrefl _ inside.1
  | @seam more after manner read read' =>
    rw [← p.here] at read
    rw [← p.there, ← moved.quoting] at read'
    rw [readLexeme_of_ok read, readLexeme_of_ok read']
    exact .done ⟨moved.place _ _ .eof .separator, .seam manner rfl rfl source rfl⟩
  | @close rest close l after manner ended read further read' =>
    subst manner
    rw [← p.here] at read
    rw [← p.there, ← moved.quoting] at read'
    rw [readLexeme_of_ok read, readLexeme_of_ok read']
    obtain ⟨rfl, unquoted⟩ := p.close rest close rfl
    have argument := Scanner.next_argument further
    have far : piece.limit < after.pos := by
      obtain ⟨n, -, rfl⟩ := Scanner.further_next further
      exact Nat.lt_of_lt_of_le (Nat.lt_succ_self _) (Nat.le_add_right _ _)
    have core := moved.place { m.cursor with scanner := after, mark := m.cursor.scanner.pos }
      { m'.cursor with scanner := ⟨ρ.offset m.cursor.source + piece.limit + 1, Byte.blank :: rest⟩,
                       mark := m'.cursor.scanner.pos }
    dsimp only [Outcome.andThen]
    rw [bind_apply, bind_apply]
    rcases resolve_unquoted raw (fun place quote => unquoted place after (quote ▸ argument))
      { m with cursor := { m.cursor with scanner := after, mark := m.cursor.scanner.pos } } with
      ⟨t, resolved⟩ | unknown
    · rw [resolved]
      exact .done ⟨core t .closeParen, .close rfl rfl (pos.trans ended) far argument source rfl⟩
    · rw [unknown]
      exact .apart (.refused (.inl rfl) ⟨rest, _, rfl, fun inside => absurd inside.2 (Nat.not_le_of_lt far)⟩)
  | @past rest close l after manner before read far =>
    subst manner
    rw [← p.here] at read
    rw [readLexeme_of_ok read]
    obtain ⟨rfl, -⟩ := p.close rest close rfl
    have astray : Manner.Astray (.bridge rest piece.limit)
        { m with cursor := { m.cursor with scanner := after, mark := m.cursor.scanner.pos } } :=
      ⟨rest, _, rfl, far, by rw [pos]; exact Nat.ne_of_lt before⟩
    exact .apart (.astray (astray.ahead (ahead_resolve raw l _)))

end Relocation

end Scriptlet
