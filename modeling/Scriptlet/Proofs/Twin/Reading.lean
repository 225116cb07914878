import Scriptlet.Proofs.Moved.Lexing
import Scriptlet.Proofs.Twin.Machines

/-!
Two machines that read the same. They stand at the same place of the same text, wherever each has it,
and so they read the same tokens (`agree_advanceBy`).

On some terms the second text goes on with a line feed where the first one ends. The machines then read
the same until the first is at its end; there the second has a separator for its token. Almost nothing
tells the end from a separator: only a sequence of statements does, which is over at the one and goes
on behind the other. So the machines may be `Abreast` at this seam too. On these terms no failure of
the first machine is of interest.

`Agree` is what is shown of every part of a script: from machines that read the same, it does the same
and leaves them related as told, each a step further in its own text.
-/

namespace Scriptlet

open Text (Bytes lineFeed)
open Eval

/-! ### Terms -/

/-- On what terms two machines run side by side: whether they have the same room, and what the text of
the second has behind a line feed where the text of the first ends, if it goes on. -/
structure Terms where
  strict : Bool
  more : Option Bytes

namespace Terms

def tail (σ : Terms) : Bytes :=
  match σ.more with
  | some more => lineFeed :: more
  | none => []

/-- The first machine may run out of memory in lenient company, and fail in any way if the texts are
not the same. -/
def Excuses (σ : Terms) (e : Error) : Prop := σ.more.isSome = true ∨ Scarce σ.strict e

end Terms

variable {α β : Type} {σ : Terms} {strict : Bool} {x x' y y' : Memory} {m m' n n' k k' : Machine}

/-! ### Pieces of a text -/

theorem Memory.sight_ofSpan (strict : Bool) {source : Source} {p stop : Nat} {rest : Bytes} {place : Span}
    (hrest : rest = x.window source p stop) (bound : p + rest.length ≤ stop)
    (limit : p + rest.length ≤ (x.store source).size) (ordered : place.start ≤ place.stop)
    (inside : place.stop ≤ rest.length) :
    x.sight strict (.ofSpan source (place.shift p)) =
      ⟨(rest.take place.stop).drop place.start, true, strict && source.isText⟩ := by
  have ends : (Slice.ofSpan source (place.shift p)).stop = p + place.stop := by
    simp only [Slice.stop, Slice.ofSpan, Span.shift]
    omega
  have here : x.window source (p + place.start) (p + place.stop) =
      (rest.take place.stop).drop place.start := by
    rw [hrest, Memory.window, Memory.window, List.take_drop, List.take_take, List.drop_drop,
      Nat.min_eq_left (by omega)]
  simp only [Memory.sight, ends]
  rw [show (Slice.ofSpan source (place.shift p)).start = p + place.start from rfl,
    show (Slice.ofSpan source (place.shift p)).source = source from rfl, here]
  rw [decide_eq_true (by omega : p + place.stop ≤ (x.store source).size)]

/-! ### Cursors -/

theorem Memory.Holds.of_stop {slice slice' : Slice} (h : x.Holds slice)
    (source : slice'.source = slice.source) (stop : slice'.stop = slice.stop) : x.Holds slice' := by
  unfold Memory.Holds at h ⊢
  rw [source, stop]
  exact h

namespace Cursor

/-- What an error would quote: from the current token to the end of the body. -/
def ahead (c : Cursor) : Slice := ⟨c.source, min c.mark c.stop, c.stop - min c.mark c.stop⟩

theorem stop_ahead (c : Cursor) : c.ahead.stop = c.stop := by
  simp only [Slice.stop, ahead]
  omega

/-- A cursor whose body is held, and which has all of it before it that is left. -/
structure Open (x : Memory) (c : Cursor) : Prop where
  held : x.Holds c.ahead
  rest : c.scanner.rest = x.window c.source c.scanner.pos c.stop
  limit : c.scanner.limit ≤ c.stop
  mark : c.mark ≤ c.scanner.pos

theorem Open.mark_le {c : Cursor} (h : c.Open x) : c.mark ≤ c.stop := by
  have mark := h.mark
  have limit := h.limit
  simp only [Scanner.limit] at limit
  omega

theorem Open.sight_ahead {c : Cursor} (h : c.Open x) :
    x.sight strict c.ahead = ⟨x.window c.source c.mark c.stop,
      decide (c.stop ≤ (x.store c.source).size), strict && c.source.isText⟩ := by
  have start : c.ahead.start = c.mark := Nat.min_eq_left h.mark_le
  simp only [Memory.sight, stop_ahead, start]
  rfl

theorem Open.grows {c : Cursor} (h : c.Open x) (g : x.Grows y) : c.Open y where
  held := g.holds h.held
  rest := by
    have same := g.window h.held c.scanner.pos
    rw [stop_ahead] at same
    rw [h.rest]
    exact same.symm
  limit := h.limit
  mark := h.mark

theorem Open.further {c : Cursor} (h : c.Open x) {after : Scanner} (further : c.scanner.Further after) :
    Open x { c with scanner := after, mark := c.scanner.pos } := by
  obtain ⟨count, hcount, rfl⟩ := further
  have limit := h.limit
  have pos_le : c.scanner.pos ≤ c.stop := by
    simp only [Scanner.limit] at limit
    omega
  refine ⟨h.held.of_stop rfl ?_, ?_, ?_, ?_⟩
  · rw [stop_ahead, stop_ahead]
  · simp only [Scanner.rest_skip, Scanner.pos_skip, h.rest, Memory.drop_window]
  · change (c.scanner.skip count).limit ≤ c.stop
    rw [Scanner.limit_skip hcount]
    exact limit
  · exact Nat.le_add_right _ _

structure Abreast (σ : Terms) (x x' : Memory) (c c' : Cursor) : Prop where
  fore : c.Open x
  fore' : c'.Open x'
  rest : c'.scanner.rest = c.scanner.rest ++ σ.tail
  spot : σ.more = none → x'.sight σ.strict c'.ahead = x.sight σ.strict c.ahead
  inText : σ.strict = true → c'.source.isText = c.source.isText
  whole : σ.more ≠ none → c'.stop ≤ (x'.store c'.source).size

theorem Abreast.grows {c c' : Cursor} (h : Abreast σ x x' c c') (g : x.Grows y) (g' : x'.Grows y') :
    Abreast σ y y' c c' where
  fore := h.fore.grows g
  fore' := h.fore'.grows g'
  rest := h.rest
  spot same := by rw [g.sight h.fore.held, g'.sight h.fore'.held, h.spot same]
  inText := h.inText
  whole goesOn := Nat.le_trans (h.whole goesOn) (g'.size_store_le _)

/-- Where reading a token begins, both cursors have the same before them. -/
theorem Abreast.marked {c c' : Cursor} (h : Abreast σ x x' c c') (same : σ.more = none)
    {after after' : Scanner} (further : c.scanner.Further after) (further' : c'.scanner.Further after') :
    x'.sight σ.strict (ahead { c' with scanner := after', mark := c'.scanner.pos }) =
      x.sight σ.strict (ahead { c with scanner := after, mark := c.scanner.pos }) := by
  have spot := h.spot same
  rw [h.fore.sight_ahead, h.fore'.sight_ahead] at spot
  rw [(h.fore.further further).sight_ahead, (h.fore'.further further').sight_ahead]
  have rest := h.rest
  rw [Terms.tail, same, List.append_nil, h.fore.rest, h.fore'.rest] at rest
  simp only [Sight.mk.injEq] at spot ⊢
  exact ⟨rest, spot.2⟩

end Cursor

/-! ### Tokens -/

/-- The same token, where names and texts are slices that look the same. -/
inductive Token.Alike (strict : Bool) (x x' : Memory) : Token → Token → Prop where
  | same {t : Token} (h : t.slice? = none) : Alike strict x x' t t
  | name {slice slice' : Slice} (h : x'.sight strict slice' = x.sight strict slice) :
    Alike strict x x' (.name slice) (.name slice')
  | text {slice slice' : Slice} (h : x'.sight strict slice' = x.sight strict slice) :
    Alike strict x x' (.text slice) (.text slice')

/-! ### Machines that read -/

/-- Level machines that are reading. -/
structure Alongside (σ : Terms) (m m' : Machine) : Prop extends Core σ.strict m m' where
  placed : Placed m
  placed' : Placed m'
  duplicate : σ.strict = true → m'.duplicate = m.duplicate

structure Standing (σ : Terms) (m m' : Machine) : Prop extends Alongside σ m m' where
  cursors : Cursor.Abreast σ m.memory m'.memory m.cursor m'.cursor

/-- The second machine is at the line feed where the text of the first has ended. -/
structure AtSeam (σ : Terms) (m m' : Machine) : Prop where
  token : m.token = .eof
  token' : m'.token = .separator
  rest : ∃ more, σ.more = some more ∧ m'.cursor.scanner.rest = more
  fore' : m'.cursor.Open m'.memory
  inText : σ.strict = true → m'.cursor.source.isText = m.cursor.source.isText
  whole' : m'.cursor.stop ≤ (m'.memory.store m'.cursor.source).size

/-- The first machine is not at the end yet, or there is no difference in the texts. -/
structure BeforeSeam (σ : Terms) (m m' : Machine) : Prop where
  cursors : Cursor.Abreast σ m.memory m'.memory m.cursor m'.cursor
  tokens : m.token.Alike σ.strict m.memory m'.memory m'.token
  ended : m.token = .eof → σ.more = none

structure Abreast (σ : Terms) (m m' : Machine) : Prop extends Alongside σ m m' where
  place : BeforeSeam σ m m' ∨ AtSeam σ m m'

/-- What is left of two machines that failed: where the texts are the same, an error would quote the
same. -/
structure Fell (σ : Terms) (m m' : Machine) : Prop extends Core σ.strict m m' where
  spot : σ.more = none → m'.memory.sight σ.strict m'.cursor.ahead = m.memory.sight σ.strict m.cursor.ahead

theorem Standing.fell (h : Standing σ m m') : Fell σ m m' := ⟨h.toCore, h.cursors.spot⟩

theorem Abreast.fell (h : Abreast σ m m') : Fell σ m m' := by
  refine ⟨h.toCore, fun same => ?_⟩
  rcases h.place with before | seam
  · exact before.cursors.spot same
  · obtain ⟨more, hmore, -⟩ := seam.rest
    rw [same] at hmore
    cases hmore

/-- The end of the first text is all that keeps machines from going on together. -/
theorem Abreast.standing (h : Abreast σ m m') (htoken : m.token ≠ .eof) : Standing σ m m' := by
  rcases h.place with before | seam
  · exact ⟨h.toAlongside, before.cursors⟩
  · exact absurd seam.token htoken

/-! ### Steps further -/

/-- Each machine has gone on in its own text. -/
structure Since (m m' n n' : Machine) : Prop where
  after : After true m n
  after' : After true m' n'

theorem Alongside.since (h : Alongside σ m m') : Since m m' m m' :=
  ⟨(inner_track true).refl m h.sound h.placed, (inner_track true).refl m' h.sound' h.placed'⟩

theorem Since.trans (h : Since m m' n n') (l : Since n n' k k') : Since m m' k k' :=
  ⟨h.after.trans l.after, h.after'.trans l.after'⟩

theorem Alongside.next (h : Alongside σ m m') (core : Core σ.strict n n') (since : Since m m' n n') :
    Alongside σ n n' where
  toCore := core
  placed := since.after.placed
  placed' := since.after'.placed
  duplicate hstrict := by rw [since.after.duplicate, since.after'.duplicate, h.duplicate hstrict]

theorem Standing.next (h : Standing σ m m') (core : Core σ.strict n n') (since : Since m m' n n')
    (hc : n.cursor = m.cursor) (hc' : n'.cursor = m'.cursor) : Standing σ n n' := by
  refine ⟨h.toAlongside.next core since, ?_⟩
  rw [hc, hc']
  exact h.cursors.grows since.after.grows since.after'.grows

theorem Token.Alike.grows {t t' : Token} (h : t.Alike strict m.memory m'.memory t')
    (g : Grows m n) (g' : Grows m' n') (held : ∀ {slice}, t.slice? = some slice → m.memory.Holds slice)
    (held' : ∀ {slice}, t'.slice? = some slice → m'.memory.Holds slice) :
    t.Alike strict n.memory n'.memory t' := by
  cases h with
  | same h => exact .same h
  | name h => exact .name (by rw [g.sight (held rfl), g'.sight (held' rfl), h])
  | text h => exact .text (by rw [g.sight (held rfl), g'.sight (held' rfl), h])

/-- The token of a machine that reads what is held is held too. -/
theorem Placed.holds (h : Placed m) (fore : m.cursor.Open m.memory) {slice : Slice}
    (ht : m.token.slice? = some slice) : m.memory.Holds slice := by
  obtain ⟨source, pos, stop⟩ := h.token ht
  have held := fore.held
  unfold Memory.Holds at held ⊢
  rw [show m.cursor.ahead.source = m.cursor.source from rfl] at held
  rw [source]
  cases hsource : m.cursor.source with
  | fixed bytes => trivial
  | durable =>
    rw [hsource] at stop
    exact stop
  | text slot =>
    rw [hsource] at held
    exact held

theorem Abreast.next (h : Abreast σ m m') (core : Core σ.strict n n') (since : Since m m' n n')
    (hc : n.cursor = m.cursor) (hc' : n'.cursor = m'.cursor) (ht : n.token = m.token)
    (ht' : n'.token = m'.token) : Abreast σ n n' := by
  refine ⟨h.toAlongside.next core since, ?_⟩
  have g := since.after.grows
  have g' := since.after'.grows
  rcases h.place with before | seam
  · left
    refine ⟨?_, ?_, ?_⟩
    · rw [hc, hc']
      exact before.cursors.grows g g'
    · rw [ht, ht']
      exact before.tokens.grows g g' (fun hs => h.placed.holds before.cursors.fore hs)
        fun hs => h.placed'.holds before.cursors.fore' hs
    · rw [ht]
      exact before.ended
  · right
    exact ⟨ht.trans seam.token, ht'.trans seam.token', by rw [hc']; exact seam.rest,
      by rw [hc']; exact seam.fore'.grows g', by rw [hc, hc']; exact seam.inText,
      by rw [hc']; exact Nat.le_trans seam.whole' (g'.size_store_le _)⟩

/-- What a part of a script does on two machines. -/
def Agree (σ : Terms) (Q : α → α → Machine → Machine → Prop) (m m' : Machine) (o o' : Outcome α) : Prop :=
  Paired σ.Excuses (Scarce σ.strict) (fun a a' n n' => Since m m' n n' ∧ Q a a' n n') (Fell σ) o o'

namespace Agree

variable {Q : Post α} {P : Post β}

theorem bind {f f' : α → Eval β} {x x' : Eval α} (h : Agree σ Q m m' (x m) (x' m'))
    (next : ∀ {a a' n n'}, Since m m' n n' → Q a a' n n' → Agree σ P n n' (f a n) (f' a' n')) :
    Agree σ P m m' ((x >>= f) m) ((x' >>= f') m') := by
  refine Paired.bind h fun {a a' n n'} ⟨since, hQ⟩ => ?_
  exact Paired.imp (next since hQ) (fun _ he => he) (fun _ he => he)
    (fun _ _ ⟨later, hP⟩ => ⟨since.trans later, hP⟩) fun _ _ h => h

theorem imp {Q' : Post α} {o o' : Outcome α} (h : Agree σ Q m m' o o')
    (hQ : ∀ {a a' n n'}, Since m m' n n' → Q a a' n n' → Q' a a' n n') : Agree σ Q' m m' o o' :=
  Paired.imp h (fun _ he => he) (fun _ he => he) (fun _ _ ⟨since, q⟩ => ⟨since, hQ since q⟩)
    fun _ _ h => h

theorem fail (h : Fell σ m m') (e : Error) :
    Agree σ Q m m' ((Eval.fail e : Eval α) m) ((Eval.fail e : Eval α) m') := .failed (.refl e) h

theorem allocate {f f' : Arena Native → Option (α × Arena Native)} (fell : Fell σ m m')
    (together : σ.strict = true → ((f m.arena).isSome ↔ (f' m'.arena).isSome))
    (hQ : ∀ {a a' arena arena'}, f m.arena = some (a, arena) → f' m'.arena = some (a', arena') →
      Since m m' (m.withArena arena) (m'.withArena arena') ∧
        Q a a' (m.withArena arena) (m'.withArena arena')) :
    Agree σ Q m m' (Eval.allocate f m) (Eval.allocate f' m') :=
  paired_allocate (fun _ he => .inr he) (fun _ he => he) together fell hQ

end Agree

/-! ### Reading a token -/

/-- What two scanners read that have the same before them, up to the end of the first text. -/
inductive Lexing (σ : Terms) (quoting : Quoting) (s s' : Scanner) : Prop where
  /-- Both scanners read the same lexeme, each at its own place. -/
  | same {l : Lexeme} {after : Scanner} (read : s.next quoting = (.ok (l.shift s.pos), after))
    {after' : Scanner} (read' : s'.next quoting = (.ok (l.shift s'.pos), after'))
    (rest : after'.rest = after.rest ++ σ.tail)
    (place : ∀ {place}, l.place? = some place → place.start ≤ place.stop ∧ place.stop ≤ s.rest.length)
    (ended : l = .eof → σ.more = none)
  /-- The first scanner is at the end of its text, and the second reads the line feed behind it. -/
  | seam {more : Bytes} (hmore : σ.more = some more) {after : Scanner}
    (read : s.next quoting = (.ok .eof, after)) {pos : Nat}
    (read' : s'.next quoting = (.ok .newline, ⟨pos, more⟩))
  /-- The first scanner has to complain, and so has the second, unless its text goes on. -/
  | failed {complaint : Complaint} {after : Scanner} (read : s.next quoting = (.error complaint, after))
    (read' : σ.more = none → ∃ after', s'.next quoting = (.error complaint, after'))

theorem lexing (σ : Terms) (quoting : Quoting) {s s' : Scanner} (h : s'.rest = s.rest ++ σ.tail) :
    Lexing σ quoting s s' := by
  -- both read what a scanner reads at the start of the first text
  have read := Scanner.next_shift quoting s.pos ⟨0, s.rest⟩
  rw [show Scanner.shift s.pos ⟨0, s.rest⟩ = s from rfl] at read
  have tail' : (Manner.outer σ.more).tail' = σ.tail := by
    unfold Terms.tail Manner.tail'
    cases σ.more <;> rfl
  have second : (Scanner.shift s'.pos ⟨0, s.rest⟩).extend (Manner.outer σ.more).tail' = s' := by
    rw [tail']
    exact congrArg (Scanner.mk s'.pos) h.symm
  have side := Scanner.sideBySide (.outer σ.more) s'.pos quoting ⟨0, s.rest⟩
  cases side with
  | @same l after here _ read' running =>
    rw [here] at read
    rw [second] at read'
    refine .same read read' (congrArg (after.rest ++ ·) tail') (fun {place} hplace => ?_) fun eof => ?_
    · obtain ⟨-, ordered, inside⟩ := Scanner.place_next here hplace
      rw [Scanner.limit, Nat.zero_add] at inside
      exact ⟨ordered, inside⟩
    · have none := tail' ▸ (running eof).2
      unfold Terms.tail at none
      cases more : σ.more with
      | none => rfl
      | some bytes =>
        rw [more] at none
        cases none
  | @complaint complaint after here read' =>
    rw [Manner.tail, Scanner.extend_nil] at here
    rw [here] at read
    refine .failed read fun same => ?_
    rw [second] at read'
    exact read' (by rw [tail', Terms.tail, same])
  | @seam more after manner here read' =>
    rw [Manner.tail, Scanner.extend_nil] at here
    rw [here] at read
    rw [second] at read'
    cases hmore : σ.more with
    | none =>
      rw [hmore] at manner
      cases manner
    | some bytes =>
      rw [hmore] at manner
      cases manner
      exact .seam hmore read read'
  | close manner => cases manner
  | past manner => cases manner

theorem resolve_quote (raw : Bool) (inside : Span) (m : Machine) :
    resolve raw (.quote inside) m =
      if m.quoting = .plain then .done (.text (.ofSpan m.cursor.source inside)) m
      else .done .literal { m with
        literals := m.literals.push (Text.decode (m.bytes (.ofSpan m.cursor.source inside))) } := by
  unfold resolve
  dsimp only
  split <;> simp [*]

/-- The tokens that are made of a lexeme in two places. They are the same, or each is where the lexeme is. -/
inductive Lexeme.Makes (l : Lexeme) (source source' : Source) (p p' : Nat) : Token → Token → Prop
  | bare {t : Token} (bare : t.slice? = none) (ended : t = .eof → l = .eof) : Makes l source source' p p' t t
  | name {span : Span} (hspan : l.place? = some span) : Makes l source source' p p'
    (.name (.ofSpan source (span.shift p))) (.name (.ofSpan source' (span.shift p')))
  | text {span : Span} (hspan : l.place? = some span) : Makes l source source' p p'
    (.text (.ofSpan source (span.shift p))) (.text (.ofSpan source' (span.shift p')))

theorem Lexeme.Makes.ended {l : Lexeme} {source source' : Source} {p p' : Nat} {t t' : Token}
    (h : l.Makes source source' p p' t t') (eof : t = .eof) : l = .eof := by
  cases h with
  | bare _ ended => exact ended eof
  | name | text => cases eof

/-- Two machines make the same of a lexeme, if its bytes are the same on both, and names and quotations mean
the same to them. Where the one meets an operator that it does not know, so does the other. -/
theorem resolve_together (quoting : m'.quoting = m.quoting) (literals : m'.literals = m.literals)
    (index? : ∀ name, m'.index? name = m.index? name) (raw : Bool) (l : Lexeme) (p p' : Nat)
    (bytes : ∀ {span}, l.place? = some span →
      m'.bytes (.ofSpan m'.cursor.source (span.shift p')) = m.bytes (.ofSpan m.cursor.source (span.shift p))) :
    (∃ t t' literals, l.Makes m.cursor.source m'.cursor.source p p' t t' ∧
      resolve raw (l.shift p) m = .done t { m with literals } ∧
      resolve raw (l.shift p') m' = .done t' { m' with literals }) ∨
    resolve raw (l.shift p) m = .failed (.ofComplaint .unknownOperator) m ∧
      resolve raw (l.shift p') m' = .failed (.ofComplaint .unknownOperator) m' := by
  -- most tokens leave the literals alone
  have still : ∀ {t t' : Token}, l.Makes m.cursor.source m'.cursor.source p p' t t' →
      ∃ u u' literals, l.Makes m.cursor.source m'.cursor.source p p' u u' ∧
        (Outcome.done t m : Outcome Token) = .done u { m with literals } ∧
        (Outcome.done t' m' : Outcome Token) = .done u' { m' with literals } :=
    fun {t t'} makes => ⟨t, t', m.literals, makes, rfl, by rw [← literals]⟩
  cases l with
  | name span =>
    simp only [Lexeme.shift, resolve, index?, bytes rfl]
    cases raw with
    | true => exact .inl (still (.name rfl))
    | false =>
      cases m.index? (m.bytes (.ofSpan m.cursor.source (span.shift p))) with
      | none => exact .inl (still (.name rfl))
      | some index => exact .inl (still (t := .symbol index) (.bare rfl (by simp)))
  | operator span =>
    simp only [Lexeme.shift, resolve, index?, bytes rfl]
    cases m.index? (m.bytes (.ofSpan m.cursor.source (span.shift p))) with
    | none => exact .inr ⟨rfl, rfl⟩
    | some index => exact .inl (still (t := .symbol index) (.bare rfl (by simp)))
  | block inside => exact .inl (still (.text rfl))
  | quote inside =>
    simp only [Lexeme.shift, resolve_quote]
    by_cases plain : m.quoting = .plain
    · rw [if_pos plain, if_pos (quoting.trans plain)]
      exact .inl (still (.text rfl))
    · rw [if_neg plain, if_neg (quoting.symm ▸ plain), literals, bytes rfl]
      exact .inl ⟨.literal, .literal, _, .bare rfl (by simp), rfl, rfl⟩
  | number value => exact .inl (still (t := .number value) (.bare rfl (by simp)))
  | eof => exact .inl (still (t := .eof) (.bare rfl fun _ => rfl))
  | newline | semicolon => exact .inl (still (t := .separator) (.bare rfl (by simp)))
  | comma => exact .inl (still (t := .comma) (.bare rfl (by simp)))
  | openParen => exact .inl (still (t := .openParen) (.bare rfl (by simp)))
  | closeParen => exact .inl (still (t := .closeParen) (.bare rfl (by simp)))

/-- Where the lexeme looks the same in both places, so do the tokens that are made of it. -/
theorem Lexeme.Makes.alike {l : Lexeme} {source source' : Source} {p p' : Nat} {t t' : Token}
    (h : l.Makes source source' p p' t t')
    (sights : ∀ {span}, l.place? = some span →
      x'.sight strict (.ofSpan source' (span.shift p')) = x.sight strict (.ofSpan source (span.shift p))) :
    t.Alike strict x x' t' := by
  cases h with
  | bare bare => exact .same bare
  | name hspan => exact .name (sights hspan)
  | text hspan => exact .text (sights hspan)

/-- Two machines read the next token. -/
theorem agree_advanceBy (raw : Bool) (h : Standing σ m m') :
    Agree σ (fun _ _ n n' => Abreast σ n n') m m' (advanceBy raw m) (advanceBy raw m') := by
  have after := inner_advanceBy raw m h.sound h.placed
  have after' := inner_advanceBy raw m' h.sound' h.placed'
  unfold advanceBy at after after' ⊢
  rw [bind_apply] at after after' ⊢
  rw [bind_apply]
  have inText := h.cursors.inText
  cases lexing σ m.quoting h.cursors.rest with
  | @failed complaint after₁ read read' =>
    rw [readLexeme_of_error read]
    cases hmore : σ.more with
    | some more => exact .excused (.inl (by rw [hmore]; rfl))
    | none =>
      obtain ⟨after₁', read'⟩ := read' hmore
      rw [← h.quoting] at read'
      rw [readLexeme_of_error read']
      refine .failed (.refl _) ⟨h.toCore.place _ _ m.token m'.token m.duplicate m'.duplicate m.depth m'.depth,
        fun same => ?_⟩
      exact h.cursors.marked same ⟨0, Nat.zero_le _, rfl⟩ ⟨0, Nat.zero_le _, rfl⟩
  | @seam more hmore after₁ read pos read' =>
    have fore' := h.cursors.fore'.further (Scanner.further_next read')
    rw [← h.quoting] at read'
    rw [readLexeme_of_ok read] at after ⊢
    rw [readLexeme_of_ok read'] at after' ⊢
    have core := h.toCore.place { m.cursor with scanner := after₁, mark := m.cursor.scanner.pos }
      { m'.cursor with scanner := ⟨pos, more⟩, mark := m'.cursor.scanner.pos } .eof .separator m.duplicate
      m'.duplicate m.depth m'.depth
    have since : Since m m' _ _ := ⟨after, after'⟩
    refine .done ⟨since, h.toAlongside.next core since, .inr ⟨rfl, rfl, ⟨more, hmore, rfl⟩, ?_, ?_, ?_⟩⟩
    · exact fore'
    · exact inText
    · exact h.cursors.whole (by rw [hmore]; exact nofun)
  | @same l after₁ read after₁' read' rest place ended =>
    have further := Scanner.further_next read
    have further' := Scanner.further_next read'
    rw [← h.quoting] at read'
    rw [readLexeme_of_ok read] at after ⊢
    rw [readLexeme_of_ok read'] at after' ⊢
    -- the machines with the lexeme behind them
    generalize hn : ({ m with cursor := { m.cursor with
      scanner := after₁, mark := m.cursor.scanner.pos } } : Machine) = n at after ⊢
    generalize hn' : ({ m' with cursor := { m'.cursor with
      scanner := after₁', mark := m'.cursor.scanner.pos } } : Machine) = n' at after' ⊢
    have core : Core σ.strict n n' := by
      subst hn hn'
      exact h.toCore.place _ _ m.token m'.token m.duplicate m'.duplicate m.depth m'.depth
    have cursors : Cursor.Abreast σ n.memory n'.memory n.cursor n'.cursor := by
      subst hn hn'
      exact ⟨h.cursors.fore.further further, h.cursors.fore'.further further', rest,
        fun same => h.cursors.marked same further further', inText, h.cursors.whole⟩
    have sights : ∀ {p}, l.place? = some p →
        n'.memory.sight σ.strict (.ofSpan n'.cursor.source (p.shift m'.cursor.scanner.pos)) =
          n.memory.sight σ.strict (.ofSpan n.cursor.source (p.shift m.cursor.scanner.pos)) := by
      subst hn hn'
      intro p hp
      obtain ⟨ordered, inside⟩ := place hp
      have longer : p.stop ≤ m'.cursor.scanner.rest.length := by
        rw [h.cursors.rest, List.length_append]
        omega
      have here := Memory.sight_ofSpan σ.strict h.cursors.fore.rest h.cursors.fore.limit
        h.placed.window ordered inside
      have here' := Memory.sight_ofSpan σ.strict h.cursors.fore'.rest h.cursors.fore'.limit
        h.placed'.window ordered longer
      refine here'.trans (Eq.trans ?_ here.symm)
      rw [h.cursors.rest, List.take_append_of_le_length inside]
      cases hstrict : σ.strict with
      | true => rw [inText hstrict]
      | false => rfl
    simp only [Outcome.andThen, bind_apply] at after after' ⊢
    rcases resolve_together core.quoting core.literals core.index? raw l m.cursor.scanner.pos
      m'.cursor.scanner.pos (fun hspan => Memory.bytes_of_sight (sights hspan)) with
      ⟨t, t', literals, made, resolved, resolved'⟩ | ⟨unknown, unknown'⟩
    · rw [resolved] at after ⊢
      rw [resolved'] at after' ⊢
      have since : Since m m' _ _ := ⟨after, after'⟩
      have core' := (core.withLiterals literals).place n.cursor n'.cursor t t' n.duplicate n'.duplicate
        n.depth n'.depth
      exact .done ⟨since, h.toAlongside.next core' since,
        .inl ⟨cursors, made.alike sights, fun eof => ended (made.ended eof)⟩⟩
    · rw [unknown, unknown']
      exact .failed (.refl _) ⟨core, cursors.spot⟩

/-! ### Keeping what was read -/

theorem Placed.sight (h : Placed m) {slice : Slice} (ht : m.token.slice? = some slice) :
    m.memory.sight strict slice = ⟨m.bytes slice, true, strict && m.cursor.source.isText⟩ := by
  obtain ⟨source, -, stop⟩ := h.token ht
  rw [← source] at stop
  have whole : (m.memory.sight strict slice).whole = true := decide_eq_true stop
  have bytes : m.bytes slice = (m.memory.sight strict slice).bytes := by
    change m.memory.bytes slice = _
    rw [Memory.bytes_eq strict, if_pos whole]
  rw [bytes, ← whole, ← source]
  rfl

def Machine.copies (m : Machine) : Bool := m.cursor.source.isText && m.duplicate

/-- What a machine has kept of the text it reads, and what it paid for it. -/
structure KeptOf (strict : Bool) (m : Machine) (slice kept : Slice) (n : Machine) : Prop where
  quiet : Quiet strict m n
  cursor : n.cursor = m.cursor
  token : n.token = m.token
  routines : n.arena.routines = m.arena.routines
  granted : m.copies = true → wordAligned (m.bytes slice).length ≤ m.arena.free
  reserved : n.arena.reserved =
    m.arena.reserved + if m.copies then wordAligned (m.bytes slice).length else 0
  sight : n.memory.sight strict kept =
    ⟨m.bytes slice, true, strict && (m.cursor.source.isText && !m.copies)⟩

/-- What is kept is copied or not, and either way it reads the same. -/
theorem keep_cases (strict : Bool) (sound : m.Sound true) (placed : Placed m) {slice : Slice}
    (ht : m.token.slice? = some slice) :
    (∃ kept n, keep slice m = .done kept n ∧ KeptOf strict m slice kept n) ∨
      keep slice m = .failed .outOfMemory m ∧ m.copies = true ∧
        ¬ wordAligned (m.bytes slice).length ≤ m.arena.free := by
  have source := (placed.token ht).1
  have run : keep slice m = if m.copies then Eval.allocate (·.addBytes (m.bytes slice)) m
      else .done slice m := by
    unfold keep Machine.copies
    rw [← source]
    cases slice.source <;> rfl
  rw [run]
  cases copies : m.copies with
  | false =>
    refine .inl ⟨slice, m, rfl, .refl sound, rfl, rfl, rfl, fun h => ?_, ?_, ?_⟩
    · rw [copies] at h
      cases h
    · simp [copies]
    · rw [placed.sight ht, copies, Bool.not_false, Bool.and_true]
  | true =>
    rw [if_pos rfl]
    unfold Eval.allocate
    dsimp only
    cases granted : m.arena.addBytes (m.bytes slice) with
    | none =>
      refine .inr ⟨rfl, rfl, fun room => ?_⟩
      rw [← Arena.isSome_addBytes, granted] at room
      cases room
    | some given =>
      obtain ⟨kept, arena⟩ := given
      have sight := Memory.sight_addBytes strict (x := m.memory) granted
      have quiet : Quiet strict m (m.withArena arena) := quiet_addBytes sound granted
      obtain ⟨room, -, rfl⟩ := Arena.addBytes_eq_some granted
      refine .inl ⟨kept, _, rfl, quiet, rfl, rfl, rfl, fun _ => room, ?_, ?_⟩
      · rw [copies, if_pos rfl]
        rfl
      · rw [copies, Bool.not_true, Bool.and_false, Bool.and_false]
        exact sight

/-- Slices that definitions on both sides can keep, and that look the same. -/
structure KeptAlike (σ : Terms) (m m' : Machine) (slice slice' : Slice) : Prop where
  kept : Kept m slice
  kept' : Kept m' slice'
  sight : m'.memory.sight σ.strict slice' = m.memory.sight σ.strict slice

theorem KeptAlike.since {slice slice' : Slice} (h : KeptAlike σ m m' slice slice')
    (since : Since m m' n n') : KeptAlike σ n n' slice slice' where
  kept := h.kept.after since.after
  kept' := h.kept'.after since.after'
  sight := by rw [since.after.grows.sight h.kept.held, since.after'.grows.sight h.kept'.held, h.sight]

/-- Slices that are held on both sides, and look the same. -/
structure HeldAlike (σ : Terms) (m m' : Machine) (slice slice' : Slice) : Prop where
  held : m.memory.Holds slice
  held' : m'.memory.Holds slice'
  sight : m'.memory.sight σ.strict slice' = m.memory.sight σ.strict slice

theorem HeldAlike.since {slice slice' : Slice} (h : HeldAlike σ m m' slice slice')
    (since : Since m m' n n') : HeldAlike σ n n' slice slice' where
  held := since.after.grows.holds h.held
  held' := since.after'.grows.holds h.held'
  sight := by rw [since.after.grows.sight h.held, since.after'.grows.sight h.held', h.sight]

/-- What is kept looks the same, whether it is copied on both sides, on one or on none. -/
theorem agree_keep (h : Standing σ m m') {slice slice' : Slice} (ht : m.token.slice? = some slice)
    (ht' : m'.token.slice? = some slice')
    (alike : m'.memory.sight σ.strict slice' = m.memory.sight σ.strict slice) :
    Agree σ (fun kept kept' n n' => n.token = m.token ∧ Standing σ n n' ∧ KeptAlike σ n n' kept kept')
      m m' (keep slice m) (keep slice' m') := by
  have yields := yields_keep h.sound h.placed ht
  have yields' := yields_keep h.sound' h.placed' ht'
  have bytes : m'.bytes slice' = m.bytes slice := Memory.bytes_of_sight alike
  have together : σ.strict = true → m'.copies = m.copies := fun hstrict => by
    rw [Machine.copies, Machine.copies, h.cursors.inText hstrict, h.duplicate hstrict]
  rcases keep_cases σ.strict h.sound h.placed ht with ⟨kept, n, run, of⟩ | ⟨run, copies, full⟩ <;>
    rcases keep_cases σ.strict h.sound' h.placed' ht' with ⟨kept', n', run', of'⟩ | ⟨run', copies', full'⟩ <;>
    rw [run, run'] <;> rw [run] at yields <;> rw [run'] at yields'
  · have core : Core σ.strict n n' := by
      refine h.toCore.quiet of.quiet of'.quiet ?_ fun hstrict => ?_
      · rw [of.routines, of'.routines]
        exact h.table.routines
      · rw [of.reserved, of'.reserved, bytes, together hstrict, (h.room hstrict).2]
    have since : Since m m' n n' := ⟨yields.after, yields'.after⟩
    refine .done ⟨since, of.token, h.next core since of.cursor of'.cursor, yields.result rfl,
      yields'.result rfl, ?_⟩
    rw [of.sight, of'.sight, bytes]
    cases hstrict : σ.strict with
    | true => rw [together hstrict, h.cursors.inText hstrict]
    | false => rfl
  · cases hstrict : σ.strict with
    | true =>
      rw [bytes, h.free hstrict] at full'
      exact absurd (of.granted (together hstrict ▸ copies')) full'
    | false => exact .excused' ⟨hstrict, rfl⟩
  · cases hstrict : σ.strict with
    | true =>
      rw [← bytes, ← h.free hstrict] at full
      exact absurd (of'.granted ((together hstrict).trans copies)) full
    | false => exact .excused (.inr ⟨hstrict, rfl⟩)
  · exact .failed (.refl _) h.fell

end Scriptlet
