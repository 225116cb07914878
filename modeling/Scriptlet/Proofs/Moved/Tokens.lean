import Scriptlet.Proofs.Moved.Following

/-!
Looking at the token that two machines have before them. If the first machine is at the token behind the
blank and the second at the parenthesis (`Manner.AtClose`), nothing can be made of the first one's token
but to stop there: to read on would be to go astray, and to complain is to be refused. Everywhere else
the tokens are the same, or one is the end and the other a separator.

So machines that follow a piece are compared as the evaluator asks for it (`Relocation.tandem`), with what has
moved for what goes together.
-/

namespace Scriptlet

open Text (Bytes)
open Eval

variable {α β ι : Type} {μ : Manner} {m m' n n' : Machine}

/-! ### At the token behind the piece -/

namespace Manner

/-- The machine has read the first token behind the piece. -/
def AtClose (μ : Manner) (m : Machine) : Prop :=
  ∃ rest close, μ = .bridge rest close ∧ m.cursor.mark = close ∧ close < m.cursor.scanner.pos

theorem AtClose.of_cursor (h : μ.AtClose m) (same : n.cursor = m.cursor) : μ.AtClose n := by
  unfold AtClose at h ⊢
  rw [same]
  exact h

theorem AtClose.not_level (h : μ.AtClose m) : ¬ μ.Level := by
  obtain ⟨rest, close, manner, -⟩ := h
  exact fun level => level rest close manner

theorem AtClose.outside (h : μ.AtClose m) : μ.Outside m := by
  obtain ⟨rest, close, manner, -, far⟩ := h
  exact ⟨rest, close, manner, fun inside => Nat.not_le_of_lt far inside.2⟩

theorem AtClose.complain (h : μ.AtClose m) (c : Complaint) : μ.Apart ((Eval.complain c : Eval α) m) :=
  .refused (.inl rfl) h.outside

theorem AtClose.unknown (h : μ.AtClose m) : μ.Apart ((Eval.fail .unknownSymbol : Eval α) m) :=
  .refused (.inr rfl) h.outside

/-- To read on is to go astray. -/
theorem AtClose.advanceBy (h : μ.AtClose m) (raw : Bool) : μ.Astray (advanceBy raw m).machine := by
  obtain ⟨rest, close, manner, -, far⟩ := h
  unfold Eval.advanceBy
  rw [bind_apply]
  rcases readLexeme_eq m with ⟨lexeme, after, -, read⟩ | ⟨complaint, after, -, read⟩
  · have further := ahead_readLexeme m
    rw [read] at further ⊢
    have astray : μ.Astray (m.readTo after) :=
      ⟨rest, close, manner, Nat.lt_of_lt_of_le far further.pos, Nat.ne_of_gt far⟩
    exact astray.ahead (ahead_resolve raw lexeme _)
  · rw [read]
    exact ⟨rest, close, manner, far, Nat.ne_of_gt far⟩

theorem AtClose.advancing (h : μ.AtClose m) {f : Unit → Eval α} (ahead : ∀ a, Keeps Ahead (f a)) :
    μ.Apart ((advance >>= f) m) := Apart.bind (.astray (h.advanceBy false)) (.inr ahead)

theorem AtClose.symbolAt (h : μ.AtClose m) {index : Nat} {f : Symbol Native → Eval α}
    (next : ∀ {s}, m.arena.symbols[index]? = some s → μ.Apart (f s m)) :
    μ.Apart ((symbolAt index >>= f) m) := by
  rw [bind_apply]
  unfold Eval.symbolAt
  cases found : m.arena.symbols[index]? with
  | some s => exact next found
  | none => exact h.unknown

end Manner

namespace Relocation

variable {ρ : Relocation}

/-- The next token, unless the first machine is at its end. -/
theorem follow_advance (fits : ρ.Fits) (raw : Bool) (h : ρ.Abreast μ m m') (other : m.token ≠ .eof) :
    ρ.Follow μ (fun _ _ n n' => ρ.Abreast μ n n') (advanceBy raw m) (advanceBy raw m') := by
  cases h.place with
  | before cursors => exact follow_advanceBy fits raw ⟨h.moved, cursors⟩
  | seam manner token => exact absurd token other
  | close manner token' mark far =>
    exact .apart (.astray (Manner.AtClose.advanceBy ⟨_, _, manner, mark, far⟩ raw))

theorem token_eq {t u : Token} (plain : u.slice? = none) : ρ.token t = u ↔ t = u := by
  cases t with
  | name slice => exact ⟨(by rintro rfl; cases plain), by rintro rfl; cases plain⟩
  | text slice => exact ⟨(by rintro rfl; cases plain), by rintro rfl; cases plain⟩
  | _ => rfl

/-- Tokens go together, whatever there is behind the piece. -/
theorem Abreast.counterpart (h : ρ.Abreast μ m m') : m.token.Counterpart (μ.AtClose m) m'.token := by
  cases h.place with
  | before cursors token =>
    rw [token]
    cases m.token with
    | name slice => exact .name
    | text slice => exact .text
    | _ => exact .same rfl
  | seam manner token token' =>
    rw [token, token']
    exact .seam
  | close manner token' mark far =>
    rw [token']
    exact .close ⟨_, _, manner, mark, far⟩

theorem bound_level (level : μ.Level) : ρ.bound μ = ρ.high := by
  cases μ with
  | inner => rfl
  | outer => rfl
  | bridge rest close => exact absurd rfl (level rest close)

variable (ρ) in
/-- A slice, and where it is moved to. -/
def Carried (slice slice' : Slice) : Prop := slice' = ρ.slice slice ∧ ρ.Inside slice

/-- Where both tokens are slices, the one is the other moved. -/
theorem Abreast.slices (level : μ.Level) (h : ρ.Abreast μ m m') {slice slice' : Slice}
    (ht : m.token.slice? = some slice) (ht' : m'.token.slice? = some slice') :
    ρ.Standing μ m m' ∧ ρ.Carried slice slice' := by
  cases h.place with
  | before cursors token within =>
    refine ⟨⟨h.moved, cursors⟩, ?_, ?_⟩
    · rw [token] at ht'
      generalize m.token = t at ht ht'
      cases t with
      | name slice | text slice =>
        cases ht
        cases ht'
        rfl
      | _ => cases ht
    · rw [Inside, ← bound_level level]
      exact within ht
  | seam manner token =>
    rw [token] at ht
    cases ht
  | close manner => exact absurd manner (level _ _)

theorem Abreast.standing (level : μ.Level) (h : ρ.Abreast μ m m') (other : m.token ≠ .eof) :
    ρ.Standing μ m m' := by
  cases h.place with
  | before cursors => exact ⟨h.moved, cursors⟩
  | seam manner token => exact absurd token other
  | close manner => exact absurd manner (level _ _)

theorem Abreast.symbols (h : ρ.Abreast μ m m') (index : Nat) :
    Option.Rel Symbol.Counterpart m.arena.symbols[index]? m'.arena.symbols[index]? := by
  rw [h.moved.symbols]
  cases m.arena.symbols[index]? with
  | some s => exact .some ⟨.refl _, rfl⟩
  | none => exact .none

/-! ### The comparison -/

variable (ρ) in
/-- Machines that follow a piece, as they are compared. -/
def tandem (μ : Manner) : Tandem where
  Rel Q m m' := ρ.Follow μ fun a a' n n' => (Grows m n ∧ Grows m' n') ∧ Q a a' n n'
  Abreast := ρ.Abreast μ
  Standing := ρ.Standing μ
  Since m m' n n' := Grows m n ∧ Grows m' n'
  Kept _ _ := ρ.Carried
  Held _ _ := ρ.Carried
  AtClose := μ.AtClose
  Level := μ.Level

/-- What follows, where memory has only grown on both machines. -/
theorem Follow.tandem {Q : Post α} {o o' : Outcome α} (h : ρ.Follow μ Q o o') (grows : Grows m o.machine)
    (grows' : Grows m' o'.machine) : (ρ.tandem μ).Rel Q m m' o o' := by
  cases h with
  | done h => exact .done ⟨⟨grows, grows'⟩, h⟩
  | failed h => exact .failed h
  | stopped => exact .stopped
  | apart h => exact .apart h

theorem Follow.of_tandem {Q : Post α} {o o' : Outcome α} (h : (ρ.tandem μ).Rel Q m m' o o') :
    ρ.Follow μ Q o o' := Follow.imp h And.right

/-! ### Putting things back -/

theorem Abreast.withQuoting (h : ρ.Abreast μ m m') (quoting : Quoting) :
    ρ.Abreast μ { m with quoting } { m' with quoting } := ⟨h.moved.withQuoting quoting, h.place⟩

theorem Abreast.withResult (h : ρ.Abreast μ m m') (result : Word) :
    ρ.Abreast μ { m with result } { m' with result } := ⟨h.moved.withResult result, h.place⟩

theorem Abreast.withStack (h : ρ.Abreast μ m m') (stack : Array Word) :
    ρ.Abreast μ (m.withArena { m.arena with stack }) (m'.withArena { m'.arena with stack }) :=
  ⟨h.moved.withStack stack, h.place⟩

theorem Fell.withQuoting (h : ρ.Fell μ m m') (quoting : Quoting) :
    ρ.Fell μ { m with quoting } { m' with quoting } := ⟨h.moved.withQuoting quoting, h.spot⟩

theorem Fell.withLiterals (h : ρ.Fell μ m m') (literals : Literals) :
    ρ.Fell μ { m with literals } { m' with literals } := ⟨h.moved.withLiterals literals, h.spot⟩

theorem Fell.withStack (h : ρ.Fell μ m m') (stack : Array Word) :
    ρ.Fell μ (m.withArena { m.arena with stack }) (m'.withArena { m'.arena with stack }) :=
  ⟨h.moved.withStack stack, h.spot⟩

namespace Follow

variable {Q : Post α} {P : α → Token → Prop} {x x' : Eval α}

theorem withQuoting (quoting : Quoting) (h : ρ.Abreast μ m m')
    (hx : (ρ.tandem μ).Rel ((ρ.tandem μ).At P) { m with quoting } { m' with quoting } (x { m with quoting })
      (x' { m' with quoting })) :
    (ρ.tandem μ).Rel ((ρ.tandem μ).At P) m m' (Eval.withQuoting quoting x m)
      (Eval.withQuoting quoting x' m') := by
  unfold Eval.withQuoting Eval.restoring
  dsimp only
  rw [h.moved.quoting]
  exact adjust hx (fun _ => rfl)
    (fun ⟨since, same, token, abreast⟩ => ⟨since, same, token, Abreast.withQuoting abreast _⟩)
    fun fell => fell.withQuoting _

theorem unwinding (h : ρ.Moved m m') (hx : ρ.Follow μ Q (x m) (x' m')) :
    ρ.Follow μ Q (Eval.unwinding x m) (Eval.unwinding x' m') := by
  unfold Eval.unwinding
  dsimp only
  refine adjustUndone hx (fun _ => rfl) fun {n n'} fell => ?_
  have unwound := (fell.withStack (n.arena.stack.take m.arena.depth)).withLiterals
    (n.literals.truncate m.literals.size)
  rw [Arena.unwind_of_stack h.stack fell.moved.stack, fell.moved.literals, h.literals]
  exact unwound

end Follow

end Relocation

end Scriptlet
