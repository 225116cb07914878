import Scriptlet.Proofs.Moved.Opening
import Scriptlet.Proofs.Twin.Pieces

/-!
A native at the start of a statement may be called without parentheses. As far as one can see from outside,
`n a, b rest` does what `n(a, b) rest` does.

Both texts have the arguments in the same place. In the first, the token behind the arguments has been read,
and looked up, before the native runs; in the second it is read afterwards. So it has to be the same when
it is read again.
-/

namespace Scriptlet

open Text (Bytes lineFeed)
open Eval

variable {α : Type} {m m' n n' : Machine} {r : Reentry} {rest : Bytes} {close : Nat}

def Byte.openParen : UInt8 := 0x28

theorem Byte.delimits_openParen : Byte.Delimits Byte.openParen := ⟨rfl, rfl, rfl, rfl, rfl⟩

/-! ### Where arguments end -/

/-- The token that the machine has read ends at this place or before it. -/
def Machine.Before (m : Machine) (close : Nat) : Prop :=
  m.cursor.mark < m.cursor.scanner.pos ∧ m.cursor.scanner.pos ≤ close

namespace Outcome

/-- What has been read for a computation ends at this place. When it is done, it has read one token more. It
may have failed on the way, or there, but then it had nothing to complain of in that token. -/
inductive EndsAt (close : Nat) : Outcome α → Prop
  | done {a : α} {n : Machine} (mark : n.cursor.mark = close) : EndsAt close (.done a n)
  | within {e : Error} {n : Machine} (before : n.Before close) : EndsAt close (.failed e n)
  | behind {e : Error} {n : Machine} (mark : n.cursor.mark = close) (sound : e.kind ≠ .syntaxError)
    (known : e.kind ≠ .unknownSymbol) : EndsAt close (.failed e n)
  | stopped {why : Stop} {n : Machine} (enough : why ≠ .outOfFuel) (before : n.Before close) :
    EndsAt close (.stopped why n)

theorem EndsAt.adjust {o : Outcome α} {g : Machine → Machine} (h : o.EndsAt close)
    (same : ∀ n, (g n).cursor = n.cursor) : (o.adjust g).EndsAt close := by
  cases h with
  | done mark => exact .done (by rw [same]; exact mark)
  | within before => exact .within (by unfold Machine.Before; rw [same]; exact before)
  | behind mark sound known => exact .behind (by rw [same]; exact mark) sound known
  | stopped enough before => exact .stopped enough (by unfold Machine.Before; rw [same]; exact before)

theorem EndsAt.adjustUndone {o : Outcome α} {g : Machine → Machine} (h : o.EndsAt close)
    (same : ∀ n, (g n).cursor = n.cursor) : (o.adjustUndone g).EndsAt close := by
  cases h with
  | done mark => exact .done mark
  | within before => exact .within (by unfold Machine.Before; rw [same]; exact before)
  | behind mark sound known => exact .behind (by rw [same]; exact mark) sound known
  | stopped enough before => exact .stopped enough (by unfold Machine.Before; rw [same]; exact before)

/-- What is put back behind an argument list is not where the machine reads. -/
theorem EndsAt.unwinding {x : Eval α} {quoting : Quoting} (h : (x { m with quoting }).EndsAt close) :
    (Eval.unwinding (Eval.withQuoting quoting x) m).EndsAt close := by
  unfold Eval.unwinding Eval.withQuoting Eval.restoring
  refine EndsAt.adjustUndone (EndsAt.adjust h ?_) ?_
  · exact fun _ => rfl
  · exact fun _ => rfl

/-- A machine that ends where the piece does is not apart. -/
theorem EndsAt.not_apart {o : Outcome α} (h : o.EndsAt close) : ¬ (Manner.bridge rest close).Apart o := by
  intro apart
  cases apart with
  | failed manner => cases manner
  | astray astray =>
    obtain ⟨rest, close, manner, far, mark⟩ := astray
    cases manner
    cases h with
    | done same => exact mark same
    | within before => exact Nat.not_le_of_lt far before.2
    | behind same => exact mark same
    | stopped _ before => exact Nat.not_le_of_lt far before.2
  | refused kind outside =>
    obtain ⟨rest, close, manner, outside⟩ := outside
    cases manner
    cases h with
    | within before => exact outside before
    | behind _ sound known => exact kind.elim sound known
  | stalled outside =>
    obtain ⟨rest, close, manner, outside⟩ := outside
    cases manner
    cases h with
    | stopped _ before => exact outside before

end Outcome

namespace Relocation

variable {ρ : Relocation}

variable (ρ) in
/-- The arguments have been read on both machines, on the first one with the token behind. -/
def Gathered (rest : Bytes) (close : Nat) (n n' : Machine) : Prop :=
  ρ.Abreast (.bridge rest close) n n' ∧ n.cursor.mark = close

/-- The second machine has what is behind the arguments before it. -/
theorem Gathered.there (h : ρ.Gathered rest close n n') : n'.cursor.source = n.cursor.source ∧
    n'.cursor.scanner = ⟨ρ.offset n.cursor.source + close + 1, Byte.blank :: rest⟩ := by
  obtain ⟨abreast, mark⟩ := h
  cases abreast.place with
  | before cursors token within running begun => exact absurd mark (Nat.ne_of_lt (begun _ _ rfl).1)
  | seam manner => cases manner
  | close manner token' _ far read source there =>
    cases manner
    exact ⟨source, there⟩

/-! ### The arguments without parentheses, and in them -/

section

variable (fits : ρ.Fits) (relocates : ρ.Relocates r)

theorem ahead_behindBare (count : Nat) : Keeps Ahead (Call.behindBare count) := by
  refine ahead_track.bind_still (still_read _) fun t => ?_
  split
  · exact ahead_track.bind (ahead_advanceBy false) fun _ => ahead_track.still (still_pure _)
  · exact ahead_track.still (still_pure _)

theorem behindBare_of_ne (count : Nat) (other : m.token ≠ .comma) :
    Call.behindBare count m = .done (.finish (count + 1)) m := by
  rw [Call.behindBare, token_bind]
  cases ht : m.token with
  | comma => exact absurd ht other
  | _ => rfl

include relocates in
theorem ahead_bareTurn (count : Nat) : Keeps Ahead (Call.bareTurn r count) :=
  ahead_track.bind (ahead_track.bind relocates.ahead fun _ => ahead_allocate _) fun _ =>
    ahead_behindBare count

include fits relocates

/-- An argument is evaluated without parentheses and in them. The first machine may end too early. -/
theorem follow_bareTurn (count : Nat) (h : ρ.Abreast (.bridge rest close) m m') :
    ρ.Follow (.bridge rest close) (Turns (fun _ n n' => ρ.Abreast (.bridge rest close) n n')
      (Equally (ρ.Gathered rest close))) (Call.bareTurn r count m) (Call.parensTurn r count m') ∨
      ∃ counted n, Call.bareTurn r count m = .done (.finish counted) n ∧ n.cursor.mark ≠ close := by
  have argument := Follow.of_tandem ((relocates.discipline fits _).argument h)
  have ahead := ahead_behindBare count
  by_cases apart : (Manner.bridge rest close).Apart (Call.argument r m)
  · exact .inl (.apart (apart.bind (.inr fun _ => ahead)))
  · unfold Call.bareTurn Call.parensTurn
    rw [bind_apply, bind_apply]
    generalize Call.argument r m = o at argument apart ⊢
    generalize Call.argument r m' = o' at argument ⊢
    cases argument with
    | apart h => exact absurd h apart
    | failed fell => exact .inl (.failed fell)
    | stopped => exact .inl .stopped
    | @done _ _ k k' h =>
      have abreast : ρ.Abreast (.bridge rest close) k k' := h
      change ρ.Follow _ _ (Call.behindBare count k) (Call.behindArgument count k') ∨
        ∃ counted n, Call.behindBare count k = _ ∧ _
      cases abreast.place with
      | before cursors token within running begun =>
        by_cases comma : k.token = .comma
        · refine .inl ?_
          rw [Call.behindBare, Call.behindArgument, token_bind, token_bind, token, comma]
          exact Follow.bind (follow_advance fits false abreast (by rw [comma]; exact nofun))
            (.inr fun _ => ahead_track.still (still_pure _)) fun abreast => .done (.again abreast)
        · exact .inr ⟨_, k, behindBare_of_ne count comma, Nat.ne_of_lt (begun _ _ rfl).1⟩
      | seam manner => cases manner
      | close manner token' mark far =>
        cases manner
        have atClose : (Manner.bridge rest close).AtClose k := ⟨rest, close, rfl, mark, far⟩
        refine .inl ?_
        by_cases comma : k.token = .comma
        · rw [Call.behindBare, token_bind, comma]
          exact .apart (atClose.advancing fun _ => ahead_track.still (still_pure _))
        · rw [behindBare_of_ne count comma, Call.behindArgument, token_bind, token']
          exact .done (.finish ⟨rfl, abreast, mark⟩)

theorem follow_bareTurns (passes count : Nat) (h : ρ.Abreast (.bridge rest close) m m') :
    ρ.Follow (.bridge rest close) (Equally (ρ.Gathered rest close))
      (Eval.loop (Call.bareTurn r) passes count m) (Eval.loop (Call.parensTurn r) passes count m') ∨
      ∃ counted n, Eval.loop (Call.bareTurn r) passes count m = .done counted n ∧ n.cursor.mark ≠ close := by
  induction passes generalizing count m m' with
  | zero => exact .inl .stopped
  | succ passes ih =>
    by_cases apart : (Manner.bridge rest close).Apart (Call.bareTurn r count m)
    · exact .inl (.apart (apart.loop (.inr (ahead_bareTurn relocates)) passes))
    · have turn := follow_bareTurn fits relocates count h
      unfold Eval.loop
      generalize Call.bareTurn r count m = o at turn apart ⊢
      generalize Call.parensTurn r count m' = o' at turn ⊢
      rcases turn with turn | ⟨counted, n, rfl, early⟩
      · cases turn with
        | apart h => exact absurd h apart
        | failed fell => exact .inl (.failed fell)
        | stopped => exact .inl .stopped
        | done h =>
          cases h with
          | again abreast => exact ih _ abreast
          | finish gathered => exact .inl (.done gathered)
      · exact .inr ⟨counted, n, rfl, early⟩

/-- The arguments, where the first machine knows that there is one. -/
theorem follow_bareArguments_parens (h : ρ.Abreast (.bridge rest close) m m')
    (starts : startsExpression m = .done true m) :
    ρ.Follow (.bridge rest close) (Equally (ρ.Gathered rest close)) (Call.bareArguments r m)
      (Call.insideParens r m') ∨
      ∃ counted n, Call.bareArguments r m = .done counted n ∧ n.cursor.mark ≠ close := by
  have left : Call.bareArguments r m = Eval.loop (Call.bareTurn r) r.passes 0 m := by
    rw [Call.bareArguments, bind_apply, starts]
    rfl
  rw [left, Call.insideParens, token_bind]
  cases h.place with
  | before cursors token =>
    have some : m.token ≠ .closeParen := fun same => by
      rw [startsExpression, token_bind, same] at starts
      cases starts
    rw [if_neg (by rw [token]; exact mt (token_eq rfl).mp some)]
    exact follow_bareTurns fits relocates r.passes 0 h
  | seam manner => cases manner
  | close manner token' mark far =>
    -- nothing is left for the second machine
    have atClose : (Manner.bridge rest close).AtClose m := ⟨_, _, manner, mark, far⟩
    refine .inl (.apart ?_)
    cases r.passes with
    | zero => exact .stalled atClose.outside
    | succ passes =>
      have turn : (Manner.bridge rest close).Apart (Call.bareTurn r 0 m) :=
        Manner.Apart.bind (Manner.Apart.bind (relocates.aside atClose) (.inr fun _ => ahead_allocate _))
          (.inr fun _ => ahead_behindBare 0)
      exact turn.loop (.inr (ahead_bareTurn relocates)) passes

end

/-! ### The whole list -/

variable (ρ) in
/-- Two machines that have read the name of a native. On the first one its arguments stand between blanks, and
on the second between parentheses. -/
structure Called (before : Nat) (args rest : Bytes) (m m' : Machine) : Prop where
  moved : ρ.Moved m m'
  source : m.cursor.source = .text ρ.slot
  source' : m'.cursor.source = .text ρ.slot
  here : m.cursor.scanner = ⟨before, Byte.blank :: (args ++ Byte.blank :: rest)⟩
  there : m'.cursor.scanner = ⟨before, Byte.openParen :: (args ++ Byte.closeParen :: Byte.blank :: rest)⟩
  shift : ρ.shift = 0
  low : ρ.low = before + 1
  high : ρ.high = 0
  reach : ρ.reach = before + 1 + args.length
  size : ρ.old.size = before + 1 + args.length + (rest.length + 1)
  unquoted : ∀ place after,
    (⟨before + 1 + args.length + 1, rest⟩ : Scanner).next .argument ≠ (.ok (.quote place), after)

theorem Called.piece {before : Nat} {args : Bytes} (h : ρ.Called before args rest m m') (token : Token) :
    ρ.Piece (.bridge rest (before + 1 + args.length))
      { m.cursor with scanner := ⟨before + 1, args ++ Byte.blank :: rest⟩ }
      (m'.past ⟨before + 1, args ++ Byte.closeParen :: Byte.blank :: rest⟩ token).cursor
      ⟨before + 1, args⟩ where
  here := rfl
  there := by
    change _ = Scanner.extend (Scanner.shift (ρ.offset m.cursor.source) _) _
    rw [h.source, offset_slot, h.shift, Scanner.shift, Nat.zero_add]
    rfl
  within _ := ⟨Nat.le_of_eq h.low, Nat.le_of_eq h.reach.symm⟩
  close rest' close manner := by
    cases manner
    exact ⟨rfl, h.unquoted⟩

theorem Called.opened {before : Nat} {args : Bytes} (h : ρ.Called before args rest m m') :
    advance m' = .done ()
      (m'.past ⟨before + 1, args ++ Byte.closeParen :: Byte.blank :: rest⟩ .openParen) := by
  refine Machine.advance_eq_past (l := .openParen) ?_ rfl
  rw [h.there, Scanner.next, Scanner.skipBlank, Scanner.blankLength.eq_def]
  rfl

theorem advance_of_read {l : Lexeme} {after : Scanner}
    (read : m.cursor.scanner.next m.quoting = (.ok l, after)) :
    advance m = (do let token ← resolve false l; update fun m => { m with token } : Eval Unit)
      { m with cursor := { m.cursor with scanner := after, mark := m.cursor.scanner.pos } } := by
  unfold advance advanceBy
  rw [bind_apply, readLexeme_of_ok read]
  rfl

section

variable (fits : ρ.Fits)

include fits

theorem follow_firstToken {before : Nat} {args : Bytes} (called : ρ.Called before args rest m m')
    (quoting : m.quoting = .argument) :
    ρ.Follow (.bridge rest (before + 1 + args.length))
      (fun _ _ n n' => ρ.Abreast (.bridge rest (before + 1 + args.length)) n n') (advance m)
      (advance (m'.past ⟨before + 1, args ++ Byte.closeParen :: Byte.blank :: rest⟩ .openParen)) := by
  have p := called.piece .openParen
  have next : ∀ {result},
      ((⟨before + 1, args⟩ : Scanner).extend (Byte.blank :: rest)).next .argument = result →
      m.cursor.scanner.next m.quoting = result := fun read => by
    rw [called.here, quoting, Scanner.next_blank]
    exact read
  have mark : m.cursor.scanner.pos = before := congrArg Scanner.pos called.here
  -- what is read from behind the arguments is not the first token behind them
  have astray : ∀ {l after}, m.cursor.scanner.next m.quoting = (.ok l, after) →
      before + 1 + args.length < after.pos →
      (Manner.bridge rest (before + 1 + args.length)).Apart (advance m) := fun {l after} read far => by
    rw [advance_of_read read]
    have begun : (Manner.bridge rest (before + 1 + args.length)).Astray
        { m with cursor := { m.cursor with scanner := after, mark := m.cursor.scanner.pos } } := by
      refine ⟨rest, _, rfl, far, ?_⟩
      change m.cursor.scanner.pos ≠ _
      omega
    exact .astray (begun.ahead (ahead_resolve false l _))
  cases Scanner.sideBySide (.bridge rest (before + 1 + args.length)) (ρ.offset m.cursor.source) .argument
      ⟨before + 1, args⟩ with
  | @same l after here read read' running =>
    have quoting' := called.moved.quoting.trans quoting
    rw [advance_of_read (next read), advance_of_read (by rw [p.there]; exact quoting' ▸ read')]
    have further := p.further here
    refine follow_lexeme fits false ⟨called.moved.place _ _ m.token .openParen, ?_, ⟨after, ?_⟩, nofun⟩
      (p.inside here) (fun eof => (running eof).2) fun rest' close manner => ?_
    · exact called.source'.trans called.source.symm
    · exact ⟨further.here, further.there, further.within, further.close⟩
    · obtain ⟨first, last⟩ := p.begun here (fun eof => (running eof).2) manner
      refine ⟨?_, last⟩
      change m.cursor.scanner.pos < close
      change before + 1 < close at first
      omega
  | @complaint complaint after read =>
    refine .apart ?_
    unfold advance advanceBy
    rw [bind_apply, readLexeme_of_error (next read)]
    exact .refused (.inl rfl) ⟨rest, _, rfl, fun inside => Nat.lt_irrefl _ inside.1⟩
  | @seam more after manner => cases manner
  | @close rest' close' l after manner ended read further =>
    obtain ⟨n, -, rfl⟩ := Scanner.further_next further
    exact .apart (astray (next read) (Nat.lt_of_lt_of_le (Nat.lt_succ_self _) (Nat.le_add_right _ _)))
  | @past rest' close' l after manner begun read far => exact .apart (astray (next read) far)

variable (relocates : ρ.Relocates r)

include relocates

/-- The arguments of a command on the first machine, and of a call on the second. -/
theorem follow_arguments {before : Nat} {args : Bytes} (called : ρ.Called before args rest m m')
    (quoting : m.quoting = .argument)
    (starts : ∀ n, advance m = .done () n → n.token ≠ .openParen ∧ startsExpression n = .done true n)
    (ends : (Call.argumentsAfterCommand r m).EndsAt (before + 1 + args.length)) :
    ρ.Follow (.bridge rest (before + 1 + args.length))
      (fun a a' n n' => a.2 = false ∧ a' = (a.1, true) ∧ ρ.Gathered rest (before + 1 + args.length) n n')
      (Call.argumentsAfterCommand r m) (Call.argumentsAfterCommand r m') := by
  have loose := (ahead_loose relocates.ahead relocates.bracket).arguments
  have right : Call.argumentsAfterCommand r m' = (do
      advance
      let count ← Call.insideParens r
      return (count, true) : Eval (Nat × Bool))
        (m'.past ⟨before + 1, args ++ Byte.closeParen :: Byte.blank :: rest⟩ .openParen) := by
    rw [Call.argumentsAfterCommand, bind_apply, called.opened]
    change ((Call.argumentsInParens r >>= fun count => pure (count, true)) _ : Outcome (Nat × Bool)) = _
    rw [Call.argumentsInParens, bind_assoc]
  rw [right]
  refine Follow.bind (Follow.knowing (follow_firstToken fits called quoting)) (.inr fun _ => ?_)
    fun {_ _ n n'} first => ?_
  · refine ahead_track.bind_still (still_read _) fun t => ?_
    split
    · exact ahead_track.bind loose.argumentsInParens fun _ => ahead_track.still (still_pure _)
    · exact ahead_track.bind loose.bareArguments fun _ => ahead_track.still (still_pure _)
  · obtain ⟨advanced, abreast⟩ := first
    obtain ⟨bare, starts⟩ := starts n advanced
    have left : (do
        if (← Eval.token) = .openParen then return (← Call.argumentsInParens r, true)
        else return (← Call.bareArguments r, false) : Eval (Nat × Bool)) n =
          (do let count ← Call.bareArguments r; return (count, false) : Eval (Nat × Bool)) n := by
      rw [token_bind, if_neg bare]
    rw [left]
    rcases follow_bareArguments_parens fits relocates abreast starts with arguments | ⟨count, k, ran, early⟩
    · refine Follow.bind arguments (.inr fun _ => ahead_track.still (still_pure _)) fun listed => ?_
      obtain ⟨same, gathered⟩ := listed
      exact .done ⟨rfl, by rw [same], gathered⟩
    · -- the list would have to go on
      rw [Call.argumentsAfterCommand, bind_apply, advanced] at ends
      change Outcome.EndsAt _ ((do
        if (← Eval.token) = .openParen then return (← Call.argumentsInParens r, true)
        else return (← Call.bareArguments r, false) : Eval (Nat × Bool)) n) at ends
      rw [left, bind_apply, ran] at ends
      cases ends with
      | done mark => exact absurd mark early

end

/-! ### Behind the arguments -/

variable (ρ) in
/-- The piece behind the arguments, which is one byte further on in the other text. -/
def behind (routines : Nat) : Relocation :=
  { ρ with shift := 1, low := ρ.reach, high := ρ.old.size, reach := ρ.old.size, base := routines }

/-- While nothing is in the slot that could be moved, the piece behind may be exchanged as well. -/
theorem Moved.behind (h : ρ.Moved m m') (shift : ρ.shift = 0) (low : 0 < ρ.low) (high : ρ.high = 0) :
    (ρ.behind m.arena.routines.size).Moved m m' := by
  have elsewhere : ∀ {s : Slice}, ρ.Inside s → s.source ≠ .text ρ.slot := fun {s} inside same => by
    obtain ⟨first, last⟩ := inside same
    have ordered : s.start ≤ s.stop := Nat.le_add_right _ _
    omega
  cases h with
  | put settled cursor token history =>
    refine moved_of_eq ⟨settled.text, fun {i s} found => ?_, Nat.le_refl _, settled.budget⟩ ?_
    · have admitted := settled.symbols found
      refine ⟨within_of_ne _ (elsewhere admitted.name), fun htag => ?_, admitted.native⟩
      obtain ⟨number, r, index, there, movable⟩ := admitted.func htag
      exact ⟨number, r, index, there,
        movable_of_ne (fun param hmem => elsewhere (movable.params param hmem)) (elsewhere movable.body)⟩
    · have arena : (ρ.behind m.arena.routines.size).arena m.arena = ρ.arena m.arena := by
        rw [arena_of_shift shift]
        exact arena_of_ne (fun found => elsewhere (settled.symbols found).name) (Nat.le_refl _)
      unfold Relocation.put
      rw [arena]
      rfl

/-- The first machine has read the token behind, and would read the same again. The second reads it now. -/
theorem abreast_again {before : Nat} {args : Bytes} (called : ρ.Called before args rest m m')
    (later : ∀ routines, (ρ.behind routines).Fits) (h : ρ.Moved n n') (source : n.cursor.source = .text ρ.slot)
    (source' : n'.cursor.source = .text ρ.slot)
    (there : n'.cursor.scanner = ⟨before + 1 + args.length + 1, Byte.blank :: rest⟩)
    (again : advance { n with cursor := { n.cursor with
      scanner := ⟨before + 1 + args.length, Byte.blank :: rest⟩ } } = .done () n) :
    ∃ k', advance n' = .done () k' ∧ (ρ.behind n.arena.routines.size).Abreast (.outer none) n k' := by
  have moved := h.behind called.shift (by rw [called.low]; exact Nat.succ_pos _) called.high
  have standing : (ρ.behind n.arena.routines.size).Standing (.outer none) { n with cursor := { n.cursor with
      scanner := ⟨before + 1 + args.length, Byte.blank :: rest⟩ } } n' := by
    refine ⟨moved.place _ n'.cursor n.token n'.token, source'.trans source.symm,
      ⟨⟨before + 1 + args.length, Byte.blank :: rest⟩, ?_, ?_, fun _ => ⟨?_, ?_⟩, nofun⟩, nofun⟩
    · exact (Scanner.extend_nil _).symm
    · change _ = Scanner.extend (Scanner.shift ((ρ.behind n.arena.routines.size).offset n.cursor.source) _) []
      have one : (ρ.behind n.arena.routines.size).offset (.text ρ.slot) = 1 := offset_slot _
      rw [source, there, Scanner.extend_nil, one, Scanner.shift, Nat.add_comm 1]
    · exact Nat.le_of_eq called.reach
    · exact Nat.le_of_eq called.size.symm
  have advance := follow_advanceBy (later n.arena.routines.size) false standing
  change Follow _ _ _ (Eval.advance _) (Eval.advance _) at advance
  rw [again] at advance
  obtain ⟨_, k', advanced, abreast⟩ := advance.of_done (Manner.level_outer none)
  exact ⟨k', advanced, abreast⟩

section

variable (fits : ρ.Fits) (relocates : ρ.Relocates r)

include fits relocates

theorem follow_unwinding {before : Nat} {args : Bytes} (called : ρ.Called before args rest m m')
    (starts : ∀ n, advance { m with quoting := .argument } = .done () n →
      n.token ≠ .openParen ∧ startsExpression n = .done true n)
    (ends : (Call.argumentsAfterCommand r { m with quoting := .argument }).EndsAt (before + 1 + args.length)) :
    ρ.Follow (.bridge rest (before + 1 + args.length))
      (fun a a' n n' => a.2 = false ∧ a' = (a.1, true) ∧ ρ.Gathered rest (before + 1 + args.length) n n')
      (unwinding (withQuoting .argument (Call.argumentsAfterCommand r)) m)
      (unwinding (withQuoting .argument (Call.argumentsAfterCommand r)) m') := by
  refine Follow.unwinding called.moved ?_
  unfold withQuoting restoring
  dsimp only
  rw [called.moved.quoting]
  have plain : ρ.Called before args rest { m with quoting := .argument } { m' with quoting := .argument } :=
    { called with moved := called.moved.withQuoting .argument }
  exact Follow.adjust (follow_arguments fits relocates plain rfl starts ends) (fun _ => rfl)
    (fun ⟨bare, same, abreast, mark⟩ => ⟨bare, same, abreast.withQuoting _, mark⟩)
    fun fell => fell.withQuoting _

/-- A native as a command on the first machine, and as a call on the second. When it is done on both, they
are abreast, if the first one would read the same token again. -/
theorem matched_asStatement {before index : Nat} {args : Bytes} {s : Symbol Native}
    (called : ρ.Called before args rest m m') (later : ∀ routines, (ρ.behind routines).Fits)
    (found : m.arena.symbols[index]? = some s) (hvar : s.tag ≠ .var)
    (starts : ∀ n, advance { m with quoting := .argument } = .done () n →
      n.token ≠ .openParen ∧ startsExpression n = .done true n)
    (ends : (Call.argumentsAfterCommand r { m with quoting := .argument }).EndsAt (before + 1 + args.length))
    (again : ∀ n, Call.asStatement r s m = .done () n →
      advance { n with cursor := { n.cursor with
        scanner := ⟨before + 1 + args.length, Byte.blank :: rest⟩ } } = .done () n) :
    Matched (fun _ => False)
      (fun _ _ n n' => ∃ routines, (ρ.behind routines).Abreast (.outer none) n n') ρ.Moved
      (Call.asStatement r s m) (Call.asStatement r (ρ.symbol s) m') := by
  have ahead := ahead_loose relocates.ahead relocates.bracket
  have grows := expanding_grows.loose relocates.grows relocates.growsBody
  have further := ahead.unwinding (ahead.withQuoting .argument ahead.arguments.argumentsAfterCommand) m
  have grown := grows.unwinding (grows.withQuoting .argument grows.arguments.argumentsAfterCommand) m
  have arguments := follow_unwinding fits relocates called starts ends
  have ended : (unwinding (withQuoting .argument (Call.argumentsAfterCommand r)) m).EndsAt
      (before + 1 + args.length) := ends.unwinding
  rw [Call.asStatement_apply, bind_apply] at again ⊢
  rw [Call.asStatement_apply, bind_apply, called.moved.literals]
  generalize unwinding _ m = o at arguments ended further grown again ⊢
  generalize unwinding _ m' = o' at arguments ⊢
  cases arguments with
  | apart apart => exact absurd apart ended.not_apart
  | failed fell => exact .failed fell.moved
  | stopped => exact .stopped
  | @done listed listed' k k' h =>
    obtain ⟨count, inParens⟩ := listed
    obtain ⟨rfl, rfl, gathered⟩ := h
    obtain ⟨source', there⟩ := gathered.there
    have admitted := gathered.1.moved.settled.symbols (grown.callee found hvar)
    have handed := stay_handOver relocates.bodies fits gathered.1.moved admitted count m.literals.size
    have unread := unread_handOver relocates.bracket s count m.literals.size k
    have unread' := unread_handOver relocates.bracket (ρ.symbol s) count m.literals.size k'
    change ∀ n, (Call.handOver r s count m.literals.size k).andThen (fun _ n => .done () n) = .done () n → _
      at again
    change Matched _ _ _ ((Call.handOver r s count m.literals.size k).andThen fun _ n => .done () n)
      ((Call.handOver r (ρ.symbol s) count m.literals.size k').andThen fun _ n => advance n)
    generalize Call.handOver r s count m.literals.size k = o at handed unread again ⊢
    generalize Call.handOver r (ρ.symbol s) count m.literals.size k' = o' at handed unread' ⊢
    cases handed with
    | apart h => exact h.elim
    | failed moved => exact .failed moved
    | stopped => exact .stopped
    | @done _ _ n n' h =>
      have source : k.cursor.source = .text ρ.slot := further.source.trans called.source
      have cursor : n.cursor = k.cursor := unread.cursor
      have cursor' : n'.cursor = k'.cursor := unread'.cursor
      obtain ⟨n'', advanced, abreast⟩ := abreast_again called later h.2 (by rw [cursor, source])
        (by rw [cursor', source', source]) (by
          rw [cursor', there, source, offset_slot, called.shift, Nat.zero_add]) (again n rfl)
      change Matched _ _ _ _ (advance n')
      rw [advanced]
      exact .done ⟨_, abreast⟩

end

end Relocation

/-! ### The text of a command, and of a call -/

def commandOf (name args rest : Bytes) : Bytes := name ++ Byte.blank :: (args ++ Byte.blank :: rest)

def callOf (name args rest : Bytes) : Bytes :=
  name ++ Byte.openParen :: (args ++ Byte.closeParen :: Byte.blank :: rest)

def commandText (name args rest : String) : String := name ++ " " ++ args ++ " " ++ rest

def callText (name args rest : String) : String := name ++ "(" ++ args ++ ") " ++ rest

theorem encode_commandText (name args rest : String) : Text.encode (commandText name args rest) =
    commandOf (Text.encode name) (Text.encode args) (Text.encode rest) := by
  unfold commandText commandOf
  simp only [Text.encode_append, List.append_assoc]
  rfl

theorem encode_callText (name args rest : String) : Text.encode (callText name args rest) =
    callOf (Text.encode name) (Text.encode args) (Text.encode rest) := by
  unfold callText callOf
  simp only [Text.encode_append, List.append_assoc]
  rfl

section

variable {name args : Bytes} {index : Nat} {duplicate : Bool}

theorem length_commandOf (name args rest : Bytes) :
    (commandOf name args rest).length = name.length + 1 + args.length + (rest.length + 1) := by
  simp only [commandOf, List.length_append, List.length_cons]
  omega

theorem length_callOf (name args rest : Bytes) :
    (callOf name args rest).length = name.length + 1 + args.length + (rest.length + 1) + 1 := by
  simp only [callOf, List.length_append, List.length_cons]
  omega

/-- The exchange of the command for the call, as long as the arguments are read. -/
def Machine.parenthesizing (m : Machine) (name args rest : Bytes) : Relocation :=
  m.exchange (commandOf name args rest) (callOf name args rest) 0 (name.length + 1) 0
    (name.length + 1 + args.length)

theorem fits_parenthesizing (m : Machine) (name args rest : Bytes) :
    (m.parenthesizing name args rest).Fits where
  high := Nat.zero_le _
  reach := by
    change name.length + 1 + args.length ≤ (commandOf name args rest).toArray.size
    rw [List.size_toArray, length_commandOf]
    omega
  room := by
    change 0 + (name.length + 1 + args.length) ≤ (callOf name args rest).toArray.size
    rw [List.size_toArray, length_callOf]
    omega
  bytes i low below := by
    change (callOf name args rest).toArray[0 + i]? = (commandOf name args rest).toArray[i]?
    have low : name.length + 1 ≤ i := low
    have below : i < name.length + 1 + args.length := below
    obtain ⟨j, rfl⟩ : ∃ j, i = name.length + (j + 1) := ⟨i - name.length - 1, by omega⟩
    rw [Nat.zero_add, List.getElem?_toArray, List.getElem?_toArray, callOf, commandOf,
      List.getElem?_append_right (Nat.le_add_right _ _), List.getElem?_append_right (Nat.le_add_right _ _),
      Nat.add_sub_cancel_left, List.getElem?_cons_succ, List.getElem?_cons_succ,
      List.getElem?_append_left (by omega), List.getElem?_append_left (by omega)]
  lines i low high := by
    have low : name.length + 1 ≤ i := low
    have high : i ≤ 0 := high
    omega

/-- What is behind the arguments is one byte further on in the call, in the same lines. -/
theorem fits_behind (m : Machine) (name args rest : Bytes) (routines : Nat) :
    ((m.parenthesizing name args rest).behind routines).Fits where
  high := Nat.le_refl _
  reach := Nat.le_refl _
  room := by
    change 1 + (commandOf name args rest).toArray.size ≤ (callOf name args rest).toArray.size
    rw [List.size_toArray, List.size_toArray, length_commandOf, length_callOf]
    omega
  bytes i low _ := by
    change (callOf name args rest).toArray[1 + i]? = (commandOf name args rest).toArray[i]?
    have low : name.length + 1 + args.length ≤ i := low
    obtain ⟨j, rfl⟩ : ∃ j, i = name.length + (args.length + j + 1) :=
      ⟨i - name.length - args.length - 1, by omega⟩
    rw [List.getElem?_toArray, List.getElem?_toArray, callOf, commandOf, Nat.add_left_comm 1,
      List.getElem?_append_right (Nat.le_add_right _ _), List.getElem?_append_right (Nat.le_add_right _ _),
      Nat.add_sub_cancel_left, Nat.add_sub_cancel_left, Nat.add_comm 1, List.getElem?_cons_succ,
      List.getElem?_cons_succ, Nat.add_assoc, List.getElem?_append_right (Nat.le_add_right _ _),
      List.getElem?_append_right (Nat.le_add_right _ _), Nat.add_sub_cancel_left, Nat.add_sub_cancel_left,
      List.getElem?_cons_succ]
  lines i low _ := by
    change ((callOf name args rest).take (1 + i)).count lineFeed + 1 =
      ((commandOf name args rest).take i).count lineFeed + 1
    have low : name.length + 1 + args.length ≤ i := low
    obtain ⟨j, rfl⟩ : ∃ j, i = name.length + (args.length + j + 1) :=
      ⟨i - name.length - args.length - 1, by omega⟩
    have other : Byte.openParen ≠ lineFeed ∧ Byte.blank ≠ lineFeed ∧ Byte.closeParen ≠ lineFeed := by decide
    rw [callOf, commandOf, Nat.add_left_comm 1, List.take_length_add_append, List.take_length_add_append,
      Nat.add_comm 1, List.take_succ_cons, List.take_succ_cons, Nat.add_assoc, List.take_length_add_append,
      List.take_length_add_append, List.take_succ_cons, List.count_append, List.count_append,
      List.count_cons_of_ne other.1, List.count_cons_of_ne other.2.1, List.count_append, List.count_append,
      List.count_cons_of_ne other.2.2]

/-! ### Whole texts -/

def Machine.atCommand (m : Machine) (name args rest : Bytes) (duplicate : Bool) (index : Nat) : Machine :=
  (m.starting (commandOf name args rest) duplicate).past
    ⟨name.length, Byte.blank :: (args ++ Byte.blank :: rest)⟩ (.symbol index)

def Machine.atCall (m : Machine) (name args rest : Bytes) (duplicate : Bool) (index : Nat) : Machine :=
  (m.starting (callOf name args rest) duplicate).past
    ⟨name.length, Byte.openParen :: (args ++ Byte.closeParen :: Byte.blank :: rest)⟩ (.symbol index)

theorem called_atCommand (intact : m.memory.Intact true)
    (unquoted : ∀ place after, (⟨0, rest⟩ : Scanner).next .argument ≠ (.ok (.quote place), after)) :
    (m.parenthesizing name args rest).Called name.length args rest
      (m.atCommand name args rest duplicate index) (m.atCall name args rest duplicate index) where
  moved := by
    have opened : (m.parenthesizing name args rest).Moved (m.opened (commandOf name args rest))
        (m.opened (callOf name args rest)) := Relocation.moved_opened intact
    exact ((opened.withQuoting .plain).withDuplicate duplicate).place _ _ _ _
  source := congrArg Cursor.source (Machine.cursor_starting m (commandOf name args rest) duplicate)
  source' := (congrArg Cursor.source (Machine.cursor_starting m (callOf name args rest) duplicate)).trans
    (congrArg Source.text (Machine.fst_retain _ _ _))
  here := rfl
  there := rfl
  shift := rfl
  low := rfl
  high := rfl
  reach := rfl
  size := by
    change (commandOf name args rest).toArray.size = _
    rw [List.size_toArray, length_commandOf]
  unquoted place after read := by
    have moved := Scanner.next_shift .argument (name.length + 1 + args.length + 1) ⟨0, rest⟩
    change (⟨name.length + 1 + args.length + 1 + 0, rest⟩ : Scanner).next .argument = _ at moved
    rw [Nat.add_zero, read] at moved
    cases alone : (⟨0, rest⟩ : Scanner).next .argument with
    | mk result after =>
      rw [alone] at moved
      cases result with
      | error complaint => cases moved
      | ok l =>
        have same : Lexeme.quote place = l.shift _ := Except.ok.inj (congrArg Prod.fst moved)
        cases l with
        | quote place => exact unquoted place after alone
        | _ => cases same

/-- A native that is called as a statement, and what follows. -/
theorem loop_native {s : Symbol Native} {native : Native} {arity : Nat} (passes : Nat)
    (symbol : m.token = .symbol index) (found : m.arena.symbols[index]? = some s)
    (tag : s.tag = .native native arity) :
    Eval.loop (Statement.turn r) (passes + 1) () m = (do
      Call.asStatement r s
      Statement.passSeparator
      Eval.loop (Statement.turn r) passes () : Eval Ending) m := by
  have stated : Statement.statement r m = (do Call.asStatement r s; return .ranOut : Eval Ending) m := by
    rw [Statement.statement, token_bind, symbol]
    dsimp only
    rw [bind_of_done (symbolAt_of_some found), tag]
  have turn : Statement.statementTurn r m = (Call.asStatement r s m).andThen fun _ n =>
      (Statement.passSeparator n).andThen fun _ k => .done (.again ()) k := by
    rw [Statement.statementTurn, bind_apply, stated, bind_apply]
    cases Call.asStatement r s m <;> rfl
  rw [Eval.loop, Statement.turn_statement r (by simp [symbol]) (by simp [symbol]), turn, bind_apply]
  cases Call.asStatement r s m with
  | failed e n => rfl
  | stopped why n => rfl
  | done _ n =>
    dsimp only [Outcome.andThen]
    rw [bind_apply]
    cases Statement.passSeparator n <;> rfl

/-- How a native takes its arguments on a machine that has its name before it. Their first token begins an
expression that is not in parentheses. On some budget, what is read for them ends at the place `close`. And
the token behind, once the native has run, would be read the same again. -/
structure Machine.TakesArguments (m : Machine) (world : World) (s : Symbol Native) (close : Nat)
    (rest : Bytes) : Prop where
  starts : ∀ n, advance { m with quoting := .argument } = .done () n →
    n.token ≠ .openParen ∧ startsExpression n = .done true n
  ends : ∃ fuel, (Call.argumentsAfterCommand (.ofFuel world fuel) { m with quoting := .argument }).EndsAt close
  again : ∀ fuel n, Call.asStatement (.ofFuel world fuel) s m = .done () n →
    advance { n with cursor := { n.cursor with scanner := ⟨close, Byte.blank :: rest⟩ } } = .done () n

/-- The text is a command: the name of a native, its arguments, and something behind them that does not begin
with a quotation. -/
structure Machine.Commands (m : Machine) (world : World) (duplicate : Bool) (name args rest : Bytes)
    (index : Nat) (s : Symbol Native) : Prop where
  token : Scanner.IsToken name
  known : m.index? name = some index
  found : m.arena.symbols[index]? = some s
  native : ∃ native arity, s.tag = .native native arity
  takes : (m.atCommand name args rest duplicate index).TakesArguments world s
    (name.length + 1 + args.length) rest
  unquoted : ∀ place after, (⟨0, rest⟩ : Scanner).next .argument ≠ (.ok (.quote place), after)

variable {world : World} {s : Symbol Native}

/-- The text of the command and that of the call, from their first token on. -/
theorem stay_sequence {fuel : Nat} (intact : m.memory.Intact true)
    (command : m.Commands world duplicate name args rest index s)
    (ends : (Call.argumentsAfterCommand (.ofFuel world fuel)
      { m.atCommand name args rest duplicate index with quoting := .argument }).EndsAt
        (name.length + 1 + args.length)) :
    ∃ τ : Relocation, τ.Fits ∧ τ.slot = (m.texts.retain (commandOf name args rest).toArray).1 ∧
      τ.Stay (Statement.sequence (.ofFuel world fuel) fuel (m.starting (commandOf name args rest) duplicate))
        (Statement.sequence (.ofFuel world fuel) fuel (m.starting (callOf name args rest) duplicate)) := by
  obtain ⟨token, known, found, ⟨native, arity, tag⟩, ⟨starts, -, again⟩, unquoted⟩ := command
  have fits := fits_parenthesizing m name args rest
  have later := fits_behind m name args rest
  have called : (m.parenthesizing name args rest).Called name.length args rest
      (m.atCommand name args rest duplicate index) (m.atCall name args rest duplicate index) :=
    called_atCommand intact unquoted
  have first : advance (m.starting (commandOf name args rest) duplicate) =
      .done () (m.atCommand name args rest duplicate index) :=
    Machine.advance_starting intact token known Byte.delimits_blank _ duplicate
  have first' : advance (m.starting (callOf name args rest) duplicate) =
      .done () (m.atCall name args rest duplicate index) :=
    Machine.advance_starting intact token known Byte.delimits_openParen _ duplicate
  rw [Statement.sequence, bind_apply, bind_apply, first, first']
  change ∃ τ : Relocation, _ ∧ _ ∧ τ.Stay (Eval.loop _ fuel () _) (Eval.loop _ fuel () _)
  cases fuel with
  | zero => exact ⟨_, fits, rfl, .stopped⟩
  | succ passes =>
    have matched := Relocation.matched_asStatement fits (Relocation.relocates_ofFuel fits world (passes + 1))
      called later found (by simp [tag]) starts ends (again _)
    have found' := called.moved.symbols index
    rw [show (m.atCommand name args rest duplicate index).arena.symbols[index]? = some s from found] at found'
    rw [loop_native (m := m.atCommand name args rest duplicate index) passes rfl found tag,
      loop_native (m := m.atCall name args rest duplicate index) passes rfl found' tag, bind_apply, bind_apply]
    generalize Call.asStatement _ s _ = o at matched ⊢
    generalize Call.asStatement _ _ _ = o' at matched ⊢
    cases matched with
    | apart h => exact h.elim
    | failed moved => exact ⟨_, fits, rfl, .failed moved⟩
    | stopped => exact ⟨_, fits, rfl, .stopped⟩
    | done h =>
      obtain ⟨routines, abreast⟩ := h
      have level := Manner.level_outer none
      have relocates := Relocation.relocates_ofFuel (later routines) world (passes + 1)
      have passed := Relocation.Follow.of_tandem
        ((relocates.discipline (later routines) _).passSeparator level abreast (abreast.not_seam level rfl))
      have rest := Relocation.Follow.bind passed (.inl level) fun abreast =>
        Relocation.follow_turns (later routines) relocates level rfl passes abreast
      exact ⟨_, later routines, rfl, rest.stay level rfl Relocation.Abreast.moved⟩

end

/-! ### Seen from outside -/

/-- Two outcomes: the same success, errors of the same kind, or the same reason to stop. What has been
written, the symbols and the result are the same, unless the computations were stopped. -/
inductive Outcome.AlikeInKind : Outcome α → Outcome α → Prop where
  | done (a : α) {n n' : Machine} (h : n.Alike n') : AlikeInKind (.done a n) (.done a n')
  | failed {e e' : Error} {n n' : Machine} (kind : e'.kind = e.kind) (h : n.Alike n') :
    AlikeInKind (.failed e n) (.failed e' n')
  | stopped (why : Stop) {n n' : Machine} : AlikeInKind (.stopped why n) (.stopped why n')

theorem Outcome.AlikeInKind.outOfFuel_iff {o o' : Outcome α} (h : o.AlikeInKind o') :
    o.OutOfFuel ↔ o'.OutOfFuel := by
  cases h with
  | stopped why => cases why <;> exact Iff.rfl
  | _ => exact Iff.rfl

theorem Machine.Alike.writeErr (h : n.Alike n') (bytes bytes' : Bytes) :
    (n.write .err bytes).Alike (n'.write .err bytes') := by
  have same : ∀ (m : Machine) bytes, (m.write .err bytes).written .out = m.written .out := fun m bytes => by
    unfold Machine.write Machine.written
    simp
  exact ⟨by rw [same, same, h.out], h.result, h.symbols⟩

namespace Relocation

variable {τ : Relocation}

theorem Moved.alike (fits : τ.Fits) (h : τ.Moved n n') : n.Alike n' := by
  cases h with
  | put settled => exact ⟨rfl, rfl, symbolList_put fits settled⟩

theorem store_release (m : Machine) (slot : Nat) (source : Source) :
    (m.withTexts (m.texts.release slot)).store source =
      if source = .text slot then #[] else m.store source := by
  cases source with
  | fixed bytes => rfl
  | durable => rfl
  | text i =>
    change ((m.texts.release slot).text? i).getD #[] = _
    rw [Texts.text?_release]
    by_cases same : i = slot
    · rw [if_pos same, if_pos (congrArg _ same)]
      rfl
    · rw [if_neg same, if_neg (mt Source.text.inj same)]
      rfl

theorem bytesIn_empty (s : Slice) : s.bytesIn #[] = [] := by
  unfold Slice.bytesIn
  split
  · simp
  · rfl

/-- Where the texts are gone that differ, nothing of them is seen. -/
theorem Moved.alike_release (h : τ.Moved n n') :
    (n.withTexts (n.texts.release τ.slot)).Alike (n'.withTexts (n'.texts.release τ.slot)) := by
  refine ⟨?_, ?_, ?_⟩
  · cases h
    rfl
  · cases h
    rfl
  · have symbols : n'.arena.symbols = n.arena.symbols.map τ.symbol := by
      rw [h.arena]
      rfl
    unfold Machine.symbolList
    change n'.arena.symbols.toList.map _ = n.arena.symbols.toList.map _
    rw [symbols, Array.toList_map, List.map_map]
    refine List.map_congr_left fun s _ => ?_
    have read : (n'.withTexts (n'.texts.release τ.slot)).bytes (τ.slice s.name) =
        (n.withTexts (n.texts.release τ.slot)).bytes s.name := by
      change (τ.slice s.name).bytesIn ((n'.withTexts _).store s.name.source) =
        s.name.bytesIn ((n.withTexts _).store s.name.source)
      rw [store_release, store_release]
      by_cases same : s.name.source = .text τ.slot
      · rw [if_pos same, if_pos same, bytesIn_empty, bytesIn_empty]
      · rw [if_neg same, if_neg same, h.store, if_neg same, slice_of_ne τ same]
    exact congrArg (fun bytes => (bytes, s.tag.shape, s.value)) read

end Relocation

section

variable {text text' : Bytes} {duplicate : Bool}

theorem alike_closing {τ : Relocation} (fits : τ.Fits) (slot : τ.slot = (m.texts.retain text.toArray).1)
    (h : τ.Moved n n') : (m.closing text duplicate n).Alike (m.closing text' duplicate n') := by
  have depth : n'.depth = n.depth := by
    cases h
    rfl
  have back : τ.Moved { n.backAt m with depth := n.depth - 1 } { n'.backAt m with depth := n'.depth - 1 } := by
    rw [depth]
    exact (((h.withQuoting m.quoting).withDuplicate m.duplicate).place m.cursor m.cursor m.token
      m.token).withDepth _
  unfold Machine.closing
  cases duplicate with
  | false => exact back.alike fits
  | true =>
    rw [Machine.fst_retain m.texts text'.toArray text.toArray, ← slot]
    exact back.alike_release

/-- What becomes of two texts whose statements do the same. -/
theorem alikeInKind_conclude {τ : Relocation} (fits : τ.Fits)
    (slot : τ.slot = (m.texts.retain text.toArray).1) {o o' : Outcome α} (stay : τ.Stay o o') :
    (m.conclude text duplicate o).AlikeInKind (m.conclude text' duplicate o') := by
  unfold Machine.conclude reporting
  cases stay with
  | done h =>
    obtain ⟨rfl, moved⟩ := h
    exact .done _ (alike_closing fits slot moved)
  | @failed e n n' moved =>
    have depth : (m.closing text' duplicate n').depth = (m.closing text duplicate n).depth := by
      cases moved
      unfold Machine.closing
      cases duplicate <;> rfl
    have kind : (n'.locate e).kind = (n.locate e).kind := (n'.locate_eq e).1.trans (n.locate_eq e).1.symm
    have alike : (m.closing text duplicate n).Alike (m.closing text' duplicate n') :=
      alike_closing fits slot moved
    dsimp only [Outcome.adjustError, Outcome.adjust]
    rw [depth]
    split
    · exact .failed kind (alike.writeErr _ _)
    · exact .failed kind alike
  | stopped => exact .stopped _
  | apart h => exact h.elim

end

/-! ### Commands and calls -/

/-- More fuel makes no difference to arguments that have an end. -/
theorem endsAt_of_le {world : World} {fuel more : Nat} (h : fuel ≤ more)
    (ends : (Call.argumentsAfterCommand (.ofFuel world fuel) m).EndsAt close) :
    (Call.argumentsAfterCommand (.ofFuel world more) m).EndsAt close := by
  have enough : ¬ (Call.argumentsAfterCommand (.ofFuel world fuel) m).OutOfFuel := by
    generalize Call.argumentsAfterCommand (.ofFuel world fuel) m = o at ends
    cases ends with
    | @stopped why n enough =>
      cases why with
      | outOfFuel => exact absurd rfl enough
      | unanswered question => exact id
    | _ => exact id
  have below := (Reentry.ofFuel_below world h).argumentsAfterCommand m
  rw [← below.eq enough]
  exact ends

variable {world : World} {duplicate : Bool} {index : Nat} {s : Symbol Native} {name args rest : String}

/-- On a budget on which the arguments have an end. -/
theorem alikeInKind_of_ends {fuel : Nat} (reachable : m.HonestlyReachable)
    (command : m.Commands world duplicate (Text.encode name) (Text.encode args) (Text.encode rest) index s)
    (ends : (Call.argumentsAfterCommand (.ofFuel world fuel)
      { m.atCommand (Text.encode name) (Text.encode args) (Text.encode rest) duplicate index with
        quoting := .argument }).EndsAt ((Text.encode name).length + 1 + (Text.encode args).length)) :
    (evalText world (fuel + 1) (commandText name args rest) duplicate true m).AlikeInKind
      (evalText world (fuel + 1) (callText name args rest) duplicate true m) := by
  obtain ⟨τ, fits, slot, stay⟩ := stay_sequence reachable.intact command ends
  have alike : (m.conclude _ duplicate _).AlikeInKind
      (m.conclude (Text.encode (callText name args rest)) duplicate _) :=
    alikeInKind_conclude fits slot stay
  rw [← encode_commandText, ← encode_callText, ← evalTextEnding_succ, ← evalTextEnding_succ] at alike
  rw [evalText_eq, evalText_eq, bind_apply, bind_apply]
  generalize evalTextEnding world (fuel + 1) _ duplicate m = o at alike ⊢
  generalize evalTextEnding world (fuel + 1) _ duplicate m = o' at alike ⊢
  cases alike with
  | done _ h => exact .done () h
  | failed kind h => exact .failed kind h
  | stopped why => exact .stopped why

/-- A name behind the arguments is read the same again if it still stands for the same symbol. -/
theorem advance_again {rest : Bytes} {place : Span} (mark : n.cursor.mark = close)
    (symbol : n.token = .symbol index)
    (read : (⟨close, Byte.blank :: rest⟩ : Scanner).next n.quoting = (.ok (.name place), n.cursor.scanner))
    (known : n.index? (n.bytes (.ofSpan n.cursor.source place)) = some index) :
    advance { n with cursor := { n.cursor with scanner := ⟨close, Byte.blank :: rest⟩ } } = .done () n := by
  generalize hk : ({ n with cursor := { n.cursor with scanner := ⟨close, Byte.blank :: rest⟩ } } : Machine) = k
  have past : k.past n.cursor.scanner (.symbol index) = n := by
    subst hk
    rw [← symbol, Machine.past, ← mark]
  have memory : (k.past n.cursor.scanner k.token).memory = n.memory := by
    subst hk
    rfl
  have read : k.cursor.scanner.next k.quoting = (.ok (.name place), n.cursor.scanner) := by
    subst hk
    exact read
  have known : (k.past n.cursor.scanner k.token).index? ((k.past n.cursor.scanner k.token).bytes
      (.ofSpan k.cursor.source place)) = some index := by
    rw [index?_congr memory]
    subst hk
    exact known
  exact (Machine.advance_eq_past read (Machine.resolve_known (.inl rfl) known)).trans (congrArg _ past)

def Outcome.doneWith (holds : α → Machine → Bool) : Outcome α → Bool
  | .done a n => holds a n
  | _ => false

theorem Outcome.of_doneWith {holds : α → Machine → Bool} {o : Outcome α} (h : o.doneWith holds = true) :
    ∃ a n, o = .done a n ∧ holds a n = true := by
  cases o with
  | done a n => exact ⟨a, n, rfl, h⟩
  | _ => cases h

/-- The machine has read a name at this place, and would read the same again. -/
def Machine.rereads (n : Machine) (close : Nat) (rest : Bytes) : Bool :=
  match (⟨close, Byte.blank :: rest⟩ : Scanner).next n.quoting, n.token with
  | (.ok (.name place), after), .symbol index =>
    n.cursor.mark = close && after = n.cursor.scanner &&
      n.index? (n.bytes (.ofSpan n.cursor.source place)) = some index
  | _, _ => false

theorem advance_of_rereads {rest : Bytes} (h : n.rereads close rest = true) :
    advance { n with cursor := { n.cursor with scanner := ⟨close, Byte.blank :: rest⟩ } } = .done () n := by
  unfold Machine.rereads at h
  split at h
  · next place after index read symbol =>
    obtain ⟨both, known⟩ := Bool.and_eq_true_iff.mp h
    obtain ⟨mark, same⟩ := Bool.and_eq_true_iff.mp both
    cases of_decide_eq_true same
    exact advance_again (of_decide_eq_true mark) symbol read (of_decide_eq_true known)
  · cases h

/-- All that is to be computed to see that a text is a command. -/
def Machine.showsCommand (m : Machine) (world : World) (duplicate : Bool) (name args rest : Bytes) : Bool :=
  (m.index? name).any fun index => m.arena.symbols[index]?.any fun s =>
    let start := m.atCommand name args rest duplicate index
    let close := name.length + 1 + args.length
    (s.tag matches .native _ _) &&
      (advance { start with quoting := .argument }).doneWith (fun _ n =>
        n.token ≠ .openParen && (startsExpression n).doneWith fun starts _ => starts) &&
      (Call.argumentsAfterCommand (.ofFuel world 20) { start with quoting := .argument }).doneWith
        (fun _ n => n.cursor.mark = close) &&
      (Call.asStatement (.ofFuel world 20) s start).doneWith fun _ n => n.rereads close rest

theorem commands_of_shown {name args rest : Bytes} (token : Scanner.IsToken name)
    (unquoted : ∀ place after, (⟨0, rest⟩ : Scanner).next .argument ≠ (.ok (.quote place), after))
    (shown : m.showsCommand world duplicate name args rest = true) :
    ∃ index s, m.Commands world duplicate name args rest index s := by
  obtain ⟨index, known, shown⟩ := (Option.any_eq_true _ _).mp shown
  obtain ⟨s, found, shown⟩ := (Option.any_eq_true _ _).mp shown
  obtain ⟨shown, again⟩ := Bool.and_eq_true_iff.mp shown
  obtain ⟨shown, ends⟩ := Bool.and_eq_true_iff.mp shown
  obtain ⟨native, starts⟩ := Bool.and_eq_true_iff.mp shown
  refine ⟨index, s, token, known, found, ?_, ⟨fun n read => ?_, ⟨20, ?_⟩, fun fuel n ran => ?_⟩, unquoted⟩
  · split at native
    · next action arity tag => exact ⟨action, arity, tag⟩
    · cases native
  · obtain ⟨u, n', read', holds⟩ := Outcome.of_doneWith starts
    cases read.symm.trans read'
    obtain ⟨other, starts⟩ := Bool.and_eq_true_iff.mp holds
    obtain ⟨begins, k, asked, rfl⟩ := Outcome.of_doneWith starts
    obtain rfl := still_startsExpression.done asked
    exact ⟨of_decide_eq_true other, asked⟩
  · obtain ⟨count, n, ran, mark⟩ := Outcome.of_doneWith ends
    rw [ran]
    exact .done (of_decide_eq_true mark)
  · obtain ⟨u, n', ran', rereads⟩ := Outcome.of_doneWith again
    have same := Reentry.eq_of_enough (fun below => below.asStatement s) (by rw [ran]; exact id)
      (by rw [ran']; exact id)
    cases (ran.symm.trans same).trans ran'
    exact advance_of_rereads rereads

def definingWorld : World
  | _, .fileContents _ => some (.contents (Text.encode "var x = 5"))
  | _, _ => none

/-- What has become of a computation: no error, or an error of a kind. -/
def Outcome.kind? : Outcome α → Option (Option ErrorKind)
  | .done _ _ => some none
  | .failed e _ => some (some e.kind)
  | .stopped _ _ => none

theorem Outcome.AlikeInKind.kind?_eq {o o' : Outcome α} (h : o.AlikeInKind o') : o'.kind? = o.kind? := by
  cases h with
  | done => rfl
  | failed kind => exact congrArg (fun k => some (some k)) kind
  | stopped => rfl

theorem Outcome.not_outOfFuel {o : Outcome α} {kind : Option ErrorKind} (h : o.kind? = some kind) :
    ¬ o.OutOfFuel := by
  cases o with
  | stopped why n => cases h
  | _ => exact id

/-- The name is that of a native, and to call it is not the same as to command it. -/
def Machine.Parts (m : Machine) (world : World) (name args rest : String) : Prop :=
  (∃ s native arity, m.lookup? name = some s ∧ s.tag = .native native arity) ∧
    ∃ o o', m.Evaluates world (commandText name args rest) false o ∧
      m.Evaluates world (callText name args rest) false o' ∧ ¬ o.AlikeInKind o'

def Machine.parts (m : Machine) (world : World) (name args rest : String) (kind kind' : Option ErrorKind) :
    Bool :=
  (m.lookup? name).any (·.tag matches .native _ _) &&
    (evalText world 20 (commandText name args rest) false true m).kind? = some kind &&
    (evalText world 20 (callText name args rest) false true m).kind? = some kind'

theorem of_parts {kind kind' : Option ErrorKind} (h : m.parts world name args rest kind kind' = true)
    (differ : kind' ≠ kind) : m.Parts world name args rest := by
  obtain ⟨both, called⟩ := Bool.and_eq_true_iff.mp h
  obtain ⟨native, commanded⟩ := Bool.and_eq_true_iff.mp both
  obtain ⟨s, found, native⟩ := (Option.any_eq_true _ _).mp native
  have called := of_decide_eq_true called
  have commanded := of_decide_eq_true commanded
  refine ⟨?_, _, _, ⟨⟨20, rfl⟩, Outcome.not_outOfFuel commanded⟩, ⟨⟨20, rfl⟩, Outcome.not_outOfFuel called⟩,
    fun alike => differ ?_⟩
  · split at native
    · next action arity tag => exact ⟨s, action, arity, found, tag⟩
    · cases native
  · have same := alike.kind?_eq
    rw [called, commanded] at same
    exact Option.some.inj same

end Scriptlet
