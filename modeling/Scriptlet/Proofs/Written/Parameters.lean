import Scriptlet.Proofs.Written.Keeping

/-!
Parameters are read as they are written. Each part of a definition is read by one look at one lexeme, so
there are two things to say of it: where it is done, the lexemes were those of the part, and what it kept
reads as they do (`Outcome.Parses`); and where these lexemes come next and there is room for what is kept, it
is done. A list of names is the only part that can be too long, and that it is too long is said just where
the names are more than there is room for.
-/

namespace Scriptlet

open Eval Statement

variable {α β : Type} {m n : Machine} {text : Scanner} {l : Lexeme}

/-! ### One lexeme, read raw -/

/-- The token of a lexeme that is read raw, where that does not depend on the table. -/
def Lexeme.rawToken? (source : Source) : Lexeme → Option Token
  | .eof => some .eof
  | .newline => some .separator
  | .semicolon => some .separator
  | .comma => some .comma
  | .openParen => some .openParen
  | .closeParen => some .closeParen
  | .number value => some (.number value)
  | .name place => some (.name (.ofSpan source place))
  | .operator _ => none
  | .block inside => some (.text (.ofSpan source inside))
  | .quote inside => some (.text (.ofSpan source inside))

/-- The lexemes that stand around names in a list, with their tokens. -/
inductive Lexeme.Marks : Lexeme → Token → Prop where
  | comma : Marks .comma .comma
  | openParen : Marks .openParen .openParen
  | closeParen : Marks .closeParen .closeParen

/-- The token is what a lexeme of the text was read as. -/
structure Machine.HasRead (n : Machine) (text : Scanner) (l : Lexeme) : Prop extends n.ReadsIn text where
  token : l.rawToken? n.cursor.source = some n.token ∨
    l.rawToken? n.cursor.source = none ∧ ∃ index, n.token = .symbol index
  recalls : ∀ {place}, l.place? = some place → n.Recalls text (.ofSpan n.cursor.source place) place

namespace Machine.HasRead

variable {slice : Slice} (h : n.HasRead text l)

include h

/-- A token that is no symbol is that of its lexeme. -/
theorem raw (other : ∀ index, n.token ≠ .symbol index) : l.rawToken? n.cursor.source = some n.token := by
  rcases h.token with raw | ⟨-, index, symbol⟩
  · exact raw
  · exact absurd symbol (other index)

theorem mark {mark : Lexeme} {token : Token} (marks : mark.Marks token) (same : n.token = token) :
    l = mark := by
  have other : ∀ index, token ≠ .symbol index := fun index isSymbol => by
    subst isSymbol
    cases marks
  have raw := h.raw (same ▸ other)
  rw [same] at raw
  cases marks <;> cases l <;> first | rfl | cases raw

theorem name (token : n.token = .name slice) :
    ∃ place, l = .name place ∧ slice.source = n.cursor.source ∧ n.Recalls text slice place := by
  have raw := h.raw (by simp [token])
  rw [token] at raw
  cases l <;> cases raw
  exact ⟨_, rfl, rfl, h.recalls rfl⟩

theorem body (token : n.token = .text slice) :
    ∃ inside, l.body? = some inside ∧ slice.source = n.cursor.source ∧ n.Recalls text slice inside := by
  have raw := h.raw (by simp [token])
  rw [token] at raw
  cases l <;> cases raw <;> exact ⟨_, rfl, rfl, h.recalls rfl⟩

end Machine.HasRead

theorem resolve_of_rawToken {token : Token} (plain : m.quoting = .plain)
    (raw : l.rawToken? m.cursor.source = some token) : resolve true l m = .done token m := by
  cases l with
  | operator place => cases raw
  | quote inside =>
    cases raw
    simp only [resolve, plain]
  | _ =>
    cases raw
    rfl

theorem resolve_of_no_rawToken (raw : l.rawToken? m.cursor.source = none) :
    (∃ index, resolve true l m = .done (.symbol index) m) ∨
      resolve true l m = .failed (.ofComplaint .unknownOperator) m := by
  cases l with
  | operator place =>
    simp only [resolve]
    split
    · exact .inl ⟨_, rfl⟩
    · exact .inr rfl
  | _ => cases raw

/-- A lexeme is read, or there is none, or it is an operator that is not known. -/
theorem advanceRaw_cases (h : m.ReadsIn text) :
    (∃ l n, advanceRaw m = .done () n ∧ m.cursor.scanner.next .plain = (.ok l, n.cursor.scanner) ∧
      n.HasRead text l ∧ n.arena = m.arena) ∨
    ∃ complaint n, advanceRaw m = .failed (.ofComplaint complaint) n ∧
      ∀ l after, m.cursor.scanner.next .plain = (.ok l, after) → l.rawToken? m.cursor.source = none := by
  cases read : m.cursor.scanner.next .plain with
  | mk result after =>
    cases result with
    | error complaint =>
      have failed := readLexeme_of_error (m := m) (h.plain ▸ read)
      exact .inr ⟨complaint, _, bind_of_failed failed _, fun _ _ read' => by cases read'⟩
    | ok l =>
      have lexed := readLexeme_of_ok (m := m) (h.plain ▸ read)
      have ran : advanceRaw m =
          (resolve true l (m.readTo after)).andThen fun token n => .done () { n with token } :=
        bind_of_done lexed _
      have reads : ∀ token, Machine.ReadsIn { m.readTo after with token } text := fun token =>
        ⟨h.plain, h.faithful.further (Scanner.further_next read), h.further.trans (Scanner.further_next read)⟩
      have recalls : ∀ {place}, l.place? = some place →
          m.Recalls text (.ofSpan m.cursor.source place) place := h.recalls read
      cases raw : l.rawToken? m.cursor.source with
      | some token =>
        have resolved : resolve true l (m.readTo after) = .done token (m.readTo after) :=
          resolve_of_rawToken h.plain raw
        rw [resolved] at ran
        exact .inl ⟨l, _, ran, rfl, ⟨reads token, .inl raw, fun hplace => ⟨(recalls hplace).held,
          (recalls hplace).bytes⟩⟩, rfl⟩
      | none =>
        rcases resolve_of_no_rawToken (m := m.readTo after) raw with ⟨index, resolved⟩ | unknown
        · rw [resolved] at ran
          exact .inl ⟨l, _, ran, rfl, ⟨reads _, .inr ⟨raw, index, rfl⟩, fun hplace =>
            ⟨(recalls hplace).held, (recalls hplace).bytes⟩⟩, rfl⟩
        · rw [unknown] at ran
          exact .inr ⟨_, _, ran, fun l' after' read' => by cases read'; exact raw⟩

theorem advanceRaw_of_next {token : Token} {after : Scanner} (h : m.ReadsIn text)
    (read : m.cursor.scanner.next .plain = (.ok l, after)) (raw : l.rawToken? m.cursor.source = some token) :
    ∃ n, advanceRaw m = .done () n ∧ n.cursor.scanner = after ∧ n.token = token ∧ n.HasRead text l ∧
      n.arena = m.arena := by
  rcases advanceRaw_cases h with ⟨l', n, done, read', hasRead, arena⟩ | ⟨complaint, n, -, other⟩
  · rw [read] at read'
    cases read'
    refine ⟨n, done, rfl, ?_, hasRead, arena⟩
    have same := hasRead.token
    rw [((proceeds_advanceBy true).done done).source, raw] at same
    rcases same with same | ⟨none, -⟩
    · cases same
      rfl
    · cases none
  · rw [other l after read] at raw
    cases raw

/-! ### What is done, and what is too long -/

/-- What is done satisfies the condition, and what fails because of too many arguments is too long. -/
def Outcome.Parses (Q : α → Machine → Prop) (long : Prop) : Outcome α → Prop
  | .done a n => Q a n
  | .failed error _ => error.kind = .tooManyArguments → long
  | .stopped _ _ => False

theorem Outcome.Parses.mono {Q S : α → Machine → Prop} {long long' : Prop} {o : Outcome α}
    (h : o.Parses Q long) (hQ : ∀ a n, Q a n → S a n) (hlong : long → long') : o.Parses S long' := by
  cases o with
  | done a n => exact hQ a n h
  | failed error n => exact fun kind => hlong (h kind)
  | stopped why n => exact h

theorem parses_bind {x : Eval α} {f : α → Eval β} {Q : α → Machine → Prop} {S : β → Machine → Prop}
    {long : Prop} (hx : (x m).Parses Q long)
    (hf : ∀ a n, x m = .done a n → Q a n → (f a n).Parses S long) : ((x >>= f) m).Parses S long := by
  cases run : x m with
  | done a n =>
    rw [run] at hx
    rw [bind_of_done run]
    exact hf a n run hx
  | failed error n =>
    rw [run] at hx
    rw [bind_of_failed run]
    exact hx
  | stopped why n =>
    rw [run] at hx
    exact hx.elim

theorem parses_complain {Q : α → Machine → Prop} {long : Prop} (complaint : Complaint) (m : Machine) :
    (complain complaint m : Outcome α).Parses Q long := fun kind => by cases kind

theorem parses_advanceRaw {long : Prop} (h : m.ReadsIn text) : (advanceRaw m).Parses
    (fun _ n => ∃ l, m.cursor.scanner.next .plain = (.ok l, n.cursor.scanner) ∧ n.HasRead text l) long := by
  rcases advanceRaw_cases h with ⟨l, n, done, read, hasRead, -⟩ | ⟨complaint, n, failed, -⟩
  · rw [done]
    exact ⟨l, read, hasRead⟩
  · rw [failed]
    exact fun kind => by cases kind

theorem parses_keep {long : Prop} {slice : Slice} {place : Span} (h : m.Recalls text slice place)
    (source : slice.source = m.cursor.source) : (keep slice m).Parses
    (fun kept n => n.Recalls text kept place ∧ n.cursor = m.cursor) long := by
  rcases keep_of_recalls h source with ⟨kept, n, done, recalls, cursor, -⟩ | ⟨failed, -⟩
  · rw [done]
    exact ⟨recalls, cursor⟩
  · rw [failed]
    exact fun kind => by cases kind

theorem parses_definedName {long : Prop} (h : m.HasRead text l) : (definedName m).Parses
    (fun name n => ∃ place, l = .name place ∧ n.Recalls text name place ∧ n.cursor = m.cursor) long := by
  unfold definedName
  rw [token_bind]
  cases token : m.token with
  | name slice =>
    obtain ⟨place, isName, source, recalls⟩ := h.name token
    exact (parses_keep recalls source).mono (fun _ _ kept => ⟨place, isName, kept⟩) id
  | _ => exact parses_complain _ m

theorem parses_definedBody {long : Prop} (h : m.HasRead text l) : (definedBody m).Parses
    (fun body n => ∃ inside, l.body? = some inside ∧ n.Recalls text body inside ∧ n.cursor = m.cursor)
    long := by
  unfold definedBody
  rw [token_bind]
  cases token : m.token with
  | text slice =>
    obtain ⟨inside, isBody, source, recalls⟩ := h.body token
    exact (parses_keep recalls source).mono (fun _ _ kept => ⟨inside, isBody, kept⟩) id
  | _ => exact parses_complain _ m

/-! ### Lists of names -/

def namesFrom (room : Nat) : Eval (List Slice) := do
  advanceRaw
  parameters room

def namesAfter (room : Nat) : Eval (List Slice) := do
  match ← token with
  | .comma => namesFrom room
  | .closeParen => parameters room
  | _ => complain .expectedClose

theorem parameters_of_closeParen (room : Nat) (token : m.token = .closeParen) :
    parameters room m = .done [] m := by
  cases room with
  | zero =>
    rw [parameters, token_bind, token]
    rfl
  | succ room =>
    rw [parameters, token_bind, token]
    rfl

theorem namesAfter_of_comma (room : Nat) (token : m.token = .comma) :
    namesAfter room m = namesFrom room m := by
  rw [namesAfter, token_bind, token]

theorem namesAfter_of_closeParen (room : Nat) (token : m.token = .closeParen) :
    namesAfter room m = .done [] m := by
  rw [namesAfter, token_bind, token]
  exact parameters_of_closeParen room token

theorem parameters_succ (room : Nat) (open_ : m.token ≠ .closeParen) : parameters (room + 1) m = (do
    let name ← definedName
    advanceRaw
    let more ← namesAfter room
    return name :: more) m := by
  rw [parameters, token_bind, if_neg open_]
  refine congrArg (fun f => (definedName >>= f) m) (funext fun name => ?_)
  refine congrArg (advanceRaw >>= ·) (funext fun _ => ?_)
  unfold namesAfter
  rw [Eval.bind_assoc]
  refine congrArg (Eval.token >>= ·) (funext fun token => ?_)
  cases token with
  | comma =>
    exact (Eval.bind_assoc advanceRaw (fun _ => parameters room) fun more => pure (name :: more)).symm
  | _ => rfl

theorem proceeds_parameters (room : Nat) : Keeps Proceeds (parameters room) :=
  proceeds_track.parameters proceeds_naming.keep proceeds_naming.advanceRaw room

theorem proceeds_namesFrom (room : Nat) : Keeps Proceeds (namesFrom room) :=
  proceeds_track.bind proceeds_naming.advanceRaw fun _ => proceeds_parameters room

theorem proceeds_namesAfter (room : Nat) : Keeps Proceeds (namesAfter room) := by
  refine proceeds_track.bind (proceeds_track.still (still_read _)) fun token => ?_
  split
  · exact proceeds_namesFrom room
  · exact proceeds_parameters room
  · exact proceeds_track.still (still_fail _)

/-- A list of names is taken as it is written, and is too long only if there is no room for one of them. -/
theorem parses_namesFrom (room : Nat) (h : m.ReadsIn text) : (namesFrom room m).Parses
    (fun params n => ∃ places list, NameList places list ∧ places.length ≤ room ∧
      m.cursor.scanner.Lexes (list ++ [.closeParen]) n.cursor.scanner ∧
      List.Forall₂ (n.Recalls text) params places)
    (∃ names, m.cursor.scanner.Crowded room names) := by
  induction room generalizing m with
  | zero =>
    refine parses_bind (parses_advanceRaw h) fun _ m₁ _ ⟨l, ahead, hasRead⟩ => ?_
    rw [parameters, token_bind]
    cases token : m₁.token with
    | closeParen =>
      obtain rfl := hasRead.mark .closeParen token
      exact ⟨[], [], .nil, Nat.le_refl 0, .single ahead, .nil⟩
    | name slice =>
      obtain ⟨place, rfl, -⟩ := hasRead.name token
      exact fun _ => ⟨[], rfl, place, _, .single ahead⟩
    | _ => exact parses_complain _ m₁
  | succ room ih =>
    refine parses_bind (parses_advanceRaw h) fun _ m₁ _ ⟨l, ahead, hasRead⟩ => ?_
    by_cases closing : m₁.token = .closeParen
    · obtain rfl := hasRead.mark .closeParen closing
      rw [parameters_of_closeParen _ closing]
      exact ⟨[], [], .nil, Nat.zero_le _, .single ahead, .nil⟩
    rw [parameters_succ room closing]
    refine parses_bind (parses_definedName hasRead) fun name m₂ named ⟨place, isName, recalls, cursor⟩ => ?_
    subst isName
    rw [← cursor] at ahead
    have named := (proceeds_naming.definedName.done named).readsIn hasRead.toReadsIn
    refine parses_bind (parses_advanceRaw named) fun _ m₃ advanced ⟨l', ahead', hasRead'⟩ => ?_
    have recalls := recalls.grows (proceeds_naming.advanceRaw.done advanced).grows
    -- a comma may come behind the name, and then more names, or the end of the list
    have rest : (namesAfter room m₃).Parses (fun more n => ∃ places list,
        NameList (place :: places) (.name place :: list) ∧ places.length ≤ room ∧
        m₂.cursor.scanner.Lexes (list ++ [.closeParen]) n.cursor.scanner ∧
        List.Forall₂ (n.Recalls text) more places) (∃ names, m.cursor.scanner.Crowded (room + 1) names) := by
      cases token : m₃.token with
      | comma =>
        obtain rfl := hasRead'.mark .comma token
        rw [namesAfter_of_comma room token]
        refine (ih hasRead'.toReadsIn).mono ?_ ?_
        · rintro more n ⟨places, list, names, few, lexes, recalled⟩
          exact ⟨places, .comma :: list, .cons place names, few, .cons ahead' lexes, recalled⟩
        · rintro ⟨names, full, more, after, lexes⟩
          exact ⟨place :: names, congrArg (· + 1) full, more, after, .cons ahead (.cons ahead' lexes)⟩
      | closeParen =>
        obtain rfl := hasRead'.mark .closeParen token
        rw [namesAfter_of_closeParen room token]
        exact ⟨[], [], .last place, Nat.zero_le _, .single ahead', .nil⟩
      | _ =>
        rw [namesAfter, token_bind, token]
        exact parses_complain _ m₃
    refine parses_bind rest fun more n taken ⟨places, list, names, few, lexes, recalled⟩ => ?_
    have recalls := recalls.grows ((proceeds_namesAfter room).done taken).grows
    exact ⟨place :: places, _, names, Nat.succ_le_succ few, .cons ahead lexes, .cons recalls recalled⟩

/-! ### What is written is read -/

variable {place : Span} {places : List Span} {list more : List Lexeme} {after : Scanner} {spare room : Nat}

theorem advanceRaw_of_lexes {token : Token} (h : m.ReadsIn text)
    (lexes : m.cursor.scanner.Lexes (l :: more) after) (raw : l.rawToken? m.cursor.source = some token) :
    ∃ n, advanceRaw m = .done () n ∧ n.token = token ∧ n.HasRead text l ∧
      n.cursor.scanner.Lexes more after ∧ n.arena = m.arena := by
  obtain ⟨next, read, lexes⟩ := lexes.uncons
  obtain ⟨n, done, rfl, token, hasRead, arena⟩ := advanceRaw_of_next h read raw
  exact ⟨n, done, token, hasRead, lexes, arena⟩

/-- A name is read and kept, if there is room for it. -/
theorem definedName_of_lexes (h : m.ReadsIn text) (lexes : m.cursor.scanner.Lexes (.name place :: more) after)
    (enough : m.charge text [place] + spare ≤ m.arena.free) :
    ∃ m₁ name n, advanceRaw m = .done () m₁ ∧ m₁.token ≠ .closeParen ∧ definedName m₁ = .done name n ∧
      Proceeds m n ∧ n.Recalls text name place ∧ n.cursor.scanner.Lexes more after ∧
      spare ≤ n.arena.free := by
  obtain ⟨m₁, advanced, token, hasRead, lexes, arena⟩ := advanceRaw_of_lexes h lexes rfl
  have proceeds := proceeds_naming.advanceRaw.done advanced
  have named : definedName m₁ = keep (.ofSpan m.cursor.source place) m₁ := by
    rw [definedName, token_bind, token]
  have recalls : m₁.Recalls text (.ofSpan m₁.cursor.source place) place := hasRead.recalls rfl
  rw [proceeds.source] at recalls
  rcases keep_of_recalls recalls proceeds.source.symm with
    ⟨name, n, kept, recalls, cursor, -, free⟩ | ⟨-, full⟩
  · refine ⟨m₁, name, n, advanced, by simp [token], named.trans kept, ?_, recalls, cursor ▸ lexes, ?_⟩
    · exact proceeds_track.trans proceeds ((proceeds_naming.keep _).done kept)
    · rw [proceeds.charge, arena] at free
      omega
  · rw [proceeds.charge, arena] at full
    omega

theorem namesFrom_of_name (h : m.ReadsIn text) (lexes : m.cursor.scanner.Lexes (.name place :: more) after)
    (enough : m.charge text [place] + spare ≤ m.arena.free) :
    ∃ name n, (∀ room, namesFrom (room + 1) m = (do
        advanceRaw
        let more ← namesAfter room
        return name :: more) n) ∧
      Proceeds m n ∧ n.Recalls text name place ∧ n.cursor.scanner.Lexes more after ∧
      spare ≤ n.arena.free := by
  obtain ⟨m₁, name, n, advanced, open_, named, proceeds, recalls, lexes, free⟩ :=
    definedName_of_lexes h lexes enough
  refine ⟨name, n, fun room => ?_, proceeds, recalls, lexes, free⟩
  rw [namesFrom, bind_of_done advanced, parameters_succ room open_, bind_of_done named]

/-- Behind a name and a comma come the other names. -/
theorem namesFrom_of_comma (h : m.ReadsIn text)
    (lexes : m.cursor.scanner.Lexes (.name place :: .comma :: more) after)
    (enough : m.charge text [place] + spare ≤ m.arena.free) :
    ∃ name n, (∀ room, namesFrom (room + 1) m = (do
        let more ← namesFrom room
        return name :: more) n) ∧
      Proceeds m n ∧ n.Recalls text name place ∧ n.cursor.scanner.Lexes more after ∧
      spare ≤ n.arena.free := by
  obtain ⟨name, m₁, begun, proceeds, recalls, lexes, free⟩ := namesFrom_of_name h lexes enough
  obtain ⟨n, advanced, token, -, lexes, arena⟩ := advanceRaw_of_lexes (proceeds.readsIn h) lexes rfl
  have onward := proceeds_naming.advanceRaw.done advanced
  refine ⟨name, n, fun room => ?_, proceeds_track.trans proceeds onward, recalls.grows onward.grows, lexes,
    arena ▸ free⟩
  rw [begun, bind_of_done advanced, bind_apply, namesAfter_of_comma room token]
  rfl

/-- A list of names for which there is room is taken. -/
theorem namesFrom_of_list (names : NameList places list) (h : m.ReadsIn text) (few : places.length ≤ room)
    (lexes : m.cursor.scanner.Lexes (list ++ .closeParen :: more) after)
    (enough : m.charge text places + spare ≤ m.arena.free) :
    ∃ params n, namesFrom room m = .done params n ∧ List.Forall₂ (n.Recalls text) params places ∧
      n.cursor.scanner.Lexes more after ∧ spare ≤ n.arena.free := by
  induction names generalizing room m with
  | nil =>
    obtain ⟨n, advanced, token, -, lexes, arena⟩ := advanceRaw_of_lexes h lexes rfl
    rw [Machine.charge_nil, Nat.zero_add, ← arena] at enough
    refine ⟨[], n, ?_, .nil, lexes, enough⟩
    rw [namesFrom, bind_of_done advanced, parameters_of_closeParen room token]
  | last place =>
    obtain ⟨room, rfl⟩ := Nat.exists_eq_add_of_lt few
    obtain ⟨name, m₁, begun, proceeds, recalls, lexes, free⟩ := namesFrom_of_name h lexes enough
    obtain ⟨n, advanced, token, -, lexes, arena⟩ :=
      advanceRaw_of_lexes (proceeds.readsIn h) lexes rfl
    have recalls := recalls.grows (proceeds_naming.advanceRaw.done advanced).grows
    refine ⟨[name], n, ?_, .cons recalls .nil, lexes, arena ▸ free⟩
    rw [begun, bind_of_done advanced, bind_of_done (namesAfter_of_closeParen _ token)]
    rfl
  | cons place _ ih =>
    obtain ⟨room, rfl⟩ := Nat.exists_eq_add_of_lt few
    rw [Machine.charge_cons, Nat.add_assoc] at enough
    obtain ⟨name, m₁, begun, proceeds, recalls, lexes, free⟩ := namesFrom_of_comma h lexes enough
    rw [← proceeds.charge] at free
    obtain ⟨params, n, taken, recalled, lexes, free⟩ :=
      ih (proceeds.readsIn h) (Nat.le_add_right _ room) lexes free
    have recalls := recalls.grows ((proceeds_namesFrom _).done taken).grows
    refine ⟨name :: params, n, ?_, .cons recalls recalled, lexes, free⟩
    rw [begun, bind_of_done taken]
    rfl

/-- A list with a name too many is refused, when that name is reached. -/
theorem namesFrom_of_crowded (h : m.ReadsIn text) (crowded : m.cursor.scanner.Crowded room places)
    (enough : m.charge text places ≤ m.arena.free) :
    ∃ n, namesFrom room m = .failed .tooManyArguments n := by
  obtain ⟨rfl, one, after, lexes⟩ := crowded
  induction places generalizing m with
  | nil =>
    obtain ⟨n, advanced, token, -, -, -⟩ := advanceRaw_of_lexes h lexes rfl
    refine ⟨n, ?_⟩
    rw [List.length_nil, namesFrom, bind_of_done advanced, parameters, token_bind, token]
    rfl
  | cons place places ih =>
    rw [Machine.charge_cons] at enough
    obtain ⟨name, m₁, begun, proceeds, -, lexes, free⟩ := namesFrom_of_comma h lexes enough
    rw [← proceeds.charge] at free
    obtain ⟨n, failed⟩ := ih (proceeds.readsIn h) free lexes
    refine ⟨n, ?_⟩
    rw [List.length_cons, begun, bind_of_failed failed]

end Scriptlet
