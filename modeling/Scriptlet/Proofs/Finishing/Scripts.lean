import Scriptlet.Proofs.Finishing.Forward

/-!
Scripts without loops finish. A body of `n` bytes needs a budget of `n + 2`: it has at most `n` tokens
before its end, each turn of a loop and each expression inside another reads one of them, and a body
inside it has at most `n - 2` bytes. What the script does cannot matter, since there is nothing in it that
goes back or elsewhere; it need not even be well formed.
-/

namespace Scriptlet

open Eval
open Lexical (Stands IsBody HasWord)

variable {text : Array UInt8} {slot length : Nat} {m m' : Machine}

/-! ### Changes of the table -/

theorem steady_setValue (slot index : Nat) (value : Word) (m : Machine) :
    Steady slot m (m.withArena (m.arena.setValue index value)) where
  texts := rfl
  cursor := rfl
  token := rfl
  tags {i s} found := by
    change ∃ s', (m.arena.symbols.modify index _)[i]? = some s' ∧ _
    rw [Array.getElem?_modify, found]
    by_cases same : index = i <;> simp [same]
  tame h := by
    intro i s found
    change (m.arena.symbols.modify index _)[i]? = some s at found
    rw [Array.getElem?_modify] at found
    split at found
    · obtain ⟨s', found', rfl⟩ := Option.map_eq_some_iff.mp found
      have known := h found'
      exact known
    · exact h found

theorem steady_addSymbol (slot : Nat) (name : Slice) (value : Word) (m : Machine) :
    (allocate (·.addSymbol name .var value)).Ends (fun _ m' => Steady slot m m') m := by
  refine ends_allocate fun index arena granted => ?_
  obtain ⟨-, -, rfl⟩ := Arena.addSymbol_eq_some granted
  refine ⟨rfl, rfl, rfl, fun {i s} found => ⟨s, ?_, rfl⟩, fun h => ?_⟩
  · obtain ⟨inside, -⟩ := Array.getElem?_eq_some_iff.mp found
    change (m.arena.symbols.push _)[i]? = some s
    rw [Array.getElem?_push_lt inside]
    exact congrArg some (Array.getElem?_eq_some_iff.mp found).2
  · intro i s found
    change (m.arena.symbols.push _)[i]? = some s at found
    rw [Array.getElem?_push] at found
    split at found
    · cases found
      exact .inl trivial
    · exact h found

theorem steady_definedName (slot : Nat) (m : Machine) :
    Statement.definedName.Ends (fun _ m' => Steady slot m m') m := by
  have track := steady_track slot
  refine ends_read_bind ?_
  split
  · next name token =>
    unfold Ends keep
    split
    · dsimp only
      split
      · refine ends_allocate (m := m) fun copy arena granted => ?_
        obtain ⟨-, -, rfl⟩ := Arena.addBytes_eq_some granted
        exact .of_eq rfl rfl rfl rfl
      · exact track.refl m
    · exact track.refl m
  · exact ends_fail _

/-! ### Statements -/

/-- What evaluation nested in a construct has to satisfy: expressions read on, and bodies that are small
enough come back to where they were started. -/
structure Finishing (text : Array UInt8) (slot : Nat) (r : Reentry) : Prop where
  answers : ∀ number question, (r.world number question).isSome
  expression : ReadsOn text slot r.passes r.expression
  body : ∀ {body m}, BodyOf text slot body → body.length + 2 ≤ r.passes → Prepared text slot m →
    ∀ topLevel duplicate, (r.body body topLevel duplicate).Ends (fun _ m' => Steady slot m m') m

namespace Finishing

variable {r : Reentry} (h : Finishing text slot r) (loopless : Loopless text.toList)

include h loopless

theorem assign (forward : Forward text slot length m) (enough : m.left < r.passes) (index : Nat) :
    (Statement.assign r index).Ends (fun _ m' => Forward text slot length m' ∧ m'.left ≤ m.left)
      m := by
  refine Ends.bind (ends_tokenTag? (Q := fun _ m' => m = m') fun _ => rfl) fun tag? m₀ same => ?_
  subst same
  split
  · refine (forward.advanceBy loopless false).bind fun _ m₁ ⟨forward₁, less₁⟩ => ?_
    refine (h.expression forward₁ (by omega)).bind fun value m₂ ⟨forward₂, less₂⟩ => ?_
    have steady := steady_setValue slot index value m₂
    refine ⟨forward₂.steady steady, ?_⟩
    rw [steady.left]
    omega
  · exact ends_fail _

theorem declareVariable (forward : Forward text slot length m) (ne : m.token ≠ .eof)
    (enough : m.left < r.passes) :
    (Statement.declareVariable r).Ends (fun _ m' => Forward text slot length m' ∧ m'.left < m.left)
      m := by
  refine (forward.advanceBy_lt loopless ne true).bind fun _ m₁ ⟨forward₁, less₁⟩ => ?_
  refine (steady_definedName slot m₁).bind fun name m₂ steady₂ => ?_
  refine (steady_addSymbol slot name 0 m₂).bind fun index m₃ steady₃ => ?_
  have steady := (steady_track slot).trans steady₂ steady₃
  refine ((forward₁.steady steady).advanceBy loopless false).bind fun _ m₄ ⟨forward₄, less₄⟩ => ?_
  rw [steady.left] at less₄
  exact (h.assign loopless forward₄ (by omega) index).mono fun _ m₅ ⟨forward₅, less₅⟩ =>
    ⟨forward₅, by omega⟩

omit h in
theorem takeBody (forward : Forward text slot length m) :
    Statement.takeBody.Ends (fun body m' => (BodyOf text slot body ∧ body.length + 2 ≤ length) ∧
      Forward text slot length m' ∧ m'.left ≤ m.left) m := by
  refine ends_read_bind ?_
  split
  · next body token =>
    exact (forward.advanceBy loopless false).bind fun _ m₁ h₁ => ⟨forward.bracket token, h₁⟩
  · exact ends_fail _

omit h in
theorem takeAlternative (forward : Forward text slot length m) :
    Statement.takeAlternative.Ends (fun body? m' =>
      (∀ body, body? = some body → BodyOf text slot body ∧ body.length + 2 ≤ length) ∧
      Forward text slot length m' ∧ m'.left ≤ m.left) m := by
  refine Ends.bind (ends_tokenTag? (Q := fun _ m' => m = m') fun _ => rfl) fun tag? m₀ same => ?_
  subst same
  split
  · refine (forward.advanceBy loopless false).bind fun _ m₁ ⟨forward₁, less₁⟩ => ?_
    refine (takeBody loopless forward₁).bind fun body m₂ ⟨isBody, forward₂, less₂⟩ => ?_
    refine ⟨fun _ same => ?_, forward₂, by omega⟩
    cases same
    exact isBody
  · exact ⟨nofun, forward, Nat.le_refl _⟩

omit loopless in
theorem nestedBody {body : Slice} (isBody : BodyOf text slot body) (small : body.length + 2 ≤ r.passes)
    (prepared : Prepared text slot m) :
    (Statement.nestedBody r body).Ends (fun _ m' => Steady slot m m') m := by
  have noted : Steady slot m m.note := .of_eq rfl rfl rfl rfl
  refine Ends.bind (h.body isBody small (prepared.steady noted) false false) fun _ m' steady => ?_
  exact (steady_track slot).trans noted steady

theorem branch (room : length ≤ r.passes) (forward : Forward text slot length m)
    (ne : m.token ≠ .eof) (enough : m.left < r.passes) :
    (Statement.branch r).Ends (fun _ m' => Forward text slot length m' ∧ m'.left < m.left) m := by
  refine (forward.advanceBy_lt loopless ne false).bind fun _ m₁ ⟨forward₁, less₁⟩ => ?_
  refine (h.expression forward₁ (by omega)).bind fun condition m₂ ⟨forward₂, less₂⟩ => ?_
  refine (takeBody loopless forward₂).bind fun body m₃ ⟨⟨isBody, small⟩, forward₃, less₃⟩ => ?_
  refine (takeAlternative loopless forward₃).bind fun body? m₄ ⟨isBody?, forward₄, less₄⟩ => ?_
  have back : ∀ {m'}, Steady slot m₄ m' → Forward text slot length m' ∧ m'.left < m.left := by
    intro m' steady
    refine ⟨forward₄.steady steady, ?_⟩
    rw [steady.left]
    omega
  split
  · exact (h.nestedBody isBody (by omega) forward₄.toPrepared).bind fun _ m₅ => back
  · cases body? with
    | some body =>
      obtain ⟨isBody, small⟩ := isBody? body rfl
      exact (h.nestedBody isBody (by omega) forward₄.toPrepared).bind fun _ m₅ => back
    | none => exact back ((steady_track slot).refl m₄)

theorem setResult (forward : Forward text slot length m) (ne : m.token ≠ .eof)
    (enough : m.left < r.passes) :
    (Statement.setResult r).Ends (fun _ m' => Forward text slot length m' ∧ m'.left < m.left) m := by
  refine (forward.advanceBy_lt loopless ne false).bind fun _ m₁ ⟨forward₁, less₁⟩ => ?_
  refine Ends.bind (ends_startsExpression (Q := fun _ m' => m₁ = m') fun _ => rfl) ?_
  rintro starts _ rfl
  dsimp only
  split
  · refine (h.expression forward₁ (by omega)).bind fun value m₂ ⟨forward₂, less₂⟩ => ?_
    exact ⟨forward₂.steady (.of_eq rfl rfl rfl rfl), less₂.trans less₁⟩
  · exact ⟨forward₁.steady (.of_eq rfl rfl rfl rfl), less₁⟩

theorem ofKeyword {word : Keyword} (straight : (Tag.keyword word : Tag Native).Straight)
    (room : length ≤ r.passes) (forward : Forward text slot length m) (ne : m.token ≠ .eof)
    (enough : m.left < r.passes) :
    (Statement.ofKeyword r word).Ends (fun _ m' => Forward text slot length m' ∧ m'.left < m.left)
      m := by
  cases word with
  | var => exact (h.declareVariable loopless forward ne enough).bind fun _ _ h => h
  | cond => exact (h.branch loopless room forward ne enough).bind fun _ _ h => h
  | loop => exact straight.elim
  | func => exact straight.elim
  | leave => exact (h.setResult loopless forward ne enough).bind fun _ _ h => h
  | otherwise => exact ends_fail _

theorem statement (room : length ≤ r.passes) (forward : Forward text slot length m)
    (enough : m.left < r.passes) :
    (Statement.statement r).Ends (fun _ m' => Forward text slot length m' ∧ m'.left < m.left) m := by
  refine ends_read_bind ?_
  split
  · next index token =>
    have ne : m.token ≠ .eof := by simp [token]
    obtain ⟨s, found, straight⟩ := forward.symbol token
    refine Ends.bind (P := fun s' m' => s = s' ∧ m = m') (ends_symbolAt fun s' found' => ?_) ?_
    · exact ⟨Option.some.inj (found.symm.trans found'), rfl⟩
    rintro _ _ ⟨rfl, rfl⟩
    split
    · refine Ends.bind (P := fun _ m' => Forward text slot length m' ∧ m'.left < m.left) ?_
        fun _ _ h => h
      refine (forward.advanceBy_lt loopless ne false).bind fun _ m₁ ⟨forward₁, less₁⟩ => ?_
      exact (h.assign loopless forward₁ (by omega) index).mono fun _ m₂ ⟨forward₂, less₂⟩ =>
        ⟨forward₂, by omega⟩
    · exact (ends_asStatement loopless h.expression h.answers straight forward ne enough.le).bind
        fun _ _ h => h
    · exact (ends_inExpression loopless h.expression h.answers straight forward ne enough.le).bind
        fun _ _ h => h
    · next word tag =>
      exact h.ofKeyword loopless (tag ▸ straight) room forward ne enough
    · exact ends_fail _
  all_goals exact ends_fail _

omit h in
theorem passSeparator (forward : Forward text slot length m) :
    Statement.passSeparator.Ends (fun _ m' => Forward text slot length m' ∧ m'.left ≤ m.left) m := by
  refine ends_read_bind ?_
  split
  · exact ⟨forward, Nat.le_refl _⟩
  · exact ⟨forward, Nat.le_refl _⟩
  · exact forward.advanceBy loopless false
  · refine Ends.bind (ends_symbolAt (Q := fun _ m' => m = m') fun _ _ => rfl) ?_
    rintro s _ rfl
    split
    · exact ⟨forward, Nat.le_refl _⟩
    · exact ⟨forward, Nat.le_refl _⟩
    · exact ⟨forward, Nat.le_refl _⟩
    · split
      · exact ends_fail _
      · exact ⟨forward, Nat.le_refl _⟩
    · exact ends_fail _
  · exact ends_fail _

/-- Each turn of the sequence reads a separator or a statement. -/
theorem statements (room : length ≤ r.passes) (forward : Forward text slot length m)
    (enough : m.left < r.passes) :
    (Statement.statements r).Ends (fun _ m' => Forward text slot length m') m := by
  refine ends_loop (I := fun _ m' => Forward text slot length m' ∧ m'.left < r.passes) Machine.left
    (fun _ m₁ ⟨forward₁, enough₁⟩ => ?_) ⟨forward, enough⟩ enough
  refine ends_read_bind ?_
  split
  · exact forward₁
  · next token =>
    refine (forward₁.advanceBy_lt loopless (by simp [token]) false).bind
      fun _ m₂ ⟨forward₂, less₂⟩ => ?_
    exact ⟨⟨forward₂, by omega⟩, less₂⟩
  · refine (h.statement loopless room forward₁ enough₁).bind fun ending m₂ ⟨forward₂, less₂⟩ => ?_
    split
    · exact forward₂
    · refine (passSeparator loopless forward₂).bind fun _ m₃ ⟨forward₃, less₃⟩ => ?_
      exact ⟨⟨forward₃, by omega⟩, by omega⟩

/-- A body comes to its end, and back to where it was started. What it leaves of the table is a matter
of growing. -/
theorem wholeBody {body : Slice} (isBody : BodyOf text slot body) (small : body.length + 1 ≤ r.passes)
    (prepared : Prepared text slot m) {topLevel duplicate : Bool}
    (grows : Grows m (r.wholeBody body topLevel duplicate m).machine) :
    (r.wholeBody body topLevel duplicate).Ends (fun _ m' => Steady slot m m') m := by
  obtain ⟨stands, room⟩ := isBody.isBody.stands
  have start : Poised text slot body.length
      { m with cursor := m.cursorAt body, quoting := .plain, duplicate } := by
    have scanner : (m.cursorAt body).scanner =
        Scanner.ofWindow text body.start (body.start + body.length) := by
      unfold Machine.cursorAt
      rw [isBody.source, ← prepared.held]
      rfl
    refine ⟨⟨prepared.held, prepared.tame⟩, isBody.source, ?_, ?_⟩
    · exact scanner ▸ stands
    · exact (congrArg (·.rest.length) scanner).trans room |>.le
  have inside : (do advance; Statement.statements r : Eval Ending).Ends
      (fun _ m' => Forward text slot body.length m')
      { m with cursor := m.cursorAt body, quoting := .plain, duplicate } := by
    refine (start.advanceBy loopless false).bind fun _ m₁ ⟨forward₁, less₁⟩ => ?_
    have left := less₁.trans start.room
    exact h.statements loopless (by omega) forward₁ (by omega)
  have ends : (r.wholeBody body topLevel duplicate).Ends (fun _ m' => m'.texts.get slot = text ∧
      m'.cursor = m.cursor ∧ m'.token = m.token ∧ m'.Tame) m := by
    unfold Ends Reentry.wholeBody inScope inBody locating restoring
    rw [Outcome.ends_adjust, Outcome.ends_adjust, Outcome.ends_adjustError]
    refine inside.mono fun _ m₁ forward => ?_
    cases topLevel with
    | true => exact ⟨forward.held, rfl, rfl, forward.tame⟩
    | false =>
      refine ⟨forward.held, rfl, rfl, fun {i s} found => ?_⟩
      change (m₁.arena.symbols.take _)[i]? = some s at found
      rw [Array.take_eq_extract, Array.getElem?_extract, Nat.zero_add] at found
      split at found
      · exact forward.tame found
      · cases found
  refine (Outcome.Ends.and_machine ends grows).mono fun _ m₁ ⟨⟨held, cursor, token, tame⟩, g⟩ => ?_
  refine ⟨held.trans prepared.held.symm, cursor, token, fun found => ?_, fun _ => tame⟩
  obtain ⟨s', found', lasts⟩ := g.symbols found
  exact ⟨s', found', lasts.tag⟩

end Finishing

/-! ### Evaluation on a budget -/

/-- On every budget, what is small enough for it finishes. -/
theorem finishing_ofFuel {world : World} (answers : ∀ number question, (world number question).isSome)
    (loopless : Loopless text.toList) (slot fuel : Nat) :
    Finishing text slot (.ofFuel world fuel) := by
  induction fuel with
  | zero =>
    exact ⟨answers, fun _ enough => absurd enough (Nat.not_lt_zero _), fun _ small => by cases small⟩
  | succ fuel ih =>
    refine ⟨answers, readsOn_upToLevel loopless ih.expression answers _, ?_⟩
    intro body m isBody small prepared topLevel duplicate
    have grows := (grows_ofFuel world (fuel + 1)).2 body topLevel duplicate m
    exact ih.wholeBody loopless isBody (Nat.le_of_succ_le_succ small) prepared grows

/-- Scripts without loops finish. On a new machine, and in a world that answers, evaluating any text in
which none of the words `while`, `func` and `source` stands is done or fails. It makes no difference
whether the text is well formed, and a budget of its length and two is enough. -/
theorem loopless_finishes {options : Options} {m : Machine} (made : Machine.new options = .ok m)
    {world : World} (answers : ∀ number question, (world number question).isSome) {text : String}
    (loopless : ∀ word ∈ windingWords, ¬HasWord (Text.encode text) (Text.encode word))
    (duplicate topLevel : Bool) {fuel : Nat} (enough : (Text.encode text).length + 2 ≤ fuel) :
    (∃ m', evalText world fuel text duplicate topLevel m = .done () m') ∨
      ∃ e m', evalText world fuel text duplicate topLevel m = .failed e m' := by
  have ends : (evalText world fuel text duplicate topLevel).Ends (fun _ _ => True) m := by
    refine ends_reporting ?_
    unfold Ends holding entering
    rw [Outcome.ends_adjust, Outcome.ends_adjust]
    generalize taken : m.note.texts.retain (Text.encode text).toArray = slot
    have held : slot.2.get slot.1 = (Text.encode text).toArray := by
      unfold Texts.get
      rw [← taken, Texts.text?_retain, if_pos rfl]
      rfl
    have finishing : Finishing (Text.encode text).toArray slot.1 (.ofFuel world fuel) :=
      finishing_ofFuel answers loopless slot.1 fuel
    have isBody : BodyOf (Text.encode text).toArray slot.1 ⟨.text slot.1, 0, (Text.encode text).length⟩ :=
      ⟨rfl, Lexical.isBody_self (Text.encode text)⟩
    have prepared : Prepared (Text.encode text).toArray slot.1
        { m.note.withTexts slot.2 with depth := m.depth + 1 } := ⟨held, Machine.tame_new made⟩
    exact Ends.bind (finishing.body isBody enough prepared topLevel duplicate) fun _ _ _ => trivial
  unfold Ends at ends
  cases run : evalText world fuel text duplicate topLevel m with
  | done u m' => exact .inl ⟨m', rfl⟩
  | failed e m' => exact .inr ⟨e, m', rfl⟩
  | stopped why m' =>
    rw [run] at ends
    exact ends.elim

/-- A world in which there are no files, chance gives zero and time stands still. -/
def stillWorld : World := fun _ question =>
  match question with
  | .fileExists _ => some false
  | .fileContents _ => some .missing
  | .randomBelow _ => some 0
  | .secondsSinceEpoch => some 0

/-- A script that does not make sense comes to an end as well. -/
theorem loopless_finishes_unclosed :
    ∃ m, Machine.new {} = .ok m ∧
      (∀ word ∈ windingWords, ¬HasWord
        (Text.encode "var meanwhile = 0x1f if meanwhile \x7b print rand(\"while_\" \x7d")
        (Text.encode word)) ∧
      ((∃ m', evalText stillWorld 70
          "var meanwhile = 0x1f if meanwhile \x7b print rand(\"while_\" \x7d" true false m =
        .done () m') ∨
      ∃ e m', evalText stillWorld 70
          "var meanwhile = 0x1f if meanwhile \x7b print rand(\"while_\" \x7d" true false m =
        .failed e m') := by
  have run : (Machine.new {}).toOption.map (fun _ => ()) = some () := by rfl
  obtain ⟨m, made, -⟩ := Machine.exists_new run
  have loopless : ∀ word ∈ windingWords, ¬HasWord
      (Text.encode "var meanwhile = 0x1f if meanwhile \x7b print rand(\"while_\" \x7d")
      (Text.encode word) := by decide +kernel
  refine ⟨m, made, loopless, loopless_finishes made (fun _ question => ?_) loopless true false ?_⟩
  · cases question <;> rfl
  · decide +kernel

end Scriptlet
