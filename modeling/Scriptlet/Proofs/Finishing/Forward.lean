import Scriptlet.Proofs.Finishing.Total
import Scriptlet.Proofs.Trace.Grounded

/-!
Going forward. While a text without winding words is evaluated, the machine reads that text and no
other, and each token takes it on: calls run natives that come back to the same place, and nested bodies
do too. `Forward` is the invariant, `Steady` what all that is not reading leaves alone.
-/

namespace Scriptlet

open Eval
open Lexical (Stands IsBody HasWord Tells)

def Loopless (text : Text.Bytes) : Prop := ∀ word ∈ windingWords, ¬HasWord text (Text.encode word)

/-- The slice is a body of the text in a slot. -/
structure BodyOf (text : Array UInt8) (slot : Nat) (body : Slice) : Prop where
  source : body.source = .text slot
  isBody : IsBody text.toList body.start body.length

/-- The text is in its slot, and the table is tame. -/
structure Prepared (text : Array UInt8) (slot : Nat) (m : Machine) : Prop where
  held : m.texts.get slot = text
  tame : m.Tame

/-- The machine stands in a body of so many bytes. -/
structure Poised (text : Array UInt8) (slot length : Nat) (m : Machine) : Prop extends
    Prepared text slot m where
  source : m.cursor.source = .text slot
  stands : Stands text.toList m.cursor.scanner
  room : m.cursor.scanner.rest.length ≤ length

/-- The machine has read a token of a body of so many bytes. The token is no symbol that winds, and if
it is a bracket, then a smaller one. -/
structure Forward (text : Array UInt8) (slot length : Nat) (m : Machine) : Prop extends
    Poised text slot length m where
  symbol : ∀ {index}, m.token = .symbol index →
    ∃ s, m.arena.symbols[index]? = some s ∧ s.tag.Straight
  bracket : ∀ {body}, m.token = .text body → BodyOf text slot body ∧ body.length + 2 ≤ length
  eof : m.token = .eof → m.cursor.scanner.rest = []

/-- How much is left, the token that was read included. -/
def Machine.left (m : Machine) : Nat :=
  if m.token = .eof then 0 else m.cursor.scanner.rest.length + 1

/-- The place of reading is the same, and the table holds what it held. -/
structure Steady (slot : Nat) (m m' : Machine) : Prop where
  texts : m'.texts.get slot = m.texts.get slot
  cursor : m'.cursor = m.cursor
  token : m'.token = m.token
  tags : ∀ {i : Nat} {s}, m.arena.symbols[i]? = some s →
    ∃ s', m'.arena.symbols[i]? = some s' ∧ s'.tag = s.tag
  tame : m.Tame → m'.Tame

theorem steady_track (slot : Nat) : Track (Steady slot) where
  refl _ := ⟨rfl, rfl, rfl, fun found => ⟨_, found, rfl⟩, id⟩
  trans h k := by
    refine ⟨k.texts.trans h.texts, k.cursor.trans h.cursor, k.token.trans h.token, fun found => ?_,
      k.tame ∘ h.tame⟩
    obtain ⟨s', found', same⟩ := h.tags found
    obtain ⟨s'', found'', same'⟩ := k.tags found'
    exact ⟨s'', found'', same'.trans same⟩

variable {text : Array UInt8} {slot length : Nat} {m m' : Machine}

/-- Nothing is different but what is neither read nor looked up. -/
theorem Steady.of_eq (texts : m'.texts = m.texts) (cursor : m'.cursor = m.cursor)
    (token : m'.token = m.token) (symbols : m'.arena.symbols = m.arena.symbols) :
    Steady slot m m' where
  texts := by rw [texts]
  cursor := cursor
  token := token
  tags found := ⟨_, symbols ▸ found, rfl⟩
  tame h := by
    intro i s found
    exact h (symbols ▸ found)

theorem Prepared.steady (h : Prepared text slot m) (k : Steady slot m m') : Prepared text slot m' :=
  ⟨k.texts.trans h.held, k.tame h.tame⟩

theorem Forward.steady (h : Forward text slot length m) (k : Steady slot m m') :
    Forward text slot length m' where
  toPrepared := h.toPrepared.steady k
  source := by rw [k.cursor, h.source]
  stands := by rw [k.cursor]; exact h.stands
  room := by rw [k.cursor]; exact h.room
  symbol token := by
    obtain ⟨s, found, straight⟩ := h.symbol (k.token ▸ token)
    obtain ⟨s', found', same⟩ := k.tags found
    exact ⟨s', found', same ▸ straight⟩
  bracket token := h.bracket (k.token ▸ token)
  eof token := by rw [k.cursor]; exact h.eof (k.token ▸ token)

theorem Steady.left (h : Steady slot m m') : m'.left = m.left := by
  unfold Machine.left
  rw [h.cursor, h.token]

theorem Forward.rest_le (h : Forward text slot length m) : m.cursor.scanner.rest.length ≤ m.left := by
  unfold Machine.left
  split
  · next eof => simp [h.eof eof]
  · omega

/-! ### Reading -/

/-- A name that is no winding word finds a straight symbol. -/
theorem Machine.Tame.straight_of_index? (tame : m.Tame) {name : Text.Bytes} {index : Nat}
    (found : m.index? name = some index) (other : ∀ word ∈ windingWords, name ≠ Text.encode word) :
    ∃ s, m.arena.symbols[index]? = some s ∧ s.tag.Straight := by
  obtain ⟨s, present, spelled⟩ := Machine.symbol_of_index? found
  refine ⟨s, present, (tame present).resolve_right ?_⟩
  rintro ⟨word, winding, name_eq⟩
  rw [name_eq, Machine.bytes_ofString] at spelled
  exact other word winding spelled.symm

theorem not_operator_of_winding {word : String} (h : word ∈ windingWords) {b : UInt8}
    {run : Text.Bytes} (hb : Byte.isOperatorByte b = true) : b :: run ≠ Text.encode word := by
  intro spelled
  have first : (Text.encode word).head? = some b := by rw [← spelled]; rfl
  simp only [windingWords, List.mem_cons, List.not_mem_nil, or_false] at h
  rcases h with rfl | rfl | rfl <;> (cases first; cases hb)

/-- A bracket is read where a block or a quotation stands. -/
theorem lexeme_of_text {raw : Bool} {lexeme : Lexeme} {body : Slice}
    (h : resolve raw lexeme m = .done (.text body) m') :
    ∃ place, (lexeme = .block place ∨ lexeme = .quote place) ∧ body = .ofSpan m.cursor.source place := by
  cases lexeme with
  | block place =>
    cases h
    exact ⟨place, .inl rfl, rfl⟩
  | quote place =>
    simp only [resolve] at h
    split at h <;> cases h
    exact ⟨place, .inr rfl, rfl⟩
  | name place =>
    simp only [resolve] at h
    split at h
    · cases h
    · split at h <;> cases h
  | operator place =>
    simp only [resolve] at h
    split at h <;> cases h
  | _ => cases h

theorem lexeme_of_eof {raw : Bool} {lexeme : Lexeme} (h : resolve raw lexeme m = .done .eof m') :
    lexeme = .eof := by
  cases lexeme with
  | eof => rfl
  | quote place =>
    simp only [resolve] at h
    split at h <;> cases h
  | name place =>
    simp only [resolve] at h
    split at h
    · cases h
    · split at h <;> cases h
  | operator place =>
    simp only [resolve] at h
    split at h <;> cases h
  | _ => cases h

theorem advanceBy_not_stopped (raw : Bool) (m : Machine) {why : Stop} :
    advanceBy raw m ≠ .stopped why m' := by
  rcases advanceBy_cases raw m with ⟨_, _, _, _, -, -, -, h⟩ | ⟨_, _, -, h⟩ | ⟨_, _, -, h⟩ <;>
  · rw [h]
    intro stopped
    cases stopped

variable (loopless : Loopless text.toList)

include loopless

/-- A token that is read is behind all that was read before. -/
theorem Poised.advanceBy (h : Poised text slot length m) (raw : Bool) :
    (advanceBy raw).Ends (fun _ m' => Forward text slot length m' ∧
      m'.left ≤ m.cursor.scanner.rest.length) m := by
  unfold Ends
  cases read : Eval.advanceBy raw m with
  | failed e m' => trivial
  | stopped why m' => exact absurd read (advanceBy_not_stopped raw m)
  | done u m' =>
    obtain ⟨lexeme, after, token, literals, hnext, resolved, rfl⟩ := advanceBy_eq_done read
    have tells := h.stands.next hnext
    have store : ∀ place, (m.readTo after).bytes (.ofSpan (m.readTo after).cursor.source place) =
        (Slice.ofSpan (.text slot) place).bytesIn text := by
      intro place
      change (Slice.ofSpan m.cursor.source place).bytesIn (m.memory.store m.cursor.source) = _
      rw [h.source, ← h.held]
      rfl
    have rest_le : after.rest.length ≤ m.cursor.scanner.rest.length := by
      by_cases eof : lexeme = .eof
      · simp [tells.eof eof]
      · exact (tells.shorter eof).le
    refine ⟨⟨⟨⟨h.held, h.tame⟩, h.source, tells.stands, rest_le.trans h.room⟩, ?_, ?_, ?_⟩, ?_⟩
    · intro index is_symbol
      obtain rfl : token = .symbol index := is_symbol
      obtain ⟨place, kind, found⟩ := lexeme_of_symbol resolved
      rw [store] at found
      refine Machine.Tame.straight_of_index? (m := m.readTo after) h.tame found fun word winding => ?_
      rcases kind with rfl | rfl
      · obtain ⟨name, marks, stands⟩ := tells.name rfl
        rw [marks.bytesIn]
        rintro rfl
        exact loopless word winding stands
      · obtain ⟨b, run, marks, hb⟩ := tells.operator rfl
        rw [marks.bytesIn]
        exact not_operator_of_winding winding hb
    · intro body is_text
      obtain rfl : token = .text body := is_text
      obtain ⟨place, kind, rfl⟩ := lexeme_of_text resolved
      obtain ⟨isBody, smaller⟩ := tells.body kind
      exact ⟨⟨h.source, isBody⟩, smaller.trans h.room⟩
    · intro is_eof
      obtain rfl : token = .eof := is_eof
      exact tells.eof (lexeme_of_eof resolved)
    · change Machine.left { m.readTo after with token, literals } ≤ _
      unfold Machine.left
      split
      · exact Nat.zero_le _
      · next ne =>
        refine tells.shorter ?_
        rintro rfl
        cases resolved
        exact ne rfl

theorem Forward.advanceBy (h : Forward text slot length m) (raw : Bool) :
    (Eval.advanceBy raw).Ends (fun _ m' => Forward text slot length m' ∧ m'.left ≤ m.left) m :=
  (h.toPoised.advanceBy loopless raw).mono fun _ _ ⟨forward, less⟩ =>
    ⟨forward, less.trans h.rest_le⟩

/-- From a token on that is not the last one, the next token has less left. -/
theorem Forward.advanceBy_lt (h : Forward text slot length m) (ne : m.token ≠ .eof) (raw : Bool) :
    (Eval.advanceBy raw).Ends (fun _ m' => Forward text slot length m' ∧ m'.left < m.left) m :=
  (h.toPoised.advanceBy loopless raw).mono fun _ m' ⟨forward, less⟩ => by
    have left : m.left = m.cursor.scanner.rest.length + 1 := if_neg ne
    exact ⟨forward, by omega⟩

omit loopless

/-! ### Calls -/

theorem Action.Straight.ends {r : Reentry} (answers : ∀ number question, (r.world number question).isSome)
    {action : Action} (h : action.Straight) (m : Machine) :
    (action.perform r).Ends (fun _ m' => Steady slot m m') m := by
  have track := steady_track slot
  induction h generalizing m with
  | give value => exact track.refl m
  | fail error => trivial
  | takeLiteral _ ih => exact track.ends_bind (.of_eq rfl rfl rfl rfl) fun text? m' _ => ih text? m'
  | write _ ih => exact track.ends_bind (.of_eq rfl rfl rfl rfl) fun _ m' _ => ih m'
  | @ask question next _ ih =>
    refine track.ends_bind ?_ fun answer m' _ => ih answer m'
    obtain ⟨answer, known⟩ := Option.isSome_iff_exists.mp (answers m.asked question)
    unfold Ends World.ask
    rw [known]
    exact .of_eq rfl rfl rfl rfl

theorem steady_push (slot : Nat) (value : Word) (m : Machine) :
    (push value).Ends (fun _ m' => Steady slot m m') m :=
  ends_allocate fun _ _ granted => by
    obtain ⟨arena, pushed, same⟩ := Option.map_eq_some_iff.mp granted
    cases same
    obtain ⟨-, rfl⟩ := Arena.push_eq_some pushed
    exact .of_eq rfl rfl rfl rfl

theorem steady_popOnto (slot : Nat) (words : List Word) (count : Nat) (m : Machine) :
    (popOnto words count).Ends (fun _ m' => Steady slot m m') m := by
  induction count generalizing words m with
  | zero => exact (steady_track slot).refl m
  | succ count ih =>
    exact (steady_track slot).ends_bind (.of_eq rfl rfl rfl rfl) fun word m' _ => ih _ m'

section

variable {r : Reentry} (answers : ∀ number question, (r.world number question).isSome)

include answers

theorem ends_runCallee (slot : Nat) {callee : Symbol Native} (straight : callee.tag.Straight)
    (args : List Word) (literals : Nat) (m : Machine) :
    (Call.runCallee r callee args literals).Ends (fun _ m' => Steady slot m m') m := by
  unfold Call.runCallee
  split
  · exact ends_fail _
  · split
    · next native arity tag =>
      rw [tag] at straight
      unfold Ends Call.runNativeWith withPending
      rw [Outcome.ends_adjust]
      exact ((straight args).ends answers { m with literals := (m.literals.openFrame literals).2 }).mono
        fun _ _ steady => ⟨steady.texts, steady.cursor, steady.token, steady.tags, steady.tame⟩
    · next arity tag =>
      rw [tag] at straight
      exact straight.elim
    · exact ends_fail _

theorem ends_handOver (slot : Nat) {callee : Symbol Native} (straight : callee.tag.Straight)
    (count literals : Nat) (m : Machine) :
    (Call.handOver r callee count literals).Ends (fun _ m' => Steady slot m m') m := by
  unfold Ends Call.handOver truncatingLiterals
  rw [Outcome.ends_adjust]
  refine ((steady_track slot).ends_bind (steady_popOnto slot [] count m) fun args m' _ =>
    ends_runCallee answers slot straight args literals m').mono fun _ _ steady => ?_
  exact ⟨steady.texts, steady.cursor, steady.token, steady.tags, steady.tame⟩

end

/-- From each token of the text with less than `limit` left, the computation reads on. -/
def ReadsOn {α : Type} (text : Array UInt8) (slot limit : Nat) (x : Eval α) : Prop :=
  ∀ {length m}, Forward text slot length m → m.left < limit →
    x.Ends (fun _ m' => Forward text slot length m' ∧ m'.left < m.left) m

section

variable {r : Reentry} (hexpr : ReadsOn text slot r.passes r.expression)

include hexpr

theorem readsOn_argument : ReadsOn text slot r.passes (Call.argument r) := by
  intro length m forward enough
  refine (hexpr forward enough).bind fun value m' ⟨forward', less⟩ => ?_
  refine (steady_push slot value m').mono fun _ m'' steady => ?_
  exact ⟨forward'.steady steady, steady.left ▸ less⟩

include loopless

/-- Arguments with commas between them. What ends the list is up to `ending`. -/
theorem ends_argumentsInParens (forward : Forward text slot length m) (enough : m.left < r.passes) :
    (Call.argumentsInParens r).Ends (fun _ m' => Forward text slot length m' ∧ m'.left ≤ m.left) m := by
  refine (forward.advanceBy loopless false).bind fun _ m₁ ⟨forward₁, less₁⟩ => ?_
  refine ends_read_bind ?_
  split
  · exact ⟨forward₁, less₁⟩
  · refine ends_loop (I := fun _ m' => Forward text slot length m' ∧ m'.left ≤ m.left) Machine.left
      (fun count m₂ ⟨forward₂, less₂⟩ => ?_) ⟨forward₁, less₁⟩ (by omega)
    refine (readsOn_argument hexpr forward₂ (by omega)).bind fun _ m₃ ⟨forward₃, less₃⟩ => ?_
    refine ends_read_bind ?_
    split
    · refine (forward₃.advanceBy loopless false).bind fun _ m₄ ⟨forward₄, less₄⟩ => ?_
      exact ⟨⟨forward₄, by omega⟩, by omega⟩
    · exact ⟨forward₃, by omega⟩
    · exact ends_fail _

theorem ends_argumentsAfterCallee (forward : Forward text slot length m) (ne : m.token ≠ .eof)
    (enough : m.left ≤ r.passes) :
    (Call.argumentsAfterCallee r).Ends (fun _ m' => Forward text slot length m' ∧ m'.left < m.left)
      m := by
  refine (forward.advanceBy_lt loopless ne false).bind fun _ m₁ ⟨forward₁, less₁⟩ => ?_
  refine ends_read_bind ?_
  split
  · refine (ends_argumentsInParens loopless hexpr forward₁ (by omega)).mono
      fun _ m₂ ⟨forward₂, less₂⟩ => ⟨forward₂, by omega⟩
  · exact ends_fail _

theorem ends_bareArguments (forward : Forward text slot length m) (enough : m.left < r.passes) :
    (Call.bareArguments r).Ends (fun _ m' => Forward text slot length m' ∧ m'.left ≤ m.left) m := by
  refine Ends.bind (ends_startsExpression (Q := fun _ m' => m' = m) fun _ => rfl) fun starts m₁ same => ?_
  subst same
  split
  · refine ends_loop (I := fun _ m' => Forward text slot length m' ∧ m'.left ≤ m₁.left) Machine.left
      (fun count m₂ ⟨forward₂, less₂⟩ => ?_) ⟨forward, Nat.le_refl _⟩ enough
    refine (readsOn_argument hexpr forward₂ (by omega)).bind fun _ m₃ ⟨forward₃, less₃⟩ => ?_
    refine ends_read_bind ?_
    split
    · refine (forward₃.advanceBy loopless false).bind fun _ m₄ ⟨forward₄, less₄⟩ => ?_
      exact ⟨⟨forward₄, by omega⟩, by omega⟩
    · exact ⟨forward₃, by omega⟩
  · exact ⟨forward, Nat.le_refl _⟩

theorem ends_argumentsAfterCommand (forward : Forward text slot length m) (ne : m.token ≠ .eof)
    (enough : m.left ≤ r.passes) :
    (Call.argumentsAfterCommand r).Ends (fun _ m' => Forward text slot length m' ∧ m'.left < m.left)
      m := by
  refine (forward.advanceBy_lt loopless ne false).bind fun _ m₁ ⟨forward₁, less₁⟩ => ?_
  refine ends_read_bind ?_
  split
  · refine (ends_argumentsInParens loopless hexpr forward₁ (by omega)).bind
      fun _ m₂ ⟨forward₂, less₂⟩ => ⟨forward₂, by omega⟩
  · refine (ends_bareArguments loopless hexpr forward₁ (by omega)).bind
      fun _ m₂ ⟨forward₂, less₂⟩ => ⟨forward₂, by omega⟩

omit loopless hexpr in
theorem ends_withQuoting {α : Type} {x : Eval α} (quoting : Quoting)
    (h : ∀ m', Steady slot m m' →
      x.Ends (fun _ m'' => Forward text slot length m'' ∧ m''.left < m.left) m') :
    (withQuoting quoting x).Ends (fun _ m' => Forward text slot length m' ∧ m'.left < m.left) m := by
  unfold Ends withQuoting restoring
  rw [Outcome.ends_adjust]
  refine (h { m with quoting } (.of_eq rfl rfl rfl rfl)).mono fun _ m' ⟨forward, less⟩ => ?_
  exact ⟨forward.steady (.of_eq rfl rfl rfl rfl), less⟩

variable (answers : ∀ number question, (r.world number question).isSome)

include answers

theorem ends_inExpression {callee : Symbol Native} (straight : callee.tag.Straight)
    (forward : Forward text slot length m) (ne : m.token ≠ .eof) (enough : m.left ≤ r.passes) :
    (Call.inExpression r callee).Ends (fun _ m' => Forward text slot length m' ∧ m'.left < m.left)
      m := by
  refine ends_read_bind ?_
  refine Ends.bind (P := fun _ m' => Forward text slot length m' ∧ m'.left < m.left) ?_
    fun count m₁ ⟨forward₁, less₁⟩ => ?_
  · unfold Ends unwinding
    rw [Outcome.ends_adjustUndone]
    refine ends_withQuoting .argument fun m' steady => ?_
    rw [← steady.left]
    exact ends_argumentsAfterCallee loopless hexpr (forward.steady steady) (steady.token ▸ ne)
      (steady.left ▸ enough)
  · refine (ends_handOver answers slot straight count m.literals.size m₁).bind fun value m₂ steady => ?_
    refine ((forward₁.steady steady).advanceBy loopless false).bind fun _ m₃ ⟨forward₃, less₃⟩ => ?_
    rw [steady.left] at less₃
    exact ⟨forward₃, by omega⟩

theorem ends_asStatement {callee : Symbol Native} (straight : callee.tag.Straight)
    (forward : Forward text slot length m) (ne : m.token ≠ .eof) (enough : m.left ≤ r.passes) :
    (Call.asStatement r callee).Ends (fun _ m' => Forward text slot length m' ∧ m'.left < m.left)
      m := by
  refine ends_read_bind ?_
  refine Ends.bind (P := fun _ m' => Forward text slot length m' ∧ m'.left < m.left) ?_
    fun counted m₁ ⟨forward₁, less₁⟩ => ?_
  · unfold Ends unwinding
    rw [Outcome.ends_adjustUndone]
    refine ends_withQuoting .argument fun m' steady => ?_
    rw [← steady.left]
    exact ends_argumentsAfterCommand loopless hexpr (forward.steady steady) (steady.token ▸ ne)
      (steady.left ▸ enough)
  · refine (ends_handOver answers slot straight counted.1 m.literals.size m₁).bind fun _ m₂ steady => ?_
    have forward₂ := forward₁.steady steady
    rw [← steady.left] at less₁
    split
    · exact (forward₂.advanceBy loopless false).mono fun _ m₃ ⟨forward₃, less₃⟩ =>
        ⟨forward₃, by omega⟩
    · exact ⟨forward₂, less₁⟩

/-! ### Expressions -/

omit answers in
theorem ends_group (forward : Forward text slot length m) (ne : m.token ≠ .eof)
    (enough : m.left ≤ r.passes) :
    (Expression.group r).Ends (fun _ m' => Forward text slot length m' ∧ m'.left < m.left) m := by
  refine (forward.advanceBy_lt loopless ne false).bind fun _ m₁ ⟨forward₁, less₁⟩ => ?_
  refine (hexpr forward₁ (by omega)).bind fun value m₂ ⟨forward₂, less₂⟩ => ends_read_bind ?_
  split
  · exact ⟨forward₂, by omega⟩
  · exact ends_fail _

theorem ends_symbolAtom {s : Symbol Native} (straight : s.tag.Straight)
    (forward : Forward text slot length m) (ne : m.token ≠ .eof) (enough : m.left ≤ r.passes) :
    (Expression.symbolAtom r s).Ends (fun _ m' => Forward text slot length m' ∧ m'.left < m.left)
      m := by
  unfold Expression.symbolAtom
  split
  · exact (forward.advanceBy_lt loopless ne false).bind fun _ m₁ h => h
  · exact ends_inExpression loopless hexpr answers straight forward ne enough
  · exact ends_inExpression loopless hexpr answers straight forward ne enough
  · refine (forward.advanceBy_lt loopless ne false).bind fun _ m₁ ⟨forward₁, less₁⟩ => ?_
    refine (hexpr forward₁ (by omega)).bind fun value m₂ ⟨forward₂, less₂⟩ => ?_
    exact ends_ofExcept fun _ => ⟨forward₂, by omega⟩
  · exact ends_fail _

theorem readsOn_atom : ReadsOn text slot (r.passes + 1) (Expression.atom r) := by
  intro length m forward enough
  have enough := Nat.le_of_lt_succ enough
  refine ends_read_bind ?_
  split
  · next token =>
    exact (forward.advanceBy_lt loopless (by simp [token]) false).bind fun _ m₁ h => h
  · next token =>
    refine Ends.bind (P := fun _ m' => Forward text slot length m' ∧ m'.left < m.left) ?_
      fun value m₁ ⟨forward₁, less₁⟩ => ?_
    · refine ends_withQuoting .plain fun m' steady => ?_
      rw [← steady.left]
      exact ends_group loopless hexpr (forward.steady steady) (by simp [steady.token, token])
        (steady.left ▸ enough)
    · refine (forward₁.advanceBy loopless false).bind fun _ m₂ ⟨forward₂, less₂⟩ => ?_
      exact ⟨forward₂, by omega⟩
  · next token =>
    exact (forward.advanceBy_lt loopless (by simp [token]) false).bind fun _ m₁ h => h
  · next token =>
    exact (forward.advanceBy_lt loopless (by simp [token]) false).bind fun _ m₁ h => h
  · exact ends_fail _
  · next index token =>
    obtain ⟨s, found, straight⟩ := forward.symbol token
    refine Ends.bind (P := fun s' m' => s' = s ∧ m' = m) (ends_symbolAt fun s' found' => ?_) ?_
    · exact ⟨Option.some.inj (found'.symm.trans found), rfl⟩
    · rintro _ _ ⟨rfl, rfl⟩
      exact ends_symbolAtom loopless hexpr answers straight forward (by simp [token]) enough
  all_goals exact ends_fail _

/-- Expressions of every level read on; each turn of a loop reads an operator. -/
theorem readsOn_upToLevel (level : Nat) :
    ReadsOn text slot (r.passes + 1) (Expression.upToLevel r level) := by
  induction level with
  | zero => exact readsOn_atom loopless hexpr answers
  | succ level ih =>
    intro length m forward enough
    refine (ih forward enough).bind fun first m₁ ⟨forward₁, less₁⟩ => ?_
    refine ends_loop (I := fun _ m' => Forward text slot length m' ∧ m'.left < m.left) Machine.left
      (fun value m₂ ⟨forward₂, less₂⟩ => ?_) ⟨forward₁, less₁⟩ (by omega)
    refine Ends.bind (P := fun _ m' => m' = m₂) ?_ fun op? m₃ same => ?_
    · exact Ends.bind (ends_tokenTag? (Q := fun _ m' => m' = m₂) fun _ => rfl) fun tag? m₃ same => by
        split <;> exact same
    · subst same
      cases op? with
      | none => exact ⟨forward₂, less₂⟩
      | some op =>
        refine (forward₂.advanceBy loopless false).bind fun _ m₄ ⟨forward₄, less₄⟩ => ?_
        refine (ih forward₄ (by omega)).bind fun operand m₅ ⟨forward₅, less₅⟩ => ?_
        refine Ends.bind (P := fun _ m' => m' = m₅) (ends_ofExcept fun _ => rfl) fun value' _ same => ?_
        subst same
        exact ⟨⟨forward₅, by omega⟩, by omega⟩

end

end Scriptlet
