import Scriptlet.Evaluation.Run
import Scriptlet.Proofs.Formula.Reading

/-!
Expressions are evaluated by the grammar. The loop of a level is left suspended while its operands
are evaluated, so what is said of a formula at a level is where it leaves that loop: having gone
round a number of times, with the value so far, facing what comes behind. An operator of the level
that comes next is taken by one more turn, and anything looser ends the loop.

An open formula ends in an operator that takes the whole rest, and that one is evaluated by a whole
expression of its own. So what comes behind an open formula must not be an operator at all, and all
suspended loops end together with the innermost.
-/

namespace Scriptlet

open Text (Bytes)
open Eval
open Operator (maxLevel)

variable {world : World} {base : Machine} {env : Tree.Spelled → Int} {quoting : Quoting}

/-! ### What comes behind -/

/-- The token is no operator of a level up to the given one. -/
def Stops (level : Nat) (m : Machine) : Prop :=
  ∃ tag?, tokenTag? m = .done tag? m ∧ ∀ op, tag? = some (.operator op) → level < op.level

theorem Stops.mono {level level' : Nat} {m : Machine} (h : Stops level m) (le : level' ≤ level) :
    Stops level' m := by
  obtain ⟨tag?, read, above⟩ := h
  exact ⟨tag?, read, fun op hop => Nat.lt_of_le_of_lt le (above op hop)⟩

/-- Beyond the loosest level there is no operator. -/
theorem Stops.any {m : Machine} (h : Stops maxLevel m) (level : Nat) : Stops level m := by
  obtain ⟨tag?, read, above⟩ := h
  refine ⟨tag?, read, fun op hop => ?_⟩
  exact absurd (above op hop) (Nat.not_lt_of_le (Formula.level_le_maxLevel op))

theorem operatorOfLevel_of_stops {level : Nat} {m : Machine} (h : Stops level m) :
    Expression.operatorOfLevel level m = .done none m := by
  obtain ⟨tag?, read, above⟩ := h
  unfold Expression.operatorOfLevel
  rw [bind_apply, read]
  simp only [Outcome.andThen]
  split
  · next op =>
    rw [if_neg (Nat.ne_of_gt (above op rfl))]
    rfl
  · rfl

/-- An atom with no operator behind it is the whole expression. -/
theorem wholeExpression_of_atom {r : Reentry} (passes : 0 < r.passes) {m last : Machine} {word : Word}
    (atom : Expression.atom r m = .done word last) (stops : Stops maxLevel last) :
    r.wholeExpression m = .done word last := by
  have level : ∀ level, Expression.upToLevel r level m = .done word last := fun level => by
    induction level with
    | zero => exact atom
    | succ level ih =>
      obtain ⟨left, passes⟩ := Nat.exists_eq_add_of_lt passes
      rw [Expression.upToLevel_succ, bind_apply, ih]
      change Eval.loop (Expression.levelTurn (level + 1) (Expression.upToLevel r level)) r.passes word last = _
      rw [passes, Tree.Refines.loop_succ, bind_apply, Expression.levelTurn, bind_apply,
        operatorOfLevel_of_stops (stops.any _)]
      rfl
  exact level maxLevel

theorem Facing.tokenTag? {op : Operator} {rest : Bytes} {m : Machine}
    (h : Facing base env quoting (.operator op) rest m) :
    Eval.tokenTag? m = .done (some (.operator op)) m := by
  obtain ⟨index, symbol, token, symbolAt, tag⟩ := h.ahead
  rw [Tree.tokenTag?_of_symbol token (h.arena ▸ symbolAt), tag]

theorem Facing.stops {op : Operator} {rest : Bytes} {m : Machine} {level : Nat}
    (h : Facing base env quoting (.operator op) rest m) (looser : level < op.level) :
    Stops level m := by
  refine ⟨_, h.tokenTag?, fun op' same => ?_⟩
  cases same
  exact looser

theorem Facing.stops_closeParen {rest : Bytes} {m : Machine} (level : Nat)
    (h : Facing base env quoting .closeParen rest m) : Stops level m := by
  have token : m.token = .closeParen := h.ahead
  refine ⟨none, Tree.tokenTag?_of_other fun i => ?_, nofun⟩
  rw [token]
  exact Token.noConfusion

/-! ### Results -/

/-- The computation has the value, if there is one, and leaves the machine `last`; otherwise it fails
for a division by zero. -/
def Comes (value? : Option Int) (last : Machine) (o : Outcome Word) : Prop :=
  match value? with
  | some value => ∃ word, o = .done word last ∧ word.toInt = value
  | none => ∃ m, o = .failed .divisionByZero m

theorem Comes.bind {value? : Option Int} {last last' : Machine} {x : Eval Word} {m : Machine}
    {next : Word → Eval Word} {next? : Int → Option Int} (h : Comes value? last (x m))
    (after : ∀ word : Word, Comes (next? word.toInt) last' (next word last)) :
    Comes (value?.bind next?) last' ((x >>= next) m) := by
  rw [bind_apply]
  cases value? with
  | none =>
    obtain ⟨m', failed⟩ := h
    rw [failed]
    exact ⟨m', rfl⟩
  | some value =>
    obtain ⟨word, done, rfl⟩ := h
    rw [done]
    exact after word

/-- What comes after a value may move the machine on. -/
theorem Comes.andThen {value? : Option Int} {last last' : Machine} {o : Outcome Word}
    {next : Word → Eval Word} (h : Comes value? last o)
    (after : ∀ word, next word last = .done word last') : Comes value? last' (o.andThen next) := by
  cases value? with
  | none =>
    obtain ⟨m', rfl⟩ := h
    exact ⟨m', rfl⟩
  | some value =>
    obtain ⟨word, rfl, toInt⟩ := h
    exact ⟨word, after word, toInt⟩

theorem Comes.adjust {value? : Option Int} {last : Machine} {o : Outcome Word} (h : Comes value? last o)
    (f : Machine → Machine) : Comes value? (f last) (o.adjust f) := by
  cases value? with
  | none =>
    obtain ⟨m', rfl⟩ := h
    exact ⟨f m', rfl⟩
  | some value =>
    obtain ⟨word, rfl, toInt⟩ := h
    exact ⟨word, rfl, toInt⟩

theorem comes_apply (op : Operator) (x y : Word) (m : Machine) :
    Comes (op.meaning? x.toInt y.toInt) m (Eval.ofExcept (op.apply x y) m) := by
  have gives := op.gives_meaning? x y
  unfold Operator.Gives at gives
  unfold Comes
  cases meaning : op.meaning? x.toInt y.toInt with
  | none =>
    rw [meaning] at gives
    simp only [Eval.ofExcept, show op.apply x y = _ from gives]
    exact ⟨m, rfl⟩
  | some value =>
    rw [meaning] at gives
    obtain ⟨word, ok, toInt⟩ := gives
    simp only [Eval.ofExcept, ok]
    exact ⟨word, rfl, toInt⟩

/-! ### Suspended loops -/

/-- The loop of a level with a value so far and a number of passes left. Atoms have no loop. -/
def suspended (r : Reentry) (last : Machine) : (level passes : Nat) → Word → Outcome Word
  | 0, _, word => .done word last
  | level + 1, passes, word =>
    Eval.loop (Expression.levelTurn (level + 1) (Expression.upToLevel r level)) passes word last

/-- The computation comes to the loop of a level with the value, if there is one, and more than
`spare` passes left. -/
def ComesToLoop (r : Reentry) (level spare : Nat) (value? : Option Int) (last : Machine)
    (o : Outcome Word) : Prop :=
  match value? with
  | some value => ∃ word passes, o = suspended r last level passes word ∧ word.toInt = value ∧
    spare < passes
  | none => ∃ m, o = .failed .divisionByZero m

theorem Comes.toLoop {r : Reentry} {spare : Nat} {value? : Option Int} {last : Machine}
    {o : Outcome Word} (h : Comes value? last o) : ComesToLoop r 0 spare value? last o := by
  cases value? with
  | none => exact h
  | some value =>
    obtain ⟨word, rfl, toInt⟩ := h
    exact ⟨word, spare + 1, rfl, toInt, Nat.lt_succ_self spare⟩

theorem Comes.bindLoop {r : Reentry} {level spare : Nat} {value? : Option Int} {last last' : Machine}
    {o : Outcome Word} {next : Word → Eval Word} {next? : Int → Option Int} (h : Comes value? last o)
    (after : ∀ word : Word, ComesToLoop r level spare (next? word.toInt) last' (next word last)) :
    ComesToLoop r level spare (value?.bind next?) last' (o.andThen next) := by
  cases value? with
  | none =>
    obtain ⟨m', rfl⟩ := h
    exact ⟨m', rfl⟩
  | some value =>
    obtain ⟨word, rfl, rfl⟩ := h
    exact after word

/-- The loop ends where no operator of its level comes next. -/
theorem ComesToLoop.comes {r : Reentry} {level spare : Nat} {value? : Option Int} {last : Machine}
    {o : Outcome Word} (h : ComesToLoop r level spare value? last o) (stops : Stops level last) :
    Comes value? last o := by
  cases value? with
  | none => exact h
  | some value =>
    obtain ⟨word, passes, rfl, toInt, more⟩ := h
    refine ⟨word, ?_, toInt⟩
    cases level with
    | zero => rfl
    | succ level =>
      obtain ⟨passes, rfl⟩ := Nat.exists_eq_add_of_lt more
      rw [suspended, Tree.Refines.loop_succ, bind_apply, Expression.levelTurn, bind_apply,
        operatorOfLevel_of_stops stops]
      rfl

/-! ### The induction -/

/-- What must come behind a formula: no operator that would belong to it. -/
def Ended (level : Nat) (isOpen : Bool) (last : Machine) : Prop :=
  Stops (if isOpen then maxLevel else level) last

theorem Ended.stops {level : Nat} {isOpen : Bool} {last : Machine} (h : Ended level isOpen last) :
    Stops level last := by
  cases isOpen with
  | false => exact h
  | true => exact h.any level

theorem Ended.tighter {level level' : Nat} {isOpen : Bool} {last : Machine}
    (h : Ended level isOpen last) (le : level' ≤ level) : Ended level' isOpen last := by
  cases isOpen with
  | false => exact Stops.mono h le
  | true => exact h

/-- Evaluated at a level, a formula comes to the loop of the level. -/
def Climbs (world : World) (base : Machine) (env : Tree.Spelled → Int) (level : Nat) (isOpen : Bool)
    (e : Formula) (signs : List Sign) : Prop :=
  ∀ {bytes after : Bytes} {quoting : Quoting} {m last : Machine} {fuel : Nat},
    Spells after signs bytes → base.Shows bytes → (∀ sign ∈ signs, sign.Known base env) →
    Faces base quoting bytes m → Faces base quoting after last → Ended (level - 1) isOpen last →
    signs.length ≤ fuel →
    ComesToLoop (.ofFuel world fuel) level (fuel - signs.length) (e.value? env) last
      (Expression.upToLevel (.ofFuel world fuel) level m)

theorem Spells.append {after bytes : Bytes} {first second : List Sign}
    (h : Spells after (first ++ second) bytes) :
    ∃ mid, Spells mid first bytes ∧ Spells after second mid := by
  induction first generalizing bytes with
  | nil => exact ⟨bytes, .nil, h⟩
  | cons sign first ih =>
    cases h with
    | cons blank apart rest =>
      obtain ⟨mid, before, behind⟩ := ih rest
      exact ⟨mid, .cons blank apart before, behind⟩

theorem Spells.shows {after bytes : Bytes} {signs : List Sign} (h : Spells after signs bytes)
    (shown : base.Shows bytes) : base.Shows after := by
  induction h with
  | nil => exact shown
  | cons _ _ _ ih => exact ih shown.rest.rest

/-- Of spelled signs the first is read, and the others are left. -/
theorem Spells.facing {after bytes : Bytes} {sign : Sign} {signs : List Sign}
    (h : Spells after (sign :: signs) bytes) (env : Tree.Spelled → Int) (shown : base.Shows bytes)
    (known : sign.Known base env) (quoting : Quoting) :
    ∃ more m, Spells after signs more ∧ base.Shows more ∧ Faces base quoting bytes m ∧
      Facing base env quoting sign more m := by
  cases h with
  | cons blank apart rest =>
    obtain ⟨m, faces, facing⟩ := faces_sign quoting known shown blank apart
    exact ⟨_, m, rest, shown.rest.rest, faces, facing⟩

theorem Spells.faces {after bytes : Bytes} {signs : List Sign} {last : Machine}
    (h : Spells after signs bytes) (shown : base.Shows bytes)
    (known : ∀ sign ∈ signs, sign.Known base env) (behind : Faces base quoting after last) :
    ∃ m, Faces base quoting bytes m := by
  cases signs with
  | nil =>
    cases h
    exact ⟨last, behind⟩
  | cons sign signs =>
    obtain ⟨-, m, -, -, faces, -⟩ := h.facing env shown (known sign List.mem_cons_self) quoting
    exact ⟨m, faces⟩

theorem Faces.unique {bytes : Bytes} {m m' : Machine} (h : Faces base quoting bytes m)
    (h' : Faces base quoting bytes m') : m' = m := by
  have same := h.symm.trans h'
  cases same
  rfl

/-- A machine that has read the first sign of some that are spelled has the others before it. -/
theorem Spells.facing_of_faces {after bytes : Bytes} {sign : Sign} {signs : List Sign} {m : Machine}
    (h : Spells after (sign :: signs) bytes) (env : Tree.Spelled → Int) (shown : base.Shows bytes)
    (known : sign.Known base env) (faces : Faces base quoting bytes m) :
    ∃ more, Spells after signs more ∧ base.Shows more ∧ Facing base env quoting sign more m := by
  obtain ⟨more, m', rest, shown, faces', facing⟩ := h.facing env shown known quoting
  obtain rfl := faces.unique faces'
  exact ⟨more, rest, shown, facing⟩

theorem atom_of_symbol {r : Reentry} {m : Machine} {index : Nat} {symbol : Symbol Native}
    (token : m.token = .symbol index) (symbolAt : m.arena.symbols[index]? = some symbol) :
    Expression.atom r m = Expression.symbolAtom r symbol m := by
  rw [Expression.atom, Eval.token_bind, token]
  simp only [bind_apply, Eval.symbolAt, symbolAt, Outcome.andThen]

theorem Facing.atom_numeral {r : Reentry} {n : Numeral} {rest : Bytes} {m last : Machine}
    (h : Facing base env quoting (.numeral n) rest m) (faces : Faces base quoting rest last) :
    Expression.atom r m = .done (Int64.ofNat n.value) last := by
  have token : m.token = .number (Int64.ofNat n.value) := h.ahead
  rw [Expression.atom, Eval.token_bind, token]
  simp only [bind_apply, h.advance faces]
  rfl

/-- An operator in place of an atom takes the rest as its right operand. -/
theorem Facing.atom_operator {r : Reentry} {op : Operator} {rest : Bytes} {m m' : Machine}
    (h : Facing base env quoting (.operator op) rest m) (faces : Faces base quoting rest m') :
    Expression.atom r m = (r.expression >>= fun value => ofExcept (op.apply 0 value)) m' := by
  obtain ⟨index, symbol, token, symbolAt, tag⟩ := h.ahead
  rw [atom_of_symbol token (h.arena ▸ symbolAt)]
  simp only [Expression.symbolAtom, tag]
  rw [bind_apply, h.advance faces]
  rfl

theorem climbs_number (n : Numeral) : Climbs world base env 0 false (.number n) [.numeral n] := by
  intro bytes after quoting m last fuel spells shown _ faces behind _ _
  obtain ⟨more, rest, -, facing⟩ := spells.facing_of_faces env shown trivial faces
  cases rest
  exact Comes.toLoop ⟨Int64.ofNat n.value, facing.atom_numeral behind, Int64.toInt_ofNat'⟩

theorem climbs_var (x : Tree.Spelled) : Climbs world base env 0 false (.var x) [.word x] := by
  intro bytes after quoting m last fuel spells shown known faces behind _ _
  obtain ⟨more, rest, -, facing⟩ :=
    spells.facing_of_faces env shown (known _ List.mem_cons_self) faces
  cases rest
  obtain ⟨index, symbol, token, symbolAt, tag, value⟩ := facing.ahead
  refine Comes.toLoop ⟨symbol.value, ?_, value⟩
  rw [Expression.upToLevel, atom_of_symbol token (facing.arena ▸ symbolAt)]
  simp only [Expression.symbolAtom, tag, bind_apply, facing.advance behind]
  rfl

/-- On a unit of fuel less, what is written at the loosest level is a whole expression. -/
theorem Climbs.expression {isOpen : Bool} {e : Formula} {signs : List Sign}
    (h : Climbs world base env maxLevel isOpen e signs) {bytes after : Bytes} {m last : Machine}
    {fuel : Nat} (spells : Spells after signs bytes) (shown : base.Shows bytes)
    (known : ∀ sign ∈ signs, sign.Known base env) (faces : Faces base quoting bytes m)
    (behind : Faces base quoting after last) (stops : Stops maxLevel last)
    (enough : signs.length < fuel) :
    Comes (e.value? env) last (evalExpression world fuel m) := by
  obtain ⟨fuel, rfl⟩ : ∃ k, fuel = k + 1 := ⟨fuel - 1, by omega⟩
  have ended : Ended (maxLevel - 1) isOpen last := by
    unfold Ended
    exact stops.any _
  rw [evalExpression_succ]
  exact (h spells shown known faces behind ended (by omega)).comes stops

theorem climbs_group {isOpen : Bool} {e : Formula} {signs : List Sign}
    (inside : Climbs world base env maxLevel isOpen e signs) :
    Climbs world base env 0 false e (.openParen :: signs ++ [.closeParen]) := by
  intro bytes after quoting m last fuel spells shown known faces behind _ enough
  simp only [List.length_append, List.length_cons, List.length_nil] at enough
  have known' : ∀ sign ∈ signs, sign.Known base env := fun sign mem => known sign (by simp [mem])
  obtain ⟨more, rest, shown, facing⟩ := spells.facing_of_faces env shown trivial faces
  obtain ⟨mid, spelled, closing⟩ := rest.append
  obtain ⟨more', m₂, rest', -, faces₂, facing₂⟩ :=
    closing.facing env (spelled.shows shown) trivial .plain
  cases rest'
  obtain ⟨m₁, faces₁⟩ := spelled.faces shown known' faces₂
  have open_ : m.token = .openParen := facing.ahead
  have close : m₂.token = .closeParen := facing₂.ahead
  -- the inside is evaluated in plain quoting, up to the closing parenthesis
  have evaluated : Comes (e.value? env) m₂ (evalExpression world fuel m₁) :=
    inside.expression spelled shown known' faces₁ faces₂ (facing₂.stops_closeParen _) (by omega)
  have grouped : Comes (e.value? env) m₂
      (Expression.group (.ofFuel world fuel) { m with quoting := .plain }) := by
    rw [Expression.group, bind_apply, facing.next faces₁]
    refine Comes.andThen evaluated fun word => ?_
    rw [Eval.token_bind, if_pos close]
    rfl
  have restored : Comes (e.value? env) { m₂ with quoting }
      (withQuoting .plain (Expression.group (.ofFuel world fuel)) m) := by
    have adjusted := grouped.adjust fun m => { m with quoting }
    rw [← facing.quoting] at adjusted ⊢
    exact adjusted
  refine Comes.toLoop ?_
  rw [Expression.upToLevel, Expression.atom, Eval.token_bind, open_]
  refine restored.andThen fun word => ?_
  rw [bind_apply, facing₂.next behind]
  rfl

theorem climbs_unary {isOpen : Bool} {op : Operator} {e : Formula} {signs : List Sign}
    (operand : Climbs world base env maxLevel isOpen e signs) :
    Climbs world base env 0 true (.unary op e) (.operator op :: signs) := by
  intro bytes after quoting m last fuel spells shown known faces behind ended enough
  have known' : ∀ sign ∈ signs, sign.Known base env := fun sign mem => known sign (by simp [mem])
  obtain ⟨more, rest, shown, facing⟩ :=
    spells.facing_of_faces env shown (known _ List.mem_cons_self) faces
  obtain ⟨m₁, faces₁⟩ := rest.faces shown known' behind
  have evaluated : Comes (e.value? env) last (evalExpression world fuel m₁) :=
    operand.expression rest shown known' faces₁ behind ended enough
  refine Comes.toLoop ?_
  rw [Expression.upToLevel, facing.atom_operator faces₁]
  exact Comes.bind evaluated fun word => comes_apply op 0 word last

theorem climbs_looser {level : Nat} {isOpen : Bool} {e : Formula} {signs : List Sign}
    (some_ : 0 < signs.length) (tighter : Climbs world base env level isOpen e signs) :
    Climbs world base env (level + 1) isOpen e signs := by
  intro bytes after quoting m last fuel spells shown known faces behind ended enough
  have evaluated := (tighter spells shown known faces behind (ended.tighter (Nat.sub_le _ _))
    enough).comes ended.stops
  rw [Expression.upToLevel_succ, bind_apply]
  cases value : e.value? env with
  | none =>
    rw [value] at evaluated
    obtain ⟨m', failed⟩ := evaluated
    rw [failed]
    exact ⟨m', rfl⟩
  | some v =>
    rw [value] at evaluated
    obtain ⟨word, done, toInt⟩ := evaluated
    rw [done]
    exact ⟨word, fuel, rfl, toInt, by omega⟩

/-- One more turn of a loop takes an operator of its level. -/
theorem loop_of_facing {r : Reentry} {level passes : Nat} {op : Operator} {rest : Bytes}
    {m m' : Machine} {word : Word} (level_eq : op.level = level + 1)
    (facing : Facing base env quoting (.operator op) rest m) (faces : Faces base quoting rest m') :
    Eval.loop (Expression.levelTurn (level + 1) (Expression.upToLevel r level)) (passes + 1) word m =
      (Expression.upToLevel r level m').andThen fun operand =>
        Eval.ofExcept (op.apply word operand) >>=
          Eval.loop (Expression.levelTurn (level + 1) (Expression.upToLevel r level)) passes := by
  have found : Expression.operatorOfLevel (level + 1) m = .done (some op) m := by
    rw [Expression.operatorOfLevel, bind_apply, facing.tokenTag?]
    simp only [Outcome.andThen, level_eq, if_true]
    rfl
  rw [Tree.Refines.loop_succ, bind_apply, Expression.levelTurn, bind_apply, found]
  simp only [Outcome.andThen, bind_apply, facing.advance faces]
  cases Expression.upToLevel r level m' with
  | failed error after => rfl
  | stopped why after => rfl
  | done operand after =>
    simp only [Eval.ofExcept]
    cases op.apply word operand <;> rfl

theorem climbs_binary {level : Nat} {isOpen : Bool} {op : Operator} {l r : Formula}
    {before behind : List Sign} (level_eq : op.level = level + 1)
    (left : Climbs world base env (level + 1) false l before)
    (right : Climbs world base env level isOpen r behind) :
    Climbs world base env (level + 1) isOpen (.binary op l r) (before ++ .operator op :: behind) := by
  intro bytes after quoting m last fuel spells shown known faces faces' ended enough
  simp only [List.length_append, List.length_cons] at enough ⊢
  obtain ⟨mid, spelled, others⟩ := spells.append
  obtain ⟨more, m₁, rest, shown₁, faces₁, facing₁⟩ :=
    others.facing env (spelled.shows shown) (known _ (by simp)) quoting
  have known' : ∀ sign ∈ behind, sign.Known base env := fun sign mem => known sign (by simp [mem])
  obtain ⟨m₂, faces₂⟩ := rest.faces shown₁ known' faces'
  have ended₁ : Ended level false m₁ := facing₁.stops (by rw [level_eq]; exact Nat.lt_succ_self _)
  have first := left spelled shown (fun sign mem => known sign (by simp [mem])) faces faces₁ ended₁
    (show before.length ≤ fuel by omega)
  have second := (right rest shown₁ known' faces₂ faces' (ended.tighter (Nat.sub_le _ _))
    (show behind.length ≤ fuel by omega)).comes ended.stops
  rw [Formula.value?]
  generalize l.value? env = value? at first
  cases value? with
  | none => exact first
  | some x =>
    obtain ⟨word, passes, reached, rfl, more⟩ := first
    obtain ⟨passes, rfl⟩ : ∃ k, passes = k + 1 := ⟨passes - 1, by omega⟩
    rw [reached, suspended, loop_of_facing level_eq facing₁ faces₂]
    refine second.bindLoop fun operand => ?_
    rw [← Option.bind_fun_some (op.meaning? word.toInt operand.toInt)]
    refine Comes.bindLoop (comes_apply op word operand last) fun value => ?_
    exact ⟨value, passes, rfl, rfl, by omega⟩

/-- Every way to write a formula is evaluated by the grammar. -/
theorem Formula.Written.climbs {level : Nat} {isOpen : Bool} {e : Formula} {signs : List Sign}
    (h : Written level isOpen e signs) : Climbs world base env level isOpen e signs := by
  induction h with
  | number n => exact climbs_number n
  | var x => exact climbs_var x
  | group _ ih => exact climbs_group ih
  | unary _ ih => exact climbs_unary ih
  | binary level_eq _ _ ihl ihr => exact climbs_binary level_eq ihl ihr
  | looser tighter ih => exact climbs_looser tighter.length_pos ih

/-- The signs of a formula have a meaning where its variables and all operators have one. -/
theorem Formula.Written.known {level : Nat} {isOpen : Bool} {e : Formula} {signs : List Sign}
    (h : Written level isOpen e signs) (operators : ∀ op, base.Knows op)
    (bound : ∀ x ∈ e.names, base.Binds x (env x)) : ∀ sign ∈ signs, sign.Known base env := by
  induction h with
  | number n => simp [Sign.Known]
  | var x => simpa [Sign.Known] using bound x (by simp [names])
  | group _ ih =>
    have inside := ih bound
    intro sign mem
    simp only [List.cons_append, List.mem_cons, List.mem_append, List.not_mem_nil, or_false] at mem
    rcases mem with rfl | mem | rfl
    · trivial
    · exact inside sign mem
    · trivial
  | @unary _ op _ _ _ ih =>
    have operand := ih bound
    intro sign mem
    rcases List.mem_cons.mp mem with rfl | mem
    · exact operators op
    · exact operand sign mem
  | @binary _ _ op _ _ _ _ _ _ _ ihl ihr =>
    have left := ihl fun x mem => bound x (by simp [names, mem])
    have right := ihr fun x mem => bound x (by simp [names, mem])
    intro sign mem
    rcases List.mem_append.mp mem with mem | mem
    · exact left sign mem
    · rcases List.mem_cons.mp mem with rfl | mem
      · exact operators op
      · exact right sign mem
  | looser _ ih => exact ih bound

/-! ### Whole formulas -/

def Machine.AtNoOperator (m : Machine) : Prop :=
  ∀ {index symbol op}, m.token = .symbol index → m.arena.symbols[index]? = some symbol →
    symbol.tag ≠ .operator op

theorem Machine.AtNoOperator.stops {m m' : Machine} (h : m'.AtNoOperator)
    (read : advance m = .done () m') : Stops maxLevel m' := by
  cases token : m'.token with
  | symbol index =>
    obtain ⟨symbol, symbolAt⟩ := symbol_of_advanceBy read token
    refine ⟨_, Tree.tokenTag?_of_symbol token symbolAt, fun op tag => ?_⟩
    exact absurd (Option.some.inj tag) (h token symbolAt)
  | _ => exact ⟨none, Tree.tokenTag?_of_other (by simp [token]), nofun⟩

/-- Expressions are evaluated by the grammar. Let a formula be written somewhere in a text, in any of
the ways that the grammar allows, of which `layout` is one, with any blanks that keep its signs
apart. Let all operators and the variables of the formula be known, and let what follows be
read as something that is no operator. Then evaluation gives the value of the formula and ends
facing what follows; or some divisor is zero, and evaluation fails for that. -/
theorem evalExpression_written (world : World) {e : Formula} {isOpen : Bool} {signs : List Sign}
    (written : Formula.Written maxLevel isOpen e signs) {m last : Machine}
    {env : Tree.Spelled → Int} {after : Bytes} (spelled : Spells after signs m.cursor.scanner.rest)
    (shown : m.Shows m.cursor.scanner.rest) (operators : ∀ op, m.Knows op)
    (bound : ∀ x ∈ e.names, m.Binds x (env x))
    (follows : advance (m.standingAt m.quoting after) = .done () last) (ends : last.AtNoOperator)
    {fuel : Nat} (enough : signs.length < fuel) :
    let outcome := (advance >>= fun _ => evalExpression world fuel) m
    (¬e.DividesByZero env → ∃ word, outcome = .done word last ∧ e.value? env = some word.toInt) ∧
      (e.DividesByZero env → ∃ m', outcome = .failed .divisionByZero m') := by
  have here : m.standingAt m.quoting m.cursor.scanner.rest = m := by
    simp [Machine.standingAt, Scanner.limit]
  have known := written.known operators bound
  obtain ⟨first, faces⟩ := spelled.faces shown known follows
  have climbed : Comes (e.value? env) last (evalExpression world fuel first) :=
    Climbs.expression written.climbs spelled shown known faces follows (ends.stops follows) enough
  intro outcome
  have evaluated : outcome = evalExpression world fuel first := by
    have read : advance m = .done () first := by rwa [Faces, here] at faces
    change (advance m).andThen _ = _
    rw [read]
    rfl
  rw [evaluated, ← e.value?_eq_none_iff]
  generalize e.value? env = value? at climbed ⊢
  cases value? with
  | none => exact ⟨fun some_ => absurd rfl some_, fun _ => climbed⟩
  | some value =>
    obtain ⟨word, done, rfl⟩ := climbed
    refine ⟨fun _ => ⟨word, done, rfl⟩, fun none_ => ?_⟩
    cases none_

/-- A machine that knows one variable, `x`, and stands before a text. -/
def Machine.beforeText (text : String) : Machine where
  name := defaultName
  options := {}
  arena := {
    size := 2048
    symbols := (vocabulary.map fun (name, tag) => ⟨.ofString name, tag, 0⟩).toArray.push
      ⟨.ofString "x", .var, 4⟩ }
  cursor := ⟨.fixed (Text.encode text).toArray, ⟨0, Text.encode text⟩, (Text.encode text).length, 0⟩

/-- Twice what is left of zero when all the rest is taken from it. -/
theorem evalExpression_written_twice :
    ∃ last, (advance >>= fun _ => evalExpression (fun _ _ => none) 7)
      (.beforeText " 2 * - x + 0x1F ;") = .done (-70) last := by
  let m : Machine := .beforeText " 2 * - x + 0x1F ;"
  let x : Tree.Spelled := ⟨"x", by decide⟩
  let sum : Formula := .binary .plus (.var x) (.number (.hexadecimal false "1F" (by decide)))
  let e : Formula := .binary .multiply (.number (.decimal "2" (by decide))) (.unary .minus sum)
  obtain ⟨isOpen, -, written⟩ := e.written_layout maxLevel false
  have spelled : Spells [0x20, 0x3B] (Formula.layout maxLevel false e) m.cursor.scanner.rest :=
    spells_spellSigns _ (Tree.delimited_cons_iff.mpr rfl)
  have shown : m.Shows m.cursor.scanner.rest := ⟨[], [], rfl, rfl⟩
  have operators : ∀ op, m.Knows op := by
    unfold Machine.Knows
    intro op
    cases op <;> decide +kernel
  have bound : ∀ y ∈ e.names, m.Binds y ((fun _ => 4 : Tree.Spelled → Int) y) := by
    intro y mem
    obtain rfl : y = x := by simpa [e, sum, Formula.names] using mem
    unfold Machine.Binds
    decide +kernel
  have undivided : ¬e.DividesByZero fun _ => 4 := by
    simp [e, sum, Formula.DividesByZero, Formula.divisors]
  have enough : (Formula.layout maxLevel false e).length < 7 := by decide
  obtain ⟨word, done, value⟩ := (evalExpression_written (fun _ _ => none) written spelled shown
    operators bound rfl (by rintro - - - ⟨⟩) enough).1 undivided
  have value' : e.value? (fun _ => 4) = some (Int64.toInt (-70)) := by decide +kernel
  rw [value', Option.some_inj, Int64.toInt_inj] at value
  exact ⟨_, value ▸ done⟩

end Scriptlet
