import Scriptlet.Proofs.Moved.Steps
import Scriptlet.Proofs.Tandem.Statements

/-!
Calls and nested bodies on two machines that read the same piece of text. What is called is the same, moved,
and leaves the machines where they were reading.

Where the first machine is already at the token behind the piece, an expression cannot but read on, or be
refused (`Manner.AtClose.atom`). With that the machines go through a script side by side
(`Relocation.Relocates.discipline`), and while the piece lasts, through expressions in every manner.
-/

namespace Scriptlet

open Eval

variable {α : Type} {μ : Manner} {m m' n n' : Machine}

/-! ### Behind the piece -/

namespace Manner

theorem Apart.withQuoting {quoting : Quoting} {x : Eval α} (h : μ.Apart (x { m with quoting })) :
    μ.Apart (Eval.withQuoting quoting x m) := h.adjust fun _ => rfl

theorem Apart.unwinding {x : Eval α} (h : μ.Apart (x m)) : μ.Apart (Eval.unwinding x m) :=
  h.adjustUndone fun _ => rfl

section

variable {r : Reentry} (hexpr : Keeps Ahead r.expression)
  (hbody : ∀ body topLevel duplicate, Keeps Bracketed (r.body body topLevel duplicate))

include hexpr hbody

theorem AtClose.inExpression (h : μ.AtClose m) (callee : Symbol Native) :
    μ.Apart (Call.inExpression r callee m) := by
  rw [Call.inExpression_apply]
  refine Apart.bind (.unwinding (.withQuoting ?_)) (.inr fun count => ?_)
  · exact AtClose.advancing (m := { m with quoting := .argument }) (h.of_cursor rfl) fun _ =>
      ahead_opening hexpr hbody
  · exact ahead_track.bind (ahead_handOver hbody callee count _) fun _ =>
      ahead_track.bind (ahead_advanceBy false) fun _ => ahead_track.still (still_pure _)

theorem AtClose.symbolAtom (h : μ.AtClose m) (s : Symbol Native) :
    μ.Apart (Expression.symbolAtom r s m) := by
  unfold Expression.symbolAtom
  cases s.tag with
  | var => exact h.advancing fun _ => ahead_track.still (still_pure _)
  | native native arity => exact h.inExpression hexpr hbody s
  | func arity => exact h.inExpression hexpr hbody s
  | operator op =>
    exact h.advancing fun _ => ahead_track.bind hexpr fun _ => ahead_track.still (still_ofExcept _)
  | keyword word => exact h.complain _

/-- An atom takes at least one token, or is refused. -/
theorem AtClose.atom (h : μ.AtClose m) : μ.Apart (Expression.atom r m) := by
  have passing : ∀ value : Word, μ.Apart ((do advance; return value : Eval Word) m) := fun value =>
    h.advancing fun _ => ahead_track.still (still_pure _)
  unfold Expression.atom
  rw [token_bind]
  cases m.token with
  | number value => exact passing value
  | openParen =>
    have grouped : μ.AtClose { m with quoting := .plain } := h.of_cursor rfl
    refine Apart.bind (.withQuoting (x := Expression.group r) (grouped.advancing fun _ => ?_))
      (.inr fun _ => ?_)
    · exact ahead_track.bind hexpr ahead_closing
    · exact ahead_track.bind (ahead_advanceBy false) fun _ => ahead_track.still (still_pure _)
  | text slice => exact passing 0
  | literal => exact passing Word.literalMark
  | name slice => exact h.unknown
  | symbol index => exact h.symbolAt fun {s} _ => h.symbolAtom hexpr hbody s
  | eof => exact h.complain _
  | separator => exact h.complain _
  | comma => exact h.complain _
  | closeParen => exact h.complain _

theorem AtClose.upToLevel (level : Nat) (h : μ.AtClose m) : μ.Apart (Expression.upToLevel r level m) := by
  induction level with
  | zero => exact h.atom hexpr hbody
  | succ level ih =>
    have ahead := (ahead_discipline hexpr hbody).upToLevel level
    rw [Expression.upToLevel_succ]
    exact Apart.bind ih (.inr fun first =>
      ahead_track.loop (ahead_track.levelTurn (ahead_advanceBy false) ahead _) _ first)

end

end Manner

namespace Relocation

variable {ρ : Relocation}

variable (ρ) in
/-- What is known, on two machines, of what is nested in a construct. -/
structure Relocates (r : Reentry) : Prop where
  expression : ∀ {μ m m'}, ρ.Abreast μ m m' →
    ρ.Follow μ (Equally (ρ.Abreast μ)) (r.expression m) (r.expression m')
  aside : ∀ {μ : Manner} {m}, μ.AtClose m → μ.Apart (r.expression m)
  bodies : ρ.BodiesMove r
  ahead : Keeps Ahead r.expression
  bracket : ∀ body topLevel duplicate, Keeps Bracketed (r.body body topLevel duplicate)
  grows : Keeps Grows r.expression
  growsBody : ∀ body topLevel duplicate, Keeps Grows (r.body body topLevel duplicate)

section

variable {r : Reentry} (relocates : ρ.Relocates r)

include relocates

theorem follow_nestedBody {body body' : Slice} (h : ρ.Abreast μ m m') (carried : ρ.Carried body body') :
    ρ.Follow μ (fun _ _ n n' => ρ.Abreast μ n n') (Statement.nestedBody r body m)
      (Statement.nestedBody r body' m') := by
  obtain ⟨rfl, inside⟩ := carried
  have stay : ρ.Stay (Statement.nestedBody r body m) (Statement.nestedBody r (ρ.slice body) m') :=
    Stay.bind (relocates.bodies false false h.moved.note inside) fun moved => .done ⟨rfl, moved⟩
  exact Follow.imp (stay.follow h (bracketed_nestedBody relocates.bracket body m).unread
    (bracketed_nestedBody relocates.bracket _ m').unread) fun ⟨_, _, abreast⟩ => abreast

theorem follow_handOver (fits : ρ.Fits) {index : Nat} {s s' : Symbol Native} (h : ρ.Abreast μ m m')
    (found : m.arena.symbols[index]? = some s) (found' : m'.arena.symbols[index]? = some s')
    (count literals : Nat) :
    (ρ.tandem μ).Rel ((ρ.tandem μ).At fun _ t => t = m.token) m m' (Call.handOver r s count literals m)
      (Call.handOver r s' count literals m') := by
  have loose := expanding_grows.loose relocates.grows relocates.growsBody
  have same : s' = ρ.symbol s := by
    rw [h.moved.symbols, found] at found'
    exact (Option.some.inj found').symm
  have handed := (stay_handOver relocates.bodies fits h.moved (h.moved.settled.symbols found) count
    literals).follow h (unread_handOver relocates.bracket s count literals m)
    (unread_handOver relocates.bracket (ρ.symbol s) count literals m')
  rw [← same] at handed
  exact Follow.tandem handed (loose.handOver found (grows_track.refl m) count literals)
    (loose.handOver found' (grows_track.refl m') count literals)

/-- An argument list at the token behind the piece takes at least that token, or is refused. -/
theorem apart_arguments (h : μ.AtClose m) : μ.Apart (r.loop (Call.parensTurn r) 0 m) := by
  have turns := (ahead_loose relocates.ahead relocates.bracket).arguments.parensTurn
  have turn : μ.Apart (Call.parensTurn r 0 m) :=
    Manner.Apart.bind (Manner.Apart.bind (relocates.aside h) (.inr fun _ => ahead_allocate _))
      (.inr fun _ => ahead_track.behindArgument (ahead_advanceBy false) 0)
  unfold Reentry.loop
  cases r.passes with
  | zero => exact .stalled h.outside
  | succ passes => exact turn.loop (.inr turns) passes

/-- Where what is nested in a construct can be moved, so can all that it is nested in. -/
theorem Relocates.discipline (fits : ρ.Fits) (μ : Manner) : (ρ.tandem μ).Discipline r where
  toDefinitions := definitions fits μ
  onward := .inr ⟨relocates.ahead, relocates.bracket⟩
  expression h := Follow.tandem (relocates.expression h) (relocates.grows _) (relocates.grows _)
  handOver h found found' _ := follow_handOver relocates fits h found found'
  nestedBody h carried := Follow.tandem (follow_nestedBody relocates h carried)
    ((expanding_grows.discipline relocates.grows relocates.growsBody).nestedBody _ _)
    ((expanding_grows.discipline relocates.grows relocates.growsBody).nestedBody _ _)
  looseAtom h := fun _ _ => .apart (h.atom relocates.ahead relocates.bracket)
  looseArguments h := fun _ _ => .apart (apart_arguments relocates h)

end

end Relocation

end Scriptlet
