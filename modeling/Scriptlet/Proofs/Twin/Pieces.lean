import Scriptlet.Evaluation.Fuel
import Scriptlet.Proofs.Twin.Copying
import Scriptlet.Proofs.Twin.Seam

/-!
A script may be run whole or piece by piece. If a text runs out without a return, then the text that
has another one behind it on a new line comes to what the other one comes to on the machine that the
first text has left (`evalText_append`). The two are told apart by the lines of errors, and by nothing
else that can be seen.

So this needs natives that do not look at the lines of the errors they are told of, and functions that
are defined by scripts: a text that has been evaluated is gone if its names were copied, and a made-up
function can tell (`evalText_append_fails`).
-/

namespace Scriptlet

open Text (Bytes lineFeed)
open Eval

variable {α : Type} {strict : Bool} {world : World} {m m' m₁ n n' : Machine} {r s : Reentry}

/-! ### Budgets -/

def Outcome.OutOfFuel : Outcome α → Prop
  | .stopped .outOfFuel _ => True
  | _ => False

theorem Outcome.Below.eq {o o' : Outcome α} (h : o.Below o') (enough : ¬ o.OutOfFuel) : o = o' := by
  rcases h with same | ⟨n, rfl⟩
  · exact same
  · exact absurd trivial enough

/-- On any two budgets that are enough, a computation comes to the same. -/
theorem Reentry.eq_of_enough {x : Reentry → Eval α}
    (below : ∀ {r s : Reentry}, r.Below s → Eval.Below (x r) (x s)) {fuel more : Nat}
    (enough : ¬ (x (.ofFuel world fuel) m).OutOfFuel) (enough' : ¬ (x (.ofFuel world more) m).OutOfFuel) :
    x (.ofFuel world fuel) m = x (.ofFuel world more) m := by
  rcases Nat.le_total fuel more with le | le
  · exact (below (Reentry.ofFuel_below world le) m).eq enough
  · exact ((below (Reentry.ofFuel_below world le) m).eq enough').symm

/-- Where nothing is excused, one side is out of fuel when the other is. -/
theorem Paired.outOfFuel_iff {left right : Error → Prop} {D : Post α}
    {F : Machine → Machine → Prop} {o o' : Outcome α} (h : Paired left right D F o o')
    (hleft : ∀ e, ¬ left e) (hright : ∀ e, ¬ right e) : o'.OutOfFuel ↔ o.OutOfFuel := by
  cases h with
  | done => exact Iff.rfl
  | failed => exact Iff.rfl
  | @stopped why n n' => cases why <;> exact Iff.rfl
  | excused he => exact absurd he (hleft _)
  | excused' he => exact absurd he (hright _)

namespace Reentry.Below

open Eval.Below

variable (h : r.Below s)

include h

theorem sequence {p q : Nat} (le : p ≤ q) :
    Eval.Below (Statement.sequence r p) (Statement.sequence s q) :=
  bind_right _ fun _ => Eval.Below.loop h.turn le ()

end Reentry.Below

theorem below_sequence (world : World) {fuel more p q : Nat} (fuel_le : fuel ≤ more) (le : p ≤ q)
    (m : Machine) :
    (Statement.sequence (.ofFuel world fuel) p m).Below (Statement.sequence (.ofFuel world more) q m) :=
  (Reentry.ofFuel_below world fuel_le).sequence le m

theorem evalTextEnding_of_le {fuel more : Nat} (h : fuel ≤ more) {text : String} {duplicate : Bool}
    (enough : ¬ (evalTextEnding world fuel text duplicate m).OutOfFuel) :
    evalTextEnding world more text duplicate m = evalTextEnding world fuel text duplicate m := by
  have below : Eval.Below (evalTextEnding world fuel text duplicate)
      (evalTextEnding world more text duplicate) :=
    .noting (.reporting (.holding (fun _ =>
      .entering ((Reentry.ofFuel_below world h).body _ true duplicate)) _ _))
  exact ((below m).eq enough).symm

/-! ### What becomes of a text -/

theorem conclude_eq_done {o : Outcome α} {text : Bytes} {duplicate : Bool} {a : α}
    (h : m.conclude text duplicate o = .done a n) : ∃ k, o = .done a k ∧ n = m.closing text duplicate k := by
  unfold Machine.conclude reporting at h
  cases o with
  | done b k =>
    cases h
    exact ⟨k, rfl, rfl⟩
  | failed e k =>
    dsimp only [Outcome.adjust, Outcome.adjustError] at h
    split at h <;> cases h
  | stopped why k => cases h

/-- A text is out of fuel when its statements are. -/
theorem outOfFuel_evalText {fuel : Nat} {text : String} {duplicate : Bool}
    (h : (Statement.sequence (.ofFuel world fuel) fuel
      (m.starting (Text.encode text) duplicate)).OutOfFuel) :
    (evalText world (fuel + 1) text duplicate true m).OutOfFuel := by
  rw [evalText_eq, bind_apply, evalTextEnding_succ]
  generalize Statement.sequence (.ofFuel world fuel) fuel _ = o at h ⊢
  cases o with
  | done => cases h
  | failed => cases h
  | stopped why k =>
    cases why with
    | outOfFuel => trivial
    | unanswered => cases h

/-- Texts whose statements do alike come to the same. -/
theorem concur_evalText {fuel fuel' : Nat} {text text' : String} {duplicate duplicate' : Bool}
    (sound : m.Sound true) (sound' : m'.Sound true) (quoting : m'.quoting = m.quoting)
    (agree : Agree ⟨strict, none⟩ (Equally (Abreast ⟨strict, none⟩)) n n'
      (Statement.sequence (.ofFuel world fuel) fuel (m.starting (Text.encode text) duplicate))
      (Statement.sequence (.ofFuel world fuel') fuel' (m'.starting (Text.encode text') duplicate'))) :
    Concur strict (evalText world (fuel + 1) text duplicate true m)
      (evalText world (fuel' + 1) text' duplicate' true m') := by
  have closed := sound_closing world fuel sound (Text.encode text) duplicate
  have closed' := sound_closing world fuel' sound' (Text.encode text') duplicate'
  have left : Concur strict _ _ := agree.leave fun {k k'} hk hk' core =>
    core.closing quoting (hk ▸ closed) (hk' ▸ closed')
  rw [evalText_eq, evalText_eq]
  refine Concur.bind ?_ fun core => .done ⟨rfl, core⟩
  rw [evalTextEnding_succ, evalTextEnding_succ]
  exact concur_reporting left

/-! ### Two texts and one -/

/-- On a budget that is larger by `extra` than the one the first text ran out on, the second text does what
the rest of the one text does. It has at least `extra` turns for it. -/
theorem agree_append {fuel : Nat} {first : String} {duplicate : Bool} (h : Core true m m')
    (ran : evalTextEnding world (fuel + 1) first duplicate m = .done .ranOut m₁) (second : String)
    (extra : Nat) :
    ∃ passes k', extra ≤ passes ∧ passes ≤ fuel + extra ∧
      Agree ⟨true, none⟩ (Equally (Abreast ⟨true, none⟩)) (m₁.starting (Text.encode second) duplicate) k'
        (Statement.sequence (.ofFuel world (fuel + extra)) passes
          (m₁.starting (Text.encode second) duplicate))
        (Statement.sequence (.ofFuel world (fuel + extra)) (fuel + extra)
          (m'.starting (Text.encode (first ++ "\n" ++ second)) duplicate)) := by
  rw [evalTextEnding_succ] at ran
  obtain ⟨k, read, rfl⟩ := conclude_eq_done ran
  have closed := sound_closing world fuel h.sound (Text.encode first) duplicate
  have plain := quoting_sequence world fuel (m.starting (Text.encode first) duplicate)
  rw [read] at closed plain
  -- more fuel does not change what the first text did
  have same := (below_sequence world (Nat.le_add_right fuel extra) (Nat.le_refl fuel)
    (m.starting (Text.encode first) duplicate)).eq (by rw [read]; exact id)
  rw [read] at same
  have hbody := (inner_ofFuel true world (fuel + extra)).2
  obtain ⟨left, hleft, k', agree⟩ := agree_pieces hbody (twins_ofFuel true world (fuel + extra)) h
    same.symm plain closed (Text.encode second)
  have whole : Text.encode (first ++ "\n" ++ second) =
      Text.encode first ++ lineFeed :: Text.encode second := by
    rw [Text.encode_append, Text.encode_append, List.append_assoc]
    rfl
  rw [whole]
  exact ⟨left + extra, k', Nat.le_add_left _ _, Nat.add_le_add_right hleft extra, agree extra⟩

/-- What a text leaves is sound, and reads quotations as before. -/
theorem sound_of_evalTextEnding {fuel : Nat} {text : String} {duplicate : Bool} {ending : Ending}
    (sound : m.Sound true) (ran : evalTextEnding world fuel text duplicate m = .done ending m₁) :
    m₁.Sound true ∧ m₁.quoting = m.quoting := by
  have evaluated : evalText world fuel text duplicate true m = .done () m₁ := by
    rw [evalText_eq, bind_apply, ran]
    rfl
  have outer := outer_text (inner_ofFuel true world fuel).2 text duplicate true m sound
  change Reached _ _ _ (evalText world fuel text duplicate true m).machine at outer
  have bracketed := evalText_bracketed world fuel text duplicate true m
  rw [evaluated] at outer bracketed
  exact ⟨outer.sound, bracketed.quoting⟩

theorem not_scarce (e : Error) : ¬ Scarce true e := fun scarce => by cases scarce.1

section

variable {fuel more : Nat} {first second : String} {duplicate : Bool} (h : Core true m m')
  (ran : evalTextEnding world (fuel + 1) first duplicate m = .done .ranOut m₁)

include h ran

/-- Where the second text comes to something, the one text does. -/
theorem concur_append_of_pieces
    (enough : ¬ (evalText world (more + 1) second duplicate true m₁).OutOfFuel) :
    Concur true (evalText world (more + 1) second duplicate true m₁)
      (evalText world (fuel + more + 1) (first ++ "\n" ++ second) duplicate true m') := by
  obtain ⟨sound₁, quoting⟩ := sound_of_evalTextEnding h.sound ran
  obtain ⟨passes, k', le, -, agree⟩ := agree_append h ran second more
  -- the turns that the second text takes are among those that are left
  have same := (below_sequence world (Nat.le_add_left more fuel) le
    (m₁.starting (Text.encode second) duplicate)).eq (mt outOfFuel_evalText enough)
  rw [← same] at agree
  exact concur_evalText sound₁ h.sound' (h.quoting.trans quoting.symm) agree

/-- Where the one text comes to something, the second text does. -/
theorem concur_append_of_whole
    (enough : ¬ (evalText world (more + 1) (first ++ "\n" ++ second) duplicate true m').OutOfFuel) :
    Concur true (evalText world (fuel + more + 1) second duplicate true m₁)
      (evalText world (more + 1) (first ++ "\n" ++ second) duplicate true m') := by
  obtain ⟨sound₁, quoting⟩ := sound_of_evalTextEnding h.sound ran
  obtain ⟨passes, k', -, le, agree⟩ := agree_append h ran second more
  have run := mt outOfFuel_evalText enough
  have whole := (below_sequence world (Nat.le_add_left more fuel) (Nat.le_add_left more fuel)
    (m'.starting (Text.encode (first ++ "\n" ++ second)) duplicate)).eq run
  rw [← whole] at agree
  have inexcusable : ∀ e, ¬ Terms.Excuses ⟨true, none⟩ e := fun e excused => by
    rcases excused with impossible | scarce
    · cases impossible
    · exact not_scarce e scarce
  -- the turns that are left are enough for the second text, so all turns are
  have rest := mt (Paired.outOfFuel_iff agree inexcusable not_scarce).mpr run
  have same := (below_sequence world (Nat.le_refl (fuel + more)) le
    (m₁.starting (Text.encode second) duplicate)).eq rest
  rw [same] at agree
  exact concur_evalText sound₁ h.sound' (h.quoting.trans quoting.symm) agree

end

/-! ### What can be observed -/

/-- What can be seen of a machine, with both ends of the room that it has left. -/
structure Machine.Same (m m' : Machine) : Prop extends Machine.Alike m m' where
  lowEnd : m'.arena.lowEnd = m.arena.lowEnd
  highEnd : m'.arena.highEnd = m.arena.highEnd

theorem Core.same (h : Core true m m') : m.Same m' := by
  obtain ⟨size, reserved⟩ := h.room rfl
  refine ⟨h.alike, ?_, ?_⟩
  · rw [Arena.lowEnd, Arena.lowEnd, h.size_symbols]
  · rw [Arena.highEnd, Arena.highEnd, size, reserved, h.stack]

theorem Concur.same {o o' : Outcome α} (h : Concur true o o') : o.Alike Machine.Same o' := by
  have alike := h.alike nofun nofun
  cases alike with
  | done a core => exact .done a core.same
  | failed he core => exact .failed he core.same
  | stopped why => exact .stopped why

/-- On some budget, the evaluation of a text at the top level comes to an outcome. -/
structure Machine.Evaluates (m : Machine) (world : World) (text : String) (duplicate : Bool)
    (o : Outcome Unit) : Prop where
  ran : ∃ fuel, evalText world fuel text duplicate true m = o
  enough : ¬ o.OutOfFuel

/-- What an evaluation comes to, it comes to with some fuel left. -/
theorem Machine.Evaluates.succ {text : String} {duplicate : Bool} {o : Outcome Unit}
    (h : m.Evaluates world text duplicate o) :
    ∃ fuel, evalText world (fuel + 1) text duplicate true m = o := by
  obtain ⟨fuel, rfl⟩ := h.ran
  refine ⟨fuel, evalText_of_le (Nat.le_succ fuel) fun n stopped => h.enough ?_⟩
  rw [stopped]
  trivial

theorem Machine.Evaluates.unique {text : String} {duplicate : Bool} {o o' : Outcome Unit}
    (h : m.Evaluates world text duplicate o) (h' : m.Evaluates world text duplicate o') : o = o' := by
  obtain ⟨⟨fuel, rfl⟩, enough⟩ := h
  obtain ⟨⟨more, rfl⟩, enough'⟩ := h'
  exact Reentry.eq_of_enough (fun below => below.text text duplicate true) enough enough'

def Machine.LineBlind (m : Machine) : Prop :=
  ∀ ⦃i : Nat⦄ ⦃s native arity⦄, m.arena.symbols[i]? = some s → s.tag = .native native arity →
    ∀ args, (native args).LineBlind

theorem Machine.OnlyBuiltins.lineBlind (h : m.OnlyBuiltins) : m.LineBlind := by
  intro i s native arity found htag args
  obtain ⟨entry, hmem, rfl⟩ := h found htag
  exact Builtin.alike_of_mem hmem args

/-! ### Whole or piece by piece -/

/-- What has been written in the end, piece by piece and at once, where all is done. -/
def outputs? (world : World) (fuel : Nat) (duplicate : Bool) (first second : String) (m : Machine) :
    Option (Bytes × Bytes) :=
  match evalTextEnding world fuel first duplicate m with
  | .done .ranOut m₁ => do
    let pieces ← (evalText world fuel second duplicate true m₁).output?
    let whole ← (evalText world fuel (first ++ "\n" ++ second) duplicate true m).output?
    return (pieces, whole)
  | _ => none

theorem output?_eq_some {o : Outcome α} {bytes : Bytes} (h : o.output? = some bytes) :
    ∃ a n, o = .done a n ∧ n.written .out = bytes := by
  cases o with
  | done a n =>
    cases h
    exact ⟨a, n, rfl, rfl⟩
  | failed => cases h
  | stopped => cases h

theorem outputs?_eq_some {fuel : Nat} {duplicate : Bool} {first second : String} {pieces whole : Bytes}
    (h : outputs? world fuel duplicate first second m = some (pieces, whole)) :
    ∃ m₁ n n', evalTextEnding world fuel first duplicate m = .done .ranOut m₁ ∧
      m₁.Evaluates world second duplicate (.done () n) ∧ n.written .out = pieces ∧
      m.Evaluates world (first ++ "\n" ++ second) duplicate (.done () n') ∧ n'.written .out = whole := by
  unfold outputs? at h
  split at h
  · next m₁ ran =>
    obtain ⟨pieces', hpieces, h⟩ := Option.bind_eq_some_iff.mp h
    obtain ⟨whole', hwhole, h⟩ := Option.bind_eq_some_iff.mp h
    cases h
    obtain ⟨_, n, hn, rfl⟩ := output?_eq_some hpieces
    obtain ⟨_, n', hn', rfl⟩ := output?_eq_some hwhole
    exact ⟨m₁, n, n', ran, ⟨⟨fuel, hn⟩, id⟩, rfl, ⟨⟨fuel, hn'⟩, id⟩, rfl⟩
  · cases h

/-- The machine shows whether two texts are run piece by piece or as one. -/
def Machine.Tells (m : Machine) (world : World) (duplicate : Bool) (first second : String) : Prop :=
  ∃ fuel m₁ o o', evalTextEnding world fuel first duplicate m = .done .ranOut m₁ ∧
    m₁.Evaluates world second duplicate o ∧ m.Evaluates world (first ++ "\n" ++ second) duplicate o' ∧
    ¬ o.Alike Machine.Same o'

theorem tells_of_outputs? {fuel : Nat} {duplicate : Bool} {first second : String} {pieces whole : Bytes}
    (h : outputs? world fuel duplicate first second m = some (pieces, whole)) (differ : whole ≠ pieces) :
    m.Tells world duplicate first second := by
  obtain ⟨m₁, n, n', ran, evaluates, rfl, evaluates', rfl⟩ := outputs?_eq_some h
  refine ⟨fuel, m₁, _, _, ran, evaluates, evaluates', fun alike => ?_⟩
  cases alike with
  | done _ same => exact differ same.out

/-- A native that calls a function of the script and writes the line of its error. -/
def lineTeller : Native := fun _ =>
  .evalText "g()" false true fun ended =>
    match ended with
    | .ok () => .give 0
    | .error e => .write .out [UInt8.ofNat (e.line.getD 0)] (.give 0)

end Scriptlet
