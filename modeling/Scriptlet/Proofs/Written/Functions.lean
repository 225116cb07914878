import Scriptlet.Proofs.Characters.Memory
import Scriptlet.Proofs.Moved.Lexing

/-!
How a function is written. Behind the word for a function stand its name, its parameters and its body, and
they are lexemes of the text as it is: a word that has a meaning elsewhere is a name here. The parameters
are names in parentheses with commas between them; a comma may stand behind the last one, and without
parameters the parentheses may be left out.

This says which lexemes make a function (`Scanner.Writes`) and which make one with a parameter too many
(`Scanner.Overfull`). It says nothing of machines.
-/

namespace Scriptlet

/-- What is between the marks of a lexeme that can be a body. -/
def Lexeme.body? : Lexeme → Option Span
  | .block inside => some inside
  | .quote inside => some inside
  | _ => none

/-- Names as they are written inside parentheses. -/
inductive NameList : List Span → List Lexeme → Prop where
  | nil : NameList [] []
  | last (place : Span) : NameList [place] [.name place]
  | cons (place : Span) {places : List Span} {list : List Lexeme} (more : NameList places list) :
    NameList (place :: places) (.name place :: .comma :: list)

/-- Parameters as they are written between the name of a function and its body. -/
inductive ParameterText : List Span → List Lexeme → Prop where
  | absent : ParameterText [] []
  | listed {places : List Span} {list : List Lexeme} (names : NameList places list) :
    ParameterText places (.openParen :: (list ++ [.closeParen]))

def namesAndOne (names : List Span) (more : Span) : List Lexeme :=
  names.flatMap (fun place => [.name place, .comma]) ++ [.name more]

/-- Where the parts of a function stand. -/
structure FunctionText where
  name : Span
  params : List Span
  body : Span
  deriving DecidableEq, Repr

def FunctionText.parts (f : FunctionText) : List Span := f.name :: (f.params ++ [f.body])

namespace Scanner

variable {s t u after : Scanner} {l : Lexeme} {xs ys list : List Lexeme}

/-- The lexemes by which a scanner comes to another, as statements are read. -/
inductive Lexes : Scanner → List Lexeme → Scanner → Prop where
  | nil (s : Scanner) : Lexes s [] s
  | cons {s next after : Scanner} {l : Lexeme} {rest : List Lexeme}
    (read : s.next .plain = (.ok l, next)) (more : Lexes next rest after) : Lexes s (l :: rest) after

theorem Lexes.single (read : s.next .plain = (.ok l, after)) : s.Lexes [l] after := .cons read (.nil after)

theorem Lexes.append (h : s.Lexes xs t) (k : t.Lexes ys u) : s.Lexes (xs ++ ys) u := by
  induction h with
  | nil s => exact k
  | cons read _ ih => exact .cons read (ih k)

theorem Lexes.uncons (h : s.Lexes (l :: list) after) :
    ∃ next, s.next .plain = (.ok l, next) ∧ next.Lexes list after := by
  cases h with
  | cons read more => exact ⟨_, read, more⟩

theorem Lexes.eq_of_nil (h : s.Lexes [] after) : s = after := by
  cases h
  rfl

/-- Where a scanner comes to by some lexemes, if these come next. -/
def behind? (s : Scanner) : List Lexeme → Option Scanner
  | [] => some s
  | l :: list => (s.next .plain).1.toOption.bind fun read =>
    if read = l then (s.next .plain).2.behind? list else none

theorem lexes_iff : s.Lexes list after ↔ s.behind? list = some after := by
  constructor
  · intro h
    induction h with
    | nil s => rfl
    | cons read _ ih =>
      rw [behind?, read]
      exact (if_pos rfl).trans ih
  · intro h
    induction list generalizing s with
    | nil =>
      cases h
      exact .nil _
    | cons l list ih =>
      obtain ⟨l', read, more⟩ := Option.bind_eq_some_iff.mp h
      split at more
      · next same =>
        subst same
        refine .cons (Prod.ext ?_ rfl) (ih more)
        cases result : (s.next .plain).1 with
        | ok l' =>
          rw [result] at read
          cases read
          rfl
        | error complaint =>
          rw [result] at read
          cases read
      · cases more

instance : Decidable (s.Lexes list after) := decidable_of_iff _ lexes_iff.symm

/-- A function comes next. -/
def Writes (s : Scanner) (f : FunctionText) (after : Scanner) : Prop :=
  ∃ params body, ParameterText f.params params ∧ body.body? = some f.body ∧
    s.Lexes (.name f.name :: (params ++ [body])) after

/-- The names that come next are more than there is room for; those that there is room for are listed. -/
def Crowded (room : Nat) (s : Scanner) (names : List Span) : Prop :=
  names.length = room ∧ ∃ more after, s.Lexes (namesAndOne names more) after

/-- A function with too many parameters comes next, up to the first for which there is no room; its name and
the parameters before that one are listed. -/
def Overfull (s : Scanner) (names : List Span) : Prop :=
  ∃ name params more after, names = name :: params ∧ params.length = maxArguments ∧
    s.Lexes (.name name :: .openParen :: namesAndOne params more) after

end Scanner

end Scriptlet
