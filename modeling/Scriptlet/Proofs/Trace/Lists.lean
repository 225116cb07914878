import Scriptlet.Proofs.Trace.Quotes

/-!
Argument lists as they stand in the text. Evaluation does not know where an argument list ends until it
has come there, and what it has read until then was evaluated at once; nested calls and groups among
the arguments have read parts of the same text. Yet an evaluation that is done has taken the lexemes
of the list one by one, and the strings it has stacked are the quotations that stand in the list
outside all parentheses.

`Reads d d' m m' list next` is the account of this, from a machine that goes past its token, with `d`
parentheses open behind that, to one where `d'` are open before its token, which is `next`. Inside a
group of the list quotations are no strings, and a nested call takes its own strings away again; so
the strings stacked are the direct ones.
-/

namespace Scriptlet

open Eval

/-- From one machine to the other, some lexemes were passed and one more was read ahead; in an argument
list the strings of the direct ones were stacked. -/
structure Reads (d d' : Nat) (m m' : Machine) (list : List Lexeme) (next : Lexeme) : Prop where
  path : m.cursor.scanner.Path (list ++ [next]) m'.cursor.scanner
  depth : parensAfter? d list = some d'
  becomes : next.Becomes m.quoting m'.token
  strings : m.quoting = .argument → m'.literals.stack =
    m.literals.stack ++ (directQuotes d (list ++ [next])).map m.cursor.scanner.textOf

theorem map_textOf {s after last : Scanner} {list : List Lexeme} (h : s.Further after)
    (path : after.Path list last) (d : Nat) :
    (directQuotes d list).map after.textOf = (directQuotes d list).map s.textOf :=
  List.map_congr_left fun _ hmem =>
    Scanner.textOf_further h (path.pos_le (mem_of_mem_directQuotes hmem))

theorem Reads.trans {d d₁ d₂ d' : Nat} {m m₁ m' : Machine} {list list' : List Lexeme}
    {next next' : Lexeme} (h : Reads d d₁ m m₁ list next) (turn : next.parensAfter? d₁ = some d₂)
    (same : m₁.quoting = m.quoting) (k : Reads d₂ d' m₁ m' list' next') :
    Reads d d' m m' (list ++ next :: list') next' := by
  have passed : parensAfter? d (list ++ [next]) = some d₂ := by
    rw [parensAfter?_append h.depth, parensAfter?_cons, turn]
    rfl
  have whole : list ++ next :: list' = (list ++ [next]) ++ list' := by simp
  constructor
  · rw [whole, List.append_assoc]
    exact h.path.append k.path
  · rw [whole, parensAfter?_append passed]
    exact k.depth
  · exact same ▸ k.becomes
  · intro hq
    rw [k.strings (same.trans hq), h.strings hq, whole, List.append_assoc (list ++ [next]),
      directQuotes_append passed, List.map_append, List.append_assoc,
      map_textOf h.path.further k.path]

/-- Reading on. In an argument list this is done outside parentheses only. -/
theorem reads_advance {m m' : Machine} (h : Faithful m) (done : advance m = .done () m') {d : Nat}
    (hd : m.quoting = .argument → d = 0) : ∃ next, Reads d d m m' [] next := by
  obtain ⟨next, read, becomes, strings⟩ := advance_reads h done
  refine ⟨next, .single read, rfl, becomes, fun hq => ?_⟩
  rw [hd hq, List.nil_append, directQuotes_single]
  exact strings hq

/-- A stretch up to a closing parenthesis is passed as one, if it left no string: what remains is that
of the lexeme behind. Before the list there is at most the opening parenthesis. -/
theorem reads_parens {d : Nat} {front list : List Lexeme} {next : Lexeme} {m n m' : Machine}
    (opened : parensAfter? d front = some 1) (none : directQuotes d front = [])
    (path : m.cursor.scanner.Path (front ++ (list ++ [.closeParen])) n.cursor.scanner)
    (depth : parensAfter? 0 list = some 0) (stack : n.literals.stack = m.literals.stack)
    (quoting : n.quoting = m.quoting) (reads : Reads 0 0 n m' [] next) :
    Reads d 0 m m' (front ++ (list ++ [.closeParen])) next := by
  have deep : parensAfter? 1 list = some 1 := parensAfter?_add depth 1
  have closed : parensAfter? 1 (list ++ [.closeParen]) = some 0 := parensAfter?_append deep _
  have passed : parensAfter? d (front ++ (list ++ [.closeParen])) = some 0 :=
    (parensAfter?_append opened _).trans closed
  have quotes : directQuotes d (front ++ (list ++ [.closeParen])) = [] := by
    have inside : directQuotes 1 list = [] := directQuotes_deep depth Nat.one_pos
    rw [directQuotes_append opened, none, directQuotes_append deep, inside]
    rfl
  refine ⟨path.append reads.path, passed, quoting ▸ reads.becomes, fun hq => ?_⟩
  rw [reads.strings (quoting.trans hq), stack, directQuotes_append passed, quotes]
  exact congrArg (m.literals.stack ++ ·) (map_textOf path.further reads.path 0)

/-! ### Expressions -/

/-- An expression that is done has read its own lexemes, from its first token on, and the one behind. -/
def ReadsExpression (x : Eval Word) : Prop :=
  ∀ ⦃m v m'⦄, Faithful m → x m = .done v m' →
    m.token ≠ .closeParen ∧ ∃ list next, Reads m.token.opened 0 m m' list next

/-- What is known of the evaluation of nested expressions and bodies. -/
structure ReadingDiscipline (r : Reentry) : Prop where
  reads : ReadsExpression r.expression
  moves : Keeps Moves r.expression
  balanced : Keeps Balanced r.expression
  meanwhile : ∀ body topLevel duplicate, Keeps Meanwhile (r.body body topLevel duplicate)
  bracket : ∀ body topLevel duplicate, Keeps Bracketed (r.body body topLevel duplicate)

/-! ### Lists -/

/-- A list has been read up to the token of the second machine, from behind the token of the first,
where `d` parentheses are open. -/
structure Listing (d : Nat) (m n : Machine) : Prop where
  faithful : Faithful n
  quoting : n.quoting = m.quoting
  reads : ∃ list next, Reads d 0 m n list next

/-- A list in parentheses has been read, from behind the token of the first machine. -/
structure Enclosed (m n : Machine) (list : List Lexeme) : Prop where
  path : m.cursor.scanner.Path (.openParen :: (list ++ [.closeParen])) n.cursor.scanner
  depth : parensAfter? 0 list = some 0
  strings : m.quoting = .argument → n.literals.stack =
    m.literals.stack ++ (directQuotes 0 list).map m.cursor.scanner.textOf

namespace Listing

variable {d : Nat} {m n n' : Machine}

theorem ofAdvance (h : Faithful m) (read : advance m = .done () n) : Listing 0 m n := by
  obtain ⟨next, reads⟩ := reads_advance h read fun _ => rfl
  exact ⟨faithful_of_advanceBy h read, (balanced_advanceBy false |>.done read).quoting,
    [], next, reads⟩

theorem ofExpression {x : Eval Word} (hx : ReadsExpression x) (moves : Keeps Moves x)
    (balanced : Keeps Balanced x) {v : Word} (h : Faithful m) (done : x m = .done v n) :
    Listing m.token.opened m n :=
  ⟨(moves.done done).faithful h, (balanced.done done).quoting, (hx h done).2⟩

/-- A token is passed, and what follows it is read. -/
theorem append (h : Listing d m n) (closed : n.token ≠ .closeParen)
    (k : Listing n.token.opened n n') : Listing d m n' := by
  obtain ⟨list, next, reads⟩ := h.reads
  obtain ⟨list', next', reads'⟩ := k.reads
  have turn := reads.becomes.parensAfter? closed 0
  rw [Nat.zero_add] at turn
  exact ⟨k.faithful, k.quoting.trans h.quoting, _, _, reads.trans turn h.quoting reads'⟩

theorem next (h : Listing d m n) (closed : n.token ≠ .closeParen) (opened : n.token ≠ .openParen)
    (read : advance n = .done () n') : Listing d m n' := by
  refine h.append closed ?_
  rw [show n.token.opened = 0 from if_neg opened]
  exact ofAdvance h.faithful read

theorem expression {x : Eval Word} (hx : ReadsExpression x) (moves : Keeps Moves x)
    (balanced : Keeps Balanced x) {v : Word} (h : Listing d m n) (done : x n = .done v n') :
    Listing d m n' :=
  h.append (hx h.faithful done).1 (ofExpression hx moves balanced h.faithful done)

end Listing

section

variable {r : Reentry} (h : ReadingDiscipline r)

include h

theorem listing_argument {m n n' : Machine} (hn : Listing 0 m n)
    (done : Call.argument r n = .done () n') : Listing 0 m n' := by
  obtain ⟨value, n₁, evaluated, pushed⟩ := bind_eq_done done
  obtain ⟨faithful, quoting, list, next, reads⟩ :=
    hn.expression h.reads h.moves h.balanced evaluated
  have moved := ((moves_loose h.moves h.meanwhile h.bracket).push value).done pushed
  obtain ⟨arena, -, rfl⟩ := allocate_eq_done pushed
  exact ⟨moved.faithful faithful, quoting, list, next, reads.path, reads.depth, reads.becomes,
    reads.strings⟩

/-- A loop that evaluates an argument in each turn and goes round at each comma. After the last
argument something else decides how the loop ends. -/
theorem listing_loop {after : Token → Nat → Eval (Turn Nat Nat)} {m n n' : Machine}
    {passes count total : Nat} (listing : Listing 0 m n)
    (comma : ∀ count, after .comma count = do advance; return .again (count + 1))
    (last : ∀ {t}, t ≠ .comma → ∀ count, Still (after t count))
    (finished : ∀ {t}, t ≠ .comma → ∀ {count count' n n'}, after t count n ≠ .done (.again count') n')
    (done : Eval.loop (fun count => do
      Call.argument r
      let t ← token
      after t count) passes count n = .done total n') :
    Listing 0 m n' ∧ ∃ count, after n'.token count n' = .done (.finish total) n' := by
  obtain ⟨count₁, n₁, listing₁, turned⟩ := loop_eq_done (I := fun _ n => Listing 0 m n)
    (fun {count n _ n'} hn turned => by
      obtain ⟨_, n₂, argued, rest⟩ := bind_eq_done turned
      have listing₂ := listing_argument h hn argued
      rw [token_bind] at rest
      by_cases ht : n₂.token = .comma
      · rw [ht, comma] at rest
        obtain ⟨_, n₃, read, again⟩ := bind_eq_done rest
        cases again
        exact listing₂.next (by simp [ht]) (by simp [ht]) read
      · exact absurd rest (finished ht)) listing done
  obtain ⟨_, n₂, argued, rest⟩ := bind_eq_done turned
  have listing₂ := listing_argument h listing₁ argued
  rw [token_bind] at rest
  by_cases ht : n₂.token = .comma
  · rw [ht, comma] at rest
    obtain ⟨_, _, _, impossible⟩ := bind_eq_done rest
    cases impossible
  · obtain rfl := (last ht count₁).done rest
    exact ⟨listing₂, count₁, rest⟩

/-- The closing parenthesis ends a list, and is the current token then. -/
theorem listing_argumentsInParens {m n : Machine} {count : Nat} (hm : Faithful m)
    (done : Call.argumentsInParens r m = .done count n) :
    Listing 0 m n ∧ n.token = .closeParen := by
  obtain ⟨_, m₁, read, done⟩ := bind_eq_done done
  have first := Listing.ofAdvance hm read
  rw [Call.insideParens, token_bind] at done
  split at done
  · next closed =>
    cases done
    exact ⟨first, closed⟩
  · obtain ⟨listing, count', last⟩ := listing_loop h first (fun _ => rfl)
      (fun {t} ht _ => by cases t <;> first | exact still_pure _ | exact still_fail _ | cases ht rfl)
      (fun {t} ht _ _ _ _ again => by cases t <;> first | cases ht rfl | cases again) done
    refine ⟨listing, ?_⟩
    cases ht : n.token with
    | closeParen => rfl
    | comma =>
      rw [ht] at last
      obtain ⟨_, _, _, impossible⟩ := bind_eq_done last
      cases impossible
    | _ =>
      rw [ht] at last
      cases last

theorem enclosed_argumentsInParens {m m₁ n : Machine} {count : Nat} (hm : Faithful m)
    (read : advance m = .done () m₁) (opened : m₁.token = .openParen)
    (done : Call.argumentsInParens r m₁ = .done count n) :
    n.token = .closeParen ∧ ∃ list, Enclosed m n list := by
  obtain ⟨first, reads⟩ := reads_advance hm read (d := 0) fun _ => rfl
  obtain ⟨⟨-, -, list, last, reads'⟩, closed⟩ :=
    listing_argumentsInParens h (faithful_of_advanceBy hm read) done
  have quoting := (balanced_advanceBy false |>.done read).quoting
  obtain rfl := reads.becomes.openParen.mp opened
  obtain rfl := reads'.becomes.closeParen.mp closed
  refine ⟨closed, list, reads.path.append reads'.path, reads'.depth, fun hq => ?_⟩
  have direct : directQuotes 0 (list ++ [.closeParen]) = directQuotes 0 list := by
    rw [directQuotes_append reads'.depth]
    exact List.append_nil _
  rw [reads'.strings (quoting.trans hq), reads.strings hq, direct]
  have before := map_textOf reads.path.further (s := m.cursor.scanner) reads'.path 0
  rw [direct] at before
  rw [before, show directQuotes 0 ([] ++ [Lexeme.openParen]) = [] from rfl, List.map_nil,
    List.append_nil]

theorem enclosed_argumentsAfterCallee {m n : Machine} {count : Nat} (hm : Faithful m)
    (done : Call.argumentsAfterCallee r m = .done count n) :
    n.token = .closeParen ∧ ∃ list, Enclosed m n list := by
  obtain ⟨_, m₁, read, done⟩ := bind_eq_done done
  rw [token_bind] at done
  split at done
  · next opened => exact enclosed_argumentsInParens h hm read opened done
  · cases done

theorem listing_bareArguments {m m₁ n : Machine} {count : Nat} (listing : Listing 0 m m₁)
    (done : Call.bareArguments r m₁ = .done count n) : Listing 0 m n := by
  obtain ⟨starts, m₂, asked, rest⟩ := bind_eq_done done
  obtain rfl := still_startsExpression.done asked
  cases starts with
  | false =>
    cases rest
    exact listing
  | true =>
    exact (listing_loop h listing (fun _ => rfl)
      (fun {t} ht _ => by cases t <;> first | exact still_pure _ | cases ht rfl)
      (fun {t} ht _ _ _ _ again => by cases t <;> first | cases ht rfl | cases again) rest).1

/-- What follows the name of a command is a list in parentheses, or a list up to the token that is no
part of it. -/
theorem read_argumentsAfterCommand {m n : Machine} {count : Nat} {inParens : Bool} (hm : Faithful m)
    (done : Call.argumentsAfterCommand r m = .done (count, inParens) n) :
    if inParens then n.token = .closeParen ∧ ∃ list, Enclosed m n list else Listing 0 m n := by
  obtain ⟨_, m₁, read, done⟩ := bind_eq_done done
  rw [token_bind] at done
  split at done
  · next opened =>
    obtain ⟨_, n₁, listed, done⟩ := bind_eq_done done
    cases done
    exact enclosed_argumentsInParens h hm read opened listed
  · obtain ⟨_, n₁, listed, done⟩ := bind_eq_done done
    cases done
    exact listing_bareArguments h (.ofAdvance hm read) listed

/-! ### Calls -/

omit h in
theorem popOnto_elsewhere (words : List Word) (count : Nat) (m : Machine) :
    ∃ args arena history, popOnto words count m = .done args { m with arena, history } := by
  induction count generalizing words m with
  | zero => exact ⟨words, m.arena, m.history, rfl⟩
  | succ count ih => exact ih (m.arena.pop.1 :: words) (m.withArena m.arena.pop.2)

theorem runCallee_returned (callee : Symbol Native) (args : List Word) (count : Nat) (m : Machine) :
    (Call.runCallee r callee args count m).machine.cursor = m.cursor ∧
      (Call.runCallee r callee args count m).machine.token = m.token := by
  unfold Call.runCallee
  split
  · exact ⟨rfl, rfl⟩
  · cases callee.tag with
    | native native arity =>
      have back := (returned_acting h.bracket).perform (native args)
        { m with literals := (m.literals.openFrame count).2 }
      have adjusted : (withPending count ((native args).perform r) m).machine = _ :=
        Outcome.machine_adjust _ _
      exact ⟨(congrArg Machine.cursor adjusted).trans back.cursor,
        (congrArg Machine.token adjusted).trans back.token⟩
    | func arity =>
      have back := bracketed_runFunction h.bracket callee.value args m
      exact ⟨back.cursor, back.token⟩
    | _ => exact ⟨rfl, rfl⟩

/-- Once a call is over its strings are gone, those that it took and those that it did not, and the
machine is back at the place of reading. -/
theorem handOver_returned (callee : Symbol Native) (count literals : Nat) (m : Machine) :
    (Call.handOver r callee count literals m).machine.literals =
        ⟨m.literals.stack.take literals, m.literals.pending⟩ ∧
      (Call.handOver r callee count literals m).machine.cursor = m.cursor ∧
      (Call.handOver r callee count literals m).machine.token = m.token ∧
      (Call.handOver r callee count literals m).machine.quoting = m.quoting := by
  obtain ⟨args, arena, history, popped⟩ := popOnto_elsewhere [] count m
  have handed : Call.handOver r callee count literals m =
      ((Call.runCallee r callee args literals).truncatingLiterals literals)
        { m with arena, history } := by
    unfold Call.handOver truncatingLiterals popWords
    rw [bind_apply, popped]
    rfl
  rw [handed]
  unfold truncatingLiterals
  rw [Outcome.machine_adjust]
  have spared := spared_runCallee h.bracket callee args literals { m with arena, history }
  obtain ⟨cursor, token⟩ := runCallee_returned h callee args literals { m with arena, history }
  generalize (Call.runCallee r callee args literals _).machine = n at spared cursor token ⊢
  refine ⟨?_, cursor, token, spared.quoting⟩
  change (⟨n.literals.stack.take literals, n.literals.pending⟩ : Literals) = _
  rw [spared.literals, spared.pending]

omit h in
theorem unwinding_eq_done {α : Type} {x : Eval α} {m m' : Machine} {a : α}
    (done : unwinding (withQuoting .argument x) m = .done a m') :
    ∃ n, x { m with quoting := .argument } = .done a n ∧ m' = { n with quoting := m.quoting } := by
  have inside : withQuoting .argument x m = .done a m' := by
    unfold unwinding at done
    cases ended : withQuoting .argument x m with
    | done b n =>
      rw [ended] at done
      exact done
    | failed e n =>
      rw [ended] at done
      cases done
    | stopped why n =>
      rw [ended] at done
      cases done
  exact Outcome.adjust_eq_done inside

theorem reads_inExpression {m m' : Machine} {index : Nat} {callee : Symbol Native} {v : Word}
    (hm : Faithful m) (found : m.arena.symbols[index]? = some callee)
    (done : Call.inExpression r callee m = .done v m') : ∃ list next, Reads 0 0 m m' list next := by
  have loose := moves_loose h.moves h.meanwhile h.bracket
  rw [Call.inExpression_apply] at done
  obtain ⟨count, m₁, listed, rest⟩ := bind_eq_done done
  obtain ⟨value, m₂, handed, rest⟩ := bind_eq_done rest
  obtain ⟨_, m₃, read, last⟩ := bind_eq_done rest
  cases last
  have moved : Moves m m₁ :=
    (loose.unwinding (loose.withQuoting .argument loose.arguments.argumentsAfterCallee)).done listed
  have moved₂ := loose.handOver found moved count m.literals.size
  have returned := handOver_returned h callee count m.literals.size m₁
  rw [handed] at returned moved₂
  obtain ⟨literals, cursor, token, quoting⟩ := returned
  obtain ⟨n, arguments, rfl⟩ := unwinding_eq_done listed
  obtain ⟨-, list, enclosed⟩ := enclosed_argumentsAfterCallee h (hm.withQuoting .argument) arguments
  obtain ⟨next, reads⟩ := reads_advance (moved₂.faithful hm) read (d := 0) fun _ => rfl
  have stack : m₂.literals.stack = m.literals.stack := by
    have strings := enclosed.strings rfl
    have gone : m₂.literals.stack = n.literals.stack.take m.literals.size :=
      congrArg Literals.stack literals
    rw [gone, strings]
    exact List.take_left' rfl
  have place : m₂.cursor = n.cursor := cursor
  have path : m.cursor.scanner.Path ([.openParen] ++ (list ++ [.closeParen])) m₂.cursor.scanner := by
    rw [place]
    exact enclosed.path
  exact ⟨_, next, reads_parens rfl rfl path enclosed.depth stack quoting reads⟩

/-! ### Atoms and operators -/

omit h in
theorem symbol_of_operatorOfLevel {level : Nat} {op : Operator} {m m' : Machine}
    (h : Expression.operatorOfLevel level m = .done (some op) m') :
    ∃ index, m.token = .symbol index := by
  obtain ⟨tag?, m₁, asked, rest⟩ := bind_eq_done h
  unfold tokenTag? at asked
  rw [token_bind] at asked
  cases htoken : m.token with
  | symbol index => exact ⟨index, rfl⟩
  | _ =>
    rw [htoken] at asked
    cases asked
    cases rest

/-- A group is passed up to its closing parenthesis. Its quotations are no strings. -/
theorem reads_group {m m₁ m' : Machine} {v : Word} (hm : Faithful m)
    (done : withQuoting .plain (Expression.group r) m = .done v m₁)
    (read : advance m₁ = .done () m') : ∃ list next, Reads 1 0 m m' list next := by
  obtain ⟨n, grouped, rfl⟩ := Outcome.adjust_eq_done done
  obtain ⟨_, n₁, entered, rest⟩ := bind_eq_done grouped
  obtain ⟨value, n₂, evaluated, rest⟩ := bind_eq_done rest
  rw [token_bind] at rest
  split at rest
  · next closed =>
    cases rest
    have entering : Listing 0 { m with quoting := .plain } n₁ :=
      .ofAdvance (hm.withQuoting .plain) entered
    obtain ⟨faithful, -, list, last, inside⟩ :=
      entering.expression h.reads h.moves h.balanced evaluated
    obtain rfl := inside.becomes.closeParen.mp closed
    have balanced := balanced_track.trans (balanced_advanceBy false |>.done entered)
      (h.balanced.done evaluated)
    obtain ⟨next, reads⟩ := reads_advance (faithful.withQuoting m.quoting) read (d := 0) fun _ => rfl
    have path : m.cursor.scanner.Path ([] ++ (list ++ [.closeParen])) n.cursor.scanner := inside.path
    exact ⟨_, next, reads_parens (n := { n with quoting := m.quoting }) rfl rfl path inside.depth
      (balanced.plain rfl) rfl reads⟩
  · cases rest

theorem reads_symbolAtom {m m' : Machine} {index : Nat} {s : Symbol Native} {v : Word}
    (hm : Faithful m) (found : m.arena.symbols[index]? = some s)
    (done : Expression.symbolAtom r s m = .done v m') : ∃ list next, Reads 0 0 m m' list next := by
  unfold Expression.symbolAtom at done
  cases htag : s.tag with
  | var =>
    rw [htag] at done
    obtain ⟨_, m₁, read, last⟩ := bind_eq_done done
    cases last
    exact (Listing.ofAdvance hm read).reads
  | native native arity =>
    rw [htag] at done
    exact reads_inExpression h hm found done
  | func arity =>
    rw [htag] at done
    exact reads_inExpression h hm found done
  | operator op =>
    rw [htag] at done
    obtain ⟨_, m₁, read, rest⟩ := bind_eq_done done
    obtain ⟨operand, m₂, evaluated, last⟩ := bind_eq_done rest
    obtain rfl := (still_ofExcept _).done last
    exact ((Listing.ofAdvance hm read).expression h.reads h.moves h.balanced evaluated).reads
  | keyword word =>
    rw [htag] at done
    cases done

theorem reads_atom : ReadsExpression (Expression.atom r) := by
  intro m v m' hm done
  unfold Expression.atom at done
  rw [token_bind] at done
  cases htoken : m.token with
  | openParen =>
    rw [htoken] at done
    obtain ⟨value, m₁, grouped, rest⟩ := bind_eq_done done
    obtain ⟨_, m₂, read, last⟩ := bind_eq_done rest
    cases last
    exact ⟨by simp, reads_group h hm grouped read⟩
  | symbol index =>
    rw [htoken] at done
    obtain ⟨s, m₁, sought, rest⟩ := bind_eq_done done
    obtain ⟨rfl, found⟩ := symbolAt_eq_done sought
    exact ⟨by simp, reads_symbolAtom h hm found rest⟩
  | number _ | text _ | literal =>
    rw [htoken] at done
    obtain ⟨_, m₁, read, last⟩ := bind_eq_done done
    cases last
    exact ⟨by simp, (Listing.ofAdvance hm read).reads⟩
  | _ =>
    rw [htoken] at done
    cases done

/-- Operators stand outside parentheses, between operands. -/
theorem reads_upToLevel (level : Nat) : ReadsExpression (Expression.upToLevel r level) := by
  have moves := moves_discipline h.moves h.meanwhile h.bracket
  have balanced := balanced_discipline h.balanced h.bracket
  induction level with
  | zero => exact reads_atom h
  | succ level ih =>
    intro m v m' hm done
    obtain ⟨first, m₁, evaluated, looped⟩ := bind_eq_done done
    refine ⟨(ih hm evaluated).1, ?_⟩
    have listing := Listing.ofExpression ih (moves.upToLevel level) (balanced.upToLevel level) hm
      evaluated
    obtain ⟨value, n, listing', turned⟩ := loop_eq_done (I := fun _ n => Listing m.token.opened m n)
      (fun {_ n _ n'} hn turned => by
        obtain ⟨op?, n₁, asked, rest⟩ := bind_eq_done turned
        obtain rfl := (still_operatorOfLevel _).done asked
        cases op? with
        | none => cases rest
        | some op =>
          obtain ⟨index, htoken⟩ := symbol_of_operatorOfLevel asked
          obtain ⟨_, n₂, read, rest⟩ := bind_eq_done rest
          obtain ⟨operand, n₃, evaluated, rest⟩ := bind_eq_done rest
          obtain ⟨value, n₄, applied, again⟩ := bind_eq_done rest
          obtain rfl := (still_ofExcept _).done applied
          cases again
          exact (hn.next (by simp [htoken]) (by simp [htoken]) read).expression ih
            (moves.upToLevel level) (balanced.upToLevel level) evaluated) listing looped
    obtain ⟨op?, n₁, asked, rest⟩ := bind_eq_done turned
    obtain rfl := (still_operatorOfLevel _).done asked
    cases op? with
    | none =>
      cases rest
      exact listing'.reads
    | some op =>
      obtain ⟨_, _, _, rest⟩ := bind_eq_done rest
      obtain ⟨_, _, _, rest⟩ := bind_eq_done rest
      obtain ⟨_, _, _, impossible⟩ := bind_eq_done rest
      cases impossible

end

/-- On every budget, expressions read their own lexemes. -/
theorem readingDiscipline_ofFuel (world : World) (fuel : Nat) :
    ReadingDiscipline (.ofFuel world fuel) := by
  have discipline : ∀ fuel, ReadsExpression (evalExpression world fuel) →
      ReadingDiscipline (.ofFuel world fuel) := fun fuel reads =>
    ⟨reads, moves_ofFuel world fuel, (bracketed_ofFuel world fuel).1,
      (expanding_meanwhile.ofFuel world fuel).2, (bracketed_ofFuel world fuel).2⟩
  induction fuel with
  | zero => exact discipline 0 fun _ _ _ _ done => by cases done
  | succ fuel ih => exact discipline (fuel + 1) (reads_upToLevel ih Operator.maxLevel)

end Scriptlet
