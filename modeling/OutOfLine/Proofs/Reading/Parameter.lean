import OutOfLine.Proofs.Reading.Choice
import OutOfLine.Proofs.Reading.Ending

namespace OutOfLine

namespace Token

/-- How many brackets are open after a token of the kind. A closer with nothing open is passed over. -/
def nestingAfter (depth : Nat) (kind : Kind) : Nat :=
  if Production.opensNesting kind then depth + 1
  else if Production.closesNesting kind then depth - 1
  else depth

def nesting (depth : Nat) (tokens : List Token) : Nat :=
  tokens.foldl (fun depth token => nestingAfter depth token.kind) depth

/-- Every `,` and every `)` stands where a bracket is open. -/
def Guarded (depth : Nat) (tokens : List Token) : Prop :=
  ∀ front mark back, tokens = front ++ mark :: back → Production.endsParameter mark.kind = true →
    0 < nesting depth front

variable {depth : Nat} {first : Token} {tokens : List Token}

theorem guarded_nil (depth : Nat) : Guarded depth [] := by
  intro front mark back split
  simp at split

theorem guarded_cons : Guarded depth (first :: tokens) ↔
    (Production.endsParameter first.kind = true → 0 < depth) ∧
      Guarded (nestingAfter depth first.kind) tokens := by
  constructor
  · intro guarded
    refine ⟨guarded [] first tokens rfl, fun front mark back split ends => ?_⟩
    exact guarded (first :: front) mark back (by rw [split]; rfl) ends
  · rintro ⟨here, later⟩ front mark back split ends
    cases front with
    | nil =>
        obtain ⟨rfl, _⟩ := List.cons.inj split
        exact here ends
    | cons other front =>
        obtain ⟨rfl, tail⟩ := List.cons.inj split
        exact later front mark back tail ends

theorem guarded_append {others : List Token} :
    Guarded depth (tokens ++ others) ↔ Guarded depth tokens ∧ Guarded (nesting depth tokens) others := by
  induction tokens generalizing depth with
  | nil => simp [guarded_nil, nesting]
  | cons first tokens ih =>
      rw [List.cons_append, guarded_cons, guarded_cons, ih, and_assoc]
      rfl

/-- The first `,` or `)` at which no bracket is open. -/
structure EndsAt (depth : Nat) (tokens front : List Token) (mark : Token) (back : List Token) :
    Prop where
  split : tokens = front ++ mark :: back
  guarded : Guarded depth front
  closed : nesting depth front = 0
  ends : Production.endsParameter mark.kind = true

/-- A mark with nothing open before it is the first one. -/
theorem EndsAt.at_start {front back : List Token} {mark : Token}
    (found : EndsAt 0 (first :: tokens) front mark back)
    (ends : Production.endsParameter first.kind = true) : mark = first ∧ back = tokens := by
  obtain ⟨split, guarded, _, _⟩ := found
  cases front with
  | nil =>
      obtain ⟨rfl, rfl⟩ := List.cons.inj split
      exact ⟨rfl, rfl⟩
  | cons other front =>
      obtain ⟨rfl, _⟩ := List.cons.inj split
      exact absurd ((guarded_cons.mp guarded).1 ends) (Nat.lt_irrefl 0)

theorem guarded_or_endsAt (depth : Nat) (tokens : List Token) :
    Guarded depth tokens ∨ ∃ front mark back, EndsAt depth tokens front mark back := by
  induction tokens generalizing depth with
  | nil => exact .inl (guarded_nil depth)
  | cons first tokens ih =>
      by_cases here : Production.endsParameter first.kind = true → 0 < depth
      · rcases ih (nestingAfter depth first.kind) with guarded | ⟨front, mark, back, found⟩
        · exact .inl (guarded_cons.mpr ⟨here, guarded⟩)
        · obtain ⟨split, guarded, closed, ends⟩ := found
          exact .inr ⟨first :: front, mark, back, by rw [split]; rfl,
            guarded_cons.mpr ⟨here, guarded⟩, closed, ends⟩
      · have stops : Production.endsParameter first.kind = true ∧ depth = 0 := by
          simpa using here
        exact .inr ⟨[], first, tokens, rfl, guarded_nil depth, stops.2, stops.1⟩

instance decidableGuarded : (depth : Nat) → (tokens : List Token) → Decidable (Guarded depth tokens)
  | depth, [] => .isTrue (guarded_nil depth)
  | depth, first :: tokens =>
      have := decidableGuarded (nestingAfter depth first.kind) tokens
      decidable_of_iff _ guarded_cons.symm

end Token

namespace Reading

variable {tokens rest more : List Token} {first mark : Token} {phrase : Phrase} {phrases : List Phrase}

theorem nestingAfter?_eq {depth : Nat} {kind : Token.Kind}
    (guarded : Production.endsParameter kind = true → 0 < depth) :
    nestingAfter? depth kind = some (Token.nestingAfter depth kind) := by
  unfold nestingAfter? Token.nestingAfter
  cases depth with
  | zero => cases kind <;> simp_all [Production.endsParameter, Production.opensNesting]
  | succ depth =>
      split
      · rfl
      · simp only [Nat.add_sub_cancel]

theorem nestingAfter_trivia {kind : Token.Kind} (trivia : kind.isTrivia = true) (depth : Nat) :
    Token.nestingAfter depth kind = depth := by
  cases kind <;> simp_all [Token.Kind.isTrivia, Token.nestingAfter, Production.opensNesting,
    Production.closesNesting]

/-- Nothing ends a default value before its brackets are closed. -/
theorem skipDefault_guarded {depth : Nat} (guarded : Token.Guarded depth tokens) (more : List Token) :
    skipDefault depth (tokens ++ more) = skipDefault (Token.nesting depth tokens) more := by
  induction tokens generalizing depth with
  | nil => rfl
  | cons first tokens ih =>
      obtain ⟨here, later⟩ := Token.guarded_cons.mp guarded
      rw [List.cons_append, skipDefault]
      have goesOn := ih later
      by_cases trivia : first.kind.isTrivia = true
      · rw [if_pos trivia]
        rw [nestingAfter_trivia trivia] at goesOn
        rw [goesOn, Token.nesting, Token.nesting, List.foldl_cons, nestingAfter_trivia trivia]
      · rw [if_neg trivia, nestingAfter?_eq here]
        exact goesOn

theorem skipDefault_at_end (ends : Production.endsParameter mark.kind = true) (more : List Token) :
    skipDefault 0 (mark :: more) = ⟨some (), mark :: more, false⟩ := by
  have visible : mark.kind.isTrivia = false := by
    cases kind : mark.kind <;> simp_all [Production.endsParameter, Token.Kind.isTrivia]
  have stops : nestingAfter? 0 mark.kind = none := by
    cases kind : mark.kind <;>
      simp_all [nestingAfter?, Production.endsParameter, Production.opensNesting]
  rw [skipDefault, visible, stops]
  rfl

theorem skipDefault_of_endsAt {depth : Nat} {front back : List Token}
    (found : Token.EndsAt depth tokens front mark back) :
    skipDefault depth tokens = ⟨some (), mark :: back, false⟩ := by
  rw [found.split, skipDefault_guarded found.guarded, found.closed, skipDefault_at_end found.ends]

theorem skipDefault_open {depth : Nat} (guarded : Token.Guarded depth tokens) :
    skipDefault depth tokens = ⟨none, [], true⟩ := by
  have skipped := skipDefault_guarded guarded []
  rw [List.append_nil] at skipped
  rw [skipped]
  rfl

/-- What may stand behind a word of a parameter. -/
def Delimits (mark : Token) : Prop :=
  mark.kind = .comma ∨ mark.kind = .closeParen ∨ mark.kind = .equal

/-- A token that neither goes on with a name nor opens a bracket behind one. -/
structure StopsName (mark : Token) : Prop where
  visible : mark.kind.isTrivia = false
  ends_name : ∀ last, Production.continuesName last mark.kind = false
  no_bracket : Production.bracketKind? mark.kind = none

theorem stopsName_of_kind (kind : mark.kind ∈ [.comma, .closeParen, .equal, .colon, .openBrace]) :
    StopsName mark := by
  generalize seen : mark.kind = other at kind
  simp only [List.mem_cons, List.not_mem_nil, or_false] at kind
  rcases kind with rfl | rfl | rfl | rfl | rfl
  all_goals
    refine ⟨by rw [seen]; rfl, fun last => ?_, by rw [seen]; rfl⟩
    rw [seen]
    cases last <;> rfl

theorem Delimits.stopsName (delimits : Delimits mark) : StopsName mark := by
  apply stopsName_of_kind
  rcases delimits with kind | kind | kind <;> simp [kind]

theorem nameBody_before {last : Option Token.Kind} {name : List Token}
    (read : nameBody last tokens = ⟨some name, [], true⟩) (stops : StopsName mark)
    (more : List Token) : nameBody last (tokens ++ mark :: more) = ⟨some name, mark :: more, false⟩ := by
  induction tokens generalizing last name with
  | nil =>
      obtain rfl : name = [] := by simpa [nameBody] using read.symm
      rw [List.nil_append, nameBody, stops.visible, stops.ends_name]
      rfl
  | cons first tokens ih =>
      rw [List.cons_append]
      unfold nameBody at read ⊢
      by_cases trivia : first.kind.isTrivia = true
      · rw [if_pos trivia] at read ⊢
        exact ih read
      rw [if_neg trivia] at read ⊢
      by_cases continues : Production.continuesName last first.kind = true
      · rw [if_pos continues] at read ⊢
        rcases body : nameBody (some first.kind) tokens with ⟨_ | later, left, reachedEnd⟩ <;>
          simp only [body, Outcome.map, Option.map_none, Option.map_some, Outcome.mk.injEq, reduceCtorEq,
            Option.some.injEq, false_and] at read
        obtain ⟨rfl, rfl, rfl⟩ := read
        rw [ih body]
        rfl
      · rw [if_neg continues] at read
        simp at read

/-- A segment that may end with the tokens ends as well before a token that stops its name. -/
theorem segment_before {reachedEnd : Bool} (read : segment tokens = ⟨some phrase, rest, reachedEnd⟩)
    (stops : StopsName mark) (more : List Token) :
    segment (tokens ++ mark :: more) = ⟨some phrase, rest ++ mark :: more, false⟩ := by
  cases reachedEnd with
  | false =>
      have further := segment_steady.append tokens (mark :: more)
      rw [read] at further
      exact further rfl
  | true =>
      obtain ⟨body, plain, nonempty, rfl⟩ := segment_ended read
      have named : qualifiedName (tokens ++ mark :: more) =
          ⟨some phrase.tokens, mark :: more, false⟩ := by
        rw [qualifiedName, bind_of_some (nameBody_before body stops more)]
        simp [nonempty, Pure.pure]
      apply segment_of_named
      rw [namedSegment, bind_of_some named,
        bind_of_some (peek_of_some (token_visible stops.visible more))]
      simp [afterName, stops.no_bracket, Pure.pure, ← plain]

/-- The phrases into which tokens fall. -/
inductive Splits : List Token → List Phrase → Prop where
  | done {tokens : List Token} (trivial : Token.significant tokens = []) : Splits tokens []
  | more {tokens rest : List Token} {phrase : Phrase} {phrases : List Phrase} {reachedEnd : Bool}
      (read : segment tokens = ⟨some phrase, rest, reachedEnd⟩) (later : Splits rest phrases) :
      Splits tokens (phrase :: phrases)

/-- A phrase that goes on with a parameter, at its start or after other such phrases. -/
structure IsPart (phrase : Phrase) : Prop where
  noSign : phrase.isAssignment = false
  noComma : ∀ mark, phrase = ⟨.symbol, [mark]⟩ → mark.kind ≠ .comma

theorem token_found_split (found : token tokens = ⟨some first, rest, false⟩) :
    ∃ blank, Token.significant blank = [] ∧ tokens = blank ++ first :: rest := by
  induction tokens with
  | nil => simp [token] at found
  | cons other tokens ih =>
      rw [token] at found
      split at found
      · rename_i trivia
        obtain ⟨blank, trivial, rfl⟩ := ih found
        exact ⟨other :: blank, by rw [Token.significant_cons_trivia trivia, trivial], rfl⟩
      · simp only [Outcome.mk.injEq, Option.some.injEq] at found
        obtain ⟨rfl, rfl, _⟩ := found
        exact ⟨[], rfl, rfl⟩

/-- The first token of a phrase that goes on with a parameter does not end it. -/
theorem token_of_part {reachedEnd : Bool} (read : segment tokens = ⟨some phrase, rest, reachedEnd⟩)
    (part : IsPart phrase) :
    ∃ first others, token tokens = ⟨some first, others, false⟩ ∧
      Production.endsParameter first.kind = false := by
  have result : (segment tokens).result = some phrase := by rw [read]
  rcases token_ended_or_found tokens with ended | ⟨first, others, found⟩
  · simp [segment_of_ended ended] at result
  refine ⟨first, others, found, ?_⟩
  by_cases ends : Production.endsParameter first.kind = true
  · -- Only a symbol can begin so, and it would be a comma.
    have unnamed := namedSegment_of_misfit found (by
      cases kind : first.kind <;> simp_all [Production.endsParameter, Production.continuesName])
    have unbracketed := attributeSegment_of_misfit found (by
      rintro bracket
      simp [Production.endsParameter, bracket] at ends)
    rw [segment_of_unnamed unnamed, orElse_of_none (attempt_of_none unbracketed)] at result
    by_cases symbol : Production.isSymbol first = true
    · have eaten : symbolSegment tokens = ⟨some ⟨.symbol, [first]⟩, others, false⟩ := by
        have taken : eatIf Production.isSymbol tokens = ⟨some first, others, false⟩ := by
          rw [eatIf_of_some found, if_pos symbol]
        rw [symbolSegment, bind_of_some taken]
        rfl
      rw [attempt_of_some eaten] at result
      have noComma := part.noComma first (Option.some.inj result).symm
      cases kind : first.kind <;> simp_all [Production.endsParameter, Production.isSymbol]
    · rw [attempt_of_none (symbolSegment_of_misfit found (by simpa using symbol))] at result
      simp at result
  · simpa using ends

/-- A word before a delimiter is added to those read before it. -/
theorem parameterStep_of_part {reachedEnd : Bool}
    (read : segment tokens = ⟨some phrase, rest, reachedEnd⟩) (part : IsPart phrase)
    (delimits : Delimits mark) (more : List Token) (before : List Phrase) :
    parameterStep before (tokens ++ mark :: more) =
      ⟨some (.inl (phrase :: before)), rest ++ mark :: more, false⟩ := by
  obtain ⟨first, others, found, goesOn⟩ := token_of_part read part
  have here : token (tokens ++ mark :: more) = ⟨some first, others ++ mark :: more, false⟩ := by
    have further := token_steady.append tokens (mark :: more)
    rw [found] at further
    exact further rfl
  have word : segment (first :: (others ++ mark :: more)) =
      ⟨some phrase, rest ++ mark :: more, false⟩ := by
    obtain ⟨blank, trivial, split⟩ := token_found_split here
    have whole := segment_before read delimits.stopsName more
    rcases segment_passes blank (first :: (others ++ mark :: more)) trivial with same | ⟨failed, _⟩
    · rw [← same, ← split, whole]
    · rw [← split, whole] at failed
      simp at failed
  rw [parameterStep, bind_of_some (peek_of_some here)]
  simp [parameterAt, goesOn, bind_of_some word, part.noSign, Pure.pure]

theorem parameterStep_of_end (ends : Production.endsParameter mark.kind = true) (more : List Token)
    {before : List Phrase} (nonempty : before ≠ []) :
    parameterStep before (mark :: more) = ⟨some (.inr before.reverse), mark :: more, false⟩ := by
  have visible : mark.kind.isTrivia = false := by
    cases kind : mark.kind <;> simp_all [Production.endsParameter, Token.Kind.isTrivia]
  rw [parameterStep, bind_of_some (peek_of_some (token_visible visible more))]
  simp [parameterAt, ends, parameterOf, nonempty, Bind.bind, Pure.pure]

/-- What follows an `=` is skipped. -/
theorem parameterStep_of_sign {before : List Phrase} (nonempty : before ≠ []) (tokens : List Token) :
    parameterStep before (⟨.equal, ['=']⟩ :: tokens) =
      ⟨(skipDefault 0 tokens).result.map fun _ => .inr before.reverse, (skipDefault 0 tokens).rest,
        (skipDefault 0 tokens).reachedEnd⟩ := by
  have visible : token (⟨.equal, ['=']⟩ :: tokens) = ⟨some ⟨.equal, ['=']⟩, tokens, false⟩ := rfl
  have sign : segment (⟨.equal, ['=']⟩ :: tokens) =
      ⟨some ⟨.symbol, [⟨.equal, ['=']⟩]⟩, tokens, false⟩ := rfl
  have assigns : (Phrase.isAssignment ⟨.symbol, [⟨.equal, ['=']⟩]⟩ && !before.isEmpty) = true := by
    rw [List.isEmpty_eq_false_iff.mpr nonempty]
    rfl
  have goesOn : Production.endsParameter .equal = false := rfl
  rw [parameterStep, bind_of_some (peek_of_some visible)]
  simp only [parameterAt, goesOn, Bool.false_eq_true, if_false]
  rw [bind_of_some sign]
  simp only [assigns, if_true]
  rcases skipped : skipDefault 0 tokens with ⟨_ | _, rest, reachedEnd⟩
  · rw [bind_of_none skipped]
    simp
  · have whole : parameterOf before.reverse rest = ⟨some before.reverse, rest, false⟩ := by
      simp [parameterOf, nonempty, Pure.pure]
    rw [bind_of_some skipped, bind_of_some whole]
    simp [Pure.pure]

theorem parameterStep_blank {blank : List Token} (trivial : Token.significant blank = [])
    (tokens : List Token) (before : List Phrase) :
    parameterStep before (blank ++ tokens) = parameterStep before tokens := by
  have peeked : peek (blank ++ tokens) = peek tokens := by simp only [peek, token_blank trivial]
  exact bind_congr_outcome peeked _

/-- The words before a delimiter are read one after the other. -/
theorem loop_parameterStep_of_splits (splits : Splits tokens phrases)
    (parts : ∀ phrase ∈ phrases, IsPart phrase) (delimits : Delimits mark) (more : List Token)
    (before : List Phrase) :
    loop parameterStep before (tokens ++ mark :: more) =
      loop parameterStep (phrases.reverse ++ before) (mark :: more) := by
  induction splits generalizing before with
  | done trivial => exact loop_congr parameterStep_falls (parameterStep_blank trivial _ before)
  | @more tokens rest phrase phrases reachedEnd read later ih =>
      obtain ⟨part, others⟩ := List.forall_mem_cons.mp parts
      have step := parameterStep_of_part read part delimits more before
      rw [loop_of_more parameterStep_falls step, ih others]
      simp

section Parameter

variable (splits : Splits tokens phrases) (parts : ∀ phrase ∈ phrases, IsPart phrase)
  (nonempty : phrases ≠ [])
include splits parts nonempty

theorem parameter_of_bare (ends : Production.endsParameter mark.kind = true) (more : List Token) :
    parameter (tokens ++ mark :: more) = ⟨some phrases, mark :: more, false⟩ := by
  have delimits : Delimits mark := by
    simp only [Production.endsParameter, Bool.or_eq_true, decide_eq_true_eq] at ends
    rcases ends with kind | kind
    · exact .inr (.inl kind)
    · exact .inl kind
  rw [parameter, loop_parameterStep_of_splits splits parts delimits, List.append_nil,
    loop_of_done (parameterStep_of_end ends more (by simpa using nonempty)), List.reverse_reverse]

theorem parameter_of_defaulted {rest front back : List Token}
    (found : Token.EndsAt 0 rest front mark back) :
    parameter (tokens ++ ⟨.equal, ['=']⟩ :: rest) = ⟨some phrases, mark :: back, false⟩ := by
  have started : phrases.reverse ≠ [] := by simpa using nonempty
  have step := parameterStep_of_sign started rest
  rw [skipDefault_of_endsAt found] at step
  rw [parameter, loop_parameterStep_of_splits splits parts (.inr (.inr rfl)), List.append_nil,
    loop_of_done step, List.reverse_reverse]

/-- Where the brackets of a default value are still open at the end, there is no parameter. -/
theorem parameter_of_open {rest : List Token} (guarded : Token.Guarded 0 rest) :
    (parameter (tokens ++ ⟨.equal, ['=']⟩ :: rest)).result = none := by
  have started : phrases.reverse ≠ [] := by simpa using nonempty
  have step := parameterStep_of_sign started rest
  rw [skipDefault_open guarded] at step
  rw [parameter, loop_parameterStep_of_splits splits parts (.inr (.inr rfl)), List.append_nil,
    loop_of_none step]

end Parameter

theorem commaListWithin_failed {α : Type} {item : Reading α} (failed : (item tokens).result = none)
    (room : Nat) : (commaListWithin item room tokens).result = none := by
  cases room with
  | zero => rfl
  | succ room => exact bind_failed failed _

/-- Parameters, no more than there is room for, through the closing parenthesis. -/
def parametersWithin (room : Nat) : Reading (List (List Phrase)) := do
  let parameters ← commaListWithin parameter room
  let _ ← eat .closeParen
  return parameters

/-- The list that tokens are to the end, if they are one. -/
def list? (room : Nat) (tokens : List Token) : Option (List (List Phrase)) :=
  isolated (parametersWithin room) tokens

section List?

variable {lists : List (List Phrase)} {room : Nat} {reachedEnd : Bool}

theorem list?_of_failed (failed : (commaListWithin parameter room tokens).result = none) :
    list? room tokens = none := by
  rw [list?, isolated, parametersWithin, bind_failed failed]

theorem list?_of_read (read : commaListWithin parameter room tokens = ⟨some lists, rest, reachedEnd⟩) :
    list? room tokens = (isolated (eat .closeParen) rest).map fun _ => lists := by
  rw [list?, isolated, parametersWithin, bind_of_some read, isolated]
  rcases closes : eat .closeParen rest with ⟨_ | mark, left, late⟩
  · rw [bind_of_none closes]
    rfl
  · rw [bind_of_some closes]
    change (if (token left).result.isNone then _ else _) = Option.map _ (if _ then _ else _)
    split <;> rfl

/-- A list goes on behind a parameter with a comma. -/
theorem list?_of_comma (here : parameter tokens = ⟨some phrases, mark :: more, false⟩)
    (kind : mark.kind = .comma) (room : Nat) :
    list? (room + 1) tokens = (list? room more).map (phrases :: ·) := by
  have goesOn := commaListWithin_more here (maybe_eat_comma kind more) room
  rcases behind : commaListWithin parameter room more with ⟨_ | later, left, reachedEnd⟩ <;>
    rw [behind] at goesOn
  · rw [list?_of_failed (by rw [goesOn]; rfl), list?_of_failed (by rw [behind])]
    rfl
  · rw [list?_of_read goesOn, list?_of_read behind, Option.map_map]
    rfl

/-- A list ends behind a parameter with a parenthesis, and nothing may be left then. -/
theorem list?_of_paren (here : parameter tokens = ⟨some phrases, mark :: more, false⟩)
    (kind : mark.kind = .closeParen) (room : Nat) :
    list? (room + 1) tokens = if (token more).result.isNone then some [phrases] else none := by
  have found := token_visible (by rw [kind]; rfl : mark.kind.isTrivia = false) more
  have noComma : maybe (eat .comma) (mark :: more) = ⟨some none, mark :: more, false⟩ := by
    simp [maybe, eat, eatIf_of_some found, kind]
  have closes : eat .closeParen (mark :: more) = ⟨some mark, more, false⟩ := by
    simp [eat, eatIf_of_some found, kind]
  rw [list?_of_read (commaListWithin_last here noComma room), isolated, closes]
  change Option.map _ (if (token more).result.isNone then _ else _) = _
  split <;> rfl

theorem list?_room (read : list? room tokens = some lists) :
    lists ≠ [] ∧ lists.length ≤ room ∧ ∀ other, lists.length ≤ other →
      list? other tokens = some lists := by
  rcases found : commaListWithin parameter room tokens with ⟨_ | items, rest, reachedEnd⟩
  · rw [list?_of_failed (by rw [found])] at read
    contradiction
  · obtain ⟨nonempty, fits, same⟩ := commaListWithin_room found
    rw [list?_of_read found] at read
    obtain ⟨_, _, rfl⟩ := Option.map_eq_some_iff.mp read
    exact ⟨nonempty, fits, fun other enough => by rw [list?_of_read (same other enough), read]⟩

theorem list?_of_ended (ended : token tokens = ⟨none, [], true⟩) (room : Nat) :
    list? room tokens = none := by
  have step : parameterStep [] tokens = ⟨none, [], true⟩ := by
    rw [parameterStep, bind_of_some (peek_of_none ended)]
    rfl
  exact list?_of_failed (commaListWithin_failed (by rw [parameter, loop_of_none step]) room)

/-- No parameter begins with the closing parenthesis. -/
theorem list?_of_closed {others : List Token} (begins : token tokens = ⟨some first, others, false⟩)
    (kind : first.kind = .closeParen) (room : Nat) : list? room tokens = none := by
  have step : parameterStep [] tokens = ⟨none, first :: others, false⟩ := by
    rw [parameterStep, bind_of_some (peek_of_some begins), kind]
    rfl
  exact list?_of_failed (commaListWithin_failed (by rw [parameter, loop_of_none step]) room)

theorem list?_blank {blank : List Token} (trivial : Token.significant blank = []) (tokens : List Token) :
    list? (room + 1) (blank ++ tokens) = list? (room + 1) tokens := by
  have first : parameter (blank ++ tokens) = parameter tokens :=
    loop_congr parameterStep_falls (parameterStep_blank trivial tokens [])
  have same : parametersWithin (room + 1) (blank ++ tokens) = parametersWithin (room + 1) tokens :=
    bind_congr_outcome (bind_congr_outcome first _) _
  rw [list?, list?, isolated, isolated, same]

end List?

theorem declaratorParameters_named {name : List Token} (isName : IsName none name) (nonempty : name ≠ [])
    (tokens : List Token) :
    declaratorParameters (name ++ ⟨.openParen, ['(']⟩ :: tokens) =
      (do
        if (← maybe (eat .closeParen)).isSome then
          return []
        parametersWithin Production.itemLimit) tokens := by
  have named : qualifiedName (name ++ ⟨.openParen, ['(']⟩ :: tokens) =
      ⟨some name, ⟨.openParen, ['(']⟩ :: tokens, false⟩ :=
    qualifiedName_of_name isName nonempty rfl (fun last => by cases last <;> rfl) tokens
  have opens : eat .openParen (⟨.openParen, ['(']⟩ :: tokens) =
      ⟨some ⟨.openParen, ['(']⟩, tokens, false⟩ := rfl
  rw [declaratorParameters, bind_of_some named, bind_of_some opens]
  simp only [Bool.false_or]
  rfl

section Declarator

variable {name : List Token} (isName : IsName none name) (nonempty : name ≠ [])
include isName nonempty

theorem isolated_of_closed {others : List Token} (begins : token tokens = ⟨some first, others, false⟩)
    (kind : first.kind = .closeParen) :
    isolated declaratorParameters (name ++ ⟨.openParen, ['(']⟩ :: tokens) =
      if (token others).result.isNone then some [] else none := by
  have closes : maybe (eat .closeParen) tokens = ⟨some (some first), others, false⟩ := by
    simp [maybe, eat, eatIf_of_some begins, kind]
  rw [isolated, declaratorParameters_named isName nonempty, bind_of_some closes]
  rfl

/-- A declarator is read as its parameter list is, unless that begins with the closing parenthesis. -/
theorem isolated_of_open {others : List Token} (begins : token tokens = ⟨some first, others, false⟩)
    (kind : first.kind ≠ .closeParen) :
    isolated declaratorParameters (name ++ ⟨.openParen, ['(']⟩ :: tokens) =
      list? Production.itemLimit tokens := by
  have goesOn : maybe (eat .closeParen) tokens = ⟨some none, first :: others, false⟩ := by
    simp [maybe, eat, eatIf_of_some begins, kind]
  obtain ⟨blank, trivial, rfl⟩ := token_found_split begins
  rw [isolated, declaratorParameters_named isName nonempty, bind_of_some goesOn]
  exact (list?_blank trivial (first :: others)).symm

/-- A list that is not empty is read in a declarator as it is on its own. -/
theorem isolated_iff_list? {lists : List (List Phrase)} (filled : lists ≠ []) :
    isolated declaratorParameters (name ++ ⟨.openParen, ['(']⟩ :: tokens) = some lists ↔
      list? Production.itemLimit tokens = some lists := by
  rcases token_ended_or_found tokens with ended | ⟨first, others, begins⟩
  · have goesOn : maybe (eat .closeParen) tokens = ⟨some none, [], true⟩ := by
      simp [maybe, eat, eatIf_of_none ended]
    rw [isolated, declaratorParameters_named isName nonempty, bind_of_some goesOn]
    change list? Production.itemLimit [] = some lists ↔ _
    rw [list?_of_ended rfl, list?_of_ended ended]
  · by_cases kind : first.kind = .closeParen
    · rw [isolated_of_closed isName nonempty begins kind, list?_of_closed begins kind]
      split <;> simp [filled.symm]
    · rw [isolated_of_open isName nonempty begins kind]

end Declarator

end Reading

end OutOfLine
