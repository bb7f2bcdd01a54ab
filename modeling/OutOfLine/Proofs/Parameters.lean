import OutOfLine.Proofs.Cutting
import OutOfLine.Proofs.Reading.Parameter

/-!
Parameters that are recovered from a declarator. Default values are skipped by counting brackets, of
which `<` and `>` are one kind. Which parameters are recovered is told from the first default value
that the count does not end where it ends.
-/

namespace OutOfLine

namespace Token

/-- The closers that are awaited after a token of the kind, the next one first. There are none if the
token is a closer out of place or a comma outside of brackets. Angle brackets do not count. -/
def awaitedAfter? (awaited : List Kind) (kind : Kind) : Option (List Kind) :=
  match kind with
  | .openParen => some (.closeParen :: awaited)
  | .openBracket => some (.closeBracket :: awaited)
  | .openBrace => some (.closeBrace :: awaited)
  | .closeParen | .closeBracket | .closeBrace =>
      if awaited.head? = some kind then some awaited.tail else none
  | .comma => if awaited.isEmpty then none else some awaited
  | _ => some awaited

/-- The tokens are properly nested in `( )`, `[ ]` and `{ }`, and have no comma outside of them. -/
def WellNested (tokens : List Token) : Prop :=
  tokens.foldlM (fun awaited token => awaitedAfter? awaited token.kind) [] = some []

instance (tokens : List Token) : Decidable (WellNested tokens) :=
  inferInstanceAs (Decidable (_ = _))

theorem nestingAfter_of_awaitedAfter? {awaited next : List Kind} {kind : Kind}
    (step : awaitedAfter? awaited kind = some next) (noLess : kind ≠ .less) (noGreater : kind ≠ .greater) :
    nestingAfter awaited.length kind = next.length ∧
      (Production.endsParameter kind = true → 0 < awaited.length) := by
  cases kind <;> cases awaited <;>
    simp_all [awaitedAfter?, nestingAfter, Production.opensNesting, Production.closesNesting,
      Production.endsParameter] <;> grind

/-- Without angle brackets the count of the open brackets is right. -/
theorem guarded_of_awaited {tokens : List Token} {awaited left : List Kind}
    (nested : tokens.foldlM (fun awaited token => awaitedAfter? awaited token.kind) awaited = some left)
    (plain : ∀ token ∈ tokens, token.kind ≠ .less ∧ token.kind ≠ .greater) :
    Guarded awaited.length tokens ∧ nesting awaited.length tokens = left.length := by
  induction tokens generalizing awaited with
  | nil =>
      obtain rfl : awaited = left := by simpa using nested
      exact ⟨guarded_nil _, rfl⟩
  | cons first tokens ih =>
      rw [List.foldlM_cons] at nested
      obtain ⟨next, step, later⟩ := Option.bind_eq_some_iff.mp nested
      obtain ⟨here, others⟩ := List.forall_mem_cons.mp plain
      obtain ⟨count, guarded⟩ := nestingAfter_of_awaitedAfter? step here.1 here.2
      obtain ⟨guardedLater, rest⟩ := ih later others
      rw [guarded_cons, nesting, List.foldl_cons, count]
      exact ⟨⟨guarded, guardedLater⟩, rest⟩

end Token

namespace Segment

/-- The two symbols that end the words of a parameter. -/
def isSeparator (segment : Segment) : Bool :=
  segment.kind = .symbol && (segment.text = [','] || segment.text = ['='])

/-- The segments into which a text falls. -/
inductive Splits : Text → List Segment → Prop where
  | done {text : Text} (trivial : Token.significant (Token.lex text) = []) : Splits text []
  | more {text : Text} {first : Segment} {others : List Segment}
      (found : (Production.segment (.ofText text [])).1 = some first)
      (later : Splits (Production.segment (.ofText text [])).2.remaining others) :
      Splits text (first :: others)

theorem splits_nil {text : Text} : Splits text [] ↔ Token.significant (Token.lex text) = [] :=
  ⟨fun | .done trivial => trivial, .done⟩

theorem splits_cons {text : Text} {first : Segment} {others : List Segment} :
    Splits text (first :: others) ↔ (Production.segment (.ofText text [])).1 = some first ∧
      Splits (Production.segment (.ofText text [])).2.remaining others :=
  ⟨fun | .more found later => ⟨found, later⟩, fun ⟨found, later⟩ => .more found later⟩

instance decidableSplits : (text : Text) → (words : List Segment) → Decidable (Splits text words)
  | _, [] => decidable_of_iff _ splits_nil.symm
  | text, first :: others =>
      have := decidableSplits (Production.segment (.ofText text [])).2.remaining others
      decidable_of_iff ((Production.segment (.ofText text [])).1 = some first ∧ _) splits_cons.symm

end Segment

/-- A parameter as it stands in a declarator. -/
structure Parameter where
  text : Text
  words : List Segment
  initialiser : Option Text
  splits : Segment.Splits text words
  nonempty : words ≠ []
  unseparated : ∀ word ∈ words, word.isSeparator = false

namespace Parameter

/-- The words with single spaces between them. -/
def joined (parameter : Parameter) : Text :=
  Segment.joinTexts parameter.words

def value (parameter : Parameter) : List Token :=
  parameter.initialiser.elim [] Token.lex

def tokens (parameter : Parameter) : List Token :=
  Token.lex parameter.text ++
    parameter.initialiser.elim [] fun text => ⟨.equal, ['=']⟩ :: Token.lex text

/-- The tokens from the end of a parameter on, with those of the parameters behind it. -/
def closing (behind : List Parameter) : List Token :=
  behind.flatMap (fun parameter => ⟨.comma, [',']⟩ :: parameter.tokens) ++ [⟨.closeParen, [')']⟩]

/-- The tokens of a parameter list after its opening parenthesis. -/
def listed : List Parameter → List Token
  | [] => closing []
  | first :: others => first.tokens ++ closing others

/-- The tokens after the opening parenthesis of a parameter list. An empty list may hold trivia. -/
inductive Lists : List Parameter → List Token → Prop where
  | none {blank : List Token} (trivial : Token.significant blank = []) :
      Lists [] (blank ++ [⟨.closeParen, [')']⟩])
  | some (first : Parameter) (others : List Parameter) : Lists (first :: others) (listed (first :: others))

/-- The last name with a parenthesis in a declaration has the index, the name and the parameters. -/
structure IsDeclarator (declaration : Declaration) (index : Nat) (name : List Token)
    (parameters : List Parameter) : Prop where
  written : ∃ segment inside, declaration.segments[index]? = some segment ∧ segment.kind = .paren ∧
    Lists parameters inside ∧ Token.lex segment.text = name ++ ⟨.openParen, ['(']⟩ :: inside
  named : name ≠ []
  plain : ∀ token ∈ name, token.kind ≠ .openParen
  last : ∀ segment ∈ declaration.segments.drop (index + 1), segment.kind ≠ .paren

/-- The parameters of the segment with the index are recovered as the texts. -/
def Recovers (declaration : Declaration) (index : Nat) (texts : List Text) : Prop :=
  declaration.declaratorIndex = some index ∧ declaration.parameters = some texts

/-- The segment that a name makes with a parenthesis and the text behind that. -/
def called (name : List Token) (inside : Text) : Segment :=
  ⟨.paren, Token.spell name ++ '(' :: inside⟩

/-- What is recovered from a name with a parenthesis and the tokens behind that. -/
def recovered? (name inside : List Token) : Option (List Text) :=
  (Reading.isolated Reading.declaratorParameters (name ++ ⟨.openParen, ['(']⟩ :: inside)).map
    (·.map Phrase.joined)

/-- The initialiser leaves no bracket open, and inside of it every `,` and every `)` stands where one
is open. So the mark behind the initialiser is the one that ends it. -/
def Closed (parameter : Parameter) : Prop :=
  Token.Guarded 0 parameter.value ∧ Token.nesting 0 parameter.value = 0

instance (parameter : Parameter) : Decidable parameter.Closed :=
  inferInstanceAs (Decidable (_ ∧ _))

structure FirstUnclosed (parameters before : List Parameter) (parameter : Parameter)
    (behind : List Parameter) : Prop where
  split : parameters = before ++ parameter :: behind
  closed : ∀ other ∈ before, other.Closed
  unclosed : ¬ parameter.Closed

/-- What the count of open brackets makes of a parameter list. An initialiser that is not closed is
skipped up to the first `,` or `)` at which the count is zero, wherever that stands. -/
inductive Counted (name : List Token) (parameters : List Parameter) : Option (List Text) → Prop where
  | all (closed : ∀ parameter ∈ parameters, parameter.Closed) :
      Counted name parameters (some (parameters.map joined))
  | unended {before behind : List Parameter} {parameter : Parameter}
      (first : FirstUnclosed parameters before parameter behind)
      (guarded : Token.Guarded 0 (parameter.value ++ closing behind)) : Counted name parameters none
  /-- A `)` is taken for the end of the list before that is reached. -/
  | cutShort {before behind : List Parameter} {parameter : Parameter} {front back : List Token}
      {mark : Token} (first : FirstUnclosed parameters before parameter behind)
      (found : Token.EndsAt 0 (parameter.value ++ closing behind) front mark back)
      (kind : mark.kind = .closeParen) (inside : back ≠ []) : Counted name parameters none
  /-- The initialiser runs to the end of the list, over the parameters behind it. -/
  | swallowed {before behind : List Parameter} {parameter : Parameter} {front : List Token}
      {mark : Token} (first : FirstUnclosed parameters before parameter behind)
      (found : Token.EndsAt 0 (parameter.value ++ closing behind) front mark []) :
      Counted name parameters (some ((before ++ [parameter]).map joined))
  /-- The list goes on behind some other comma. -/
  | resumed {before behind : List Parameter} {parameter : Parameter} {front back : List Token}
      {mark : Token} {later : List Text} (first : FirstUnclosed parameters before parameter behind)
      (found : Token.EndsAt 0 (parameter.value ++ closing behind) front mark back)
      (kind : mark.kind = .comma)
      (recovered : (called name (Token.spell back)).recovered? = some later) (filled : later ≠ [])
      (few : before.length + 1 + later.length ≤ 99) :
      Counted name parameters (some ((before ++ [parameter]).map joined ++ later))
  | lost {before behind : List Parameter} {parameter : Parameter} {front back : List Token}
      {mark : Token} (first : FirstUnclosed parameters before parameter behind)
      (found : Token.EndsAt 0 (parameter.value ++ closing behind) front mark back)
      (kind : mark.kind = .comma)
      (unrecovered : ∀ later, (called name (Token.spell back)).recovered? = some later →
        later = [] ∨ 99 < before.length + 1 + later.length) : Counted name parameters none

/-- How a parameter is read. -/
structure ReadAs (parameter : Parameter) (phrases : List Phrase) : Prop where
  splits : Reading.Splits (Token.lex parameter.text) phrases
  spelled : List.Forall₂ Phrase.Spells parameter.words phrases

theorem splits_phrases {text : Text} {words : List Segment} (splits : Segment.Splits text words) :
    ∃ phrases, Reading.Splits (Token.lex text) phrases ∧ List.Forall₂ Phrase.Spells words phrases := by
  induction splits with
  | done trivial => exact ⟨[], .done trivial, .nil⟩
  | @more text first others found _ ih =>
      obtain ⟨phrases, later, spelled⟩ := ih
      have agrees := Reading.segment_reads (.ofText text [])
      change Reading.Agrees _ _ (Reading.segment (Token.lex text)) at agrees
      rcases read : Reading.segment (Token.lex text) with ⟨_ | phrase, rest, reachedEnd⟩ <;>
        rw [read] at agrees
      · obtain ⟨after, run, _⟩ := agrees.of_none
        simp [run] at found
      · obtain ⟨word, after, run, spells, remains⟩ := agrees.of_some
        rw [run] at found later
        obtain rfl := Option.some.inj found
        rw [remains] at later
        exact ⟨phrase :: phrases, .more read later, .cons spells spelled⟩

theorem readAs_exists (parameter : Parameter) : ∃ phrases, parameter.ReadAs phrases := by
  obtain ⟨phrases, splits, spelled⟩ := splits_phrases parameter.splits
  exact ⟨phrases, splits, spelled⟩

variable {parameter first : Parameter} {others : List Parameter} {phrases : List Phrase}

theorem ReadAs.joined_eq (readAs : parameter.ReadAs phrases) : Phrase.joined phrases = parameter.joined := by
  rw [Phrase.joined, joined, ← Phrase.segments_eq readAs.spelled]

theorem ReadAs.nonempty (readAs : parameter.ReadAs phrases) : phrases ≠ [] := by
  rintro rfl
  exact parameter.nonempty (List.forall₂_nil_right_iff.mp readAs.spelled)

theorem isPart_of_unseparated {word : Segment} {phrase : Phrase} (spells : Phrase.Spells word phrase)
    (unseparated : word.isSeparator = false) : Reading.IsPart phrase := by
  constructor
  · have same : phrase.isAssignment = word.isAssignment := by
      rw [spells.eq_segment]
      rfl
    rw [same]
    simp only [Segment.isSeparator, Segment.isAssignment] at unseparated ⊢
    simp_all
  · rintro mark rfl comma
    have member : mark ∈ Token.lex word.text := by
      rw [spells.settled.lex_eq]
      exact List.mem_singleton_self mark
    have genuine : Token.Genuine mark := Token.genuine_of_mem_lex member
    have text : word.text = [','] := by
      rw [← spells.settled.spell_eq]
      simpa using Token.text_of_mark genuine (by rw [comma]; rfl)
    simp [Segment.isSeparator, spells.kind, text] at unseparated

theorem ReadAs.parts (readAs : parameter.ReadAs phrases) :
    ∀ phrase ∈ phrases, Reading.IsPart phrase := by
  intro phrase member
  obtain ⟨word, among, spells⟩ := Reading.related_of_mem readAs.spelled.flip member
  exact isPart_of_unseparated spells (parameter.unseparated word among)

theorem value_of_some {text : Text} (initialised : parameter.initialiser = some text) :
    parameter.value = Token.lex text ∧
      parameter.tokens = Token.lex parameter.text ++ ⟨.equal, ['=']⟩ :: Token.lex text := by
  simp [value, tokens, initialised]

theorem value_of_none (bare : parameter.initialiser = none) :
    parameter.value = [] ∧ parameter.tokens = Token.lex parameter.text := by
  simp [value, tokens, bare]

theorem closing_cons (behind : List Parameter) :
    ∃ mark more, closing behind = mark :: more ∧ Production.endsParameter mark.kind = true := by
  cases behind with
  | nil => exact ⟨_, _, rfl, rfl⟩
  | cons first others => exact ⟨_, _, rfl, rfl⟩

theorem closing_of_cons (first : Parameter) (others : List Parameter) :
    closing (first :: others) = ⟨.comma, [',']⟩ :: listed (first :: others) := by
  simp [closing, listed]

theorem closing_append (before : List Parameter) (parameter : Parameter) (behind : List Parameter) :
    closing (before ++ parameter :: behind) =
      ⟨.comma, [',']⟩ :: listed (before ++ parameter :: behind) := by
  cases before <;> exact closing_of_cons _ _

section Parameter

variable {behind : List Parameter} {front back : List Token} {mark : Token}

theorem Closed.endsAt (closed : parameter.Closed) {more : List Token}
    (split : closing behind = mark :: more) (ends : Production.endsParameter mark.kind = true) :
    Token.EndsAt 0 (parameter.value ++ closing behind) parameter.value mark more :=
  ⟨by rw [split], closed.1, closed.2, ends⟩

/-- A parameter is read up to the first mark at which no bracket of its initialiser is open. -/
theorem parameter_endsAt (readAs : parameter.ReadAs phrases)
    (found : Token.EndsAt 0 (parameter.value ++ closing behind) front mark back) :
    Reading.parameter (parameter.tokens ++ closing behind) = ⟨some phrases, mark :: back, false⟩ := by
  cases initialised : parameter.initialiser with
  | none =>
      obtain ⟨value, tokens⟩ := value_of_none initialised
      obtain ⟨next, more, split, ends⟩ := closing_cons behind
      rw [value, List.nil_append, split] at found
      obtain ⟨rfl, rfl⟩ := found.at_start ends
      rw [tokens, split]
      exact Reading.parameter_of_bare readAs.splits readAs.parts readAs.nonempty ends back
  | some text =>
      obtain ⟨value, tokens⟩ := value_of_some initialised
      rw [value] at found
      rw [tokens, List.append_assoc]
      exact Reading.parameter_of_defaulted readAs.splits readAs.parts readAs.nonempty found

theorem parameter_guarded (guarded : Token.Guarded 0 (parameter.value ++ closing behind)) :
    (Reading.parameter (parameter.tokens ++ closing behind)).result = none := by
  obtain ⟨phrases, readAs⟩ := parameter.readAs_exists
  cases initialised : parameter.initialiser with
  | none =>
      obtain ⟨next, more, split, ends⟩ := closing_cons behind
      rw [(value_of_none initialised).1, List.nil_append, split, Token.guarded_cons] at guarded
      exact absurd (guarded.1 ends) (Nat.lt_irrefl 0)
  | some text =>
      obtain ⟨value, tokens⟩ := value_of_some initialised
      rw [value] at guarded
      rw [tokens, List.append_assoc]
      exact Reading.parameter_of_open readAs.splits readAs.parts readAs.nonempty guarded

end Parameter

/-- Closed parameters are read one after the other, and the list goes on with the next one. -/
theorem list?_past {before : List Parameter} (closed : ∀ other ∈ before, other.Closed)
    (parameter : Parameter) (behind : List Parameter) :
    ∃ lists, List.Forall₂ ReadAs before lists ∧ ∀ room,
      Reading.list? (before.length + room) (listed (before ++ parameter :: behind)) =
        (Reading.list? room (parameter.tokens ++ closing behind)).map (lists ++ ·) := by
  induction before with
  | nil => exact ⟨[], .nil, fun room => by simp [listed]⟩
  | cons first before ih =>
      obtain ⟨here, others⟩ := List.forall_mem_cons.mp closed
      obtain ⟨lists, readAs, later⟩ := ih others
      obtain ⟨phrases, readFirst⟩ := first.readAs_exists
      have ends := here.endsAt (closing_append before parameter behind) rfl
      refine ⟨phrases :: lists, .cons readFirst readAs, fun room => ?_⟩
      rw [List.length_cons, Nat.add_right_comm, List.cons_append, listed,
        Reading.list?_of_comma (parameter_endsAt readFirst ends) rfl, later, Option.map_map]
      rfl

/-- An initialiser without angle brackets that is properly nested is closed. -/
theorem closed_of_wellNested (nested : Token.WellNested parameter.value)
    (plain : ∀ token ∈ parameter.value, token.kind ≠ .less ∧ token.kind ≠ .greater) : parameter.Closed :=
  Token.guarded_of_awaited nested plain

theorem token_begins (first : Parameter) (rest : List Token) :
    ∃ found others, Reading.token (first.tokens ++ rest) = ⟨some found, others, false⟩ ∧
      found.kind ≠ .closeParen := by
  obtain ⟨phrases, readAs⟩ := first.readAs_exists
  have parts := readAs.parts
  have nonempty := readAs.nonempty
  cases readAs.splits with
  | done _ => exact absurd rfl nonempty
  | more read _ =>
      obtain ⟨found, others, begins, goesOn⟩ :=
        Reading.token_of_part read (parts _ List.mem_cons_self)
      have further := Reading.token_steady.append (Token.lex first.text)
        (first.initialiser.elim [] (fun text => ⟨.equal, ['=']⟩ :: Token.lex text) ++ rest)
      rw [begins] at further
      rw [← List.append_assoc] at further
      refine ⟨found, _, further rfl, ?_⟩
      · intro closes
        simp [Production.endsParameter, closes] at goesOn

variable {name : List Token} {parameters before behind : List Parameter} {outcome : Option (List Text)}

theorem joined_of_readAs {found : List (List Phrase)} (readAs : List.Forall₂ ReadAs parameters found) :
    found.map Phrase.joined = parameters.map joined := by
  induction readAs with
  | nil => rfl
  | cons first _ ih => rw [List.map_cons, List.map_cons, ih, first.joined_eq]

theorem firstUnclosed_exists (unclosed : ¬ ∀ parameter ∈ parameters, parameter.Closed) :
    ∃ before parameter behind, FirstUnclosed parameters before parameter behind := by
  induction parameters with
  | nil => exact absurd (by simp) unclosed
  | cons first others ih =>
      by_cases here : first.Closed
      · obtain ⟨before, parameter, behind, rfl, closed, stays⟩ :=
          ih fun closed => unclosed (List.forall_mem_cons.mpr ⟨here, closed⟩)
        exact ⟨first :: before, parameter, behind, rfl, List.forall_mem_cons.mpr ⟨here, closed⟩, stays⟩
      · exact ⟨[], first, others, rfl, by simp, here⟩

theorem counted_exists (name : List Token) (parameters : List Parameter) :
    ∃ outcome, Counted name parameters outcome := by
  by_cases closed : ∀ parameter ∈ parameters, parameter.Closed
  · exact ⟨_, .all closed⟩
  obtain ⟨before, parameter, behind, first⟩ := firstUnclosed_exists closed
  rcases Token.guarded_or_endsAt 0 (parameter.value ++ closing behind) with
    guarded | ⟨front, mark, back, found⟩
  · exact ⟨none, .unended first guarded⟩
  have ends := found.ends
  simp only [Production.endsParameter, Bool.or_eq_true, decide_eq_true_eq] at ends
  rcases ends with kind | kind
  · by_cases inside : back = []
    · subst inside
      exact ⟨_, .swallowed first found⟩
    · exact ⟨none, .cutShort first found kind inside⟩
  · by_cases goesOn : ∃ later, (called name (Token.spell back)).recovered? = some later ∧
        later ≠ [] ∧ before.length + 1 + later.length ≤ 99
    · obtain ⟨later, recovered, filled, few⟩ := goesOn
      exact ⟨_, .resumed first found kind recovered filled few⟩
    · refine ⟨none, .lost first found kind fun later recovered => ?_⟩
      by_contra other
      simp only [not_or, Nat.not_lt] at other
      exact goesOn ⟨later, recovered, other.1, other.2⟩

/-- The last name with a parenthesis, among phrases. -/
theorem declarator_phrase {parser after : Parser} {declaration : Declaration} {index : Nat}
    {segment : Segment} {inside : List Token}
    (read : Production.declaration parser = (some declaration, after))
    (here : declaration.segments[index]? = some segment) (paren : segment.kind = .paren)
    (plain : ∀ token ∈ name, token.kind ≠ .openParen)
    (spelled : Token.lex segment.text = name ++ ⟨.openParen, ['(']⟩ :: inside)
    (last : ∀ other ∈ declaration.segments.drop (index + 1), other.kind ≠ .paren) :
    ∃ seen before phrase behind, Phrase.SpellsDeclaration declaration seen ∧
      Reading.Chosen seen ∧ seen.phrases = before ++ phrase :: behind ∧ before.length = index ∧
      (∀ other ∈ behind, other.kind ≠ .paren) ∧ Reading.IsName none name ∧
      phrase.recovered? = Reading.isolated Reading.declaratorParameters
        (name ++ ⟨.openParen, ['(']⟩ :: inside) := by
  obtain ⟨seen, _, spells, chosen⟩ := Reading.declaration_chosen read
  obtain ⟨phrase, there, written⟩ := Reading.related_at spells.segments here
  obtain ⟨before, behind, phrases, length⟩ := Reading.split_at there
  have isParen : phrase.kind = .paren := written.kind.symm.trans paren
  have lexed := written.settled.lex_eq
  obtain ⟨other, inner, isName, shape⟩ :=
    (chosen.shaped phrase (List.mem_of_getElem? there)).paren isParen
  obtain ⟨rfl, _⟩ := Reading.name_unique plain isName.no_paren (by rw [← spelled, lexed, shape])
  refine ⟨seen, before, phrase, behind, spells, chosen, phrases, length, ?_, isName, ?_⟩
  · intro other member
    apply last other.segment
    rw [Phrase.segments_eq spells.segments, ← List.map_drop, phrases, ← length]
    simpa using List.mem_map_of_mem member
  · rw [Phrase.recovered?, if_pos isParen, ← lexed, spelled]

/-- The last token of a list is its closing parenthesis. -/
theorem kind_of_last {value front : List Token} {mark : Token}
    (split : value ++ closing behind = front ++ [mark]) : mark.kind = .closeParen := by
  rw [closing, ← List.append_assoc] at split
  obtain ⟨_, last⟩ := List.append_inj' split rfl
  rw [← List.singleton_inj.mp last]

theorem token_of_inside {value front back : List Token} {mark : Token}
    (split : value ++ closing behind = front ++ mark :: back) (inside : back ≠ []) :
    (Reading.token back).result.isNone = false := by
  obtain ⟨inner, last, rfl⟩ := (List.eq_nil_or_concat' back).resolve_left inside
  have kind : last.kind = .closeParen := by
    rw [← List.cons_append, ← List.append_assoc] at split
    exact kind_of_last split
  have visible : last.kind.isTrivia = false := by rw [kind]; rfl
  have shown := Reading.token_split (inner ++ [last])
  rcases Reading.token_ended_or_found (inner ++ [last]) with ended | ⟨found, rest, begins⟩
  · rw [ended] at shown
    simp [Token.significant_cons visible] at shown
  · rw [begins]
    rfl

theorem value_suffix (parameter : Parameter) : parameter.value <:+ parameter.tokens := by
  cases initialised : parameter.initialiser with
  | none =>
      rw [(value_of_none initialised).1]
      exact List.nil_suffix
  | some text =>
      obtain ⟨value, tokens⟩ := value_of_some initialised
      rw [value, tokens]
      exact (List.suffix_cons _ _).trans (List.suffix_append _ _)

theorem listed_suffix (before : List Parameter) (parameter : Parameter) (behind : List Parameter) :
    parameter.tokens ++ closing behind <:+ listed (before ++ parameter :: behind) := by
  induction before with
  | nil => exact List.suffix_rfl
  | cons first before ih =>
      rw [List.cons_append, listed, closing_append]
      exact ih.trans ((List.suffix_cons _ _).trans (List.suffix_append _ _))

theorem suffix_of_endsAt {parameter : Parameter} {front back : List Token} {mark : Token}
    (found : Token.EndsAt 0 (parameter.value ++ closing behind) front mark back) :
    back <:+ listed (before ++ parameter :: behind) := by
  have inside : back <:+ parameter.value ++ closing behind := by
    rw [found.split]
    exact (List.suffix_cons _ _).trans (List.suffix_append _ _)
  obtain ⟨words, split⟩ := parameter.value_suffix
  have whole : parameter.value ++ closing behind <:+ parameter.tokens ++ closing behind :=
    ⟨words, by rw [← split, List.append_assoc]⟩
  exact inside.trans (whole.trans (listed_suffix before parameter behind))

/-- There is room for a parameter, and for the others behind it. -/
theorem room_exists {parameter : Parameter} (few : (before ++ parameter :: behind).length ≤ 99) :
    ∃ room, before.length + (room + 1) = 99 := by
  rw [List.length_append, List.length_cons] at few
  exact ⟨98 - before.length, by omega⟩

/-- What stands behind some token of the list is cut into the same tokens behind the name. -/
theorem recovered?_called {text : Text} {inside back : List Token}
    (lexed : Token.lex text = name ++ ⟨.openParen, ['(']⟩ :: inside) (suffix : back <:+ inside) :
    (called name (Token.spell back)).recovered? = recovered? name back := by
  obtain ⟨front, rfl⟩ := suffix
  have again : Token.lex (Token.spell back) = back := by
    rw [← List.cons_append, ← List.append_assoc] at lexed
    exact Token.lex_spell_back lexed
  have whole : Token.lex (called name (Token.spell back)).text = name ++ ⟨.openParen, ['(']⟩ :: back := by
    have front := Token.sealed_run lexed rfl (by decide) (Token.spell back)
    simpa [called, again] using front
  rw [Reading.recovered?_of_paren rfl, whole, recovered?]

section Recovered

variable (isName : Reading.IsName none name) (named : name ≠ [])
include isName named

theorem recovered?_listed (nonempty : parameters ≠ []) :
    recovered? name (listed parameters) =
      (Reading.list? Production.itemLimit (listed parameters)).map (·.map Phrase.joined) := by
  obtain ⟨first, others, rfl⟩ := List.exists_cons_of_ne_nil nonempty
  obtain ⟨found, rest, begins, unclosed⟩ := token_begins first (closing others)
  rw [recovered?, listed, Reading.isolated_of_open isName named begins unclosed]

/-- The parameters before one are recovered, if what begins with that one is a list. -/
theorem recovered?_past (closed : ∀ other ∈ before, other.Closed) (parameter : Parameter)
    (behind : List Parameter) {room : Nat} (all : before.length + room = 99) :
    recovered? name (listed (before ++ parameter :: behind)) =
      (Reading.list? room (parameter.tokens ++ closing behind)).map
        (before.map joined ++ ·.map Phrase.joined) := by
  obtain ⟨lists, readAs, past⟩ := list?_past closed parameter behind
  have limit : Production.itemLimit = before.length + room := all.symm
  rw [recovered?_listed isName named (by simp), limit, past, Option.map_map]
  congr 1
  funext later
  rw [Function.comp_apply, List.map_append, joined_of_readAs readAs]

/-- A list that goes on behind a comma is recovered there from the same name, as far as there is room. -/
theorem list?_iff_recovered? {room : Nat} (fits : room ≤ 99) {tokens : List Token} {texts : List Text} :
    (Reading.list? room tokens).map (·.map Phrase.joined) = some texts ↔
      recovered? name tokens = some texts ∧ texts ≠ [] ∧ texts.length ≤ room := by
  simp only [recovered?, Option.map_eq_some_iff]
  constructor
  · intro found
    obtain ⟨lists, read, rfl⟩ := found
    obtain ⟨filled, few, same⟩ := Reading.list?_room read
    have whole := same Production.itemLimit (Nat.le_trans few fits)
    exact ⟨⟨lists, (Reading.isolated_iff_list? isName named filled).mpr whole, rfl⟩, by simpa using filled,
      by simpa using few⟩
  · intro found
    obtain ⟨⟨lists, read, rfl⟩, filled, few⟩ := found
    rw [ne_eq, List.map_eq_nil_iff] at filled
    rw [List.length_map] at few
    have whole := (Reading.isolated_iff_list? isName named filled).mp read
    exact ⟨lists, (Reading.list?_room whole).2.2 room few, rfl⟩

/-- The parameters before one are recovered, and that one as far as the count goes. -/
theorem recovered?_of_endsAt {parameter : Parameter} {front back : List Token} {mark : Token}
    (closed : ∀ other ∈ before, other.Closed) (few : (before ++ parameter :: behind).length ≤ 99)
    (found : Token.EndsAt 0 (parameter.value ++ closing behind) front mark back) :
    ∃ room phrases, before.length + (room + 1) = 99 ∧ Phrase.joined phrases = parameter.joined ∧
      Reading.parameter (parameter.tokens ++ closing behind) = ⟨some phrases, mark :: back, false⟩ ∧
      recovered? name (listed (before ++ parameter :: behind)) =
        (Reading.list? (room + 1) (parameter.tokens ++ closing behind)).map
          (before.map joined ++ ·.map Phrase.joined) := by
  obtain ⟨room, all⟩ := room_exists few
  obtain ⟨phrases, readAs⟩ := parameter.readAs_exists
  exact ⟨room, phrases, all, readAs.joined_eq, parameter_endsAt readAs found,
    recovered?_past isName named closed parameter behind all⟩

/-- The count tells what is recovered. -/
theorem Counted.recovered?_eq {text : Text}
    (lexed : Token.lex text = name ++ ⟨.openParen, ['(']⟩ :: listed parameters)
    (nonempty : parameters ≠ []) (few : parameters.length ≤ 99)
    (counted : Counted name parameters outcome) : recovered? name (listed parameters) = outcome := by
  cases counted with
  | all closed =>
      obtain ⟨before, last, rfl⟩ := (List.eq_nil_or_concat' parameters).resolve_left nonempty
      obtain ⟨closedBefore, closedLast⟩ := List.forall_mem_append.mp closed
      have ends : Token.EndsAt 0 (last.value ++ closing []) last.value ⟨.closeParen, [')']⟩ [] :=
        (closedLast last (by simp)).endsAt rfl rfl
      obtain ⟨room, phrases, _, joined, here, whole⟩ :=
        recovered?_of_endsAt isName named closedBefore few ends
      rw [whole, Reading.list?_of_paren here rfl]
      simp [Reading.token, joined]
  | unended first guarded =>
      obtain ⟨rfl, closed, _⟩ := first
      obtain ⟨room, all⟩ := room_exists few
      have failed := Reading.commaListWithin_failed (parameter_guarded guarded) (room + 1)
      rw [recovered?_past isName named closed _ _ all, Reading.list?_of_failed failed]
      rfl
  | cutShort first found kind inside =>
      obtain ⟨rfl, closed, _⟩ := first
      obtain ⟨room, phrases, _, _, here, whole⟩ := recovered?_of_endsAt isName named closed few found
      rw [whole, Reading.list?_of_paren here kind, token_of_inside found.split inside]
      rfl
  | swallowed first found =>
      obtain ⟨rfl, closed, _⟩ := first
      obtain ⟨room, phrases, _, joined, here, whole⟩ :=
        recovered?_of_endsAt isName named closed few found
      rw [whole, Reading.list?_of_paren here (kind_of_last found.split)]
      simp [Reading.token, joined]
  | resumed first found kind recovered filled fits =>
      obtain ⟨rfl, closed, _⟩ := first
      obtain ⟨room, phrases, all, joined, here, whole⟩ :=
        recovered?_of_endsAt isName named closed few found
      rw [recovered?_called lexed (suffix_of_endsAt found)] at recovered
      obtain ⟨later, read, rfl⟩ := Option.map_eq_some_iff.mp <|
        (list?_iff_recovered? isName named (by omega : room ≤ 99)).mpr ⟨recovered, filled, by omega⟩
      rw [whole, Reading.list?_of_comma here kind, read]
      simp [joined]
  | @lost before behind parameter front back mark first found kind unrecovered =>
      obtain ⟨rfl, closed, _⟩ := first
      obtain ⟨room, phrases, all, _, here, whole⟩ := recovered?_of_endsAt isName named closed few found
      rw [recovered?_called lexed (suffix_of_endsAt found)] at unrecovered
      have none : Reading.list? room back = none := by
        rw [Option.eq_none_iff_forall_ne_some]
        intro later read
        obtain ⟨recovered, filled, fits⟩ :=
          (list?_iff_recovered? isName named (by omega : room ≤ 99)).mp (by rw [read]; rfl)
        rcases unrecovered _ recovered with empty | many
        · exact filled empty
        · omega
      rw [whole, Reading.list?_of_comma here kind, none]
      rfl

end Recovered

/-- For the last name with a parenthesis the parameters are recovered as from the name on its own. -/
theorem recovers_iff {parser after : Parser} {declaration : Declaration} {index : Nat}
    {segment : Segment} {inside : List Token}
    (read : Production.declaration parser = (some declaration, after))
    (here : declaration.segments[index]? = some segment) (paren : segment.kind = .paren)
    (plain : ∀ token ∈ name, token.kind ≠ .openParen)
    (spelled : Token.lex segment.text = name ++ ⟨.openParen, ['(']⟩ :: inside)
    (last : ∀ other ∈ declaration.segments.drop (index + 1), other.kind ≠ .paren) :
    Reading.IsName none name ∧
      ∀ texts, Recovers declaration index texts ↔ recovered? name inside = some texts := by
  obtain ⟨seen, before, phrase, behind, spells, chosen, phrases, length, ends, isName, recovered⟩ :=
    declarator_phrase read here paren plain spelled last
  refine ⟨isName, fun texts => ?_⟩
  rw [Recovers, recovered?, ← recovered]
  cases readable : phrase.recovered? with
  | none =>
      refine ⟨fun found => ?_, fun found => by simp at found⟩
      obtain ⟨place, list⟩ := found
      rw [spells.declaratorIndex, ← length] at place
      rw [spells.eq_written, Phrase.Declaration.written, chosen.parameters_none phrases readable place]
        at list
      simp at list
  | some found =>
      have choice := Reading.chooseDeclarator_of_last before ends readable
      rw [← phrases, chosen.declarator, length] at choice
      obtain ⟨place, list⟩ := Prod.mk.inj choice
      rw [spells.eq_written, Phrase.Declaration.written, place, list]
      simp

end Parameter

end OutOfLine
