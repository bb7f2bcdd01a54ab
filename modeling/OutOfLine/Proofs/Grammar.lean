import OutOfLine.Proofs.NormalForm
import OutOfLine.Proofs.Reading.Choice

/-!
The grammar of declarations. A declaration is a row of groups and a semicolon; a group is a name, a
name with a bracket run, a bracket run alone, or a sign. What may stand where is set down here by
tables and counts, apart from the readings, and the readings are shown to find exactly the groups
that are there.
-/

namespace OutOfLine

namespace Grammar

def nameKinds : List Token.Kind :=
  [.word, .doubleColon, .tilde]

/-- The kinds that may stand next to each other in a name. -/
def nameNeighbours : List (Token.Kind × Token.Kind) :=
  [(.word, .doubleColon), (.doubleColon, .word), (.doubleColon, .tilde), (.tilde, .word)]

structure IsNameRun (name : List Token) : Prop where
  nonempty : name ≠ []
  kinds : ∀ token ∈ name, token.kind ∈ nameKinds
  neighbours : name.IsChain fun left right => (left.kind, right.kind) ∈ nameNeighbours

/-- The tokens begin with the name, and what is left does not go on with it. White space and comments
may stand between the parts of the name. -/
structure NameAhead (tokens name rest : List Token) : Prop where
  isName : IsNameRun name
  front : ∃ front, Token.significant front = name ∧ tokens = front ++ rest
  maximal : ∀ next ∈ (Token.significant rest).head?, ¬ IsNameRun (name ++ [next])

def count (kind : Token.Kind) (tokens : List Token) : Nat :=
  tokens.countP (·.kind = kind)

def Balances (opener closer : Token.Kind) (tokens : List Token) : Prop :=
  count opener tokens = count closer tokens

/-- The shortest run from an opener on in which openers and closers of the one kind balance. -/
structure IsBracketRun (opener closer : Token.Kind) (run : List Token) : Prop where
  opens : ∃ first inner, run = first :: inner ∧ first.kind = opener
  balanced : Balances opener closer run
  shortest : ∀ front back, run = front ++ back → front ≠ [] → back ≠ [] →
    ¬ Balances opener closer front

/-- The brackets that may follow a name, and the kind of what they make with it. -/
def nameBrackets : List (Segment.Kind × Token.Kind × Token.Kind) :=
  [(.paren, .openParen, .closeParen), (.angle, .less, .greater),
    (.bracket, .openBracket, .closeBracket)]

def signs : List Token.Kind :=
  [.ampersand, .star, .comma, .equal]

/-- One group at the front of tokens, and what is left behind it. -/
inductive Group : List Token → Phrase → List Token → Prop where
  | plain {tokens name rest : List Token} (ahead : NameAhead tokens name rest)
      (alone : ∀ next ∈ (Token.significant rest).head?,
        next.kind ∉ nameBrackets.map fun brackets => brackets.2.1) :
      Group tokens ⟨.plain, name⟩ rest
  | bracketed {tokens name run rest : List Token} {kind : Segment.Kind} {opener closer : Token.Kind}
      (ahead : NameAhead tokens name (run ++ rest)) (brackets : (kind, opener, closer) ∈ nameBrackets)
      (isRun : IsBracketRun opener closer run) : Group tokens ⟨kind, name ++ run⟩ rest
  | enclosed {blank run rest : List Token} (trivial : Token.significant blank = [])
      (isRun : IsBracketRun .openBracket .closeBracket run) :
      Group (blank ++ (run ++ rest)) ⟨.attribute, run⟩ rest
  | symbol {blank rest : List Token} {mark : Token} (trivial : Token.significant blank = [])
      (sign : mark.kind ∈ signs) : Group (blank ++ mark :: rest) ⟨.symbol, [mark]⟩ rest

/-- One group or more with a semicolon directly behind the last, and what is left behind that. -/
inductive Groups : List Token → List Phrase → List Token → Prop where
  | last {tokens blank after : List Token} {phrase : Phrase} {mark : Token}
      (group : Group tokens phrase (blank ++ mark :: after)) (trivial : Token.significant blank = [])
      (semicolon : mark.kind = .semicolon) : Groups tokens [phrase] after
  | more {tokens rest after : List Token} {phrase : Phrase} {phrases : List Phrase}
      (group : Group tokens phrase rest) (later : Groups rest phrases after) :
      Groups tokens (phrase :: phrases) after

end Grammar

namespace Reading

open Grammar

variable {tokens name rest run : List Token}

theorem continuesName_some_iff {left right : Token.Kind} :
    Production.continuesName (some left) right = true ↔ (left, right) ∈ nameNeighbours := by
  cases right <;> simp [Production.continuesName, nameNeighbours]

theorem continuesName_none_iff {kind : Token.Kind} :
    Production.continuesName none kind = true ↔ kind ∈ nameKinds := by
  cases kind <;> simp [Production.continuesName, nameKinds]

theorem nameKinds_of_neighbours {left right : Token.Kind} (neighbours : (left, right) ∈ nameNeighbours) :
    right ∈ nameKinds := by
  cases right <;> simp [nameNeighbours, nameKinds] at neighbours ⊢

theorem chained_some_iff {first : Token} :
    Chained (some first.kind) name ↔ (∀ token ∈ name, token.kind ∈ nameKinds) ∧
      (first :: name).IsChain fun left right => (left.kind, right.kind) ∈ nameNeighbours := by
  induction name generalizing first with
  | nil => simp [Chained]
  | cons next name ih =>
      rw [Chained, ih, continuesName_some_iff, List.isChain_cons_cons, List.forall_mem_cons]
      constructor
      · rintro ⟨neighbours, kinds, chain⟩
        exact ⟨⟨nameKinds_of_neighbours neighbours, kinds⟩, neighbours, chain⟩
      · rintro ⟨⟨_, kinds⟩, neighbours, chain⟩
        exact ⟨neighbours, kinds, chain⟩

theorem isNameRun_iff : IsNameRun name ↔ name ≠ [] ∧ Chained none name := by
  cases name with
  | nil => exact ⟨fun isName => absurd rfl isName.nonempty, fun isName => absurd rfl isName.1⟩
  | cons first name =>
      rw [Chained, chained_some_iff, continuesName_none_iff]
      constructor
      · rintro ⟨nonempty, kinds, chain⟩
        exact ⟨nonempty, kinds first List.mem_cons_self,
          fun token member => kinds token (List.mem_cons_of_mem _ member), chain⟩
      · rintro ⟨nonempty, here, kinds, chain⟩
        exact ⟨nonempty, List.forall_mem_cons.mpr ⟨here, kinds⟩, chain⟩

theorem chained_append_singleton {last : Option Token.Kind} {next : Token} :
    Chained last (name ++ [next]) ↔
      Chained last name ∧ Production.continuesName (lastKind last name) next.kind := by
  induction name generalizing last with
  | nil => simp [Chained, lastKind]
  | cons first name ih =>
      rw [List.cons_append, Chained, ih, Chained, and_assoc]
      rfl

/-- A name is not longer exactly where the reading of names stops. -/
theorem not_isNameRun_append_iff (isName : IsNameRun name) {next : Token} :
    ¬ IsNameRun (name ++ [next]) ↔
      Production.continuesName (lastKind none name) next.kind = false := by
  rw [isNameRun_iff, chained_append_singleton]
  simp [(isNameRun_iff.mp isName).2]

/-- What is read of a name, and what is left, are parts of the tokens. -/
theorem nameBody_split {last : Option Token.Kind} {reachedEnd : Bool}
    (read : nameBody last tokens = ⟨some name, rest, reachedEnd⟩) :
    Chained last name ∧ (∃ front, Token.significant front = name ∧ tokens = front ++ rest) ∧
      ∀ next ∈ (Token.significant rest).head?,
        Production.continuesName (lastKind last name) next.kind = false := by
  induction tokens generalizing last name with
  | nil =>
      simp only [nameBody, Outcome.mk.injEq, Option.some.injEq] at read
      obtain ⟨rfl, rfl, _⟩ := read
      exact ⟨trivial, ⟨[], rfl, rfl⟩, by simp⟩
  | cons first tokens ih =>
      rw [nameBody] at read
      cases trivia : first.kind.isTrivia with
      | true =>
          rw [trivia, if_pos rfl] at read
          obtain ⟨chained, ⟨front, shown, rfl⟩, stops⟩ := ih read
          exact ⟨chained, ⟨first :: front, by rw [Token.significant_cons_trivia trivia, shown], rfl⟩, stops⟩
      | false =>
          rw [trivia, if_neg Bool.false_ne_true] at read
          cases continues : Production.continuesName last first.kind with
          | false =>
              simp only [continues, Bool.false_eq_true, if_false, Outcome.mk.injEq,
                Option.some.injEq] at read
              obtain ⟨rfl, rfl, _⟩ := read
              refine ⟨trivial, ⟨[], rfl, rfl⟩, fun next here => ?_⟩
              rw [Token.significant_cons trivia] at here
              exact Option.some.inj here ▸ continues
          | true =>
              rcases body : nameBody (some first.kind) tokens with ⟨_ | later, left, ended⟩ <;>
                simp only [continues, if_true, body, Outcome.map, Option.map_none, Option.map_some,
                  Outcome.mk.injEq, Option.some.injEq, reduceCtorEq, false_and] at read
              obtain ⟨rfl, rfl, rfl⟩ := read
              obtain ⟨chained, ⟨front, shown, rfl⟩, stops⟩ := ih body
              exact ⟨⟨continues, chained⟩,
                ⟨first :: front, by rw [Token.significant_cons trivia, shown], rfl⟩, stops⟩

theorem nameAhead_of_nameBody {reachedEnd : Bool} (nonempty : name ≠ [])
    (read : nameBody none tokens = ⟨some name, rest, reachedEnd⟩) : NameAhead tokens name rest := by
  obtain ⟨chained, front, stops⟩ := nameBody_split read
  have isName := isNameRun_iff.mpr ⟨nonempty, chained⟩
  exact ⟨isName, front, fun next here => (not_isNameRun_append_iff isName).mpr (stops next here)⟩

theorem nameBody_of_nameAhead (ahead : NameAhead tokens name rest) :
    nameBody none tokens = ⟨some name, (peek rest).rest, (peek rest).reachedEnd⟩ := by
  obtain ⟨isName, ⟨front, shown, rfl⟩, maximal⟩ := ahead
  exact nameBody_of_chained (isNameRun_iff.mp isName).2 shown fun next here =>
    (not_isNameRun_append_iff isName).mp (maximal next here)

section Brackets

variable {opener closer : Token.Kind}

/-- The shortest tokens that close `depth` openers and one more. -/
structure Closes (opener closer : Token.Kind) (depth : Nat) (run : List Token) : Prop where
  closed : count closer run = count opener run + depth + 1
  shortest : ∀ front back, run = front ++ back → back ≠ [] →
    count closer front ≠ count opener front + depth + 1

theorem not_closes_nil {depth : Nat} : ¬ Closes opener closer depth [] := by
  rintro ⟨closed, _⟩
  simp [count] at closed

/-- What one token does to the count is what it does to the depth. -/
theorem count_cons_iff (distinct : opener ≠ closer) {depth inner : Nat} {first : Token}
    (step : depthAfter? opener closer depth first.kind = some inner) (tokens : List Token) :
    count closer (first :: tokens) = count opener (first :: tokens) + depth + 1 ↔
      count closer tokens = count opener tokens + inner + 1 := by
  simp only [count, List.countP_cons, decide_eq_true_eq]
  by_cases opens : first.kind = opener
  · simp only [depthAfter?, opens, if_true, Option.some.injEq] at step
    simp only [opens, distinct, if_true, if_false]
    omega
  by_cases closes : first.kind = closer
  · simp only [depthAfter?, closes, distinct.symm, if_true, if_false] at step
    cases depth with
    | zero => simp at step
    | succ depth =>
        simp only [Option.some.injEq] at step
        simp only [closes, distinct.symm, if_true, if_false]
        omega
  · simp only [depthAfter?, opens, closes, if_false, Option.some.injEq] at step
    simp only [opens, closes, if_false]
    omega

theorem closes_cons_of_some (distinct : opener ≠ closer) {depth inner : Nat} {first : Token}
    (step : depthAfter? opener closer depth first.kind = some inner) :
    Closes opener closer depth (first :: run) ↔ Closes opener closer inner run := by
  have shift := count_cons_iff distinct step
  constructor
  · rintro ⟨closed, shortest⟩
    refine ⟨(shift run).mp closed, fun front back whole nonempty => ?_⟩
    exact mt (shift front).mpr (shortest (first :: front) back (by rw [whole]; rfl) nonempty)
  · rintro ⟨closed, shortest⟩
    refine ⟨(shift run).mpr closed, fun front back whole nonempty => ?_⟩
    cases front with
    | nil => simp [count]
    | cons other front =>
        obtain ⟨rfl, inside⟩ := List.cons.inj whole
        exact mt (shift front).mp (shortest front back inside nonempty)

theorem closes_cons_of_none (distinct : opener ≠ closer) {depth : Nat} {first : Token}
    (step : depthAfter? opener closer depth first.kind = none) :
    Closes opener closer depth (first :: run) ↔ run = [] := by
  have closes : first.kind = closer := kind_of_depthAfter?_none step
  obtain rfl : depth = 0 := by
    cases depth with
    | zero => rfl
    | succ depth => simp [depthAfter?, closes, distinct.symm] at step
  have alone : count closer [first] = count opener [first] + 0 + 1 := by
    simp [count, closes, distinct.symm]
  constructor
  · intro closed
    by_contra nonempty
    exact closed.shortest [first] run rfl nonempty alone
  · rintro rfl
    refine ⟨alone, fun front back whole nonempty => ?_⟩
    obtain rfl : front = [] := by
      rcases List.append_eq_singleton_iff.mp whole.symm with ⟨empty, _⟩ | ⟨_, empty⟩
      · exact empty
      · exact absurd empty nonempty
    simp [count]

/-- What is read of a bracket run is what closes it. -/
theorem bracketBody_iff (distinct : opener ≠ closer) {depth : Nat} :
    bracketBody opener closer depth tokens = ⟨some run, rest, false⟩ ↔
      Closes opener closer depth run ∧ tokens = run ++ rest := by
  induction tokens generalizing depth run with
  | nil =>
      constructor
      · intro read
        simp [bracketBody] at read
      · rintro ⟨closes, whole⟩
        obtain ⟨rfl, _⟩ := List.append_eq_nil_iff.mp whole.symm
        exact absurd closes not_closes_nil
  | cons first tokens ih =>
      rw [bracketBody]
      cases run with
      | nil =>
          refine ⟨fun read => ?_, fun found => absurd found.1 not_closes_nil⟩
          cases step : depthAfter? opener closer depth first.kind <;> simp [step, Outcome.map] at read
      | cons other run =>
          rw [List.cons_append, List.cons.injEq]
          cases step : depthAfter? opener closer depth first.kind with
          | none =>
              simp only [Outcome.mk.injEq, Option.some.injEq, List.cons.injEq, and_true]
              constructor
              · rintro ⟨⟨rfl, rfl⟩, rfl⟩
                exact ⟨(closes_cons_of_none distinct step).mpr rfl, rfl, rfl⟩
              · rintro ⟨closes, rfl, rfl⟩
                obtain rfl := (closes_cons_of_none distinct step).mp closes
                exact ⟨⟨rfl, rfl⟩, rfl⟩
          | some inner =>
              have mapped : (bracketBody opener closer inner tokens).map (first :: ·) =
                  ⟨some (other :: run), rest, false⟩ ↔ first = other ∧
                    bracketBody opener closer inner tokens = ⟨some run, rest, false⟩ := by
                rcases bracketBody opener closer inner tokens with ⟨_ | later, left, ended⟩ <;>
                  simp [Outcome.map, and_assoc]
              rw [mapped, ih]
              constructor
              · rintro ⟨rfl, closes, whole⟩
                exact ⟨(closes_cons_of_some distinct step).mpr closes, rfl, whole⟩
              · rintro ⟨closes, rfl, whole⟩
                exact ⟨rfl, (closes_cons_of_some distinct step).mp closes, whole⟩

theorem isBracketRun_cons_iff (distinct : opener ≠ closer) {first : Token} :
    IsBracketRun opener closer (first :: run) ↔
      first.kind = opener ∧ Closes opener closer 0 run := by
  have balanced (opens : first.kind = opener) (front : List Token) :
      Balances opener closer (first :: front) ↔ count closer front = count opener front + 0 + 1 := by
    simp only [Balances, count, List.countP_cons, opens, distinct, decide_true, decide_false, if_true,
      Bool.false_eq_true, if_false]
    omega
  constructor
  · rintro ⟨⟨_, _, same, opens⟩, whole, shortest⟩
    obtain ⟨rfl, rfl⟩ := List.cons.inj same
    refine ⟨opens, (balanced opens run).mp whole, fun front back split nonempty => ?_⟩
    exact mt (balanced opens front).mpr
      (shortest (first :: front) back (by rw [split]; rfl) (by simp) nonempty)
  · rintro ⟨opens, closed, shortest⟩
    refine ⟨⟨first, run, rfl, opens⟩, (balanced opens run).mpr closed, ?_⟩
    intro front back split nonempty more
    cases front with
    | nil => exact absurd rfl nonempty
    | cons other front =>
        obtain ⟨rfl, inside⟩ := List.cons.inj split
        exact mt (balanced opens front).mp (shortest front back inside more)

/-- A bracket run is read where there is one, behind white space and comments. -/
theorem bracketRun_iff (distinct : opener ≠ closer) (visible : opener.isTrivia = false) :
    bracketRun opener closer tokens = ⟨some run, rest, false⟩ ↔ IsBracketRun opener closer run ∧
      ∃ blank, Token.significant blank = [] ∧ tokens = blank ++ (run ++ rest) := by
  constructor
  · intro read
    rcases token_ended_or_found tokens with ended | ⟨first, others, found⟩
    · rw [bracketRun, bind_of_none ended] at read
      simp at read
    rw [bracketRun, bind_of_some found] at read
    by_cases opens : first.kind = opener
    · rw [if_pos opens] at read
      rcases body : bracketBody opener closer 0 others with ⟨_ | inner, left, ended⟩
      · simp [bind_of_none body] at read
      · rw [bind_of_some body] at read
        simp only [Pure.pure, Bool.false_or, Bool.or_false, Outcome.mk.injEq, Option.some.injEq] at read
        obtain ⟨rfl, rfl, rfl⟩ := read
        obtain ⟨closes, rfl⟩ := (bracketBody_iff distinct).mp body
        obtain ⟨blank, trivial, rfl⟩ := token_found_split found
        exact ⟨(isBracketRun_cons_iff distinct).mpr ⟨opens, closes⟩, blank, trivial, rfl⟩
    · simp [if_neg opens, fail] at read
  · rintro ⟨isRun, blank, trivial, rfl⟩
    obtain ⟨first, inner, rfl, opens⟩ := isRun.opens
    have closes := ((isBracketRun_cons_iff distinct).mp isRun).2
    rw [List.cons_append, bracketRun,
      bind_of_some ((token_blank trivial _).trans (token_visible (opens ▸ visible) _)), if_pos opens,
      bind_of_some ((bracketBody_iff distinct).mpr ⟨closes, rfl⟩)]
    rfl

end Brackets

section Groups

variable {blank others after : List Token} {first next mark : Token} {phrase : Phrase}
  {phrases : List Phrase} {kind : Segment.Kind} {opener closer : Token.Kind}

theorem afterName_of_brackets (brackets : (kind, opener, closer) ∈ nameBrackets) (name : List Token) :
    afterName name opener = (bracketRun opener closer >>= fun run => return ⟨kind, name ++ run⟩) := by
  simp only [nameBrackets, List.mem_cons, Prod.mk.injEq, List.not_mem_nil, or_false] at brackets
  rcases brackets with ⟨rfl, rfl, rfl⟩ | ⟨rfl, rfl, rfl⟩ | ⟨rfl, rfl, rfl⟩ <;> rfl

theorem afterName_of_alone (alone : opener ∉ nameBrackets.map fun brackets => brackets.2.1)
    (name : List Token) : afterName name opener = return ⟨.plain, name⟩ := by
  have unbracketed : Production.bracketKind? opener = none := by
    cases opener <;> simp [nameBrackets, Production.bracketKind?] at alone ⊢
  simp only [afterName, unbracketed]

/-- The brackets of names can be told apart, and from white space and comments. -/
theorem nameBrackets_visible (brackets : (kind, opener, closer) ∈ nameBrackets) :
    opener ≠ closer ∧ opener.isTrivia = false := by
  simp only [nameBrackets, List.mem_cons, Prod.mk.injEq, List.not_mem_nil, or_false] at brackets
  rcases brackets with ⟨rfl, rfl, rfl⟩ | ⟨rfl, rfl, rfl⟩ | ⟨rfl, rfl, rfl⟩ <;> decide

theorem nameBrackets_closing (brackets : (kind, opener, closer) ∈ nameBrackets) :
    opener.closing? = some closer := by
  simp only [nameBrackets, List.mem_cons, Prod.mk.injEq, List.not_mem_nil, or_false] at brackets
  rcases brackets with ⟨rfl, rfl, rfl⟩ | ⟨rfl, rfl, rfl⟩ | ⟨rfl, rfl, rfl⟩ <;> rfl

/-- A sign begins nothing but itself. -/
theorem signs_apart {kind : Token.Kind} (sign : kind ∈ signs) :
    kind.isTrivia = false ∧ Production.continuesName none kind = false ∧ kind ≠ .openBracket := by
  simp only [signs, List.mem_cons, List.not_mem_nil, or_false] at sign
  rcases sign with rfl | rfl | rfl | rfl <;> decide

theorem isSymbol_iff : Production.isSymbol mark = true ↔ mark.kind ∈ signs := by
  simp [Production.isSymbol, signs, or_assoc]

theorem group_of_namedSegment {reachedEnd : Bool}
    (read : namedSegment tokens = ⟨some phrase, rest, reachedEnd⟩)
    (behind : token rest = ⟨some next, others, false⟩) : Group tokens phrase rest := by
  obtain ⟨name, follow, left, nonempty, body, visible, rear⟩ := namedSegment_parts read behind
  have ahead := nameAhead_of_nameBody nonempty body
  by_cases opens : follow.kind ∈ nameBrackets.map fun brackets => brackets.2.1
  · obtain ⟨⟨kind, opener, closer⟩, brackets, same⟩ := List.mem_map.mp opens
    simp only at same
    rw [← same, afterName_of_brackets brackets] at rear
    rcases found : bracketRun opener closer (follow :: left) with ⟨_ | run, further, ended⟩
    · simp [bind_of_none found] at rear
    rw [bind_of_some found] at rear
    simp only [Pure.pure, Outcome.mk.injEq, Option.some.injEq] at rear
    obtain ⟨rfl, rfl, _⟩ := rear
    obtain rfl := bracketRun_decided found
    obtain ⟨distinct, openerVisible⟩ := nameBrackets_visible brackets
    obtain ⟨isRun, blank, trivial, whole⟩ := (bracketRun_iff distinct openerVisible).mp found
    obtain rfl : blank = [] := by
      cases blank with
      | nil => rfl
      | cons front blank =>
          obtain ⟨rfl, _⟩ := List.cons.inj whole
          simp [Token.significant_cons visible] at trivial
    rw [whole] at ahead
    exact .bracketed ahead brackets isRun
  · rw [afterName_of_alone opens] at rear
    simp only [Pure.pure, Outcome.mk.injEq, Option.some.injEq] at rear
    obtain ⟨rfl, rfl, _⟩ := rear
    refine .plain ahead fun next here => ?_
    rw [Token.significant_cons visible] at here
    exact Option.some.inj here ▸ opens

/-- A segment with a token behind it is a group. -/
theorem group_of_segment {reachedEnd : Bool} (read : segment tokens = ⟨some phrase, rest, reachedEnd⟩)
    (behind : token rest = ⟨some next, others, false⟩) : Group tokens phrase rest := by
  have way := segment_found (by rw [read] : (segment tokens).result = some phrase)
  rw [read] at way
  cases way with
  | named named => exact group_of_namedSegment named behind
  | bracketed _ bracketed =>
      rcases found : bracketRun .openBracket .closeBracket tokens with ⟨_ | run, left, ended⟩
      · simp [attributeSegment, bind_of_none found] at bracketed
      rw [attributeSegment, bind_of_some found] at bracketed
      simp only [Pure.pure, Outcome.mk.injEq, Option.some.injEq] at bracketed
      obtain ⟨rfl, rfl, _⟩ := bracketed
      obtain rfl := bracketRun_decided found
      obtain ⟨isRun, blank, trivial, rfl⟩ := (bracketRun_iff (by decide) rfl).mp found
      exact .enclosed trivial isRun
  | symbol _ _ symbol =>
      rcases eaten : eatIf Production.isSymbol tokens with ⟨_ | sign, left, ended⟩
      · simp [symbolSegment, bind_of_none eaten] at symbol
      rw [symbolSegment, bind_of_some eaten] at symbol
      simp only [Pure.pure, Outcome.mk.injEq, Option.some.injEq] at symbol
      obtain ⟨rfl, rfl, _⟩ := symbol
      obtain ⟨found, accepted, _⟩ := eatIf_found eaten
      obtain ⟨blank, trivial, rfl⟩ := token_found_split found
      exact .symbol trivial (isSymbol_iff.mp accepted)

theorem token_bracketRun (isRun : IsBracketRun opener closer run) (visible : opener.isTrivia = false)
    (trivial : Token.significant blank = []) (rest : List Token) :
    ∃ first others, token (blank ++ (run ++ rest)) = ⟨some first, others, false⟩ ∧
      first.kind = opener ∧ run ++ rest = first :: others := by
  obtain ⟨first, inner, rfl, opens⟩ := isRun.opens
  refine ⟨first, inner ++ rest, ?_, opens, rfl⟩
  rw [token_blank trivial, List.cons_append, token_visible (opens ▸ visible)]

/-- A group with a token behind it is read. Only white space and comments are lost of the rest. -/
theorem segment_of_group (group : Group tokens phrase rest)
    (behind : token rest = ⟨some next, others, false⟩) :
    ∃ left, segment tokens = ⟨some phrase, left, false⟩ ∧ token left = ⟨some next, others, false⟩ := by
  cases group with
  | @plain _ name _ ahead alone =>
      have visible := visible_of_token behind
      have body := nameBody_of_nameAhead ahead
      rw [peek_of_some behind] at body
      have noBracket : next.kind ∉ nameBrackets.map fun brackets => brackets.2.1 := by
        have split := token_split rest
        rw [behind] at split
        exact alone next (by rw [split.2]; rfl)
      refine ⟨next :: others, segment_of_named ?_, token_visible visible others⟩
      rw [namedSegment_of_name ahead.isName.nonempty body visible, afterName_of_alone noBracket]
      rfl
  | @bracketed _ name run _ kind opener closer ahead brackets isRun =>
      obtain ⟨distinct, visible⟩ := nameBrackets_visible brackets
      obtain ⟨first, inner, found, opens, whole⟩ := token_bracketRun isRun visible (Token.significant_nil) rest
      have body := nameBody_of_nameAhead ahead
      rw [List.nil_append] at found
      rw [peek_of_some found] at body
      have read : bracketRun opener closer (first :: inner) = ⟨some run, rest, false⟩ :=
        (bracketRun_iff distinct visible).mpr ⟨isRun, [], rfl, whole.symm⟩
      refine ⟨rest, segment_of_named ?_, behind⟩
      rw [namedSegment_of_name ahead.isName.nonempty body (opens ▸ visible), opens,
        afterName_of_brackets brackets, bind_of_some read]
      rfl
  | @enclosed blank run _ trivial isRun =>
      obtain ⟨first, inner, found, opens, _⟩ := token_bracketRun isRun rfl trivial rest
      have unnamed := namedSegment_of_misfit found (by rw [opens]; rfl)
      have read : bracketRun .openBracket .closeBracket (blank ++ (run ++ rest)) = ⟨some run, rest, false⟩ :=
        (bracketRun_iff (by decide) rfl).mpr ⟨isRun, blank, trivial, rfl⟩
      exact ⟨rest, segment_of_attribute unnamed (bind_of_some read _), behind⟩
  | @symbol blank _ mark trivial sign =>
      obtain ⟨visible, misfit, noBracket⟩ := signs_apart sign
      have found : token (blank ++ mark :: rest) = ⟨some mark, rest, false⟩ :=
        (token_blank trivial _).trans (token_visible visible rest)
      have eaten : eatIf Production.isSymbol (blank ++ mark :: rest) = ⟨some mark, rest, false⟩ := by
        rw [eatIf_of_some found, if_pos (isSymbol_iff.mpr sign)]
      exact ⟨rest, segment_of_symbol (namedSegment_of_misfit found misfit)
        (attributeSegment_of_misfit found noBracket) (bind_of_some eaten _), behind⟩

theorem nameAhead_first (ahead : NameAhead tokens name rest) :
    ∃ first inner others, name = first :: inner ∧ token tokens = ⟨some first, others, false⟩ ∧
      first.kind ∈ nameKinds := by
  obtain ⟨⟨nonempty, kinds, _⟩, ⟨front, rfl, rfl⟩, _⟩ := ahead
  obtain ⟨first, inner, shown⟩ := List.exists_cons_of_ne_nil nonempty
  have split := token_split (front ++ rest)
  rw [Token.significant_append, shown] at split
  rcases token_ended_or_found (front ++ rest) with ended | ⟨found, others, read⟩
  · rw [ended] at split
    simp at split
  · rw [read] at split
    obtain ⟨rfl, _⟩ := List.cons.inj split.2
    exact ⟨first, inner, others, shown, read, kinds first (by rw [shown]; exact List.mem_cons_self)⟩

/-- The first token of a group is the first one that is seen. -/
theorem group_first (group : Group tokens phrase rest) :
    ∃ first inner others, phrase.tokens = first :: inner ∧ token tokens = ⟨some first, others, false⟩ ∧
      first.kind ∈ nameKinds ++ .openBracket :: signs := by
  cases group with
  | plain ahead _ =>
      obtain ⟨first, inner, others, whole, found, kind⟩ := nameAhead_first ahead
      exact ⟨first, inner, others, whole, found, List.mem_append_left _ kind⟩
  | @bracketed _ _ run _ _ _ _ ahead _ _ =>
      obtain ⟨first, inner, others, rfl, found, kind⟩ := nameAhead_first ahead
      exact ⟨first, inner ++ run, others, rfl, found, List.mem_append_left _ kind⟩
  | enclosed trivial isRun =>
      obtain ⟨first, inner, rfl, opens⟩ := isRun.opens
      refine ⟨first, inner, inner ++ rest, rfl, ?_, by rw [opens]; decide⟩
      rw [token_blank trivial, List.cons_append, token_visible (by rw [opens]; rfl)]
  | @symbol blank _ mark trivial sign =>
      obtain ⟨visible, _⟩ := signs_apart sign
      refine ⟨mark, [], rest, rfl, (token_blank trivial _).trans (token_visible visible rest), ?_⟩
      exact List.mem_append_right _ (List.mem_cons_of_mem _ sign)

theorem group_begins (group : Group tokens phrase rest) :
    ∃ first others, token tokens = ⟨some first, others, false⟩ ∧ first.kind ≠ .semicolon := by
  obtain ⟨first, _, others, _, found, kind⟩ := group_first group
  refine ⟨first, others, found, fun semicolon => ?_⟩
  rw [semicolon] at kind
  revert kind
  decide

theorem groups_begin (groups : Groups tokens phrases after) :
    ∃ first others, token tokens = ⟨some first, others, false⟩ ∧ first.kind ≠ .semicolon := by
  cases groups with
  | last group _ _ => exact group_begins group
  | more group _ => exact group_begins group

theorem nameAhead_blank (trivial : Token.significant blank = []) (ahead : NameAhead tokens name rest) :
    NameAhead (blank ++ tokens) name rest := by
  obtain ⟨isName, ⟨front, shown, rfl⟩, maximal⟩ := ahead
  refine ⟨isName, ⟨blank ++ front, ?_, (List.append_assoc ..).symm⟩, maximal⟩
  rw [Token.significant_append, trivial, shown, List.nil_append]

theorem group_blank (trivial : Token.significant blank = []) (group : Group tokens phrase rest) :
    Group (blank ++ tokens) phrase rest := by
  have joined {more : List Token} (trivialAlso : Token.significant more = []) :
      Token.significant (blank ++ more) = [] := by
    rw [Token.significant_append, trivial, trivialAlso, List.nil_append]
  cases group with
  | plain ahead alone => exact .plain (nameAhead_blank trivial ahead) alone
  | bracketed ahead brackets isRun => exact .bracketed (nameAhead_blank trivial ahead) brackets isRun
  | enclosed trivialAlso isRun =>
      rw [← List.append_assoc]
      exact .enclosed (joined trivialAlso) isRun
  | symbol trivialAlso sign =>
      rw [← List.append_assoc]
      exact .symbol (joined trivialAlso) sign

theorem groups_blank (trivial : Token.significant blank = []) (groups : Groups tokens phrases after) :
    Groups (blank ++ tokens) phrases after := by
  cases groups with
  | last group more semicolon => exact .last (group_blank trivial group) more semicolon
  | more group later => exact .more (group_blank trivial group) later

/-- What the segments up to a semicolon are found to be are the groups of the tokens. -/
theorem groups_of_segments {reachedEnd : Bool}
    (found : segmentsThroughSemicolon tokens = ⟨some phrases, after, reachedEnd⟩) :
    Groups tokens phrases after := by
  have groups := loop_induction segmentsStep_falls
    (motive := fun read tokens outcome => ∀ phrases, outcome.result = some phrases →
      ∃ rest, phrases = read.reverse ++ rest ∧ Groups tokens rest outcome.rest) ?_ ?_ ?_ [] tokens
  · rw [segmentsThroughSemicolon] at found
    rw [found] at groups
    obtain ⟨rest, rfl, groups⟩ := groups phrases rfl
    exact groups
  · intro read tokens rest reachedEnd stepped phrases found
    simp at found
  · intro read tokens result rest reachedEnd stepped phrases found
    obtain rfl : result = phrases := Option.some.inj found
    cases segmentsStep_took stepped with
    | @last phrase between rest mark word semicolon =>
        obtain ⟨behind, kind, _⟩ := eatIf_found semicolon
        have group := group_of_segment word behind
        obtain ⟨blank, trivial, rfl⟩ := token_found_split behind
        exact ⟨[phrase], by simp, .last group trivial (of_decide_eq_true kind)⟩
  · intro read tokens next rest reachedEnd later stepped ih phrases found
    obtain ⟨others, rfl, groups⟩ := ih phrases found
    cases segmentsStep_took stepped with
    | @more phrase between rest early late word noSemicolon =>
        have remains : rest ≠ [] := by
          rintro rfl
          obtain ⟨_, _, begins, _⟩ := groups_begin groups
          simp [token] at begins
        obtain ⟨mark, left, behind, _, rfl⟩ := eatIf_refused noSemicolon remains
        have group := group_of_segment word behind
        obtain ⟨blank, trivial, rfl⟩ := token_found_split behind
        exact ⟨phrase :: others, by simp, .more group (groups_blank trivial groups)⟩

theorem segments_of_groups (groups : Groups tokens phrases after) :
    segmentsThroughSemicolon tokens = ⟨some phrases, after, false⟩ := by
  suffices rounds : ∀ read, loop segmentsStep read tokens =
      ⟨some (read.reverse ++ phrases), after, false⟩ from rounds []
  induction groups with
  | @last tokens blank after phrase mark group trivial semicolon =>
      intro read
      have behind := (token_blank trivial _).trans
        (token_visible (show mark.kind.isTrivia = false by rw [semicolon]; rfl) after)
      obtain ⟨left, word, next⟩ := segment_of_group group behind
      rw [loop_of_done (segmentsStep_of_last read word next semicolon), List.reverse_cons]
  | @more tokens rest after phrase phrases group later ih =>
      intro read
      obtain ⟨mark, others, behind, noSemicolon⟩ := groups_begin later
      obtain ⟨left, word, next⟩ := segment_of_group group behind
      obtain ⟨blank, trivial, rfl⟩ := token_found_split behind
      have rounds := ih (phrase :: read)
      -- The loop goes on behind the white space and comments that stand before the next group.
      have same : loop segmentsStep (phrase :: read) (mark :: others) =
          loop segmentsStep (phrase :: read) (blank ++ mark :: others) := by
        rcases PassesTrivia.loop segmentsStep_falls (fun read => segment_passes.bind _)
            (phrase :: read) blank (mark :: others) trivial with same | ⟨failed, _⟩
        · exact same.symm
        · simp [rounds] at failed
      rw [loop_of_more segmentsStep_falls (segmentsStep_of_more read word next noSemicolon), same,
        rounds]
      simp

/-- The declaration that groups make. -/
theorem declaration_of_groups (groups : Groups tokens phrases after) :
    declaration tokens =
      ⟨some ⟨(chooseDeclarator phrases).1, phrases, (chooseDeclarator phrases).2⟩, after, false⟩ :=
  attempt_of_some (bind_of_some (segments_of_groups groups) _)

theorem groups_of_declaration {seen : Phrase.Declaration}
    (found : (declaration tokens).result = some seen) :
    ∃ after, Groups tokens seen.phrases after := by
  unfold declaration at found
  rcases segments : segmentsThroughSemicolon tokens with ⟨_ | phrases, left, ended⟩
  · rw [attempt_of_none (bind_of_none segments _)] at found
    simp at found
  · rw [attempt_of_some (bind_of_some segments _)] at found
    obtain rfl := Option.some.inj found
    exact ⟨left, groups_of_segments segments⟩

theorem groups_unique {others : List Phrase} {later : List Token}
    (groups : Groups tokens phrases after) (again : Groups tokens others later) :
    others = phrases ∧ later = after := by
  have same := (segments_of_groups again).symm.trans (segments_of_groups groups)
  simpa using same

end Groups

end Reading

/-- A declaration is read exactly where groups and a semicolon stand. There is one way to see the groups,
the segments are the groups in writing, and the declarator is a name with a parenthesis among them,
if there is any. -/
theorem Production.declaration_groups (parser : Parser) :
    ((declaration parser).1.isSome ↔
      ∃ phrases after, Grammar.Groups (Token.lex parser.remaining) phrases after) ∧
    ∀ phrases after, Grammar.Groups (Token.lex parser.remaining) phrases after →
      (∀ others later, Grammar.Groups (Token.lex parser.remaining) others later →
        others = phrases ∧ later = after) ∧
      ∃ found left, declaration parser = (some found, left) ∧ Token.lex left.remaining = after ∧
        found.segments = phrases.map Phrase.segment ∧
        (found.declaratorIndex = none ↔ ∀ phrase ∈ phrases, phrase.kind ≠ .paren) ∧
        (∀ index, found.declaratorIndex = some index →
          ∃ phrase, phrases[index]? = some phrase ∧ phrase.kind = .paren) ∧
        (found.parameters.isSome → found.declaratorIndex.isSome) := by
  have agrees := Reading.declaration_reads parser
  constructor
  · constructor
    · intro found
      obtain ⟨declaration, read⟩ := Option.isSome_iff_exists.mp found
      obtain ⟨seen, result, _⟩ := Reading.declaration_chosen (Prod.ext read rfl)
      exact ⟨seen.phrases, Reading.groups_of_declaration result⟩
    · rintro ⟨phrases, after, groups⟩
      rw [Reading.declaration_of_groups groups] at agrees
      obtain ⟨found, left, run, _⟩ := agrees.of_some
      rw [run]
      rfl
  · intro phrases after groups
    rw [Reading.declaration_of_groups groups] at agrees
    obtain ⟨found, left, run, spells, remains⟩ := agrees.of_some
    refine ⟨fun _ _ => Reading.groups_unique groups, found, left, run, remains, ?_⟩
    rw [spells.eq_written]
    refine ⟨rfl, Reading.chooseDeclarator_none_iff, fun index => Reading.chooseDeclarator_index, ?_⟩
    simpa [Phrase.Declaration.written] using Reading.chooseDeclarator_parameters

theorem Production.declaration_groups_destructor :
    (∃ phrases after, Grammar.Groups
        (Token.lex "[[a]] ns :: /* ; */ v<A<(>, b> & ~f(int a = g(\"; )\")) const ; x;".toList)
        phrases after ∧
      phrases.map Phrase.segment = [⟨.attribute, "[[a]]".toList⟩, ⟨.angle, "ns::v<A<(>, b>".toList⟩,
        ⟨.symbol, "&".toList⟩, ⟨.paren, "~f(int a = g(\"; )\"))".toList⟩, ⟨.plain, "const".toList⟩] ∧
      Token.spell after = " x;".toList) ∧
    ¬ ∃ phrases after, Grammar.Groups (Token.lex "void f(int a; int b[3];".toList) phrases after := by
  constructor
  · generalize text : "[[a]] ns :: /* ; */ v<A<(>, b> & ~f(int a = g(\"; )\")) const ; x;".toList = whole
    have seen : (declaration (.ofText whole [])).1.map (·.segments) =
        some [⟨.attribute, "[[a]]".toList⟩, ⟨.angle, "ns::v<A<(>, b>".toList⟩, ⟨.symbol, "&".toList⟩,
          ⟨.paren, "~f(int a = g(\"; )\"))".toList⟩, ⟨.plain, "const".toList⟩] := by
      subst text
      decide +kernel
    have left : (declaration (.ofText whole [])).2.remaining = " x;".toList := by
      subst text
      decide +kernel
    obtain ⟨accepted, grouped⟩ := declaration_groups (.ofText whole [])
    have isSome : (declaration (.ofText whole [])).1.isSome = true := by
      rw [← Option.isSome_map, seen]
      rfl
    obtain ⟨phrases, after, groups⟩ := accepted.mp isSome
    obtain ⟨_, found, rest, run, remains, segments, _⟩ := grouped phrases after groups
    rw [run] at seen left
    refine ⟨phrases, after, groups, ?_, ?_⟩
    · exact segments.symm.trans (Option.some.inj seen)
    · rw [← remains, Token.spell_lex]
      exact left
  · intro groups
    have accepted := (declaration_groups (.ofText "void f(int a; int b[3];".toList [])).1.mpr groups
    have refused : (declaration (.ofText "void f(int a; int b[3];".toList [])).1.isSome = false := by
      decide +kernel
    rw [refused] at accepted
    contradiction

end OutOfLine
