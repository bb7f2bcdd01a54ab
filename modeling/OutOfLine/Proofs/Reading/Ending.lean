import OutOfLine.Proofs.Reading.Spending

/-!
How readings depend on the two ends of their tokens. White space and comments at the front are passed
over. A segment that comes to the end of the tokens has taken all of them, so a declaration, which
ends with a semicolon, never comes to their end, and nothing behind it changes it.
-/

namespace OutOfLine.Reading

variable {α β σ : Type}

theorem token_ended_or_found (tokens : List Token) :
    token tokens = ⟨none, [], true⟩ ∨ ∃ first rest, token tokens = ⟨some first, rest, false⟩ := by
  induction tokens with
  | nil => exact .inl rfl
  | cons first tokens ih =>
      rw [token]
      cases first.kind.isTrivia with
      | true => exact ih
      | false => exact .inr ⟨first, tokens, rfl⟩

section FirstToken

variable {tokens rest : List Token} {first : Token}

theorem namedSegment_of_misfit (read : token tokens = ⟨some first, rest, false⟩)
    (misfit : Production.continuesName none first.kind = false) :
    namedSegment tokens = ⟨none, first :: rest, false⟩ := by
  have empty : nameBody none tokens = ⟨some [], first :: rest, false⟩ := by
    rw [nameBody_eq, read]
    simp [misfit]
  have unnamed : qualifiedName tokens = ⟨none, first :: rest, false⟩ := by
    rw [qualifiedName, bind_of_some empty]
    rfl
  exact bind_of_none unnamed _

theorem attributeSegment_of_misfit (read : token tokens = ⟨some first, rest, false⟩)
    (misfit : first.kind ≠ .openBracket) : attributeSegment tokens = ⟨none, rest, false⟩ := by
  have unopened : bracketRun .openBracket .closeBracket tokens = ⟨none, rest, false⟩ := by
    rw [bracketRun, bind_of_some read, if_neg misfit]
    rfl
  exact bind_of_none unopened _

theorem symbolSegment_of_misfit (read : token tokens = ⟨some first, rest, false⟩)
    (misfit : Production.isSymbol first = false) :
    symbolSegment tokens = ⟨none, first :: rest, false⟩ := by
  have refused : eatIf Production.isSymbol tokens = ⟨none, first :: rest, false⟩ := by
    rw [eatIf_of_some read, misfit]
    rfl
  exact bind_of_none refused _

end FirstToken

theorem segment_of_named {tokens rest : List Token} {phrase : Phrase} {reachedEnd : Bool}
    (named : namedSegment tokens = ⟨some phrase, rest, reachedEnd⟩) :
    segment tokens = ⟨some phrase, rest, reachedEnd⟩ :=
  orElse_of_some (attempt_of_some named) _

/-- Without a name at the front, the other two kinds of segment are tried. -/
theorem segment_of_unnamed {tokens rest : List Token}
    (unnamed : namedSegment tokens = ⟨none, rest, false⟩) :
    segment tokens = (attempt attributeSegment).orElse (attempt symbolSegment) tokens := by
  rw [segment, orElse_of_none (attempt_of_none unnamed)]
  simp

theorem segment_of_attribute {tokens rest left : List Token} {phrase : Phrase} {reachedEnd : Bool}
    (unnamed : namedSegment tokens = ⟨none, left, false⟩)
    (bracketed : attributeSegment tokens = ⟨some phrase, rest, reachedEnd⟩) :
    segment tokens = ⟨some phrase, rest, reachedEnd⟩ := by
  rw [segment_of_unnamed unnamed, orElse_of_some (attempt_of_some bracketed)]

theorem segment_of_symbol {tokens left other rest : List Token} {phrase : Phrase} {reachedEnd : Bool}
    (unnamed : namedSegment tokens = ⟨none, left, false⟩)
    (unbracketed : attributeSegment tokens = ⟨none, other, false⟩)
    (symbol : symbolSegment tokens = ⟨some phrase, rest, reachedEnd⟩) :
    segment tokens = ⟨some phrase, rest, reachedEnd⟩ := by
  rw [segment_of_unnamed unnamed, orElse_of_none (attempt_of_none unbracketed),
    attempt_of_some symbol]
  simp

theorem segment_of_ended {tokens : List Token} (ended : token tokens = ⟨none, [], true⟩) :
    (segment tokens).result = none := by
  have noName : namedSegment tokens = ⟨none, [], true⟩ := by
    have empty : nameBody none tokens = ⟨some [], [], true⟩ := by rw [nameBody_eq, ended]
    have unnamed : qualifiedName tokens = ⟨none, [], true⟩ := by
      rw [qualifiedName, bind_of_some empty]
      rfl
    exact bind_of_none unnamed _
  have noRun : attributeSegment tokens = ⟨none, [], true⟩ := by
    have unopened : bracketRun .openBracket .closeBracket tokens = ⟨none, [], true⟩ :=
      bind_of_none ended _
    exact bind_of_none unopened _
  have noSymbol : symbolSegment tokens = ⟨none, [], true⟩ := bind_of_none (eatIf_of_none ended _) _
  rw [segment, orElse_of_none (attempt_of_none noName), orElse_of_none (attempt_of_none noRun),
    attempt_of_none noSymbol]

/-- The ways to a segment. What was tried before did not come to the end of the tokens. -/
inductive SegmentFound (tokens : List Token) : Outcome Phrase → Prop where
  | named {phrase : Phrase} {rest : List Token} {reachedEnd : Bool}
      (named : namedSegment tokens = ⟨some phrase, rest, reachedEnd⟩) :
      SegmentFound tokens ⟨some phrase, rest, reachedEnd⟩
  | bracketed {phrase : Phrase} {left rest : List Token} {reachedEnd : Bool}
      (unnamed : namedSegment tokens = ⟨none, left, false⟩)
      (bracketed : attributeSegment tokens = ⟨some phrase, rest, reachedEnd⟩) :
      SegmentFound tokens ⟨some phrase, rest, reachedEnd⟩
  | symbol {phrase : Phrase} {left other rest : List Token} {reachedEnd : Bool}
      (unnamed : namedSegment tokens = ⟨none, left, false⟩)
      (unbracketed : attributeSegment tokens = ⟨none, other, false⟩)
      (symbol : symbolSegment tokens = ⟨some phrase, rest, reachedEnd⟩) :
      SegmentFound tokens ⟨some phrase, rest, reachedEnd⟩

/-- The first token decides which kind of segment there can be. -/
theorem segment_found {tokens : List Token} {phrase : Phrase}
    (found : (segment tokens).result = some phrase) : SegmentFound tokens (segment tokens) := by
  rcases named : namedSegment tokens with ⟨_ | word, left, ended⟩
  · rcases token_ended_or_found tokens with empty | ⟨first, rest, read⟩
    · simp [segment_of_ended empty] at found
    cases continues : Production.continuesName none first.kind with
    | true =>
        -- A name that fails is the only way, since its first token begins nothing else.
        have notBracket : first.kind ≠ .openBracket := by
          intro bracket
          simp [bracket, Production.continuesName] at continues
        have notSymbol : Production.isSymbol first = false := by
          cases kind : first.kind <;> simp_all [Production.continuesName, Production.isSymbol]
        rw [segment, orElse_of_none (attempt_of_none named),
          orElse_of_none (attempt_of_none (attributeSegment_of_misfit read notBracket)),
          attempt_of_none (symbolSegment_of_misfit read notSymbol)] at found
        simp at found
    | false =>
        have unnamed := namedSegment_of_misfit read continues
        by_cases bracket : first.kind = .openBracket
        · have notSymbol : Production.isSymbol first = false := by
            simp [Production.isSymbol, bracket]
          rcases bracketed : attributeSegment tokens with ⟨_ | run, other, reachedEnd⟩
          · rw [segment_of_unnamed unnamed, orElse_of_none (attempt_of_none bracketed),
              attempt_of_none (symbolSegment_of_misfit read notSymbol)] at found
            simp at found
          · rw [segment_of_attribute unnamed bracketed]
            exact .bracketed unnamed bracketed
        · have unbracketed := attributeSegment_of_misfit read bracket
          rcases tried : symbolSegment tokens with ⟨_ | symbol, other, reachedEnd⟩
          · rw [segment_of_unnamed unnamed, orElse_of_none (attempt_of_none unbracketed),
              attempt_of_none tried] at found
            simp at found
          · rw [segment_of_symbol unnamed unbracketed tried]
            exact .symbol unnamed unbracketed tried
  · rw [segment_of_named named]
    exact .named named

section AtEnd

variable {tokens rest : List Token} {first : Token} {phrase : Phrase}

theorem nameBody_ended {last : Option Token.Kind} {result : Option (List Token)}
    (read : nameBody last tokens = ⟨result, rest, true⟩) : rest = [] := by
  induction tokens generalizing last result with
  | nil =>
      simp only [nameBody, Outcome.mk.injEq] at read
      exact read.2.1.symm
  | cons first tokens ih =>
      unfold nameBody at read
      by_cases trivia : first.kind.isTrivia = true
      · rw [if_pos trivia] at read
        exact ih read
      rw [if_neg trivia] at read
      split at read
      · rcases body : nameBody (some first.kind) tokens with ⟨later, left, reachedEnd⟩
        simp only [body, Outcome.map, Outcome.mk.injEq] at read
        obtain ⟨_, rfl, rfl⟩ := read
        exact ih body
      · simp at read

/-- Where a name does not end with the tokens, a token stands behind it. -/
theorem nameBody_found {last : Option Token.Kind} {result : Option (List Token)}
    (read : nameBody last tokens = ⟨result, rest, false⟩) :
    ∃ first others, rest = first :: others ∧ first.kind.isTrivia = false := by
  induction tokens generalizing last result with
  | nil => simp [nameBody] at read
  | cons first tokens ih =>
      unfold nameBody at read
      by_cases trivia : first.kind.isTrivia = true
      · rw [if_pos trivia] at read
        exact ih read
      rw [if_neg trivia] at read
      split at read
      · rcases body : nameBody (some first.kind) tokens with ⟨later, left, reachedEnd⟩
        simp only [body, Outcome.map, Outcome.mk.injEq] at read
        obtain ⟨_, rfl, rfl⟩ := read
        exact ih body
      · simp only [Outcome.mk.injEq] at read
        exact ⟨first, tokens, read.2.1.symm, by simpa using trivia⟩

theorem token_visible (visible : first.kind.isTrivia = false) (tokens : List Token) :
    token (first :: tokens) = ⟨some first, tokens, false⟩ := by
  rw [token, visible]
  rfl

/-- Tokens that make a name after a token of the kind `last`, whatever their texts. -/
def Chained : Option Token.Kind → List Token → Prop
  | _, [] => True
  | last, first :: name => Production.continuesName last first.kind ∧ Chained (some first.kind) name

/-- The kind of the last token, or of the one before all of them. -/
def lastKind (last : Option Token.Kind) (name : List Token) : Option Token.Kind :=
  name.foldl (fun _ token => some token.kind) last

theorem IsName.chained {last : Option Token.Kind} {name : List Token} (isName : IsName last name) :
    Chained last name := by
  induction name generalizing last with
  | nil => trivial
  | cons first name ih => exact ⟨isName.2.1, ih isName.2.2⟩

/-- A name is read up to the first token that does not go on with it. -/
theorem nameBody_of_chained {last : Option Token.Kind} {name front : List Token}
    (chained : Chained last name) (shown : Token.significant front = name)
    (stops : ∀ next ∈ (Token.significant rest).head?,
      Production.continuesName (lastKind last name) next.kind = false) :
    nameBody last (front ++ rest) = ⟨some name, (peek rest).rest, (peek rest).reachedEnd⟩ := by
  induction front generalizing last name with
  | nil =>
      obtain rfl : name = [] := shown.symm
      rw [List.nil_append, nameBody_eq]
      rcases token_ended_or_found rest with ended | ⟨first, others, read⟩
      · rw [peek_of_none ended, ended]
      · have split := token_split rest
        rw [read] at split
        have misfit := stops first (by rw [split.2]; rfl)
        rw [peek_of_some read, read]
        exact if_neg (by simpa [lastKind] using misfit)
  | cons first front ih =>
      rw [List.cons_append, nameBody]
      cases trivia : first.kind.isTrivia with
      | true =>
          rw [Token.significant_cons_trivia trivia] at shown
          exact ih chained shown stops
      | false =>
          rw [Token.significant_cons trivia] at shown
          subst shown
          rw [chained.1, ih chained.2 rfl stops]
          rfl

theorem qualifiedName_of_name {name : List Token} {mark : Token} (isName : IsName none name)
    (nonempty : name ≠ []) (visible : mark.kind.isTrivia = false)
    (stops : ∀ last, Production.continuesName last mark.kind = false) (more : List Token) :
    qualifiedName (name ++ mark :: more) = ⟨some name, mark :: more, false⟩ := by
  have ends : ∀ next ∈ (Token.significant (mark :: more)).head?,
      Production.continuesName (lastKind none name) next.kind = false := by
    intro next first
    rw [Token.significant_cons visible] at first
    exact Option.some.inj first ▸ stops (lastKind none name)
  have body := nameBody_of_chained isName.chained isName.significant_eq ends
  rw [peek_of_some (token_visible visible more)] at body
  rw [qualifiedName, bind_of_some body]
  simp [nonempty, Pure.pure]

theorem eatIf_found {accepts : Token → Bool} {found : Token} {reachedEnd : Bool}
    (eaten : eatIf accepts tokens = ⟨some found, rest, reachedEnd⟩) :
    token tokens = ⟨some found, rest, false⟩ ∧ accepts found = true ∧ reachedEnd = false := by
  rcases token_ended_or_found tokens with ended | ⟨first, others, read⟩
  · rw [eatIf_of_none ended] at eaten
    simp at eaten
  · rw [eatIf_of_some read] at eaten
    split at eaten <;> simp_all

theorem eatIf_decided {accepts : Token → Bool} {found : Token} {reachedEnd : Bool}
    (eaten : eatIf accepts tokens = ⟨some found, rest, reachedEnd⟩) :
    reachedEnd = false :=
  (eatIf_found eaten).2.2

/-- A token that is refused is the first one of what is left. -/
theorem eatIf_refused {accepts : Token → Bool} {reachedEnd : Bool}
    (eaten : eatIf accepts tokens = ⟨none, rest, reachedEnd⟩) (remains : rest ≠ []) :
    ∃ first others, token tokens = ⟨some first, others, false⟩ ∧ accepts first = false ∧
      rest = first :: others := by
  rcases token_ended_or_found tokens with ended | ⟨first, others, read⟩
  · rw [eatIf_of_none ended, Outcome.mk.injEq] at eaten
    exact absurd eaten.2.1.symm remains
  · rw [eatIf_of_some read] at eaten
    split at eaten
    · simp at eaten
    · rename_i refused
      simp only [Outcome.mk.injEq, true_and] at eaten
      exact ⟨first, others, read, by simpa using refused, eaten.1.symm⟩

theorem eatIf_ended {accepts : Token → Bool} {result : Option Token}
    (eaten : eatIf accepts tokens = ⟨result, rest, true⟩) : rest = [] := by
  rcases token_ended_or_found tokens with ended | ⟨first, others, read⟩
  · rw [eatIf_of_none ended, Outcome.mk.injEq] at eaten
    exact eaten.2.1.symm
  · rw [eatIf_of_some read] at eaten
    split at eaten <;> simp at eaten

theorem bracketBody_decided {opener closer : Token.Kind} {depth : Nat} {run : List Token}
    (read : (bracketBody opener closer depth tokens).result = some run) :
    (bracketBody opener closer depth tokens).reachedEnd = false := by
  induction tokens generalizing depth run with
  | nil => simp [bracketBody] at read
  | cons first tokens ih =>
      unfold bracketBody at read ⊢
      cases step : depthAfter? opener closer depth first.kind with
      | none => rfl
      | some inner =>
          simp only [step, Outcome.map] at read ⊢
          obtain ⟨later, result, _⟩ := Option.map_eq_some_iff.mp read
          exact ih result

theorem bracketRun_decided {opener closer : Token.Kind} {run : List Token} {reachedEnd : Bool}
    (read : bracketRun opener closer tokens = ⟨some run, rest, reachedEnd⟩) : reachedEnd = false := by
  rcases token_ended_or_found tokens with ended | ⟨first, others, found⟩
  · rw [bracketRun, bind_of_none ended] at read
    simp at read
  · rw [bracketRun, bind_of_some found] at read
    split at read
    · rcases body : bracketBody opener closer 0 others with ⟨_ | inner, left, ended⟩
      · rw [bind_of_none body] at read
        simp at read
      · have decided : (bracketBody opener closer 0 others).reachedEnd = false :=
          bracketBody_decided (by rw [body])
        rw [body] at decided
        rw [bind_of_some body] at read
        simp_all [Pure.pure]
    · simp [fail] at read

/-- In front of an opening bracket, a name goes on with a bracket run. -/
theorem afterName_bracketed {opener : Token.Kind} {form : Segment.Kind}
    (brackets : Production.bracketKind? opener = some form) :
    ∃ closer, ∀ name, afterName name opener =
      (bracketRun opener closer >>= fun run => return ⟨form, name ++ run⟩) := by
  obtain ⟨closer, closing⟩ : ∃ closer, opener.closing? = some closer := by
    cases opener <;> simp_all [Production.bracketKind?, Token.Kind.closing?]
  exact ⟨closer, fun name => by simp only [afterName, brackets, closing]⟩

theorem afterName_decided {name : List Token} {opener : Token.Kind}
    (read : (afterName name opener tokens).result = some phrase) :
    (afterName name opener tokens).reachedEnd = false := by
  cases brackets : Production.bracketKind? opener with
  | none =>
      simp only [afterName, brackets]
      rfl
  | some form =>
      obtain ⟨closer, same⟩ := afterName_bracketed brackets
      rw [same] at read ⊢
      rcases run : bracketRun opener closer tokens with ⟨_ | run, left, ended⟩
      · simp [bind_of_none run] at read
      · rw [bind_of_some run, bracketRun_decided run]
        rfl

/-- A segment that comes to the end of the tokens is a name that they end with. -/
structure EndsWithName (tokens : List Token) (phrase : Phrase) (rest : List Token) : Prop where
  body : nameBody none tokens = ⟨some phrase.tokens, [], true⟩
  plain : phrase.kind = .plain
  nonempty : phrase.tokens ≠ []
  nothing : rest = []

/-- A segment that begins with a name has read one. -/
theorem namedSegment_name (found : (namedSegment tokens).result = some phrase) :
    ∃ name left ended, name ≠ [] ∧ nameBody none tokens = ⟨some name, left, ended⟩ ∧
      qualifiedName tokens = ⟨some name, left, ended⟩ := by
  rcases body : nameBody none tokens with ⟨_ | name, left, ended⟩
  · have unnamed : qualifiedName tokens = ⟨none, left, ended⟩ := bind_of_none body _
    rw [namedSegment, bind_of_none unnamed] at found
    simp at found
  by_cases nonempty : name = []
  · have unnamed : qualifiedName tokens = ⟨none, left, ended⟩ := by
      rw [qualifiedName, bind_of_some body]
      simp [nonempty, fail]
    rw [namedSegment, bind_of_none unnamed] at found
    simp at found
  have named : qualifiedName tokens = ⟨some name, left, ended⟩ := by
    rw [qualifiedName, bind_of_some body]
    simp [nonempty, Pure.pure]
  exact ⟨name, left, ended, nonempty, rfl, named⟩

theorem namedSegment_ended (read : namedSegment tokens = ⟨some phrase, rest, true⟩) :
    EndsWithName tokens phrase rest := by
  obtain ⟨name, left, ended, nonempty, body, named⟩ := namedSegment_name (by rw [read])
  rw [namedSegment, bind_of_some named] at read
  cases ended with
  | true =>
      obtain rfl := nameBody_ended body
      obtain ⟨rfl, rfl⟩ : phrase = ⟨.plain, name⟩ ∧ rest = [] := by
        simpa [Bind.bind, peek, token, Pure.pure] using read.symm
      exact ⟨body, rfl, nonempty, rfl⟩
  | false =>
      -- What follows the name is there, and a bracket run is complete.
      obtain ⟨first, others, rfl, visible⟩ := nameBody_found body
      rw [bind_of_some (peek_of_some (token_visible visible others))] at read
      simp only [Bool.false_or, Outcome.mk.injEq] at read
      obtain ⟨found, _, late⟩ := read
      have decided := afterName_decided found
      rw [late] at decided
      contradiction

theorem segment_ended (read : segment tokens = ⟨some phrase, rest, true⟩) :
    EndsWithName tokens phrase rest := by
  have result : (segment tokens).result = some phrase := by rw [read]
  have way := segment_found result
  rw [read] at way
  cases way with
  | named named => exact namedSegment_ended named
  | bracketed _ bracketed =>
      rcases run : bracketRun .openBracket .closeBracket tokens with ⟨_ | run, left, ended⟩
      · rw [attributeSegment, bind_of_none run] at bracketed
        simp at bracketed
      · rw [attributeSegment, bind_of_some run, bracketRun_decided run] at bracketed
        simp [Pure.pure] at bracketed
  | symbol _ _ symbol =>
      rcases eaten : eatIf Production.isSymbol tokens with ⟨_ | sign, left, ended⟩
      · rw [symbolSegment, bind_of_none eaten] at symbol
        simp at symbol
      · rw [symbolSegment, bind_of_some eaten, eatIf_decided eaten] at symbol
        simp [Pure.pure] at symbol

end AtEnd

theorem loop_steady {step : σ → Reading (σ ⊕ α)} (falls : Falls step)
    (steady : ∀ state, Steady (step state)) (state : σ) : Steady (loop step state) := by
  constructor
  · refine fun tokens => loop_induction falls (motive := fun _ tokens outcome =>
      outcome.rest <:+ tokens) ?_ ?_ ?_ state tokens
    · intro state tokens rest reachedEnd read
      have suffix := (steady state).suffix tokens
      rwa [read] at suffix
    · intro state tokens result rest reachedEnd read
      have suffix := (steady state).suffix tokens
      rwa [read] at suffix
    · intro state tokens next rest reachedEnd later read ih
      have suffix := (steady state).suffix tokens
      rw [read] at suffix
      exact ih.trans suffix
  · refine fun tokens more => loop_induction falls (motive := fun state tokens outcome =>
      outcome.reachedEnd = false →
        loop step state (tokens ++ more) = ⟨outcome.result, outcome.rest ++ more, false⟩)
      ?_ ?_ ?_ state tokens
    · intro state tokens rest reachedEnd read ended
      have further := (steady state).append tokens more
      rw [read] at further
      exact loop_of_none (further ended)
    · intro state tokens result rest reachedEnd read ended
      have further := (steady state).append tokens more
      rw [read] at further
      exact loop_of_done (further ended)
    · intro state tokens next rest reachedEnd later read ih ended
      obtain ⟨early, late⟩ := Bool.or_eq_false_iff.mp ended
      have further := (steady state).append tokens more
      rw [read] at further
      rw [loop_of_more falls (further early), ih late]
      rfl

/-- A loop depends on its tokens as its first step does. -/
theorem loop_congr {step : σ → Reading (σ ⊕ α)} (falls : Falls step) {state : σ}
    {left right : List Token} (same : step state left = step state right) :
    loop step state left = loop step state right := by
  rcases read : step state right with ⟨_ | next | result, rest, reachedEnd⟩ <;> rw [read] at same
  · rw [loop_of_none same, loop_of_none read]
  · rw [loop_of_more falls same, loop_of_more falls read]
  · rw [loop_of_done same, loop_of_done read]

theorem segmentsStep_steady (read : List Phrase) : Steady (segmentsStep read) := by
  refine segment_steady.bind fun phrase => (eat_steady .semicolon).maybe.bind fun mark => ?_
  cases mark with
  | none => exact .pure _
  | some _ => exact .pure _

theorem segmentsThroughSemicolon_steady : Steady segmentsThroughSemicolon :=
  loop_steady segmentsStep_falls segmentsStep_steady []

theorem declaration_steady : Steady declaration :=
  (segmentsThroughSemicolon_steady.bind fun _ => .pure _).attempt

/-- What a step through the segments of a declaration found. -/
inductive SegmentsTook (read : List Phrase) (tokens : List Token) :
    List Phrase ⊕ List Phrase → List Token → Bool → Prop where
  | last {phrase : Phrase} {between rest : List Token} {mark : Token}
      (word : segment tokens = ⟨some phrase, between, false⟩)
      (semicolon : eat .semicolon between = ⟨some mark, rest, false⟩) :
      SegmentsTook read tokens (.inr (phrase :: read).reverse) rest false
  | more {phrase : Phrase} {between rest : List Token} {early late : Bool}
      (word : segment tokens = ⟨some phrase, between, early⟩)
      (noSemicolon : eat .semicolon between = ⟨none, rest, late⟩) :
      SegmentsTook read tokens (.inl (phrase :: read)) rest (early || late)

theorem segmentsStep_took {read : List Phrase} {tokens rest : List Token}
    {next : List Phrase ⊕ List Phrase} {reachedEnd : Bool}
    (stepped : segmentsStep read tokens = ⟨some next, rest, reachedEnd⟩) :
    SegmentsTook read tokens next rest reachedEnd := by
  unfold segmentsStep at stepped
  rcases word : segment tokens with ⟨_ | phrase, between, early⟩
  · simp [bind_of_none word] at stepped
  rw [bind_of_some word] at stepped
  rcases semicolon : eat .semicolon between with ⟨_ | mark, left, late⟩
  · have tried : maybe (eat .semicolon) between = ⟨some none, left, late⟩ := by
      simp only [maybe, semicolon]
    rw [bind_of_some tried] at stepped
    simp only [Pure.pure, Bool.or_false, Outcome.mk.injEq, Option.some.injEq] at stepped
    obtain ⟨rfl, rfl, rfl⟩ := stepped
    exact .more word semicolon
  · have tried : maybe (eat .semicolon) between = ⟨some (some mark), left, late⟩ := by
      simp only [maybe, semicolon]
    rw [bind_of_some tried] at stepped
    simp only [Pure.pure, Bool.or_false, Outcome.mk.injEq, Option.some.injEq] at stepped
    obtain ⟨rfl, rfl, rfl⟩ := stepped
    -- The semicolon is a token behind the segment, so neither of the two saw the end.
    obtain rfl := eatIf_decided semicolon
    cases early with
    | true =>
        rw [(segment_ended word).nothing] at semicolon
        simp [eat, eatIf, token] at semicolon
    | false => exact .last word semicolon

theorem segmentsThroughSemicolon_decided {tokens : List Token} {phrases : List Phrase}
    (found : (segmentsThroughSemicolon tokens).result = some phrases) :
    (segmentsThroughSemicolon tokens).reachedEnd = false := by
  -- A step that comes to the end leaves nothing, and from nothing no step goes on.
  have decided := loop_induction segmentsStep_falls
    (motive := fun _ tokens outcome => ∀ phrases, outcome.result = some phrases →
      tokens ≠ [] ∧ outcome.reachedEnd = false) ?_ ?_ ?_ [] tokens
  · exact (decided phrases found).2
  · intro read tokens rest reachedEnd stepped phrases found
    simp at found
  · intro read tokens result rest reachedEnd stepped phrases found
    cases segmentsStep_took stepped with
    | last word semicolon =>
        refine ⟨?_, rfl⟩
        rintro rfl
        simp [show segment [] = ⟨none, [], true⟩ from rfl] at word
  · intro read tokens next rest reachedEnd later stepped ih phrases found
    obtain ⟨remains, undecided⟩ := ih phrases found
    cases segmentsStep_took stepped with
    | @more phrase between rest early late word noSemicolon =>
        have notLate : late = false := by
          cases late with
          | true => exact absurd (eatIf_ended noSemicolon) remains
          | false => rfl
        have notEarly : early = false := by
          cases early with
          | true =>
              rw [(segment_ended word).nothing] at noSemicolon
              simp only [eat, eatIf, token, Outcome.mk.injEq] at noSemicolon
              exact absurd noSemicolon.2.1.symm remains
          | false => rfl
        refine ⟨?_, by rw [notEarly, notLate, undecided]; rfl⟩
        rintro rfl
        simp [show segment [] = ⟨none, [], true⟩ from rfl] at word

theorem declaration_decided {tokens rest : List Token} {found : Phrase.Declaration} {reachedEnd : Bool}
    (read : declaration tokens = ⟨some found, rest, reachedEnd⟩) : reachedEnd = false := by
  unfold declaration at read
  rcases segments : segmentsThroughSemicolon tokens with ⟨_ | phrases, left, ended⟩
  · rw [attempt_of_none (bind_of_none segments _)] at read
    simp at read
  · have result : (segmentsThroughSemicolon tokens).result = some phrases := by rw [segments]
    have decided := segmentsThroughSemicolon_decided result
    rw [attempt_of_some (bind_of_some segments _)] at read
    simp_all [Pure.pure]

/-- Nothing behind a declaration changes it. -/
theorem declaration_append {tokens rest : List Token} {found : Phrase.Declaration} {reachedEnd : Bool}
    (read : declaration tokens = ⟨some found, rest, reachedEnd⟩) (more : List Token) :
    declaration (tokens ++ more) = ⟨some found, rest ++ more, false⟩ := by
  have further := declaration_steady.append tokens more
  rw [read] at further
  exact further (declaration_decided read)

/-- Before more white space and comments the reading fails again or does the same. -/
def PassesTrivia (reading : Reading α) : Prop :=
  ∀ blank tokens, Token.significant blank = [] →
    reading (blank ++ tokens) = reading tokens ∨
      (reading (blank ++ tokens)).result = none ∧ (reading tokens).result = none

theorem token_blank {blank : List Token} (trivial : Token.significant blank = [])
    (tokens : List Token) :
    token (blank ++ tokens) = token tokens := by
  induction blank with
  | nil => rfl
  | cons first blank ih =>
      have trivia : first.kind.isTrivia = true := by
        cases kind : first.kind.isTrivia with
        | true => rfl
        | false => simp [Token.significant_cons kind] at trivial
      rw [Token.significant_cons_trivia trivia] at trivial
      rw [List.cons_append, token, if_pos trivia, ih trivial]

theorem bind_congr_outcome {reading : Reading α} {left right : List Token}
    (same : reading left = reading right) (later : α → Reading β) :
    (reading >>= later) left = (reading >>= later) right := by
  simp only [Bind.bind, same]

section Failed

variable {reading : Reading α} {tokens : List Token}

theorem bind_failed (failed : (reading tokens).result = none) (later : α → Reading β) :
    ((reading >>= later) tokens).result = none := by
  rcases read : reading tokens with ⟨_ | result, rest, reachedEnd⟩
  · rw [bind_of_none read]
  · simp [read] at failed

theorem attempt_failed (failed : (reading tokens).result = none) :
    (attempt reading tokens).result = none := by
  rcases read : reading tokens with ⟨_ | result, rest, reachedEnd⟩
  · rw [attempt_of_none read]
  · simp [read] at failed

theorem loop_failed {step : σ → Reading (σ ⊕ α)} {state : σ}
    (failed : (step state tokens).result = none) : (loop step state tokens).result = none := by
  rcases read : step state tokens with ⟨_ | next, rest, reachedEnd⟩
  · rw [loop_of_none read]
  · simp [read] at failed

end Failed

namespace PassesTrivia

theorem bind {reading : Reading α} (passes : PassesTrivia reading) (later : α → Reading β) :
    PassesTrivia (reading >>= later) := by
  intro blank tokens trivial
  rcases passes blank tokens trivial with same | ⟨failed, failedAlso⟩
  · exact .inl (bind_congr_outcome same later)
  · exact .inr ⟨bind_failed failed later, bind_failed failedAlso later⟩

theorem attempt {reading : Reading α} (passes : PassesTrivia reading) :
    PassesTrivia (Reading.attempt reading) := by
  intro blank tokens trivial
  rcases passes blank tokens trivial with same | ⟨failed, failedAlso⟩
  · rcases read : reading tokens with ⟨_ | result, rest, reachedEnd⟩ <;> rw [read] at same
    · exact .inr ⟨attempt_failed (by rw [same]), attempt_failed (by rw [read])⟩
    · exact .inl (by rw [attempt_of_some same, attempt_of_some read])
  · exact .inr ⟨attempt_failed failed, attempt_failed failedAlso⟩

theorem loop {step : σ → Reading (σ ⊕ α)} (falls : Falls step)
    (passes : ∀ state, PassesTrivia (step state)) (state : σ) :
    PassesTrivia (Reading.loop step state) := by
  intro blank tokens trivial
  rcases passes state blank tokens trivial with same | ⟨failed, failedAlso⟩
  · exact .inl (loop_congr falls same)
  · exact .inr ⟨loop_failed failed, loop_failed failedAlso⟩

end PassesTrivia

section Blank

variable {blank : List Token} (trivial : Token.significant blank = []) (tokens : List Token)
include trivial

theorem namedSegment_blank : namedSegment (blank ++ tokens) = namedSegment tokens := by
  have body : nameBody none (blank ++ tokens) = nameBody none tokens := by
    rw [nameBody_eq, token_blank trivial, ← nameBody_eq]
  exact bind_congr_outcome (bind_congr_outcome body _) _

theorem attributeSegment_blank : attributeSegment (blank ++ tokens) = attributeSegment tokens :=
  bind_congr_outcome (bind_congr_outcome (token_blank trivial tokens) _) _

theorem symbolSegment_blank : symbolSegment (blank ++ tokens) = symbolSegment tokens := by
  have eaten : eatIf Production.isSymbol (blank ++ tokens) = eatIf Production.isSymbol tokens := by
    simp only [eatIf, token_blank trivial]
  exact bind_congr_outcome eaten _

end Blank

theorem segment_passes : PassesTrivia segment := by
  intro blank tokens trivial
  have sameName := namedSegment_blank trivial tokens
  have sameRun := attributeSegment_blank trivial tokens
  have sameSymbol := symbolSegment_blank trivial tokens
  rcases named : namedSegment tokens with ⟨_ | word, left, ended⟩ <;> rw [named] at sameName
  · -- Each kind of segment is tried on the tokens that the one before was tried on.
    rw [segment, orElse_of_none (attempt_of_none sameName), orElse_of_none (attempt_of_none named)]
    rcases bracketed : attributeSegment tokens with ⟨_ | run, other, endedAlso⟩ <;>
      rw [bracketed] at sameRun
    · rw [orElse_of_none (attempt_of_none sameRun), orElse_of_none (attempt_of_none bracketed)]
      rcases symbol : symbolSegment tokens with ⟨_ | symbol, rest, endedLast⟩ <;>
        rw [symbol] at sameSymbol
      · exact .inr ⟨attempt_failed (by rw [sameSymbol]), attempt_failed (by rw [symbol])⟩
      · exact .inl (by rw [attempt_of_some sameSymbol, attempt_of_some symbol])
    · exact .inl (by rw [orElse_of_some (attempt_of_some sameRun),
        orElse_of_some (attempt_of_some bracketed)])
  · exact .inl (by rw [segment_of_named sameName, segment_of_named named])

theorem declaration_passes : PassesTrivia declaration := by
  have steps : ∀ read, PassesTrivia (segmentsStep read) := fun read => segment_passes.bind _
  have segments : PassesTrivia segmentsThroughSemicolon :=
    .loop segmentsStep_falls steps []
  exact (segments.bind _).attempt

end OutOfLine.Reading
