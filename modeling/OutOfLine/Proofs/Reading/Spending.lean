import OutOfLine.Proofs.Reading.Declaration

namespace OutOfLine.Reading

variable {α β σ : Type}

def GenuineTokens (tokens : List Token) : Prop :=
  ∀ token ∈ Token.significant tokens, Token.Genuine token

/-- Where the reading succeeds, it has taken significant tokens that the result accounts for. -/
def Spends (spent : α → List Token → Prop) (reading : Reading α) : Prop :=
  ∀ tokens, GenuineTokens tokens → ∀ result, (reading tokens).result = some result →
    ∃ used, spent result used ∧
      Token.significant tokens = used ++ Token.significant (reading tokens).rest

/-- Where the reading fails, all significant tokens are still there. -/
def Spares (reading : Reading α) : Prop :=
  ∀ tokens, (reading tokens).result = none →
    Token.significant (reading tokens).rest = Token.significant tokens

theorem GenuineTokens.rest {tokens used rest : List Token} (genuine : GenuineTokens tokens)
    (split : Token.significant tokens = used ++ Token.significant rest) : GenuineTokens rest := by
  intro token member
  refine genuine token ?_
  rw [split]
  exact List.mem_append_right _ member

theorem genuineTokens_lex (text : Text) : GenuineTokens (Token.lex text) := by
  intro token member
  exact Token.genuine_of_mem_lex (List.mem_of_mem_filter member)

theorem Spends.imp {spent weaker : α → List Token → Prop} {reading : Reading α}
    (spends : Spends spent reading) (weakens : ∀ result used, spent result used → weaker result used) :
    Spends weaker reading := by
  intro tokens genuine result found
  obtain ⟨used, accounted, split⟩ := spends tokens genuine result found
  exact ⟨used, weakens result used accounted, split⟩

theorem Spends.pure {spent : α → List Token → Prop} {result : α} (nothing : spent result []) :
    Spends spent (Pure.pure result) := by
  intro tokens genuine found same
  cases same
  exact ⟨[], nothing, rfl⟩

theorem Spends.fail {spent : α → List Token → Prop} : Spends spent Reading.fail := by
  intro tokens genuine found same
  simp [Reading.fail] at same

theorem Spends.ite {spent : α → List Token → Prop} {condition : Prop} [Decidable condition]
    {left right : Reading α} (whenTrue : condition → Spends spent left)
    (whenFalse : ¬ condition → Spends spent right) :
    Spends spent (if condition then left else right) := by
  split
  · exact whenTrue ‹_›
  · exact whenFalse ‹_›

theorem Spends.bind {spent : α → List Token → Prop} {spentThen : β → List Token → Prop}
    {reading : Reading α} {later : α → Reading β} (first : Spends spent reading)
    (second : ∀ result used, spent result used →
      Spends (fun final more => spentThen final (used ++ more)) (later result)) :
    Spends spentThen (reading >>= later) := by
  intro tokens genuine result found
  obtain ⟨between, rest, reachedEnd, read, found, same⟩ := bind_result found
  obtain ⟨used, accounted, split⟩ := first tokens genuine between (by rw [read])
  rw [read] at split
  obtain ⟨more, accountedThen, splitThen⟩ :=
    second between used accounted rest (genuine.rest split) result found
  refine ⟨used ++ more, accountedThen, ?_⟩
  rw [same, split, splitThen, List.append_assoc]

theorem Spends.maybe {spent : Option α → List Token → Prop} {reading : Reading α}
    (spends : Spends (fun result => spent (some result)) reading) (spares : Spares reading)
    (nothing : spent none []) : Spends spent (Reading.maybe reading) := by
  intro tokens genuine result found
  obtain rfl : (reading tokens).result = result := Option.some.inj found
  cases read : (reading tokens).result with
  | none => exact ⟨[], nothing, (spares tokens read).symm⟩
  | some first => exact spends tokens genuine first read

theorem Spends.attempt {spent : α → List Token → Prop} {reading : Reading α}
    (spends : Spends spent reading) : Spends spent (Reading.attempt reading) := by
  intro tokens genuine result found
  have took := spends tokens genuine
  rcases read : reading tokens with ⟨_ | first, rest, reachedEnd⟩ <;> rw [read] at took
  · simp [attempt_of_none read] at found
  · rw [attempt_of_some read] at found ⊢
    exact took result found

theorem attempt_spares (reading : Reading α) : Spares (attempt reading) := by
  intro tokens failed
  rcases read : reading tokens with ⟨_ | first, rest, reachedEnd⟩
  · rw [attempt_of_none read]
  · simp [attempt_of_some read] at failed

theorem Spends.orElse {spent : α → List Token → Prop} {first second : Reading α}
    (firstSpends : Spends spent first) (spares : Spares first) (secondSpends : Spends spent second) :
    Spends spent (first.orElse second) := by
  have tried : Spends (fun result used => result.elim (used = []) (spent · used))
      (Reading.maybe first) := firstSpends.maybe spares rfl
  refine tried.bind fun result used accounted => ?_
  cases result with
  | none =>
      obtain rfl : used = [] := accounted
      exact secondSpends
  | some result => exact .pure (by simpa using accounted)

theorem Steady.spends {reading : Reading α} (steady : Steady reading) :
    Spends (fun _ _ => True) reading := by
  intro tokens genuine result found
  obtain ⟨front, whole⟩ := steady.suffix tokens
  refine ⟨Token.significant front, trivial, ?_⟩
  rw [← Token.significant_append, whole]

theorem token_split (tokens : List Token) :
    match token tokens with
    | ⟨none, rest, _⟩ => rest = [] ∧ Token.significant tokens = []
    | ⟨some found, rest, _⟩ => found.kind.isTrivia = false ∧
        Token.significant tokens = found :: Token.significant rest := by
  induction tokens with
  | nil => exact ⟨rfl, rfl⟩
  | cons first tokens ih =>
      rw [token]
      cases trivia : first.kind.isTrivia with
      | true => simpa [Token.significant_cons_trivia trivia] using ih
      | false => exact ⟨trivia, Token.significant_cons trivia tokens⟩

theorem token_spends :
    Spends (fun found used => used = [found] ∧ Token.Genuine found ∧ found.kind.isTrivia = false)
      token := by
  intro tokens genuine found read
  have split := token_split tokens
  rcases outcome : token tokens with ⟨_ | first, rest, reachedEnd⟩ <;> rw [outcome] at read split
  · simp at read
  · obtain rfl : first = found := Option.some.inj read
    refine ⟨[first], ⟨rfl, genuine first ?_, split.1⟩, split.2⟩
    rw [split.2]
    exact List.mem_cons_self

theorem peek_spends : Spends (fun _ used => used = []) peek := by
  intro tokens genuine found read
  have split := token_split tokens
  rcases outcome : token tokens with ⟨_ | first, rest, reachedEnd⟩ <;> rw [outcome] at split
  · rw [peek_of_none outcome]
    exact ⟨[], rfl, by rw [split.1, split.2]; rfl⟩
  · rw [peek_of_some outcome]
    exact ⟨[], rfl, by rw [Token.significant_cons split.1]; exact split.2⟩

theorem eatIf_spends (accepts : Token → Bool) :
    Spends (fun found used => used = [found] ∧ accepts found = true ∧ Token.Genuine found)
      (eatIf accepts) := by
  intro tokens genuine found read
  have split := token_split tokens
  rcases outcome : token tokens with ⟨_ | first, rest, reachedEnd⟩ <;> rw [outcome] at split
  · simp [eatIf_of_none outcome] at read
  · rw [eatIf_of_some outcome] at read ⊢
    cases accepted : accepts first with
    | false => simp [accepted] at read
    | true =>
        simp only [accepted, if_true, Option.some.injEq] at read ⊢
        subst read
        refine ⟨[first], ⟨rfl, accepted, genuine first ?_⟩, split.2⟩
        rw [split.2]
        exact List.mem_cons_self

theorem eatIf_spares (accepts : Token → Bool) : Spares (eatIf accepts) := by
  intro tokens failed
  have split := token_split tokens
  rcases outcome : token tokens with ⟨_ | first, rest, reachedEnd⟩ <;> rw [outcome] at split
  · rw [eatIf_of_none outcome, split.1, split.2]
    rfl
  · rw [eatIf_of_some outcome] at failed ⊢
    cases accepted : accepts first with
    | false =>
        simp only [Bool.false_eq_true, if_false]
        rw [Token.significant_cons split.1, split.2]
    | true => simp [accepted] at failed

theorem eat_spends {kind : Token.Kind} {mark : Text} (marked : kind.mark? = some mark) :
    Spends (fun _ used => used = [⟨kind, mark⟩]) (eat kind) := by
  refine (eatIf_spends _).imp fun found used taken => ?_
  obtain ⟨rfl, accepted, genuine⟩ := taken
  obtain rfl : found.kind = kind := of_decide_eq_true accepted
  rw [← Token.text_of_mark genuine marked]

theorem maybe_eat_spends {kind : Token.Kind} {mark : Text} (marked : kind.mark? = some mark) :
    Spends (fun found used => used = if found.isSome then [⟨kind, mark⟩] else []) (maybe (eat kind)) :=
  Spends.maybe (eat_spends marked) (eatIf_spares _) rfl

/-- Where a reading uses up its tokens, the result accounts for all significant ones. -/
theorem Spends.isolated {spent : α → List Token → Prop} {reading : Reading α}
    (spends : Spends spent reading) {tokens : List Token} (genuine : GenuineTokens tokens) {result : α}
    (found : isolated reading tokens = some result) : spent result (Token.significant tokens) := by
  unfold Reading.isolated at found
  cases read : (reading tokens).result with
  | none => simp [read] at found
  | some first =>
      obtain ⟨used, accounted, split⟩ := spends tokens genuine first read
      have last := token_split (reading tokens).rest
      rcases outcome : token (reading tokens).rest with ⟨_ | more, rest, reachedEnd⟩ <;>
        rw [outcome] at last
      · obtain rfl : first = result := by simpa [read, outcome] using found
        rwa [split, last.2, List.append_nil]
      · simp [read, outcome] at found

theorem nameBody_spends (last : Option Token.Kind) :
    Spends (fun name used => used = name ∧ IsName last name) (nameBody last) := by
  intro tokens genuine name read
  induction tokens generalizing last name with
  | nil =>
      cases read
      exact ⟨[], ⟨rfl, trivial⟩, rfl⟩
  | cons first tokens ih =>
      rw [nameBody] at read ⊢
      cases trivia : first.kind.isTrivia with
      | true =>
          have same : Token.significant (first :: tokens) = [] ++ Token.significant tokens :=
            Token.significant_cons_trivia trivia tokens
          simp only [trivia, if_true] at read ⊢
          rw [same]
          exact ih last (genuine.rest same) name read
      | false =>
          have split : Token.significant (first :: tokens) = [first] ++ Token.significant tokens :=
            Token.significant_cons trivia tokens
          simp only [trivia, Bool.false_eq_true, if_false] at read ⊢
          cases continues : Production.continuesName last first.kind with
          | false =>
              simp only [continues, Bool.false_eq_true, if_false] at read ⊢
              cases read
              exact ⟨[], ⟨rfl, trivial⟩, rfl⟩
          | true =>
              simp only [continues, if_true, Outcome.map, Option.map_eq_some_iff] at read ⊢
              obtain ⟨later, read, rfl⟩ := read
              obtain ⟨used, ⟨rfl, isName⟩, splitLater⟩ :=
                ih (some first.kind) (genuine.rest split) later read
              have here : Token.Genuine first := genuine first (by rw [split]; simp)
              refine ⟨first :: used, ⟨rfl, here, continues, isName⟩, ?_⟩
              rw [split, splitLater]
              rfl

theorem qualifiedName_spends :
    Spends (fun name used => used = name ∧ IsName none name ∧ name ≠ []) qualifiedName := by
  refine (nameBody_spends none).bind fun name used taken => .ite (fun _ => .fail) fun nonempty => ?_
  exact .pure ⟨by simpa using taken.1, taken.2, by simpa using nonempty⟩

theorem bracketBody_spends (opener closer : Token.Kind) (depth : Nat) :
    Spends (fun run used => used = Token.significant run) (bracketBody opener closer depth) := by
  intro tokens genuine run read
  induction tokens generalizing depth run with
  | nil => simp [bracketBody] at read
  | cons first tokens ih =>
      have split : Token.significant (first :: tokens) =
          Token.significant [first] ++ Token.significant tokens := by
        rw [← Token.significant_append]
        rfl
      rw [bracketBody] at read ⊢
      cases step : depthAfter? opener closer depth first.kind with
      | none =>
          simp only [step, Option.some.injEq] at read ⊢
          subst read
          exact ⟨_, rfl, split⟩
      | some inner =>
          simp only [step, Outcome.map, Option.map_eq_some_iff] at read ⊢
          obtain ⟨later, read, rfl⟩ := read
          obtain ⟨used, rfl, splitLater⟩ := ih inner (genuine.rest split) later read
          refine ⟨_, rfl, ?_⟩
          rw [split, splitLater, ← List.append_assoc, ← Token.significant_append]
          rfl

theorem bracketRun_spends {opener closer : Token.Kind} {opening : Text}
    (opens : opener.mark? = some opening) :
    Spends (fun run used => used = Token.significant run ∧ ∃ inner, run = ⟨opener, opening⟩ :: inner)
      (bracketRun opener closer) := by
  refine token_spends.bind fun first used taken => .ite (fun fits => ?_) fun _ => .fail
  obtain ⟨rfl, genuine, significant⟩ := taken
  obtain rfl := fits
  have whole : first = ⟨first.kind, opening⟩ := by rw [← Token.text_of_mark genuine opens]
  refine (bracketBody_spends first.kind closer 0).bind fun run used taken => .pure ⟨?_, run, by rw [← whole]⟩
  rw [taken, Token.significant_cons significant]
  simp

/-- What the kind of a phrase says about its tokens. -/
structure Shaped (phrase : Phrase) : Prop where
  paren : phrase.kind = .paren → ∃ name inner, IsName none name ∧
    phrase.tokens = name ++ ⟨.openParen, ['(']⟩ :: inner
  symbol : phrase.kind = .symbol → ∃ symbol, phrase.tokens = [symbol] ∧ Token.Genuine symbol ∧
    symbol.kind.isTrivia = false

theorem IsName.no_paren {last : Option Token.Kind} {name : List Token} (isName : IsName last name) :
    ∀ token ∈ name, token.kind ≠ .openParen := by
  induction name generalizing last with
  | nil => simp
  | cons first name ih =>
      obtain ⟨_, continues, later⟩ := isName
      intro token member
      rcases List.mem_cons.mp member with rfl | member
      · intro paren
        simp [paren, Production.continuesName] at continues
      · exact ih later token member

/-- What stands before the first parenthesis and behind it is determined. -/
theorem name_unique {name other left right : List Token}
    (plain : ∀ token ∈ name, token.kind ≠ .openParen)
    (plainOther : ∀ token ∈ other, token.kind ≠ .openParen)
    (same : name ++ ⟨.openParen, ['(']⟩ :: left = other ++ ⟨.openParen, ['(']⟩ :: right) :
    name = other ∧ left = right := by
  have front : ∀ {name rest : List Token}, (∀ token ∈ name, token.kind ≠ .openParen) →
      (name ++ ⟨.openParen, ['(']⟩ :: rest).takeWhile (·.kind ≠ .openParen) = name := by
    intro name rest plain
    rw [List.takeWhile_append_of_pos fun token member => by simpa using plain token member]
    simp
  obtain rfl : name = other := by rw [← front plain, same, front plainOther]
  exact ⟨rfl, (List.cons.inj (List.append_cancel_left same)).2⟩

theorem IsName.significant_eq {last : Option Token.Kind} {name : List Token} (isName : IsName last name) :
    Token.significant name = name := by
  induction name generalizing last with
  | nil => rfl
  | cons first name ih =>
      obtain ⟨_, continues, later⟩ := isName
      have visible : first.kind.isTrivia = false := by
        cases kind : first.kind <;> simp_all [Production.continuesName, Token.Kind.isTrivia]
      rw [Token.significant_cons visible, ih later]

/-- A phrase accounts for its own tokens. -/
def PhraseSpent (phrase : Phrase) (used : List Token) : Prop :=
  used = Token.significant phrase.tokens ∧ Shaped phrase

theorem afterName_spends {name : List Token} (isName : IsName none name) (opener : Token.Kind) :
    Spends (fun phrase used => PhraseSpent phrase (name ++ used)) (afterName name opener) := by
  have plain : PhraseSpent ⟨.plain, name⟩ (name ++ []) :=
    ⟨by simp [isName.significant_eq], by simp, by simp⟩
  have bracketed : ∀ {opener closer : Token.Kind} {opening : Text} {kind : Segment.Kind},
      opener.mark? = some opening → kind ≠ .symbol →
      (kind = .paren → opener = .openParen ∧ opening = ['(']) →
      Spends (fun phrase used => PhraseSpent phrase (name ++ used))
        (bracketRun opener closer >>= fun run => return ⟨kind, name ++ run⟩) := by
    intro opener closer opening kind opens notSymbol paren
    refine (bracketRun_spends opens).bind fun run used taken => .pure ⟨?_, ?_, ?_⟩
    · rw [taken.1, Token.significant_append, isName.significant_eq, List.append_nil]
    · intro isParen
      obtain ⟨rfl, rfl⟩ := paren isParen
      obtain ⟨inner, rfl⟩ := taken.2
      exact ⟨name, inner, isName, rfl⟩
    · intro isSymbol
      exact absurd isSymbol notSymbol
  unfold afterName
  cases opener with
  | openParen => exact bracketed rfl (by decide) fun _ => ⟨rfl, rfl⟩
  | less => exact bracketed rfl (by decide) (by simp)
  | openBracket => exact bracketed rfl (by decide) (by simp)
  | _ => exact .pure plain

theorem namedSegment_spends : Spends PhraseSpent namedSegment := by
  refine qualifiedName_spends.bind fun name used taken => ?_
  obtain ⟨rfl, isName, _⟩ := taken
  refine peek_spends.bind fun opener nothing none => ?_
  subst none
  cases opener with
  | none => exact .pure ⟨by simp [isName.significant_eq], by simp, by simp⟩
  | some opener => exact afterName_spends isName opener

theorem attributeSegment_spends : Spends PhraseSpent attributeSegment :=
  (bracketRun_spends rfl).bind fun _ _ taken => .pure ⟨by simpa using taken.1, by simp, by simp⟩

theorem symbolSegment_spends : Spends PhraseSpent symbolSegment := by
  refine (eatIf_spends _).bind fun symbol used taken => ?_
  obtain ⟨rfl, isSymbol, genuine⟩ := taken
  have visible : symbol.kind.isTrivia = false := by
    cases kind : symbol.kind <;> simp_all [Production.isSymbol, Token.Kind.isTrivia]
  refine .pure ⟨?_, by simp, fun _ => ⟨symbol, rfl, genuine, visible⟩⟩
  rw [Token.significant_cons visible]
  simp

theorem segment_spends : Spends PhraseSpent segment :=
  namedSegment_spends.attempt.orElse (attempt_spares _)
    (attributeSegment_spends.attempt.orElse (attempt_spares _) symbolSegment_spends.attempt)

/-- A loop accounts for what its steps have taken. -/
theorem loop_spends {step : σ → Reading (σ ⊕ α)} (falls : Falls step)
    {taken : σ → σ ⊕ α → List Token → Prop} (spent : σ → α → List Token → Prop)
    (steps : ∀ state, Spends (taken state) (step state))
    (done : ∀ state result used, taken state (.inr result) used → spent state result used)
    (more : ∀ state next used result later, taken state (.inl next) used → spent next result later →
      spent state result (used ++ later)) (state : σ) : Spends (spent state) (loop step state) := by
  refine fun tokens => loop_induction falls (motive := fun state tokens outcome =>
    GenuineTokens tokens → ∀ result, outcome.result = some result → ∃ used, spent state result used ∧
      Token.significant tokens = used ++ Token.significant outcome.rest) ?_ ?_ ?_ state tokens
  · intro state tokens rest reachedEnd read genuine result found
    simp at found
  · intro state tokens last rest reachedEnd read genuine result found
    obtain rfl : last = result := Option.some.inj found
    obtain ⟨used, ends, split⟩ := steps state tokens genuine (.inr last) (by rw [read])
    rw [read] at split
    exact ⟨used, done state last used ends, split⟩
  · intro state tokens next rest reachedEnd later read ih genuine result found
    obtain ⟨used, goesOn, split⟩ := steps state tokens genuine (.inl next) (by rw [read])
    rw [read] at split
    obtain ⟨others, accounted, splitLater⟩ := ih (genuine.rest split) result found
    refine ⟨used ++ others, more state next used result others goesOn accounted, ?_⟩
    rw [split, splitLater, List.append_assoc]

/-- Items that account for runs of tokens with commas between them. -/
inductive Separated (spent : α → List Token → Prop) : List α → List Token → Prop where
  | single {item : α} {used : List Token} (accounted : spent item used) : Separated spent [item] used
  | cons {item : α} {items : List α} {used rest : List Token} (accounted : spent item used)
      (others : Separated spent items rest) :
      Separated spent (item :: items) (used ++ ⟨.comma, [',']⟩ :: rest)

theorem commaListWithin_spends {spent : α → List Token → Prop} {item : Reading α}
    (spends : Spends spent item) (room : Nat) : Spends (Separated spent) (commaListWithin item room) := by
  induction room with
  | zero => exact .fail
  | succ room ih =>
      refine spends.bind fun first used accounted =>
        (maybe_eat_spends rfl).bind fun comma mark taken => ?_
      subst taken
      cases comma with
      | none => exact .pure (by simpa using Separated.single accounted)
      | some _ =>
          refine ih.bind fun others rest separated => .pure ?_
          simpa using Separated.cons accounted separated

/-- A run that begins, if it is not empty, with an equals sign. -/
def DefaultRun (run : List Token) : Prop :=
  ∀ first ∈ run.head?, first.kind = .equal

/-- A parameter accounts for its phrases and for a default value. -/
def ParameterSpent (phrases : List Phrase) (used : List Token) : Prop :=
  ∃ dropped, used = Phrase.significant phrases ++ dropped ∧ DefaultRun dropped

theorem isAssignment_spent {phrase : Phrase} {used : List Token} (spent : PhraseSpent phrase used)
    (assigns : phrase.isAssignment = true) : ∃ equal, used = [equal] ∧ equal.kind = .equal := by
  obtain ⟨rfl, shaped⟩ := spent
  rw [Phrase.isAssignment, Segment.isAssignment, Bool.and_eq_true_iff] at assigns
  obtain ⟨isSymbol, text⟩ := assigns
  obtain ⟨symbol, tokens, ⟨rest, cut⟩, visible⟩ := shaped.symbol (of_decide_eq_true isSymbol)
  have written : symbol.text = ['='] := by
    have spelled := of_decide_eq_true text
    simpa [Phrase.segment, tokens] using spelled
  rw [written] at cut
  have same : some (symbol, rest) = some (⟨.equal, ['=']⟩, rest) :=
    cut.symm.trans (Token.cut_mark rfl (by decide) rest)
  obtain rfl : symbol = ⟨.equal, ['=']⟩ := by simpa using same
  exact ⟨⟨.equal, ['=']⟩, by rw [tokens]; rfl, rfl⟩

theorem parameterOf_spends (phrases : List Phrase) :
    Spends (fun found used => found = phrases ∧ used = []) (parameterOf phrases) :=
  .ite (fun _ => .fail) fun _ => .pure ⟨rfl, rfl⟩

/-- A step adds a phrase, or it ends the parameter and may have dropped a default value. -/
def ParameterTaken (read : List Phrase) : List Phrase ⊕ List Phrase → List Token → Prop
  | .inl next, used => ∃ phrase, next = phrase :: read ∧ PhraseSpent phrase used
  | .inr phrases, used => phrases = read.reverse ∧ DefaultRun used

theorem parameterStep_spends (read : List Phrase) :
    Spends (ParameterTaken read) (parameterStep read) := by
  refine peek_spends.bind fun kind nothing none => ?_
  subst none
  cases kind with
  | none => exact .fail
  | some kind =>
      refine .ite (fun _ => ?_) fun _ => ?_
      · refine (parameterOf_spends read.reverse).bind fun phrases nothing taken => .pure ?_
        obtain ⟨rfl, rfl⟩ := taken
        exact ⟨rfl, by simp [DefaultRun]⟩
      · refine segment_spends.bind fun phrase used spent => .ite (fun assigns => ?_) fun _ => ?_
        · obtain ⟨equal, rfl, kind⟩ := isAssignment_spent spent (Bool.and_eq_true_iff.mp assigns).1
          refine (skipDefault_steady 0).spends.bind fun _ run _ => ?_
          refine (parameterOf_spends read.reverse).bind fun phrases nothing taken => .pure ?_
          obtain ⟨rfl, rfl⟩ := taken
          exact ⟨rfl, by simp [DefaultRun, kind]⟩
        · exact .pure ⟨phrase, rfl, by simpa using spent⟩

theorem parameter_spends : Spends ParameterSpent parameter := by
  -- With some phrases read, a loop accounts for the phrases that it adds to them.
  have added := loop_spends parameterStep_falls (fun read phrases used =>
    ∃ rest, phrases = read.reverse ++ rest ∧ ParameterSpent rest used) parameterStep_spends ?_ ?_ []
  · exact added.imp fun phrases used ⟨rest, same, spent⟩ => by simpa [same] using spent
  · rintro read phrases used ⟨rfl, dropped⟩
    exact ⟨[], by simp, used, rfl, dropped⟩
  · rintro read next used phrases later ⟨phrase, rfl, rfl, _⟩ ⟨rest, rfl, dropped, rfl, isDefault⟩
    exact ⟨phrase :: rest, by simp, dropped, by simp [Phrase.significant], isDefault⟩

theorem declaratorParameters_spends :
    Spends (fun parameters used => ∃ name body, IsName none name ∧
      used = name ++ ⟨.openParen, ['(']⟩ :: body ++ [⟨.closeParen, [')']⟩] ∧
      (parameters = [] ∧ body = [] ∨ Separated ParameterSpent parameters body))
      declaratorParameters := by
  refine qualifiedName_spends.bind fun name used named => ?_
  obtain ⟨rfl, isName, _⟩ := named
  refine (eat_spends rfl).bind fun _ opener opened => (maybe_eat_spends rfl).bind fun close mark taken => ?_
  subst opened taken
  refine .ite (fun closed => .pure ⟨used, [], isName, by simp [closed], .inl ⟨rfl, rfl⟩⟩)
    fun notClosed => ?_
  refine (commaListWithin_spends parameter_spends _).bind fun parameters body separated =>
    (eat_spends rfl).bind fun _ closer closed => .pure ⟨used, body, isName, ?_, .inr separated⟩
  subst closed
  simp [notClosed]

def SegmentsTaken (read : List Phrase) : List Phrase ⊕ List Phrase → List Token → Prop
  | .inl next, used => ∃ phrase, next = phrase :: read ∧ PhraseSpent phrase used
  | .inr phrases, used => ∃ phrase run, phrases = (phrase :: read).reverse ∧ PhraseSpent phrase run ∧
      used = run ++ [⟨.semicolon, [';']⟩]

theorem segmentsStep_spends (read : List Phrase) : Spends (SegmentsTaken read) (segmentsStep read) := by
  refine segment_spends.bind fun phrase used spent =>
    (maybe_eat_spends rfl).bind fun mark run taken => ?_
  subst taken
  cases mark with
  | none => exact .pure ⟨phrase, rfl, by simpa using spent⟩
  | some _ => exact .pure ⟨phrase, used, rfl, spent, by simp⟩

theorem segmentsThroughSemicolon_spends :
    Spends (fun phrases used => used = Phrase.significant phrases ++ [⟨.semicolon, [';']⟩] ∧
      ∀ phrase ∈ phrases, Shaped phrase) segmentsThroughSemicolon := by
  have added := loop_spends segmentsStep_falls (fun read phrases used =>
    ∃ rest, phrases = read.reverse ++ rest ∧
      used = Phrase.significant rest ++ [⟨.semicolon, [';']⟩] ∧ ∀ phrase ∈ rest, Shaped phrase)
    segmentsStep_spends ?_ ?_ []
  · refine added.imp ?_
    rintro phrases used ⟨rest, rfl, rfl, shaped⟩
    exact ⟨by simp, by simpa using shaped⟩
  · rintro read phrases used ⟨phrase, run, rfl, ⟨rfl, shaped⟩, rfl⟩
    exact ⟨[phrase], by simp, by simp [Phrase.significant], by simpa using shaped⟩
  · rintro read next used phrases later ⟨phrase, rfl, rfl, shaped⟩ ⟨rest, rfl, rfl, others⟩
    exact ⟨phrase :: rest, by simp, by simp [Phrase.significant], by simpa using ⟨shaped, others⟩⟩

/-- How a declaration came about from its phrases. -/
structure Chosen (declaration : Phrase.Declaration) : Prop where
  shaped : ∀ phrase ∈ declaration.phrases, Shaped phrase
  declarator : chooseDeclarator declaration.phrases =
    (declaration.declaratorIndex, declaration.parameters)

def DeclarationSpent (declaration : Phrase.Declaration) (used : List Token) : Prop :=
  used = Phrase.significant declaration.phrases ++ [⟨.semicolon, [';']⟩] ∧ Chosen declaration

theorem declaration_spends : Spends DeclarationSpent declaration := by
  refine (segmentsThroughSemicolon_spends.bind fun phrases used taken => .pure ?_).attempt
  exact ⟨by simpa using taken.1, taken.2, rfl⟩

def DeclarationsTaken (read : List Phrase.Declaration) :
    List Phrase.Declaration ⊕ List Phrase.Declaration → List Token → Prop
  | .inl next, used => ∃ declaration, next = declaration :: read ∧ DeclarationSpent declaration used
  | .inr declarations, used => declarations = read.reverse ∧ used = []

theorem declarationsStep_spends (read : List Phrase.Declaration) :
    Spends (DeclarationsTaken read) (declarationsStep read) := by
  have tried : Spends (fun found used => found.elim (used = []) (DeclarationSpent · used))
      (maybe declaration) := declaration_spends.maybe (attempt_spares _) rfl
  refine tried.bind fun found used taken => ?_
  cases found with
  | none =>
      obtain rfl : used = [] := taken
      exact .pure ⟨rfl, rfl⟩
  | some declaration => exact .pure ⟨declaration, rfl, by simpa using taken⟩

theorem declarations_spends :
    Spends (fun found used => used = found.flatMap (fun declaration =>
        Phrase.significant declaration.phrases ++ [⟨.semicolon, [';']⟩]) ∧
      ∀ declaration ∈ found, Chosen declaration) declarations := by
  have added := loop_spends declarationsStep_falls (fun read found used =>
    ∃ rest, found = read.reverse ++ rest ∧
      used = rest.flatMap (fun declaration =>
        Phrase.significant declaration.phrases ++ [⟨.semicolon, [';']⟩]) ∧
      ∀ declaration ∈ rest, Chosen declaration) declarationsStep_spends ?_ ?_ []
  · refine added.bind fun found used taken => .ite (fun _ => .fail) fun _ => .pure ?_
    obtain ⟨rest, rfl, rfl, chosen⟩ := taken
    exact ⟨by simp, by simpa using chosen⟩
  · rintro read found used ⟨rfl, rfl⟩
    exact ⟨[], by simp, rfl, by simp⟩
  · rintro read next used found later ⟨declaration, rfl, rfl, chosen⟩ ⟨rest, rfl, rfl, others⟩
    exact ⟨declaration :: rest, by simp, by simp, by simpa using ⟨chosen, others⟩⟩

end OutOfLine.Reading
