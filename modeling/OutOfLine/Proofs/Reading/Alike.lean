import OutOfLine.Proofs.Reading.ClassHead

/-!
Readings do not see white space, comments and the contents of strings. Two lists of tokens are alike
when what is left of them without white space and comments matches token by token; a reading is blind
when it finds related results in lists that are alike, and leaves lists that are alike.

How tokens have to match is a parameter: tokens may have to be equal, or strings may differ.
-/

namespace OutOfLine.Reading

variable {α β γ δ σ τ : Type} {similar : Token → Token → Prop}

/-- Matching tokens have the same kind and, strings apart, the same text. -/
structure Similarity (similar : Token → Token → Prop) : Prop where
  refl : ∀ token, similar token token
  kind : ∀ {left right}, similar left right → left.kind = right.kind
  text : ∀ {left right}, similar left right → left.kind ≠ .quotation → left.text = right.text

inductive Alike (similar : Token → Token → Prop) : List Token → List Token → Prop where
  | nil : Alike similar [] []
  | skipLeft {first : Token} {left right : List Token} (trivia : first.kind.isTrivia = true)
      (alike : Alike similar left right) : Alike similar (first :: left) right
  | skipRight {first : Token} {left right : List Token} (trivia : first.kind.isTrivia = true)
      (alike : Alike similar left right) : Alike similar left (first :: right)
  | cons {first other : Token} {left right : List Token} (significant : first.kind.isTrivia = false)
      (related : similar first other) (alike : Alike similar left right) :
      Alike similar (first :: left) (other :: right)

/-- Phrases of like tokens. Words and symbols hold no string and no white space. -/
structure LikePhrase (similar : Token → Token → Prop) (left right : Phrase) : Prop where
  kind : left.kind = right.kind
  tokens : Alike similar left.tokens right.tokens
  same : left.kind = .plain ∨ left.kind = .symbol → left.tokens = right.tokens

/-- Class heads that differ at most in their attributes. -/
structure LikeHead (left right : ClassHead) : Prop where
  name : left.name = right.name
  bases : left.bases = right.bases

/-- Two outcomes with related results that leave like tokens. -/
structure Like (similar : Token → Token → Prop) (relates : α → β → Prop) (left : Outcome α)
    (right : Outcome β) : Prop where
  result : Option.Rel relates left.result right.result
  rest : Alike similar left.rest right.rest

def Blind (similar : Token → Token → Prop) (relates : α → β → Prop) (left : Reading α)
    (right : Reading β) : Prop :=
  ∀ leftTokens rightTokens, Alike similar leftTokens rightTokens →
    Like similar relates (left leftTokens) (right rightTokens)

theorem Similarity.eq (similarity : Similarity similar) {left right : Token}
    (related : similar left right) (unquoted : left.kind ≠ .quotation) : left = right := by
  cases left
  cases right
  simp only [Token.mk.injEq]
  exact ⟨similarity.kind related, similarity.text related unquoted⟩

theorem Alike.refl (similarity : Similarity similar) (tokens : List Token) :
    Alike similar tokens tokens := by
  induction tokens with
  | nil => exact .nil
  | cons first tokens ih =>
      cases trivia : first.kind.isTrivia with
      | true => exact .skipLeft trivia (.skipRight trivia ih)
      | false => exact .cons trivia (similarity.refl first) ih

theorem Alike.append {left right leftMore rightMore : List Token} (alike : Alike similar left right)
    (more : Alike similar leftMore rightMore) :
    Alike similar (left ++ leftMore) (right ++ rightMore) := by
  induction alike with
  | nil => exact more
  | skipLeft trivia _ ih => exact .skipLeft trivia ih
  | skipRight trivia _ ih => exact .skipRight trivia ih
  | cons significant related _ ih => exact .cons significant related ih

theorem Alike.significant (similarity : Similarity similar) {left right : List Token}
    (alike : Alike similar left right) :
    List.Forall₂ similar (Token.significant left) (Token.significant right) := by
  induction alike with
  | nil => exact .nil
  | skipLeft trivia _ ih => rwa [Token.significant_cons_trivia trivia]
  | skipRight trivia _ ih => rwa [Token.significant_cons_trivia trivia]
  | cons significant related _ ih =>
      have other := similarity.kind related ▸ significant
      rw [Token.significant_cons significant, Token.significant_cons other]
      exact .cons related ih

theorem similarity_eq : Similarity (Eq : Token → Token → Prop) where
  refl _ := rfl
  kind same := congrArg Token.kind same
  text same _ := congrArg Token.text same

theorem Alike.significant_eq {left right : List Token} (alike : Alike Eq left right) :
    Token.significant left = Token.significant right := by
  have matched := alike.significant similarity_eq
  rwa [List.forall₂_eq_eq_eq] at matched

theorem alike_of_significant {left right : List Token}
    (matched : List.Forall₂ similar (Token.significant left) (Token.significant right)) :
    Alike similar left right := by
  induction left generalizing right with
  | nil =>
      induction right with
      | nil => exact .nil
      | cons first right ih =>
          cases trivia : first.kind.isTrivia with
          | true => exact .skipRight trivia (ih (by rwa [Token.significant_cons_trivia trivia] at matched))
          | false =>
              rw [Token.significant_cons trivia] at matched
              cases matched
  | cons first left ih =>
      cases trivia : first.kind.isTrivia with
      | true => exact .skipLeft trivia (ih (by rwa [Token.significant_cons_trivia trivia] at matched))
      | false =>
          rw [Token.significant_cons trivia] at matched
          induction right with
          | nil => cases matched
          | cons other right skip =>
              cases otherTrivia : other.kind.isTrivia with
              | true =>
                  rw [Token.significant_cons_trivia otherTrivia] at matched
                  exact .skipRight otherTrivia (skip matched)
              | false =>
                  rw [Token.significant_cons otherTrivia] at matched
                  cases matched with
                  | cons related others => exact .cons trivia related (ih others)

theorem Like.of_none {relates : α → β → Prop} {rest : List Token} {reachedEnd : Bool}
    {right : Outcome β} (like : Like similar relates ⟨none, rest, reachedEnd⟩ right) :
    ∃ otherRest otherEnd, right = ⟨none, otherRest, otherEnd⟩ ∧ Alike similar rest otherRest := by
  obtain ⟨other, otherRest, otherEnd⟩ := right
  obtain ⟨result, remains⟩ := like
  cases result
  exact ⟨otherRest, otherEnd, rfl, remains⟩

theorem Like.of_some {relates : α → β → Prop} {found : α} {rest : List Token} {reachedEnd : Bool}
    {right : Outcome β} (like : Like similar relates ⟨some found, rest, reachedEnd⟩ right) :
    ∃ other otherRest otherEnd, right = ⟨some other, otherRest, otherEnd⟩ ∧ relates found other ∧
      Alike similar rest otherRest := by
  obtain ⟨other, otherRest, otherEnd⟩ := right
  obtain ⟨result, remains⟩ := like
  cases result with
  | some related => exact ⟨_, otherRest, otherEnd, rfl, related, remains⟩

theorem Like.map {relates : α → β → Prop} {relatesThen : γ → δ → Prop} {left : Outcome α}
    {right : Outcome β} (like : Like similar relates left right) {leftMap : α → γ} {rightMap : β → δ}
    (related : ∀ a b, relates a b → relatesThen (leftMap a) (rightMap b)) :
    Like similar relatesThen (left.map leftMap) (right.map rightMap) := by
  obtain ⟨result, rest⟩ := like
  refine ⟨?_, rest⟩
  unfold Outcome.map
  generalize left.result = found, right.result = other at result ⊢
  cases result with
  | none => exact .none
  | some both => exact .some (related _ _ both)

theorem Blind.imp {relates weaker : α → β → Prop} {left : Reading α} {right : Reading β}
    (blind : Blind similar relates left right) (weakens : ∀ a b, relates a b → weaker a b) :
    Blind similar weaker left right := by
  intro leftTokens rightTokens alike
  obtain ⟨result, rest⟩ := blind _ _ alike
  refine ⟨?_, rest⟩
  generalize (left leftTokens).result = found, (right rightTokens).result = other at result ⊢
  cases result with
  | none => exact .none
  | some related => exact .some (weakens _ _ related)

theorem Blind.pure {relates : α → β → Prop} {left : α} {right : β} (related : relates left right) :
    Blind similar relates (Pure.pure left) (Pure.pure right) :=
  fun _ _ alike => ⟨.some related, alike⟩

theorem Blind.fail {relates : α → β → Prop} : Blind similar relates Reading.fail Reading.fail :=
  fun _ _ alike => ⟨.none, alike⟩

theorem Blind.bind {relates : α → β → Prop} {relatesThen : γ → δ → Prop} {left : Reading α}
    {right : Reading β} {leftLater : α → Reading γ} {rightLater : β → Reading δ}
    (first : Blind similar relates left right)
    (second : ∀ a b, relates a b → Blind similar relatesThen (leftLater a) (rightLater b)) :
    Blind similar relatesThen (left >>= leftLater) (right >>= rightLater) := by
  intro leftTokens rightTokens alike
  have like := first _ _ alike
  rcases read : left leftTokens with ⟨_ | found, tokens, reachedEnd⟩ <;> rw [read] at like
  · obtain ⟨otherTokens, otherEnd, readOther, rest⟩ := like.of_none
    rw [bind_of_none read, bind_of_none readOther]
    exact ⟨.none, rest⟩
  · obtain ⟨other, otherTokens, otherEnd, readOther, related, rest⟩ := like.of_some
    have later := second _ _ related _ _ rest
    rw [bind_of_some read, bind_of_some readOther]
    exact ⟨later.result, later.rest⟩

theorem Blind.andThen {relatesThen : γ → δ → Prop} {left right : Reading α}
    {leftLater : α → Reading γ} {rightLater : α → Reading δ} (first : Blind similar Eq left right)
    (second : ∀ result, Blind similar relatesThen (leftLater result) (rightLater result)) :
    Blind similar relatesThen (left >>= leftLater) (right >>= rightLater) :=
  first.bind fun result _ same => same ▸ second result

theorem Blind.ite {relates : α → β → Prop} {condition : Prop} [Decidable condition]
    {left leftElse : Reading α} {right rightElse : Reading β}
    (whenTrue : Blind similar relates left right)
    (whenFalse : Blind similar relates leftElse rightElse) :
    Blind similar relates (if condition then left else leftElse)
      (if condition then right else rightElse) := by
  split
  · exact whenTrue
  · exact whenFalse

theorem Blind.maybe {relates : α → β → Prop} {left : Reading α} {right : Reading β}
    (blind : Blind similar relates left right) :
    Blind similar (Option.Rel relates) (Reading.maybe left) (Reading.maybe right) :=
  fun _ _ alike => ⟨.some (blind _ _ alike).result, (blind _ _ alike).rest⟩

theorem Blind.attempt {relates : α → β → Prop} {left : Reading α} {right : Reading β}
    (blind : Blind similar relates left right) :
    Blind similar relates (Reading.attempt left) (Reading.attempt right) := by
  intro leftTokens rightTokens alike
  have like := blind _ _ alike
  rcases read : left leftTokens with ⟨_ | found, tokens, reachedEnd⟩ <;> rw [read] at like
  · obtain ⟨otherTokens, otherEnd, readOther, _⟩ := like.of_none
    rw [attempt_of_none read, attempt_of_none readOther]
    exact ⟨.none, alike⟩
  · obtain ⟨other, otherTokens, otherEnd, readOther, related, rest⟩ := like.of_some
    rw [attempt_of_some read, attempt_of_some readOther]
    exact ⟨.some related, rest⟩

theorem Blind.orElse {relates : α → β → Prop} {left leftElse : Reading α}
    {right rightElse : Reading β} (first : Blind similar relates left right)
    (second : Blind similar relates leftElse rightElse) :
    Blind similar relates (left.orElse leftElse) (right.orElse rightElse) := by
  refine first.maybe.bind fun found other same => ?_
  cases same with
  | none => exact second
  | some related => exact .pure related

theorem dropWhile_like {relates : α → β → Prop} {test : α → Bool} {otherTest : β → Bool}
    (agree : ∀ a b, relates a b → test a = otherTest b) {left : List α} {right : List β}
    (related : List.Forall₂ relates left right) :
    List.Forall₂ relates (left.dropWhile test) (right.dropWhile otherTest) := by
  induction related with
  | nil => exact .nil
  | @cons a b _ _ first others ih =>
      rw [List.dropWhile_cons, List.dropWhile_cons, agree a b first]
      split
      · exact ih
      · exact .cons first others

theorem LikePhrase.isName {left right : Phrase} (like : LikePhrase similar left right) :
    ClassHead.isName left.segment = ClassHead.isName right.segment := by
  have kind : left.segment.kind = right.segment.kind := like.kind
  by_cases plain : left.kind = .plain
  · have text : left.segment.text = right.segment.text :=
      congrArg Token.spell (like.same (.inl plain))
    rw [ClassHead.isName, ClassHead.isName, kind, text]
  · have other : right.segment.kind ≠ .plain := kind ▸ plain
    simp [ClassHead.isName, kind, other]

theorem ofSegments?_like {left right : List Phrase}
    (alike : List.Forall₂ (LikePhrase similar) left right) :
    Option.Rel LikeHead (ClassHead.ofSegments? (left.map Phrase.segment))
      (ClassHead.ofSegments? (right.map Phrase.segment)) := by
  have names := dropWhile_like
    (fun a b like => congrArg (!·) (LikePhrase.isName like)) (List.forall₂_reverse_iff.mpr alike)
  simp only [ClassHead.ofSegments?, List.span_eq_takeWhile_dropWhile, ← List.map_reverse,
    List.dropWhile_map, Function.comp_def]
  have first := List.head?_dropWhile_not (fun phrase => !ClassHead.isName phrase.segment) left.reverse
  generalize left.reverse.dropWhile (fun phrase => !ClassHead.isName phrase.segment) = found,
    right.reverse.dropWhile (fun phrase => !ClassHead.isName phrase.segment) = other at names first ⊢
  cases names with
  | nil => exact .none
  | @cons name otherName _ _ like _ =>
      have named : ClassHead.isName name.segment = true := by simpa using first
      have plain : name.kind = .plain := of_decide_eq_true (Bool.and_eq_true_iff.mp named).1
      exact .some ⟨congrArg Token.spell (like.same (.inl plain)), rfl⟩

section

variable (similarity : Similarity similar)

include similarity

theorem token_blind :
    Blind similar (fun left right => similar left right ∧ left.kind.isTrivia = false) token token := by
  intro left right alike
  induction alike with
  | nil => exact ⟨.none, .nil⟩
  | skipLeft trivia _ ih =>
      rw [token, if_pos trivia]
      exact ih
  | @skipRight first left right trivia _ ih =>
      rw [show token (first :: right) = token right by rw [token, if_pos trivia]]
      exact ih
  | @cons first other left right significant related alike ih =>
      have otherSignificant : other.kind.isTrivia = false := similarity.kind related ▸ significant
      simp only [token, significant, otherSignificant, Bool.false_eq_true, if_false]
      exact ⟨.some ⟨related, significant⟩, alike⟩

theorem peek_blind : Blind similar Eq peek peek := by
  intro left right alike
  have like := token_blind similarity left right alike
  rcases read : token left with ⟨_ | found, tokens, reachedEnd⟩ <;> rw [read] at like
  · obtain ⟨otherTokens, otherEnd, readOther, rest⟩ := like.of_none
    rw [peek_of_none read, peek_of_none readOther]
    exact ⟨.some rfl, rest⟩
  · obtain ⟨other, otherTokens, otherEnd, readOther, ⟨related, significant⟩, rest⟩ := like.of_some
    rw [peek_of_some read, peek_of_some readOther]
    exact ⟨.some (by rw [similarity.kind related]), .cons significant related rest⟩

theorem eatIf_blind {accepts : Token → Bool}
    (respects : ∀ left right, similar left right → accepts left = accepts right) :
    Blind similar (fun left right => similar left right ∧ accepts left = true)
      (eatIf accepts) (eatIf accepts) := by
  intro left right alike
  have like := token_blind similarity left right alike
  rcases read : token left with ⟨_ | found, tokens, reachedEnd⟩ <;> rw [read] at like
  · obtain ⟨otherTokens, otherEnd, readOther, rest⟩ := like.of_none
    rw [eatIf_of_none read, eatIf_of_none readOther]
    exact ⟨.none, rest⟩
  · obtain ⟨other, otherTokens, otherEnd, readOther, ⟨related, significant⟩, rest⟩ := like.of_some
    rw [eatIf_of_some read, eatIf_of_some readOther, ← respects _ _ related]
    cases accepted : accepts found with
    | true => exact ⟨.some ⟨related, accepted⟩, rest⟩
    | false => exact ⟨.none, .cons significant related rest⟩

theorem eat_blind (kind : Token.Kind) :
    Blind similar (fun left right => similar left right ∧ left.kind = kind) (eat kind) (eat kind) := by
  refine (eatIf_blind similarity fun left right related => ?_).imp fun left right both => ?_
  · rw [similarity.kind related]
  · exact ⟨both.1, of_decide_eq_true both.2⟩

theorem maybe_eat_blind (kind : Token.Kind) :
    Blind similar (fun left right => left.isSome = right.isSome) (maybe (eat kind)) (maybe (eat kind)) := by
  refine (eat_blind similarity kind).maybe.imp fun left right same => ?_
  cases same with
  | none => rfl
  | some _ => rfl

theorem commaListWithin_blind {relates : α → β → Prop} {left : Reading α} {right : Reading β}
    (item : Blind similar relates left right) (room : Nat) :
    Blind similar (List.Forall₂ relates) (commaListWithin left room) (commaListWithin right room) := by
  induction room with
  | zero => exact .fail
  | succ room ih =>
      refine item.bind fun first other related => (eat_blind similarity .comma).maybe.bind ?_
      intro comma otherComma same
      cases same with
      | none => exact .pure (.cons related .nil)
      | some _ => exact ih.bind fun _ _ others => .pure (.cons related others)

theorem commaList_blind {relates : α → β → Prop} {left : Reading α} {right : Reading β}
    (item : Blind similar relates left right) :
    Blind similar (List.Forall₂ relates) (commaList left) (commaList right) :=
  commaListWithin_blind similarity item _

theorem nameBody_blind (last : Option Token.Kind) : Blind similar Eq (nameBody last) (nameBody last) := by
  intro left right alike
  induction alike generalizing last with
  | nil => exact ⟨.some rfl, .nil⟩
  | skipLeft trivia _ ih =>
      rw [nameBody, if_pos trivia]
      exact ih last
  | @skipRight first left right trivia _ ih =>
      rw [show nameBody last (first :: right) = nameBody last right by rw [nameBody, if_pos trivia]]
      exact ih last
  | @cons first other left right significant related alike ih =>
      simp only [nameBody, significant, Bool.false_eq_true, if_false, ← similarity.kind related]
      cases continues : Production.continuesName last first.kind with
      | true =>
          have unquoted : first.kind ≠ .quotation := by
            intro quoted
            rw [quoted] at continues
            cases last <;> simp [Production.continuesName] at continues
          obtain rfl := similarity.eq related unquoted
          exact (ih (some first.kind)).map fun name otherName same => by rw [same]
      | false => exact ⟨.some rfl, .cons significant related alike⟩

theorem qualifiedName_blind : Blind similar Eq qualifiedName qualifiedName :=
  (nameBody_blind similarity none).andThen fun _ => .ite .fail (.pure rfl)

theorem bracketBody_blind {opener closer : Token.Kind} (opens : opener.isTrivia = false)
    (closes : closer.isTrivia = false) (depth : Nat) :
    Blind similar (Alike similar) (bracketBody opener closer depth)
      (bracketBody opener closer depth) := by
  have inside : ∀ depth (kind : Token.Kind), kind.isTrivia = true →
      depthAfter? opener closer depth kind = some depth := by
    intro depth kind trivia
    have notOpener : kind ≠ opener := by
      rintro rfl
      simp [trivia] at opens
    have notCloser : kind ≠ closer := by
      rintro rfl
      simp [trivia] at closes
    simp [depthAfter?, notOpener, notCloser]
  intro left right alike
  induction alike generalizing depth with
  | nil => exact ⟨.none, .nil⟩
  | @skipLeft first left right trivia _ ih =>
      rw [bracketBody, inside depth _ trivia, ← Outcome.map_id (bracketBody opener closer depth right)]
      exact (ih depth).map fun _ _ body => .skipLeft trivia body
  | @skipRight first left right trivia _ ih =>
      rw [← Outcome.map_id (bracketBody opener closer depth left), bracketBody, inside depth _ trivia]
      exact (ih depth).map fun _ _ body => .skipRight trivia body
  | @cons first other left right significant related alike ih =>
      simp only [bracketBody, ← similarity.kind related]
      cases depthAfter? opener closer depth first.kind with
      | none => exact ⟨.some (.cons significant related .nil), alike⟩
      | some inner => exact (ih inner).map fun _ _ body => .cons significant related body

theorem bracketRun_blind {opener closer : Token.Kind} (opens : opener.isTrivia = false)
    (closes : closer.isTrivia = false) :
    Blind similar (Alike similar) (bracketRun opener closer) (bracketRun opener closer) := by
  refine (token_blind similarity).bind fun first other both => ?_
  rw [similarity.kind both.1]
  refine .ite ?_ .fail
  exact (bracketBody_blind similarity opens closes 0).bind fun _ _ body => .pure (.cons both.2 both.1 body)

theorem afterName_blind (name : List Token) (opener : Token.Kind) :
    Blind similar (LikePhrase similar) (afterName name opener) (afterName name opener) := by
  have plain : LikePhrase similar ⟨.plain, name⟩ ⟨.plain, name⟩ :=
    ⟨rfl, .refl similarity name, fun _ => rfl⟩
  have bracketed : ∀ {opener closer : Token.Kind} {kind : Segment.Kind},
      opener.isTrivia = false → closer.isTrivia = false → kind ≠ .plain → kind ≠ .symbol →
      Blind similar (LikePhrase similar)
        (bracketRun opener closer >>= fun run => return ⟨kind, name ++ run⟩)
        (bracketRun opener closer >>= fun run => return ⟨kind, name ++ run⟩) := by
    intro opener closer kind opens closes notPlain notSymbol
    refine (bracketRun_blind similarity opens closes).bind fun run other alike => .pure ⟨rfl, ?_, ?_⟩
    · exact (Alike.refl similarity name).append alike
    · rintro (isPlain | isSymbol)
      · exact absurd isPlain notPlain
      · exact absurd isSymbol notSymbol
  unfold afterName
  cases opener with
  | openParen => exact bracketed rfl rfl (by decide) (by decide)
  | less => exact bracketed rfl rfl (by decide) (by decide)
  | openBracket => exact bracketed rfl rfl (by decide) (by decide)
  | _ => exact .pure plain

theorem namedSegment_blind :
    Blind similar (LikePhrase similar) namedSegment namedSegment := by
  refine (qualifiedName_blind similarity).andThen fun name => (peek_blind similarity).andThen ?_
  intro opener
  cases opener with
  | none => exact .pure ⟨rfl, .refl similarity name, fun _ => rfl⟩
  | some opener => exact afterName_blind similarity name opener

theorem attributeSegment_blind :
    Blind similar (LikePhrase similar) attributeSegment attributeSegment :=
  (bracketRun_blind similarity rfl rfl).bind fun _ _ alike => .pure ⟨rfl, alike, by simp⟩

theorem symbolSegment_blind : Blind similar (LikePhrase similar) symbolSegment symbolSegment := by
  refine (eatIf_blind similarity fun left right related => ?_).bind fun symbol other both => ?_
  · rw [Production.isSymbol, Production.isSymbol, similarity.kind related]
  · have unquoted : symbol.kind ≠ .quotation := by
      intro quoted
      simp [Production.isSymbol, quoted] at both
    obtain rfl := similarity.eq both.1 unquoted
    exact .pure ⟨rfl, .refl similarity _, fun _ => rfl⟩

theorem segment_blind : Blind similar (LikePhrase similar) segment segment :=
  (namedSegment_blind similarity).attempt.orElse
    ((attributeSegment_blind similarity).attempt.orElse (symbolSegment_blind similarity).attempt)

theorem classNameTail_blind (name : Text) {left right : Reading ClassName}
    (argument : Blind similar Eq left right) :
    Blind similar Eq (classNameTail name left) (classNameTail name right) := by
  refine (maybe_eat_blind similarity .less).bind fun less otherLess same => ?_
  rw [← Option.not_isSome, ← Option.not_isSome, same]
  refine .ite (.pure rfl) ((maybe_eat_blind similarity .greater).bind fun greater otherGreater same => ?_)
  rw [same]
  refine .ite (.pure rfl) ((commaList_blind similarity argument).bind fun arguments others same => ?_)
  rw [List.forall₂_eq_eq_eq] at same
  exact (eat_blind similarity .greater).bind fun _ _ _ => .pure (by rw [same])

theorem classNameWithin_blind (room : Nat) :
    Blind similar Eq (classNameWithin room) (classNameWithin room) := by
  induction room with
  | zero => exact .fail
  | succ room ih => exact (qualifiedName_blind similarity).andThen fun _ => classNameTail_blind similarity _ ih

theorem className_blind : Blind similar Eq className className := by
  intro left right alike
  have like := classNameWithin_blind similarity (left.length + right.length + 1) left right alike
  rwa [classNameWithin_eq (by omega : left.length < _), classNameWithin_eq (by omega : right.length < _)]
    at like

theorem atHeadEnd_blind : Blind similar Eq atHeadEnd atHeadEnd := by
  refine (peek_blind similarity).andThen fun kind => ?_
  cases kind with
  | none => exact .fail
  | some _ => exact .pure rfl

theorem headSegments_blind (room : Nat) :
    Blind similar (List.Forall₂ (LikePhrase similar)) (headSegments room) (headSegments room) := by
  induction room with
  | zero => exact (atHeadEnd_blind similarity).andThen fun _ => .ite (.pure .nil) .fail
  | succ room ih =>
      exact (atHeadEnd_blind similarity).andThen fun _ => .ite (.pure .nil) <|
        (segment_blind similarity).bind fun _ _ first => ih.bind fun _ _ others => .pure (.cons first others)

theorem eatVirtual_blind : Blind similar Eq eatVirtual eatVirtual := by
  have word : Blind similar (fun left right => left.isSome = right.isSome)
      (maybe (eatIf fun token => token.kind = .word && token.text = "virtual".toList))
      (maybe (eatIf fun token => token.kind = .word && token.text = "virtual".toList)) := by
    refine (eatIf_blind similarity fun left right related => ?_).maybe.imp fun left right same => ?_
    · by_cases isWord : left.kind = .word
      · rw [similarity.eq related (by simp [isWord])]
      · simp [isWord, ← similarity.kind related]
    · cases same with
      | none => rfl
      | some _ => rfl
  exact word.bind fun _ _ same => .pure same

theorem base_blind : Blind similar Eq base base := by
  refine (eatVirtual_blind similarity).andThen fun early =>
    (eat_blind similarity .accessKeyword).maybe.bind fun access other same => ?_
  have equal : access.map (·.text) = other.map (·.text) := by
    cases same with
    | none => rfl
    | some both => rw [similarity.eq both.1 (by simp [both.2])]
  rw [equal]
  refine (Blind.ite (.pure rfl) (eatVirtual_blind similarity)).andThen fun _ => ?_
  exact (className_blind similarity).andThen fun _ => .pure rfl

theorem bases_blind : Blind similar Eq bases bases := by
  refine (token_blind similarity).bind fun opener other both => ?_
  rw [similarity.kind both.1]
  cases other.kind with
  | openBrace => exact .pure rfl
  | colon =>
      refine (commaList_blind similarity (base_blind similarity)).bind fun _ _ same => ?_
      rw [List.forall₂_eq_eq_eq] at same
      exact (eat_blind similarity .openBrace).bind fun _ _ _ => .pure (by rw [same])
  | _ => exact .fail

theorem classHead_blind : Blind similar LikeHead classHead classHead := by
  refine (eat_blind similarity .classKeyword).bind fun _ _ _ =>
    (headSegments_blind similarity _).bind fun phrases others alike => ?_
  have heads := ofSegments?_like alike
  generalize ClassHead.ofSegments? (phrases.map Phrase.segment) = left,
    ClassHead.ofSegments? (others.map Phrase.segment) = right at heads ⊢
  cases heads with
  | none => exact .fail
  | some like => exact (bases_blind similarity).andThen fun _ => .pure ⟨like.name, rfl⟩

end

end OutOfLine.Reading
