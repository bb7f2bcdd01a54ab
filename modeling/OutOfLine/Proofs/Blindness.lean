import OutOfLine.Proofs.Denotation
import OutOfLine.Proofs.Reading.Alike
import OutOfLine.Proofs.Scan

namespace OutOfLine

namespace Reading

variable {α β σ τ : Type} {similar : Token → Token → Prop}

/-- Declarations that agree in everything but the white space and comments of their phrases. -/
structure LikeDeclaration (similar : Token → Token → Prop) (left right : Phrase.Declaration) :
    Prop where
  declaratorIndex : left.declaratorIndex = right.declaratorIndex
  phrases : List.Forall₂ (LikePhrase similar) left.phrases right.phrases
  parameters : Option.Rel (List.Forall₂ (List.Forall₂ (LikePhrase similar)))
    left.parameters right.parameters

theorem loop_blind {related : σ → τ → Prop} {relates : α → β → Prop}
    {left : σ → Reading (σ ⊕ α)} {right : τ → Reading (τ ⊕ β)} (falls : Falls left)
    (fallsOther : Falls right)
    (step : ∀ a b, related a b → Blind similar (Sum.LiftRel related relates) (left a) (right b))
    {start : σ} {other : τ} (begins : related start other) :
    Blind similar relates (loop left start) (loop right other) := by
  refine fun leftTokens rightTokens => loop_induction falls (motive := fun state tokens outcome =>
    ∀ other, related state other → ∀ otherTokens, Alike similar tokens otherTokens →
      Like similar relates outcome (loop right other otherTokens))
    ?_ ?_ ?_ start leftTokens other begins rightTokens
  · intro state tokens rest reachedEnd read other begins otherTokens alike
    obtain ⟨otherRest, otherEnd, readOther, remains⟩ := (read ▸ step _ _ begins _ _ alike).of_none
    rw [loop_of_none readOther]
    exact ⟨.none, remains⟩
  · intro state tokens result rest reachedEnd read other begins otherTokens alike
    obtain ⟨found, otherRest, otherEnd, readOther, lifted, remains⟩ :=
      (read ▸ step _ _ begins _ _ alike).of_some
    cases lifted with
    | inr ends =>
        rw [loop_of_done readOther]
        exact ⟨.some ends, remains⟩
  · intro state tokens next rest reachedEnd later read ih other begins otherTokens alike
    obtain ⟨found, otherRest, otherEnd, readOther, lifted, remains⟩ :=
      (read ▸ step _ _ begins _ _ alike).of_some
    cases lifted with
    | inl goesOn =>
        have last := ih _ goesOn _ remains
        rw [loop_of_more fallsOther readOther]
        exact ⟨last.result, last.rest⟩

theorem LikePhrase.isAssignment {left right : Phrase} (like : LikePhrase similar left right) :
    left.isAssignment = right.isAssignment := by
  have kind : left.segment.kind = right.segment.kind := like.kind
  by_cases symbol : left.kind = .symbol
  · have text : left.segment.text = right.segment.text :=
      congrArg Token.spell (like.same (.inr symbol))
    rw [Phrase.isAssignment, Phrase.isAssignment, Segment.isAssignment, Segment.isAssignment, kind, text]
  · have other : right.segment.kind ≠ .symbol := kind ▸ symbol
    simp [Phrase.isAssignment, Segment.isAssignment, kind, other]

theorem isEmpty_like {relates : α → β → Prop} {left : List α} {right : List β}
    (related : List.Forall₂ relates left right) : left.isEmpty = right.isEmpty := by
  cases related with
  | nil => rfl
  | cons _ _ => rfl

section

variable (similarity : Similarity similar)

include similarity

theorem skipDefault_blind (depth : Nat) :
    Blind similar Eq (skipDefault depth) (skipDefault depth) := by
  intro left right alike
  induction alike generalizing depth with
  | nil => exact ⟨.none, .nil⟩
  | skipLeft trivia _ ih =>
      rw [skipDefault, if_pos trivia]
      exact ih depth
  | @skipRight first left right trivia _ ih =>
      rw [show skipDefault depth (first :: right) = skipDefault depth right by
        rw [skipDefault, if_pos trivia]]
      exact ih depth
  | @cons first other left right significant related alike ih =>
      simp only [skipDefault, significant, Bool.false_eq_true, if_false, ← similarity.kind related]
      cases nestingAfter? depth first.kind with
      | none => exact ⟨.some rfl, .cons significant related alike⟩
      | some inner => exact ih inner

theorem parameterStep_blind {read other : List Phrase}
    (alike : List.Forall₂ (LikePhrase similar) read other) :
    Blind similar
      (Sum.LiftRel (List.Forall₂ (LikePhrase similar)) (List.Forall₂ (LikePhrase similar)))
      (parameterStep read) (parameterStep other) := by
  have backwards := List.forall₂_reverse_iff.mpr alike
  have whole : Blind similar (List.Forall₂ (LikePhrase similar)) (parameterOf read.reverse)
      (parameterOf other.reverse) := by
    rw [parameterOf, parameterOf, isEmpty_like backwards]
    exact .ite .fail (.pure backwards)
  refine (peek_blind similarity).andThen fun kind => ?_
  cases kind with
  | none => exact .fail
  | some kind =>
      refine .ite (whole.bind fun _ _ parameter => .pure (.inr parameter)) ?_
      refine (segment_blind similarity).bind fun phrase otherPhrase like => ?_
      rw [like.isAssignment, isEmpty_like alike]
      refine .ite ?_ (.pure (.inl (.cons like alike)))
      exact (skipDefault_blind similarity 0).andThen fun _ =>
        whole.bind fun _ _ parameter => .pure (.inr parameter)

theorem parameter_blind :
    Blind similar (List.Forall₂ (LikePhrase similar)) parameter parameter :=
  loop_blind parameterStep_falls parameterStep_falls
    (fun _ _ alike => parameterStep_blind similarity alike) .nil

theorem declaratorParameters_blind :
    Blind similar (List.Forall₂ (List.Forall₂ (LikePhrase similar))) declaratorParameters
      declaratorParameters := by
  refine (qualifiedName_blind similarity).andThen fun _ =>
    (eat_blind similarity .openParen).bind fun _ _ _ =>
      (maybe_eat_blind similarity .closeParen).bind fun close otherClose same => ?_
  rw [same]
  refine .ite (.pure .nil) ?_
  exact (commaList_blind similarity (parameter_blind similarity)).bind fun _ _ alike =>
    (eat_blind similarity .closeParen).bind fun _ _ _ => .pure alike

theorem isolated_like {relates : α → β → Prop} {left : Reading α} {right : Reading β}
    (blind : Blind similar relates left right) {tokens others : List Token}
    (alike : Alike similar tokens others) :
    Option.Rel relates (isolated left tokens) (isolated right others) := by
  obtain ⟨result, rest⟩ := blind _ _ alike
  have last := (token_blind similarity _ _ rest).result
  unfold isolated
  generalize (left tokens).result = found, (right others).result = other at result ⊢
  generalize (token (left tokens).rest).result = more, (token (right others).rest).result = otherMore
    at last ⊢
  cases result with
  | none => exact .none
  | some related =>
      cases last with
      | none => exact .some related
      | some _ => exact .none

theorem readableDeclarator_like {left right : List (Phrase × Nat)}
    (alike : List.Forall₂ (fun a b => LikePhrase similar a.1 b.1 ∧ a.2 = b.2) left right) :
    Option.Rel (fun a b => a.1 = b.1 ∧ List.Forall₂ (List.Forall₂ (LikePhrase similar)) a.2 b.2)
      (readableDeclarator left) (readableDeclarator right) := by
  induction alike with
  | nil => exact .none
  | @cons a b _ _ first _ ih =>
      have tried := isolated_like similarity (declaratorParameters_blind similarity) first.1.tokens
      unfold readableDeclarator
      generalize isolated declaratorParameters a.1.tokens = found,
        isolated declaratorParameters b.1.tokens = other at tried ⊢
      cases tried with
      | none => exact ih
      | some parameters => exact .some ⟨first.2, parameters⟩

theorem chooseDeclarator_like {left right : List Phrase}
    (alike : List.Forall₂ (LikePhrase similar) left right) :
    (chooseDeclarator left).1 = (chooseDeclarator right).1 ∧
      Option.Rel (List.Forall₂ (List.Forall₂ (LikePhrase similar))) (chooseDeclarator left).2
        (chooseDeclarator right).2 := by
  have candidates : List.Forall₂ (fun a b => LikePhrase similar a.1 b.1 ∧ a.2 = b.2)
      (declaratorCandidates left) (declaratorCandidates right) := by
    refine List.rel_reverse (List.rel_filter ?_ (zipIdx_related alike 0))
    intro a b both
    simp [both.1.kind]
  have readable := readableDeclarator_like similarity candidates
  unfold chooseDeclarator
  generalize declaratorCandidates left = found, declaratorCandidates right = other
    at candidates readable ⊢
  generalize readableDeclarator found = chosen, readableDeclarator other = otherChosen at readable ⊢
  cases readable with
  | some both => exact ⟨congrArg some both.1, .some both.2⟩
  | none =>
      cases candidates with
      | nil => exact ⟨rfl, .none⟩
      | cons first _ => exact ⟨congrArg some first.2, .none⟩

theorem segmentsStep_blind {read other : List Phrase}
    (alike : List.Forall₂ (LikePhrase similar) read other) :
    Blind similar
      (Sum.LiftRel (List.Forall₂ (LikePhrase similar)) (List.Forall₂ (LikePhrase similar)))
      (segmentsStep read) (segmentsStep other) := by
  refine (segment_blind similarity).bind fun phrase otherPhrase like =>
    (eat_blind similarity .semicolon).maybe.bind fun mark otherMark same => ?_
  cases same with
  | none => exact .pure (.inl (.cons like alike))
  | some _ => exact .pure (.inr (List.forall₂_reverse_iff.mpr (.cons like alike)))

theorem declaration_blind : Blind similar (LikeDeclaration similar) declaration declaration := by
  have segments : Blind similar (List.Forall₂ (LikePhrase similar)) segmentsThroughSemicolon
      segmentsThroughSemicolon :=
    loop_blind segmentsStep_falls segmentsStep_falls (fun _ _ alike => segmentsStep_blind similarity alike) .nil
  refine Blind.attempt (segments.bind fun phrases others alike => .pure ?_)
  have chosen := chooseDeclarator_like similarity alike
  exact ⟨chosen.1, alike, chosen.2⟩

theorem declarationsStep_blind {read other : List Phrase.Declaration}
    (alike : List.Forall₂ (LikeDeclaration similar) read other) :
    Blind similar
      (Sum.LiftRel (List.Forall₂ (LikeDeclaration similar)) (List.Forall₂ (LikeDeclaration similar)))
      (declarationsStep read) (declarationsStep other) := by
  refine (declaration_blind similarity).maybe.bind fun found otherFound same => ?_
  cases same with
  | none => exact .pure (.inr (List.forall₂_reverse_iff.mpr alike))
  | some like => exact .pure (.inl (.cons like alike))

theorem declarations_blind :
    Blind similar (List.Forall₂ (LikeDeclaration similar)) declarations declarations := by
  have all : Blind similar (List.Forall₂ (LikeDeclaration similar)) (loop declarationsStep [])
      (loop declarationsStep []) :=
    loop_blind declarationsStep_falls declarationsStep_falls
      (fun _ _ alike => declarationsStep_blind similarity alike) .nil
  refine all.bind fun found other alike => ?_
  rw [isEmpty_like alike]
  exact .ite .fail (.pure alike)

end

end Reading

namespace Scan

open Reading

inductive LikeStep : Step → Step → Prop where
  | head {left right : ClassHead} (like : LikeHead left right) : LikeStep (.head left) (.head right)
  | opened : LikeStep .opened .opened
  | closed : LikeStep .closed .closed
  | passed : LikeStep .passed .passed

/-- The steps of two scans are alike up to tokens that one of them passes over. -/
inductive SameCourse : List Step → List Step → Prop where
  | nil : SameCourse [] []
  | passLeft {left right : List Step} (course : SameCourse left right) :
      SameCourse (.passed :: left) right
  | passRight {left right : List Step} (course : SameCourse left right) :
      SameCourse left (.passed :: right)
  | cons {step other : Step} {left right : List Step} (like : LikeStep step other)
      (course : SameCourse left right) : SameCourse (step :: left) (other :: right)

variable {similar : Token → Token → Prop}

theorem advanceTokens?_trivia {first : Token} (trivia : first.kind.isTrivia = true)
    (tokens : List Token) : advanceTokens? (first :: tokens) = some (.passed, tokens) := by
  rw [advanceTokens?]
  cases kind : first.kind <;> simp_all [Token.Kind.isTrivia]

theorem advanceTokens?_like (similarity : Similarity similar) {first other : Token}
    {left right : List Token} (significant : first.kind.isTrivia = false)
    (related : similar first other) (alike : Alike similar left right) :
    ∃ step otherStep rest otherRest, advanceTokens? (first :: left) = some (step, rest) ∧
      advanceTokens? (other :: right) = some (otherStep, otherRest) ∧ LikeStep step otherStep ∧
      Alike similar rest otherRest := by
  have like := classHead_blind similarity _ _ (.cons significant related alike)
  simp only [advanceTokens?, ← similarity.kind related]
  cases first.kind with
  | classKeyword =>
      rcases read : classHead (first :: left) with ⟨_ | found, tokens, reachedEnd⟩ <;> rw [read] at like
      · obtain ⟨otherTokens, otherEnd, readOther, _⟩ := like.of_none
        simp only [readOther]
        exact ⟨_, _, _, _, rfl, rfl, .passed, alike⟩
      · obtain ⟨otherFound, otherTokens, otherEnd, readOther, heads, rest⟩ := like.of_some
        simp only [readOther]
        exact ⟨_, _, _, _, rfl, rfl, .head heads, rest⟩
  | openBrace => exact ⟨_, _, _, _, rfl, rfl, .opened, alike⟩
  | closeBrace => exact ⟨_, _, _, _, rfl, rfl, .closed, alike⟩
  | _ => exact ⟨_, _, _, _, rfl, rfl, .passed, alike⟩

theorem steps_course (similarity : Similarity similar) {text other : Text}
    (alike : Alike similar (Token.lex text) (Token.lex other)) :
    SameCourse (steps text) (steps other) := by
  induction size : (Token.lex text).length + (Token.lex other).length using Nat.strongRecOn
    generalizing text other with
  | ind size ih =>
      generalize lexed : Token.lex text = tokens, lexedOther : Token.lex other = otherTokens at alike
      cases alike with
      | nil =>
          rw [Token.lex_eq_nil_iff.mp lexed, Token.lex_eq_nil_iff.mp lexedOther, steps_nil]
          exact .nil
      | skipLeft trivia alike =>
          obtain ⟨after, next, rest⟩ := advance?_of_tokens (lexed ▸ advanceTokens?_trivia trivia _)
          rw [steps_of_advance? next]
          refine .passLeft (ih _ ?_ (by rwa [rest, lexedOther]) rfl)
          rw [← size, rest, lexed, lexedOther, List.length_cons]
          omega
      | skipRight trivia alike =>
          obtain ⟨after, next, rest⟩ :=
            advance?_of_tokens (lexedOther ▸ advanceTokens?_trivia trivia _)
          rw [steps_of_advance? next]
          refine .passRight (ih _ ?_ (by rwa [rest, lexed]) rfl)
          rw [← size, rest, lexed, lexedOther, List.length_cons]
          omega
      | cons significant related alike =>
          obtain ⟨step, otherStep, rest, otherRest, advanced, otherAdvanced, like, onward⟩ :=
            advanceTokens?_like similarity significant related alike
          have shorter := advanceTokens?_shorter advanced
          have otherShorter := advanceTokens?_shorter otherAdvanced
          obtain ⟨after, next, rfl⟩ := advance?_of_tokens (lexed ▸ advanced)
          obtain ⟨otherAfter, otherNext, rfl⟩ := advance?_of_tokens (lexedOther ▸ otherAdvanced)
          rw [steps_of_advance? next, steps_of_advance? otherNext]
          refine .cons like (ih _ ?_ onward rfl)
          rw [← size, lexed, lexedOther]
          omega

theorem levelsAfter_course {taken otherTaken : List Step} (course : SameCourse taken otherTaken)
    {levels others : List (Option ClassHead)}
    (like : List.Forall₂ (Option.Rel LikeHead) levels others) :
    List.Forall₂ (Option.Rel LikeHead) (levelsAfter levels taken) (levelsAfter others otherTaken) := by
  induction course generalizing levels others with
  | nil => exact like
  | passLeft _ ih => exact ih like
  | passRight _ ih => exact ih like
  | cons step _ ih =>
      cases step with
      | head heads => exact ih (.cons (.some heads) like)
      | opened => exact ih (.cons .none like)
      | passed => exact ih like
      | closed =>
          refine ih ?_
          cases like with
          | nil => exact .nil
          | cons _ like => exact like

theorem findSome?_like {levels others : List (Option ClassHead)}
    (like : List.Forall₂ (Option.Rel LikeHead) levels others) :
    Option.Rel LikeHead (levels.findSome? id) (others.findSome? id) := by
  induction like with
  | nil => exact .none
  | cons first _ ih =>
      cases first with
      | none => exact ih
      | some heads => exact .some heads

theorem enclosingClass_like (similarity : Similarity similar) {text other : Text}
    (alike : Alike similar (Token.lex text) (Token.lex other)) (log otherLog : Log)
    (within : (steps text).length ≤ Production.scanLimit)
    (otherWithin : (steps other).length ≤ Production.scanLimit) :
    Option.Rel LikeHead (enclosingClass text log).1 (enclosingClass other otherLog).1 := by
  rw [enclosingClass_eq_steps, enclosingClass_eq_steps, if_pos within, if_pos otherWithin]
  exact findSome?_like (levelsAfter_course (steps_course similarity alike) .nil)

end Scan

/-- Tokens of one kind and, unless they are strings, of one text. -/
def Token.SameButStrings (left right : Token) : Prop :=
  left.kind = right.kind ∧ (left.kind ≠ .quotation → left.text = right.text)

instance : DecidableRel Token.SameButStrings :=
  fun left right => inferInstanceAs (Decidable (left.kind = right.kind ∧
    (left.kind ≠ .quotation → left.text = right.text)))

/-- Declarations of the same shape, with the same significant tokens in every part. -/
structure Declaration.SameTokens (left right : Declaration) : Prop where
  declaratorIndex : left.declaratorIndex = right.declaratorIndex
  segments : List.Forall₂ (fun a b => a.kind = b.kind ∧
    Token.significant (Token.lex a.text) = Token.significant (Token.lex b.text))
    left.segments right.segments
  parameters : Option.Rel (List.Forall₂ fun a b =>
    Token.significant (Token.lex a) = Token.significant (Token.lex b)) left.parameters right.parameters

namespace Reading

theorem similarity_sameButStrings : Similarity Token.SameButStrings where
  refl _ := ⟨rfl, fun _ => rfl⟩
  kind same := same.1
  text same := same.2

theorem significant_parameter {left right : List Phrase}
    (alike : List.Forall₂ (LikePhrase Eq) left right) :
    Phrase.significant left = Phrase.significant right := by
  unfold Phrase.significant
  induction alike with
  | nil => rfl
  | cons first _ ih => rw [List.flatMap_cons, List.flatMap_cons, first.tokens.significant_eq, ih]

theorem optionRel_through {α β γ δ : Type} {relates : α → β → Prop} {like : β → γ → Prop}
    {relatesOther : δ → γ → Prop} {same : α → δ → Prop}
    (through : ∀ a b c d, relates a b → like b c → relatesOther d c → same a d)
    {a : Option α} {b : Option β} {c : Option γ} {d : Option δ} (left : Option.Rel relates a b)
    (between : Option.Rel like b c) (right : Option.Rel relatesOther d c) : Option.Rel same a d := by
  cases left with
  | none =>
      cases between
      cases right
      exact .none
  | some first =>
      cases between with
      | some middle =>
          cases right with
          | some last => exact .some (through _ _ _ _ first middle last)

theorem forall₂_through {α β γ δ : Type} {relates : α → β → Prop} {like : β → γ → Prop}
    {relatesOther : δ → γ → Prop} {same : α → δ → Prop}
    (through : ∀ a b c d, relates a b → like b c → relatesOther d c → same a d)
    {as : List α} {bs : List β} {cs : List γ} {ds : List δ} (left : List.Forall₂ relates as bs)
    (between : List.Forall₂ like bs cs) (right : List.Forall₂ relatesOther ds cs) :
    List.Forall₂ same as ds := by
  induction left generalizing cs ds with
  | nil =>
      cases between
      cases right
      exact .nil
  | cons first _ ih =>
      cases between with
      | cons middle others =>
          cases right with
          | cons last lasts => exact .cons (through _ _ _ _ first middle last) (ih others lasts)

theorem sameTokens_of_like {left right : OutOfLine.Declaration} {seen other : Phrase.Declaration}
    (spells : Phrase.SpellsDeclaration left seen) (like : LikeDeclaration Eq seen other)
    (spellsOther : Phrase.SpellsDeclaration right other) : Declaration.SameTokens left right := by
  refine ⟨?_, ?_, ?_⟩
  · rw [spells.declaratorIndex, like.declaratorIndex, spellsOther.declaratorIndex]
  · refine forall₂_through ?_ spells.segments like.phrases spellsOther.segments
    intro segment phrase otherPhrase otherSegment written alike otherWritten
    refine ⟨by rw [written.kind, alike.kind, otherWritten.kind], ?_⟩
    rw [written.settled.lex_eq, otherWritten.settled.lex_eq, alike.tokens.significant_eq]
  · refine optionRel_through ?_ spells.parameters like.parameters spellsOther.parameters
    intro texts phrases otherPhrases otherTexts left between right
    refine forall₂_through ?_ left between right
    intro text phrases otherPhrases otherText written alike otherWritten
    rw [written.denotes.eq, otherWritten.denotes.eq, significant_parameter alike]

end Reading

/-- Comments, white space and the contents of strings have no influence on what is recognised. -/
theorem recognition_blind :
    (∀ text other log otherLog, List.Forall₂ Token.SameButStrings
        (Token.significant (Token.lex text)) (Token.significant (Token.lex other)) →
      (Scan.steps text).length ≤ Production.scanLimit →
      (Scan.steps other).length ≤ Production.scanLimit →
      Option.Rel (fun head otherHead => head.name = otherHead.name ∧ head.bases = otherHead.bases)
        (enclosingClass text log).1 (enclosingClass other otherLog).1) ∧
    (∀ text other log otherLog,
      Token.significant (Token.lex text) = Token.significant (Token.lex other) →
      Option.Rel (List.Forall₂ Declaration.SameTokens)
        (Production.declarations (.ofText text log)).1
        (Production.declarations (.ofText other otherLog)).1) := by
  constructor
  · intro text other log otherLog matched within otherWithin
    have like := Scan.enclosingClass_like Reading.similarity_sameButStrings
      (Reading.alike_of_significant matched) log otherLog within otherWithin
    generalize (enclosingClass text log).1 = head, (enclosingClass other otherLog).1 = otherHead
      at like ⊢
    cases like with
    | none => exact .none
    | some heads => exact .some ⟨heads.name, heads.bases⟩
  · intro text other log otherLog same
    have alike : Reading.Alike Eq (Token.lex text) (Token.lex other) :=
      Reading.alike_of_significant (by rw [List.forall₂_eq_eq_eq, same])
    have like := (Reading.declarations_blind Reading.similarity_eq _ _ alike).result
    have reads := (Reading.declarations_reads (.ofText text log)).result
    have readsOther := (Reading.declarations_reads (.ofText other otherLog)).result
    refine Reading.optionRel_through ?_ reads like readsOther
    intro found seen otherSeen otherFound left between right
    refine Reading.forall₂_through ?_ left between right
    intro declaration phrased otherPhrased otherDeclaration spells similar spellsOther
    exact Reading.sameTokens_of_like spells similar spellsOther

theorem recognition_blind_commented :
    let text := "class A : B \x7b f(\"\x7d\");".toList
    let other := "/* class X \x7b */ class A:B\x7b f ( \"class Y \x7b\" ) ; // \x7d".toList
    let selection := "int f(int a = 1);".toList
    let otherSelection := "int /* ; */ f( int a=1 ) ;".toList
    (∃ head otherHead, (enclosingClass text []).1 = some head ∧
      (enclosingClass other []).1 = some otherHead ∧
      head.name = otherHead.name ∧ head.bases = otherHead.bases) ∧
    ∃ found otherFound, (Production.declarations (.ofText selection [])).1 = some found ∧
      (Production.declarations (.ofText otherSelection [])).1 = some otherFound ∧
      List.Forall₂ Declaration.SameTokens found otherFound := by
  intro text other selection otherSelection
  have matched : List.Forall₂ Token.SameButStrings (Token.significant (Token.lex text))
      (Token.significant (Token.lex other)) := by decide +kernel
  have same : Token.significant (Token.lex selection) =
      Token.significant (Token.lex otherSelection) := by decide +kernel
  have heads := recognition_blind.1 text other [] [] matched (by decide +kernel) (by decide +kernel)
  have declarations := recognition_blind.2 selection otherSelection [] [] same
  have found : (enclosingClass text []).1.isSome := by decide +kernel
  have read : (Production.declarations (.ofText selection [])).1.isSome := by decide +kernel
  constructor
  · generalize (enclosingClass text []).1 = head, (enclosingClass other []).1 = otherHead
      at heads found ⊢
    cases heads with
    | none => simp at found
    | some like => exact ⟨_, _, rfl, rfl, like⟩
  · generalize (Production.declarations (.ofText selection [])).1 = found,
      (Production.declarations (.ofText otherSelection [])).1 = otherFound at declarations read ⊢
    cases declarations with
    | none => simp at read
    | some like => exact ⟨_, _, rfl, rfl, like⟩

end OutOfLine
