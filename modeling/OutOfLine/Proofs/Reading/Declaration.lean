import OutOfLine.Declaration.Parser
import OutOfLine.Proofs.Reading.Loop
import OutOfLine.Proofs.Reading.Segment

namespace OutOfLine

namespace Phrase

def isAssignment (phrase : Phrase) : Bool :=
  phrase.segment.isAssignment

/-- The tokens of phrases without white space and comments. -/
def significant (phrases : List Phrase) : List Token :=
  phrases.flatMap fun phrase => Token.significant phrase.tokens

/-- A declaration in phrases. -/
structure Declaration where
  declaratorIndex : Option Nat
  phrases : List Phrase
  parameters : Option (List (List Phrase))

def SpellsWord (text : Text) (phrase : Phrase) : Prop :=
  Token.Settled text phrase.tokens

/-- A parameter is written as its words with single spaces between them. -/
def SpellsParameter (text : Text) (phrases : List Phrase) : Prop :=
  ∃ words, List.Forall₂ SpellsWord words phrases ∧ text = Text.join [' '] words

structure SpellsDeclaration (declaration : OutOfLine.Declaration) (seen : Phrase.Declaration) :
    Prop where
  declaratorIndex : declaration.declaratorIndex = seen.declaratorIndex
  segments : List.Forall₂ Spells declaration.segments seen.phrases
  parameters : Option.Rel (List.Forall₂ SpellsParameter) declaration.parameters seen.parameters

/-- The text of a parameter. -/
def joined (phrases : List Phrase) : Text :=
  Segment.joinTexts (phrases.map segment)

/-- The declaration in writing. -/
def Declaration.written (seen : Phrase.Declaration) : OutOfLine.Declaration :=
  ⟨seen.declaratorIndex, seen.phrases.map segment, seen.parameters.map (List.map joined)⟩

theorem eq_map_of_related {α β : Type} {relates : α → β → Prop} {transform : β → α}
    (same : ∀ left right, relates left right → left = transform right) {left : List α}
    {right : List β} (related : List.Forall₂ relates left right) : left = right.map transform := by
  rw [← List.forall₂_eq_eq_eq]
  exact List.forall₂_map_right_iff.mpr (related.imp same)

theorem SpellsParameter.eq_joined {text : Text} {phrases : List Phrase}
    (spells : SpellsParameter text phrases) : text = joined phrases := by
  obtain ⟨words, spelled, rfl⟩ := spells
  have same : words = phrases.map fun phrase => Token.spell phrase.tokens :=
    eq_map_of_related (fun _ _ settled => settled.spell_eq.symm) spelled
  rw [joined, Segment.joinTexts, List.map_map, same]
  rfl

theorem SpellsDeclaration.eq_written {declaration : OutOfLine.Declaration} {seen : Phrase.Declaration}
    (spells : SpellsDeclaration declaration seen) : declaration = seen.written := by
  have parameters : declaration.parameters = seen.parameters.map (List.map joined) := by
    have related := spells.parameters
    generalize declaration.parameters = texts, seen.parameters = lists at related ⊢
    cases related with
    | none => rfl
    | some spelled =>
        exact congrArg some (eq_map_of_related (fun _ _ spells => spells.eq_joined) spelled)
  rw [Declaration.written, ← segments_eq spells.segments, ← parameters, ← spells.declaratorIndex]

end Phrase

namespace Reading

open OutOfLine.Parser

/-- How many brackets are open after one more token of a default value, or nothing if the token
ends the parameter. -/
def nestingAfter? (depth : Nat) (kind : Token.Kind) : Option Nat :=
  if Production.opensNesting kind then some (depth + 1)
  else
    match depth with
    | 0 => if Production.endsParameter kind then none else some 0
    | depth + 1 => some (if Production.closesNesting kind then depth else depth + 1)

def skipDefault : Nat → Reading Unit
  | _, [] => ⟨none, [], true⟩
  | depth, first :: tokens =>
      if first.kind.isTrivia then skipDefault depth tokens
      else
        match nestingAfter? depth first.kind with
        | none => ⟨some (), first :: tokens, false⟩
        | some depth => skipDefault depth tokens

def parameterOf (phrases : List Phrase) : Reading (List Phrase) :=
  if phrases.isEmpty then fail else return phrases

/-- Reads one more phrase of a parameter, or ends it. -/
def parameterAt (read : List Phrase) (kind : Token.Kind) : Reading (List Phrase ⊕ List Phrase) := do
  if Production.endsParameter kind then
    return .inr (← parameterOf read.reverse)
  let phrase ← segment
  if phrase.isAssignment && !read.isEmpty then
    let _ ← skipDefault 0
    return .inr (← parameterOf read.reverse)
  return .inl (phrase :: read)

def parameterStep (read : List Phrase) : Reading (List Phrase ⊕ List Phrase) := do
  match ← peek with
  | none => fail
  | some kind => parameterAt read kind

def parameter : Reading (List Phrase) :=
  loop parameterStep []

def declaratorParameters : Reading (List (List Phrase)) := do
  let _ ← qualifiedName
  let _ ← eat .openParen
  if (← maybe (eat .closeParen)).isSome then
    return []
  let parameters ← commaList parameter
  let _ ← eat .closeParen
  return parameters

/-- What a reading finds in tokens all of which it has to use up. -/
def isolated {α : Type} (reading : Reading α) (tokens : List Token) : Option α :=
  match (reading tokens).result with
  | none => none
  | some result => if (token (reading tokens).rest).result.isNone then some result else none

def readableDeclarator : List (Phrase × Nat) → Option (Nat × List (List Phrase))
  | [] => none
  | (candidate, index) :: others =>
      match isolated declaratorParameters candidate.tokens with
      | some parameters => some (index, parameters)
      | none => readableDeclarator others

def declaratorCandidates (phrases : List Phrase) : List (Phrase × Nat) :=
  (phrases.zipIdx.filter (·.1.kind = .paren)).reverse

def chooseDeclarator (phrases : List Phrase) : Option Nat × Option (List (List Phrase)) :=
  match readableDeclarator (declaratorCandidates phrases) with
  | some (index, parameters) => (some index, some parameters)
  | none => ((declaratorCandidates phrases).head?.map (·.2), none)

def segmentsStep (read : List Phrase) : Reading (List Phrase ⊕ List Phrase) := do
  let phrase ← segment
  match ← maybe (eat .semicolon) with
  | some _ => return .inr (phrase :: read).reverse
  | none => return .inl (phrase :: read)

def segmentsThroughSemicolon : Reading (List Phrase) :=
  loop segmentsStep []

def declaration : Reading Phrase.Declaration :=
  attempt do
    let phrases ← segmentsThroughSemicolon
    let chosen := chooseDeclarator phrases
    return ⟨chosen.1, phrases, chosen.2⟩

def declarationsStep (read : List Phrase.Declaration) :
    Reading (List Phrase.Declaration ⊕ List Phrase.Declaration) := do
  match ← maybe declaration with
  | some found => return .inl (found :: read)
  | none => return .inr read.reverse

def declarations : Reading (List Phrase.Declaration) := do
  let found ← loop declarationsStep []
  if found.isEmpty then fail else return found

theorem skipDefault_eq (depth : Nat) (tokens : List Token) :
    skipDefault depth tokens =
      match token tokens with
      | ⟨none, rest, reachedEnd⟩ => ⟨none, rest, reachedEnd⟩
      | ⟨some found, rest, reachedEnd⟩ =>
          match nestingAfter? depth found.kind with
          | none => ⟨some (), found :: rest, reachedEnd⟩
          | some depth => skipDefault depth rest := by
  induction tokens with
  | nil => rfl
  | cons first tokens ih =>
      rw [skipDefault, token]
      by_cases trivia : first.kind.isTrivia = true
      · rw [if_pos trivia, if_pos trivia, ih]
      · rw [if_neg trivia, if_neg trivia]

theorem skipDefault_reads (depth : Nat) : Reads Eq (Production.skipDefault depth) (skipDefault depth) := by
  intro parser
  rw [skipDefault_eq]
  fun_induction Production.skipDefault depth parser with
  | case1 depth parser after ended =>
      obtain ⟨none, empty⟩ := token_of_ended ended
      rw [none]
      exact ⟨.none, by simp [empty]⟩
  | case2 depth parser found after first opens ih =>
      have goesOn : nestingAfter? depth found.kind = some (depth + 1) := by
        simp [nestingAfter?, opens]
      simp only [(token_of_found first).1, goesOn]
      rwa [skipDefault_eq]
  | case3 parser found after first opens ends =>
      obtain ⟨read, again⟩ := token_of_found first
      have stops : nestingAfter? 0 found.kind = none := by simp [nestingAfter?, opens, ends]
      simp only [read, stops]
      exact ⟨.some rfl, by rw [remaining_pushBack]; exact again⟩
  | case4 parser found after first opens ends ih =>
      have goesOn : nestingAfter? 0 found.kind = some 0 := by simp [nestingAfter?, opens, ends]
      simp only [(token_of_found first).1, goesOn]
      rwa [skipDefault_eq]
  | case5 parser found after first opens depth ih =>
      have goesOn : nestingAfter? (depth + 1) found.kind =
          some (if Production.closesNesting found.kind then depth else depth + 1) := by
        simp [nestingAfter?, opens]
      simp only [(token_of_found first).1, goesOn]
      rwa [skipDefault_eq]

theorem skipDefault_steady (depth : Nat) : Steady (skipDefault depth) := by
  constructor
  · intro tokens
    induction tokens generalizing depth with
    | nil => exact List.suffix_refl _
    | cons first tokens ih =>
        unfold skipDefault
        split
        · exact (ih depth).trans (List.suffix_cons _ _)
        split
        · exact List.suffix_refl _
        · exact (ih _).trans (List.suffix_cons _ _)
  · intro tokens more ended
    induction tokens generalizing depth with
    | nil => simp [skipDefault] at ended
    | cons first tokens ih =>
        rw [List.cons_append]
        unfold skipDefault at ended ⊢
        by_cases trivia : first.kind.isTrivia = true
        · simp only [trivia, if_true] at ended ⊢
          exact ih depth ended
        · simp only [trivia, if_false, Bool.false_eq_true] at ended ⊢
          cases step : nestingAfter? depth first.kind with
          | none => rfl
          | some inner =>
              simp only [step] at ended
              exact ih inner ended

theorem parameterOf_steady (phrases : List Phrase) : Steady (parameterOf phrases) :=
  .ite .fail (.pure _)

theorem parameterStep_falls : Falls parameterStep := by
  refine fun read => peek_steady.bindOn fun kind => ?_
  cases kind with
  | none => exact .fail
  | some kind =>
      refine .ite ((parameterOf_steady _).bindOn fun _ => .pure rfl) ?_
      exact (segment_shortens.bind fun phrase => .ite
        ((skipDefault_steady 0).bind fun _ => (parameterOf_steady _).bind fun _ => .pure _)
        (.pure _)).on _

theorem segmentsStep_shortens (read : List Phrase) : Shortens (segmentsStep read) := by
  refine segment_shortens.bind fun phrase => (eat_steady .semicolon).maybe.bind fun mark => ?_
  cases mark with
  | none => exact .pure _
  | some _ => exact .pure _

theorem segmentsStep_falls : Falls segmentsStep :=
  fun read => (segmentsStep_shortens read).on _

theorem declaration_shortens : Shortens declaration :=
  ((loop_shortens segmentsStep_shortens []).bind fun _ => .pure _).attempt

theorem declarationsStep_falls : Falls declarationsStep := by
  intro read tokens result found goesOn
  obtain ⟨seen, rest, _, tried, found, same⟩ := bind_result found
  unfold declarationsStep
  rw [same]
  cases seen with
  | none =>
      cases found
      simp at goesOn
  | some first =>
      have shorter := declaration_shortens tokens first
      simp only [maybe, Outcome.mk.injEq, Option.some.injEq] at tried
      rw [tried.2.1] at shorter
      exact shorter tried.1

end Reading

namespace Production

def defaultValue : Production Unit :=
  skipDefault 0

/-- One round of `parameterBody`, in front of a token of the kind. -/
def parameterAt (read : List Text) (kind : Token.Kind) : Production (List Text ⊕ Text) := do
  if endsParameter kind then
    return .inr (← parameterOf read.reverse)
  let word ← segment
  if word.isAssignment && !read.isEmpty then
    let _ ← defaultValue
    return .inr (← parameterOf read.reverse)
  return .inl (word.text :: read)

def parameterStep (read : List Text) : Production (List Text ⊕ Text) := do
  match ← peek with
  | none => fail
  | some kind => parameterAt read kind

def segmentsStep (read : List Segment) : Production (List Segment ⊕ List Segment) := do
  let found ← segment
  match ← maybe (eat .semicolon) with
  | some _ => return .inr (found :: read).reverse
  | none => return .inl (found :: read)

def declarationsStep (read : List OutOfLine.Declaration) :
    Production (List OutOfLine.Declaration ⊕ List OutOfLine.Declaration) := do
  match ← maybe declaration with
  | some found => return .inl (found :: read)
  | none => return .inr read.reverse

theorem bind_inr_elim {α τ : Type} (parse : Production α) (run : τ → Production α) (parser : Parser) :
    ((parse >>= fun result => Pure.pure (.inr result)) >>= Sum.elim run Pure.pure) parser =
      parse parser := by
  rw [bind_eq, bind_eq]
  rcases parse parser with ⟨_ | result, after⟩
  · rfl
  · rfl

theorem parameterBody_eq (read : List Text) (parser : Parser) :
    parameterBody read parser = (parameterStep read >>= Sum.elim parameterBody Pure.pure) parser := by
  rw [parameterBody]
  split
  · rename_i kind here peeked
    have start : parameterStep read parser = parameterAt read kind here := by
      rw [parameterStep, bind_eq, peeked]
    rw [bind_eq, start, parameterAt]
    by_cases ends : endsParameter kind = true
    · simp only [ends, if_true]
      exact (bind_inr_elim (parameterOf read.reverse) _ here).symm
    · simp only [ends, if_false, Bool.false_eq_true]
      rw [bind_eq]
      split
      · rename_i after segment
        rw [segment]
      · rename_i word after segment
        rw [segment]
        by_cases assigns : (word.isAssignment && !read.isEmpty) = true
        · simp only [assigns, if_true]
          rw [bind_eq]
          split
          · rename_i rest skipped
            change defaultValue after = _ at skipped
            rw [skipped]
          · rename_i rest skipped
            change defaultValue after = _ at skipped
            rw [skipped]
            exact (bind_inr_elim (parameterOf read.reverse) _ rest).symm
        · simp only [assigns, if_false, Bool.false_eq_true]
          rfl
  · rename_i result after ended peeked
    rw [bind_eq, parameterStep, bind_eq, peeked]
    rcases result with _ | _ | kind
    · rfl
    · rfl
    · exact absurd rfl (ended kind)

theorem segmentsThroughSemicolon_eq (read : List Segment) (parser : Parser) :
    segmentsThroughSemicolon read parser =
      (segmentsStep read >>= Sum.elim segmentsThroughSemicolon Pure.pure) parser := by
  rw [segmentsThroughSemicolon, segmentsStep]
  simp only [bind_eq, maybe]
  split
  · rename_i after found
    rw [found]
  · rename_i found after first
    rw [first]
    simp only
    split
    · rename_i ended
      rw [ended]
      rfl
    · rename_i ended
      rw [ended]
      rfl

def declarationsFrom (read : List OutOfLine.Declaration) : Production (List OutOfLine.Declaration) :=
  fun parser => (some (declarationsOnto read parser).1, (declarationsOnto read parser).2)

theorem declarationsFrom_eq (read : List OutOfLine.Declaration) (parser : Parser) :
    declarationsFrom read parser =
      (declarationsStep read >>= Sum.elim declarationsFrom Pure.pure) parser := by
  rw [declarationsFrom, declarationsOnto, declarationsStep]
  simp only [bind_eq, maybe]
  split
  · rename_i after found
    rw [found]
    rfl
  · rename_i first after found
    rw [found]
    rfl

theorem declarations_eq (parser : Parser) :
    declarations parser =
      (declarationsFrom [] >>= fun found => if found.isEmpty then fail else Pure.pure found) parser := by
  rw [declarations, bind_eq, declarationsFrom]
  rcases declarationsOnto [] parser with ⟨_ | ⟨first, others⟩, after⟩
  · rfl
  · rfl

end Production

namespace Reading

open Phrase

theorem parameterOf_reads {words : List Text} {phrases : List Phrase}
    (spelled : List.Forall₂ SpellsWord words phrases) :
    Reads SpellsParameter (Production.parameterOf words) (parameterOf phrases) := by
  unfold Production.parameterOf parameterOf
  cases spelled with
  | nil => exact .fail
  | cons first others => exact .pure ⟨_, .cons first others, rfl⟩

theorem parameterStep_reads {read : List Text} {phrases : List Phrase}
    (spelled : List.Forall₂ SpellsWord read phrases) :
    Reads (Sum.LiftRel (List.Forall₂ SpellsWord) SpellsParameter)
      (Production.parameterStep read) (parameterStep phrases) := by
  have whole := parameterOf_reads (List.forall₂_reverse_iff.mpr spelled)
  have started : read.isEmpty = phrases.isEmpty := by
    cases spelled with
    | nil => rfl
    | cons _ _ => rfl
  refine peek_reads.andThen fun kind => ?_
  cases kind with
  | none => exact .fail
  | some kind =>
      refine .ite (whole.bind fun _ _ parameter => .pure (.inr parameter)) ?_
      refine segment_reads.bind fun word phrase spells => ?_
      have assigns : word.isAssignment = phrase.isAssignment := by
        rw [spells.eq_segment]
        rfl
      rw [assigns, started]
      refine .ite ?_ (.pure (.inl (.cons spells.settled spelled)))
      exact (skipDefault_reads 0).andThen fun _ => whole.bind fun _ _ parameter => .pure (.inr parameter)

theorem parameter_reads : Reads SpellsParameter Production.parameter parameter :=
  loop_reads parameterStep_falls Production.parameterBody_eq
    (fun _ _ spelled => parameterStep_reads spelled) .nil

theorem declaratorParameters_reads :
    Reads (List.Forall₂ SpellsParameter) Production.declaratorParameters declaratorParameters := by
  refine qualifiedName_reads.bind fun _ _ _ => (eat_reads _).andThen fun _ =>
    (eat_reads _).maybeSame.andThen fun _ => .ite (.pure .nil) ?_
  exact (commaList_reads parameter_reads).bind fun _ _ all => (eat_reads _).andThen fun _ => .pure all

theorem isolated_reads {α β : Type} {relates : α → β → Prop} {parse : Production α}
    {reading : Reading β} (reads : Reads relates parse reading) (text : Text) :
    Reads (Option.Rel relates) (Production.isolated parse text)
      (Pure.pure (isolated reading (Token.lex text))) := by
  intro parser
  have agrees := reads (.ofText text parser.log)
  have lexed : Token.lex (Parser.ofText text parser.log).remaining = Token.lex text := rfl
  rw [lexed] at agrees
  unfold Production.isolated isolated
  rcases outcome : reading (Token.lex text) with ⟨_ | seen, tokens, reachedEnd⟩ <;>
    rw [outcome] at agrees
  · obtain ⟨after, run, _⟩ := agrees.of_none
    simp only [run]
    exact ⟨.some .none, rfl⟩
  · obtain ⟨found, after, run, related, rest⟩ := agrees.of_some
    rcases ended : after.nextSignificant with ⟨_ | extra, last⟩
    · have none := (token_of_ended ended).1
      rw [rest] at none
      simp only [run, none, ended]
      exact ⟨.some (.some related), rfl⟩
    · have more := (token_of_found ended).1
      rw [rest] at more
      simp only [run, more, ended]
      exact ⟨.some .none, rfl⟩

theorem readableDeclarator_reads {candidates : List (Segment × Nat)} {seen : List (Phrase × Nat)}
    (spelled : List.Forall₂ (fun left right => Spells left.1 right.1 ∧ left.2 = right.2) candidates seen) :
    Reads (Option.Rel fun left right => left.1 = right.1 ∧ List.Forall₂ SpellsParameter left.2 right.2)
      (Production.readableDeclarator candidates) (Pure.pure (readableDeclarator seen)) := by
  induction spelled with
  | nil => exact .pure .none
  | @cons left right _ _ first _ ih =>
      obtain ⟨spells, same⟩ := first
      have tried := isolated_reads declaratorParameters_reads left.1.text
      rw [spells.settled.lex_eq] at tried
      refine tried.bindValue fun parameters related => ?_
      unfold readableDeclarator
      generalize isolated declaratorParameters right.1.tokens = seen at related ⊢
      cases related with
      | none => exact ih
      | some all => exact (Reads.pure (.some ⟨same, all⟩)).noted _

theorem zipIdx_related {α β : Type} {relates : α → β → Prop} {left : List α} {right : List β}
    (related : List.Forall₂ relates left right) (start : Nat) :
    List.Forall₂ (fun a b => relates a.1 b.1 ∧ a.2 = b.2) (left.zipIdx start) (right.zipIdx start) := by
  induction related generalizing start with
  | nil => exact .nil
  | cons first _ ih => exact .cons ⟨first, rfl⟩ (ih (start + 1))

theorem declaratorCandidates_spelled {segments : List Segment} {phrases : List Phrase}
    (spelled : List.Forall₂ Spells segments phrases) :
    List.Forall₂ (fun left right => Spells left.1 right.1 ∧ left.2 = right.2)
      (Production.declaratorCandidates segments) (declaratorCandidates phrases) := by
  refine List.rel_reverse (List.rel_filter ?_ (zipIdx_related spelled 0))
  intro left right related
  simp [related.1.kind]

theorem chooseDeclarator_reads {segments : List Segment} {phrases : List Phrase}
    (spelled : List.Forall₂ Spells segments phrases) :
    Reads (fun left right => left.1 = right.1 ∧
        Option.Rel (List.Forall₂ SpellsParameter) left.2 right.2)
      (Production.chooseDeclarator segments) (Pure.pure (chooseDeclarator phrases)) := by
  have candidates := declaratorCandidates_spelled spelled
  refine (readableDeclarator_reads candidates).bindValue fun readable related => ?_
  unfold chooseDeclarator
  generalize readableDeclarator (declaratorCandidates phrases) = seen at related ⊢
  cases related with
  | some found => exact .pure ⟨congrArg some found.1, .some found.2⟩
  | none =>
      generalize Production.declaratorCandidates segments = left, declaratorCandidates phrases = right
        at candidates ⊢
      cases candidates with
      | nil => exact .pure ⟨rfl, .none⟩
      | cons first others => exact (Reads.pure ⟨congrArg some first.2, .none⟩).noted _

theorem segmentsStep_reads {read : List Segment} {phrases : List Phrase}
    (spelled : List.Forall₂ Spells read phrases) :
    Reads (Sum.LiftRel (List.Forall₂ Spells) (List.Forall₂ Spells))
      (Production.segmentsStep read) (segmentsStep phrases) := by
  refine segment_reads.bind fun found phrase spells => (eat_reads .semicolon).maybeSame.andThen ?_
  intro mark
  cases mark with
  | none => exact .pure (.inl (.cons spells spelled))
  | some _ => exact .pure (.inr (List.forall₂_reverse_iff.mpr (.cons spells spelled)))

theorem segmentsThroughSemicolon_reads :
    Reads (List.Forall₂ Spells) (Production.segmentsThroughSemicolon []) segmentsThroughSemicolon :=
  loop_reads segmentsStep_falls Production.segmentsThroughSemicolon_eq
    (fun _ _ spelled => segmentsStep_reads spelled) .nil

theorem declaration_reads : Reads SpellsDeclaration Production.declaration declaration := by
  refine Reads.attempt ?_ Production.declarationBody_keeps
  refine segmentsThroughSemicolon_reads.bind fun segments phrases spelled => ?_
  refine (chooseDeclarator_reads spelled).bindValue fun chosen related => ?_
  exact (Reads.pure ⟨related.1, spelled, related.2⟩).notedWhen _ _

theorem declarationsStep_reads {read : List OutOfLine.Declaration} {seen : List Phrase.Declaration}
    (spelled : List.Forall₂ SpellsDeclaration read seen) :
    Reads (Sum.LiftRel (List.Forall₂ SpellsDeclaration) (List.Forall₂ SpellsDeclaration))
      (Production.declarationsStep read) (declarationsStep seen) := by
  refine declaration_reads.maybe.bind fun found phrased related => ?_
  cases related with
  | none => exact .pure (.inr (List.forall₂_reverse_iff.mpr spelled))
  | some spells => exact .pure (.inl (.cons spells spelled))

theorem declarations_reads :
    Reads (List.Forall₂ SpellsDeclaration) Production.declarations declarations := by
  have all : Reads (List.Forall₂ SpellsDeclaration) (Production.declarationsFrom [])
      (loop declarationsStep []) :=
    loop_reads declarationsStep_falls Production.declarationsFrom_eq
      (fun _ _ spelled => declarationsStep_reads spelled) .nil
  intro parser
  rw [Production.declarations_eq]
  refine all.bind (fun found seen spelled => ?_) parser
  cases spelled with
  | nil => exact .fail
  | cons first others => exact .pure (.cons first others)

/-- What is parsed is what is read, in writing. -/
theorem declaration_result (parser : Parser) :
    (Production.declaration parser).1 =
      (declaration (Token.lex parser.remaining)).result.map Phrase.Declaration.written := by
  have result := (declaration_reads parser).result
  generalize (Production.declaration parser).1 = found,
    (declaration (Token.lex parser.remaining)).result = seen at result ⊢
  cases result with
  | none => rfl
  | some spells => exact congrArg some spells.eq_written

theorem declarations_result (parser : Parser) :
    (Production.declarations parser).1 =
      (declarations (Token.lex parser.remaining)).result.map (List.map Phrase.Declaration.written) := by
  have result := (declarations_reads parser).result
  generalize (Production.declarations parser).1 = found,
    (declarations (Token.lex parser.remaining)).result = seen at result ⊢
  cases result with
  | none => rfl
  | some spelled =>
      exact congrArg some (Phrase.eq_map_of_related (fun _ _ spells => spells.eq_written) spelled)

end Reading

end OutOfLine
