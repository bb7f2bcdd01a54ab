import OutOfLine.Proofs.Reading.Spending

namespace OutOfLine

/-- The parameters of the segment if it is a name with a parenthesis that can be read again. -/
def Segment.recovered? (segment : Segment) : Option (List Text) :=
  if segment.kind = .paren then
    (Production.isolated Production.declaratorParameters segment.text (.ofText [] [])).1.join
  else none

def Phrase.recovered? (phrase : Phrase) : Option (List (List Phrase)) :=
  if phrase.kind = .paren then Reading.isolated Reading.declaratorParameters phrase.tokens else none

namespace Reading

theorem recovered?_of_paren {segment : Segment} (paren : segment.kind = .paren) :
    segment.recovered? =
      (isolated declaratorParameters (Token.lex segment.text)).map (List.map Phrase.joined) := by
  have agrees := (isolated_reads declaratorParameters_reads segment.text (.ofText [] [])).result
  rw [Segment.recovered?, if_pos paren]
  change Option.Rel _ _ (some (isolated declaratorParameters (Token.lex segment.text))) at agrees
  generalize isolated declaratorParameters (Token.lex segment.text) = seen,
    (Production.isolated Production.declaratorParameters segment.text (.ofText [] [])).1 = found
    at agrees ⊢
  cases agrees with
  | some related =>
      cases related with
      | none => rfl
      | some spelled =>
          exact congrArg some (Phrase.eq_map_of_related (fun _ _ spells => spells.eq_joined) spelled)

theorem recovered?_eq {segment : Segment} {phrase : Phrase} (spells : Phrase.Spells segment phrase) :
    segment.recovered? = phrase.recovered?.map (List.map Phrase.joined) := by
  by_cases paren : segment.kind = .paren
  · rw [recovered?_of_paren paren, Phrase.recovered?, if_pos (spells.kind.symm.trans paren),
      spells.settled.lex_eq]
  · rw [Segment.recovered?, if_neg paren, Phrase.recovered?, ← spells.kind, if_neg paren]
    rfl

theorem split_at {α : Type} {list : List α} {index : Nat} {item : α} (here : list[index]? = some item) :
    ∃ front back, list = front ++ item :: back ∧ front.length = index := by
  obtain ⟨short, same⟩ := List.getElem?_eq_some_iff.mp here
  refine ⟨list.take index, list.drop (index + 1), ?_, by simp; omega⟩
  rw [← same, ← List.drop_eq_getElem_cons short, List.take_append_drop]

theorem spells_of_mem {declaration : OutOfLine.Declaration} {seen : Phrase.Declaration}
    (spells : Phrase.SpellsDeclaration declaration seen) {phrase : Phrase} (member : phrase ∈ seen.phrases) :
    Phrase.Spells phrase.segment phrase := by
  obtain ⟨segment, _, written⟩ := related_of_mem spells.segments.flip member
  exact written.eq_segment ▸ written

theorem declaration_chosen {parser after : Parser} {declaration : OutOfLine.Declaration}
    (read : Production.declaration parser = (some declaration, after)) :
    ∃ seen, (Reading.declaration (Token.lex parser.remaining)).result = some seen ∧
      Phrase.SpellsDeclaration declaration seen ∧ Chosen seen := by
  have result := (declaration_reads parser).result
  rw [read] at result
  rcases found : (Reading.declaration (Token.lex parser.remaining)).result with _ | seen
  · rw [found] at result
    cases result
  · rw [found] at result
    cases result with
    | some spells =>
        obtain ⟨_, ⟨_, chosen⟩, _⟩ := declaration_spends _ (genuineTokens_lex _) seen found
        exact ⟨seen, rfl, spells, chosen⟩

theorem readableDeclarator_some {candidates : List (Phrase × Nat)} {index : Nat}
    {parameters : List (List Phrase)} (found : readableDeclarator candidates = some (index, parameters)) :
    ∃ phrase, (phrase, index) ∈ candidates ∧
      isolated declaratorParameters phrase.tokens = some parameters := by
  induction candidates with
  | nil => simp [readableDeclarator] at found
  | cons candidate others ih =>
      obtain ⟨phrase, place⟩ := candidate
      rw [readableDeclarator] at found
      cases readable : isolated declaratorParameters phrase.tokens with
      | none =>
          simp only [readable] at found
          obtain ⟨other, member, read⟩ := ih found
          exact ⟨other, List.mem_cons_of_mem _ member, read⟩
      | some list =>
          simp only [readable, Option.some.injEq, Prod.mk.injEq] at found
          obtain ⟨rfl, rfl⟩ := found
          exact ⟨phrase, List.mem_cons_self, readable⟩

theorem chooseDeclarator_some {phrases : List Phrase} {index : Nat} {parameters : List (List Phrase)}
    (chosen : chooseDeclarator phrases = (some index, some parameters)) :
    ∃ phrase, phrases[index]? = some phrase ∧ phrase.kind = .paren ∧
      isolated declaratorParameters phrase.tokens = some parameters := by
  unfold chooseDeclarator at chosen
  cases readable : readableDeclarator (declaratorCandidates phrases) with
  | none => simp [readable] at chosen
  | some pair =>
      simp only [readable, Prod.mk.injEq, Option.some.injEq] at chosen
      obtain ⟨rfl, rfl⟩ := chosen
      obtain ⟨phrase, member, read⟩ := readableDeclarator_some readable
      rw [declaratorCandidates, List.mem_reverse, List.mem_filter, List.mem_zipIdx_iff_getElem?] at member
      exact ⟨phrase, member.1, of_decide_eq_true member.2, read⟩

theorem Chosen.parameters_none {seen : Phrase.Declaration} (chosen : Chosen seen)
    {before behind : List Phrase} {phrase : Phrase} (split : seen.phrases = before ++ phrase :: behind)
    (unrecovered : phrase.recovered? = none) (index : seen.declaratorIndex = some before.length) :
    seen.parameters = none := by
  cases listed : seen.parameters with
  | none => rfl
  | some parameters =>
      have choice := chosen.declarator
      rw [index, listed] at choice
      obtain ⟨other, here, paren, readable⟩ := chooseDeclarator_some choice
      obtain rfl : phrase = other := by simpa [split] using here
      simp [Phrase.recovered?, paren, readable] at unrecovered

/-- The candidates among phrases of which the first has the index `start`. -/
def candidatesFrom (start : Nat) (phrases : List Phrase) : List (Phrase × Nat) :=
  ((phrases.zipIdx start).filter (·.1.kind = .paren)).reverse

theorem mem_candidatesFrom {start index : Nat} {phrases : List Phrase} {phrase : Phrase} :
    (phrase, index) ∈ candidatesFrom start phrases ↔
      start ≤ index ∧ phrases[index - start]? = some phrase ∧ phrase.kind = .paren := by
  simp [candidatesFrom, List.mk_mem_zipIdx_iff_le_and_getElem?_sub, and_assoc]

theorem declaratorCandidates_append (front back : List Phrase) :
    declaratorCandidates (front ++ back) =
      candidatesFrom front.length back ++ declaratorCandidates front := by
  simp [declaratorCandidates, candidatesFrom, List.zipIdx_append]

theorem readableDeclarator_append (left right : List (Phrase × Nat)) :
    readableDeclarator (left ++ right) =
      (readableDeclarator left).or (readableDeclarator right) := by
  induction left with
  | nil => rfl
  | cons candidate left ih =>
      obtain ⟨phrase, index⟩ := candidate
      rw [List.cons_append, readableDeclarator, readableDeclarator]
      cases isolated declaratorParameters phrase.tokens with
      | none => exact ih
      | some parameters => rfl

theorem readableDeclarator_none_iff {start : Nat} {phrases : List Phrase} :
    readableDeclarator (candidatesFrom start phrases) = none ↔
      ∀ phrase ∈ phrases, phrase.recovered? = none := by
  have every : ∀ candidates : List (Phrase × Nat), readableDeclarator candidates = none ↔
      ∀ pair ∈ candidates, isolated declaratorParameters pair.1.tokens = none := by
    intro candidates
    induction candidates with
    | nil => simp [readableDeclarator]
    | cons candidate others ih =>
        obtain ⟨phrase, index⟩ := candidate
        rw [readableDeclarator, List.forall_mem_cons, ← ih]
        cases isolated declaratorParameters phrase.tokens with
        | none => simp
        | some parameters => simp
  rw [every]
  constructor
  · intro unreadable phrase member
    unfold Phrase.recovered?
    split
    · rename_i paren
      obtain ⟨place, here⟩ := List.mem_iff_getElem?.mp member
      exact unreadable (phrase, start + place)
        (mem_candidatesFrom.mpr ⟨Nat.le_add_right _ _, by simpa using here, paren⟩)
    · rfl
  · rintro unreadable ⟨phrase, index⟩ member
    obtain ⟨_, here, paren⟩ := mem_candidatesFrom.mp member
    have none := unreadable phrase (List.mem_of_getElem? here)
    rwa [Phrase.recovered?, if_pos paren] at none

/-- The phrases behind have no say: there is no candidate among them, or none of theirs can be read
again and one before them can. -/
def SettledBefore (front back : List Phrase) : Prop :=
  (∀ phrase ∈ back, phrase.kind ≠ .paren) ∨
    (∀ phrase ∈ back, phrase.recovered? = none) ∧ ∃ phrase ∈ front, phrase.recovered?.isSome = true

theorem chooseDeclarator_of_front {front back : List Phrase} (settled : SettledBefore front back) :
    chooseDeclarator (front ++ back) = chooseDeclarator front := by
  unfold chooseDeclarator
  rw [declaratorCandidates_append]
  rcases settled with noParen | ⟨unreadable, phrase, member, readable⟩
  · have none : candidatesFrom front.length back = [] := by
      simpa [candidatesFrom, List.filter_eq_nil_iff] using fun phrase index member =>
        noParen phrase (List.fst_mem_of_mem_zipIdx member)
    rw [none, List.nil_append]
  · rw [readableDeclarator_append, readableDeclarator_none_iff.mpr unreadable, Option.none_or]
    rcases found : readableDeclarator (declaratorCandidates front) with _ | pair
    · have none := readableDeclarator_none_iff.mp (found : readableDeclarator (candidatesFrom 0 front) = none)
      simp [none phrase member] at readable
    · rfl

theorem chooseDeclarator_of_readable {phrases : List Phrase} {index : Nat}
    {parameters : List (List Phrase)}
    (found : readableDeclarator (declaratorCandidates phrases) = some (index, parameters)) :
    chooseDeclarator phrases = (some index, some parameters) := by
  simp only [chooseDeclarator, found]

theorem chooseDeclarator_of_unreadable {phrases : List Phrase}
    (unreadable : readableDeclarator (declaratorCandidates phrases) = none) :
    chooseDeclarator phrases = ((declaratorCandidates phrases).head?.map (·.2), none) := by
  simp only [chooseDeclarator, unreadable]

/-- The last candidate is chosen if it can be read again. -/
theorem chooseDeclarator_of_last (front : List Phrase) {back : List Phrase} {phrase : Phrase}
    (last : ∀ other ∈ back, other.kind ≠ .paren) {parameters : List (List Phrase)}
    (recovered : phrase.recovered? = some parameters) :
    chooseDeclarator (front ++ phrase :: back) = (some front.length, some parameters) := by
  have paren : phrase.kind = .paren := by
    by_contra other
    simp [Phrase.recovered?, other] at recovered
  rw [Phrase.recovered?, if_pos paren] at recovered
  have whole : front ++ phrase :: back = (front ++ [phrase]) ++ back := by simp
  have candidates : declaratorCandidates (front ++ [phrase]) =
      (phrase, front.length) :: declaratorCandidates front := by
    rw [declaratorCandidates_append]
    simp [candidatesFrom, paren]
  rw [whole, chooseDeclarator_of_front (.inl last)]
  apply chooseDeclarator_of_readable
  rw [candidates, readableDeclarator, recovered]

/-- Otherwise the declarator is one of the phrases behind. -/
theorem chooseDeclarator_of_back {front back : List Phrase} (unsettled : ¬ SettledBefore front back) :
    ∃ index phrase, (chooseDeclarator (front ++ back)).1 = some index ∧ front.length ≤ index ∧
      back[index - front.length]? = some phrase ∧ phrase.kind = .paren := by
  have readable := readableDeclarator_append (candidatesFrom front.length back)
    (declaratorCandidates front)
  rw [← declaratorCandidates_append] at readable
  rcases found : readableDeclarator (candidatesFrom front.length back) with _ | ⟨index, parameters⟩ <;>
    rw [found] at readable
  · have unreadable := readableDeclarator_none_iff.mp found
    have noneBefore : readableDeclarator (declaratorCandidates front) = none := by
      apply readableDeclarator_none_iff.mpr
      intro phrase member
      by_contra recovered
      exact unsettled (.inr ⟨unreadable, phrase, member, Option.isSome_iff_ne_none.mpr recovered⟩)
    obtain ⟨phrase, member, paren⟩ : ∃ phrase ∈ back, phrase.kind = .paren := by
      by_contra absent
      exact unsettled (.inl fun phrase member paren => absent ⟨phrase, member, paren⟩)
    obtain ⟨place, here⟩ := List.mem_iff_getElem?.mp member
    have candidate : (phrase, front.length + place) ∈ candidatesFrom front.length back :=
      mem_candidatesFrom.mpr ⟨Nat.le_add_right _ _, by simpa using here, paren⟩
    obtain ⟨⟨first, index⟩, others, candidates⟩ :=
      List.exists_cons_of_ne_nil (List.ne_nil_of_mem candidate)
    have among : (first, index) ∈ candidatesFrom front.length back := by simp [candidates]
    rw [noneBefore] at readable
    refine ⟨index, first, ?_, mem_candidatesFrom.mp among⟩
    rw [chooseDeclarator_of_unreadable readable, declaratorCandidates_append, candidates]
    rfl
  · obtain ⟨phrase, among, _⟩ := readableDeclarator_some found
    refine ⟨index, phrase, ?_, mem_candidatesFrom.mp among⟩
    rw [chooseDeclarator_of_readable readable]

theorem chooseDeclarator_none_iff {phrases : List Phrase} :
    (chooseDeclarator phrases).1 = none ↔ ∀ phrase ∈ phrases, phrase.kind ≠ .paren := by
  constructor
  · intro unchosen
    by_contra paren
    have unsettled : ¬ SettledBefore [] phrases := by
      rintro (noParen | ⟨_, phrase, member, _⟩)
      · exact paren noParen
      · simp at member
    obtain ⟨index, _, chosen, _⟩ := chooseDeclarator_of_back unsettled
    rw [List.nil_append, unchosen] at chosen
    simp at chosen
  · intro noParen
    have none : chooseDeclarator ([] ++ phrases) = chooseDeclarator [] :=
      chooseDeclarator_of_front (.inl noParen)
    rw [List.nil_append] at none
    rw [none]
    rfl

theorem chooseDeclarator_index {phrases : List Phrase} {index : Nat}
    (chosen : (chooseDeclarator phrases).1 = some index) :
    ∃ phrase, phrases[index]? = some phrase ∧ phrase.kind = .paren := by
  have unsettled : ¬ SettledBefore [] phrases := by
    rintro (noParen | ⟨_, phrase, member, _⟩)
    · simp [chooseDeclarator_none_iff.mpr noParen] at chosen
    · simp at member
  obtain ⟨place, phrase, same, _, here, paren⟩ := chooseDeclarator_of_back unsettled
  obtain rfl : place = index := Option.some.inj (same.symm.trans chosen)
  exact ⟨phrase, by simpa using here, paren⟩

theorem chooseDeclarator_parameters {phrases : List Phrase}
    (recovered : (chooseDeclarator phrases).2.isSome = true) :
    (chooseDeclarator phrases).1.isSome = true := by
  unfold chooseDeclarator at recovered ⊢
  split at recovered
  · rfl
  · simp at recovered

end Reading

end OutOfLine
