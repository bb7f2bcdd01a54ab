import OutOfLine.Proofs.Definition

/-!
Initialisers in definitions. A definition should leave out the first `=` of a declaration and all
that follows. It does so unless the declarator is found behind the sign, and when that is the case
is told here from the segments alone.
-/

namespace OutOfLine

namespace Declaration

/-- The segments before the first `=`. -/
def beforeSign (declaration : Declaration) : List Segment :=
  declaration.segments.takeWhile (!·.isAssignment)

/-- The first `=` and the segments after it. -/
def fromSign (declaration : Declaration) : List Segment :=
  declaration.segments.dropWhile (!·.isAssignment)

/-- Behind the sign there is no name with a parenthesis, or none that can be read again while one
before the sign can. -/
def PlainInitialiser (declaration : Declaration) : Prop :=
  (∀ segment ∈ declaration.fromSign, segment.kind ≠ .paren) ∨
    (∀ segment ∈ declaration.fromSign, segment.recovered? = none) ∧
      ∃ segment ∈ declaration.beforeSign, segment.recovered?.isSome = true

instance (declaration : Declaration) : Decidable declaration.PlainInitialiser :=
  inferInstanceAs (Decidable (_ ∨ _))

variable {declaration : Declaration} {index : Nat} {segment : Segment}

theorem segments_eq_append (declaration : Declaration) :
    declaration.segments = declaration.beforeSign ++ declaration.fromSign :=
  List.takeWhile_append_dropWhile.symm

theorem beforeSign_at (short : index < declaration.beforeSign.length) :
    declaration.beforeSign[index]? = declaration.segments[index]? := by
  rw [segments_eq_append, List.getElem?_append_left short]

theorem fromSign_at (long : declaration.beforeSign.length ≤ index) :
    declaration.segments[index]? = declaration.fromSign[index - declaration.beforeSign.length]? := by
  rw [segments_eq_append, List.getElem?_append_right long]

/-- The segment right behind those before the sign is the sign. -/
theorem assigns_of_fromSign (here : declaration.fromSign[0]? = some segment) :
    segment.isAssignment = true := by
  unfold fromSign at here
  have first := List.head?_dropWhile_not (!·.isAssignment) declaration.segments
  rw [List.head?_eq_getElem?, here] at first
  simpa using first

end Declaration

namespace Reading

variable {declaration : OutOfLine.Declaration} {seen : Phrase.Declaration}

theorem beforeSign_eq (spells : Phrase.SpellsDeclaration declaration seen) :
    declaration.beforeSign = (seen.phrases.takeWhile (!·.isAssignment)).map Phrase.segment := by
  rw [Declaration.beforeSign, Phrase.segments_eq spells.segments, List.takeWhile_map]
  rfl

theorem fromSign_eq (spells : Phrase.SpellsDeclaration declaration seen) :
    declaration.fromSign = (seen.phrases.dropWhile (!·.isAssignment)).map Phrase.segment := by
  rw [Declaration.fromSign, Phrase.segments_eq spells.segments, List.dropWhile_map]
  rfl

theorem plainInitialiser_iff (spells : Phrase.SpellsDeclaration declaration seen) :
    declaration.PlainInitialiser ↔
      SettledBefore (seen.phrases.takeWhile (!·.isAssignment))
        (seen.phrases.dropWhile (!·.isAssignment)) := by
  have recovered : ∀ phrase ∈ seen.phrases,
      phrase.segment.recovered? = phrase.recovered?.map (List.map Phrase.joined) := by
    intro phrase member
    exact recovered?_eq (spells_of_mem spells member)
  unfold Declaration.PlainInitialiser SettledBefore
  rw [beforeSign_eq spells, fromSign_eq spells, List.forall_mem_map, List.forall_mem_map]
  apply or_congr
  · rfl
  apply and_congr
  · apply forall₂_congr
    intro phrase member
    rw [recovered phrase ((List.dropWhile_suffix _).subset member), Option.map_eq_none_iff]
  · simp only [List.mem_map, exists_exists_and_eq_and]
    apply exists_congr
    intro phrase
    apply and_congr_right
    intro member
    rw [recovered phrase ((List.takeWhile_prefix _).subset member), Option.isSome_map]

/-- Where the text of a declarator comes from. -/
theorem declaratorOf?_source (spells : Phrase.SpellsDeclaration declaration seen) (chosen : Chosen seen)
    {style : Style} {index : Nat} {text : Text}
    (found : Definition.declaratorOf? style declaration = some (index, text)) :
    ∃ segment, declaration.segments[index]? = some segment ∧
      (text = segment.text ∨ ∃ parameters, segment.recovered? = some parameters ∧
        text = Definition.declaratorText segment (some parameters)) := by
  rcases declaratorOf?_cases found with ⟨declarator, placed, here, rfl⟩ | guessed
  · refine ⟨declarator, here, ?_⟩
    cases listed : seen.parameters with
    | none =>
        refine .inl ?_
        rw [spells.eq_written, Phrase.Declaration.written, listed]
        rfl
    | some parameters =>
        have choice := chosen.declarator
        rw [← spells.declaratorIndex, placed, listed] at choice
        obtain ⟨phrase, there, paren, readable⟩ := chooseDeclarator_some choice
        obtain ⟨other, same, written⟩ := related_at spells.segments here
        obtain rfl : phrase = other := Option.some.inj (there.symm.trans same)
        have recovered : declarator.recovered? = some (parameters.map Phrase.joined) := by
          rw [recovered?_eq written, Phrase.recovered?, if_pos paren, readable]
          rfl
        refine .inr ⟨_, recovered, ?_⟩
        rw [spells.eq_written, Phrase.Declaration.written, listed]
        rfl
  · obtain ⟨segment, here, same, _⟩ := guessDeclarator?_some guessed
    exact ⟨segment, here, .inl same⟩

theorem declaratorOf?_of_chosen {style : Style} {index : Nat} {declarator : Segment}
    (chosen : declaration.declaratorIndex = some index)
    (here : declaration.segments[index]? = some declarator) :
    Definition.declaratorOf? style declaration =
      some (index, Definition.declaratorText declarator declaration.parameters) := by
  have known : declaration.declarator? = some declarator := by
    simpa [Declaration.declarator?, chosen] using here
  simp [Definition.declaratorOf?, chosen, known]

theorem declaratorOf?_before (spells : Phrase.SpellsDeclaration declaration seen) (chosen : Chosen seen)
    (plain : declaration.PlainInitialiser) {style : Style} {index : Nat} {text : Text}
    (found : Definition.declaratorOf? style declaration = some (index, text)) :
    index < declaration.beforeSign.length := by
  have choice := chooseDeclarator_of_front ((plainInitialiser_iff spells).mp plain)
  rw [List.takeWhile_append_dropWhile, chosen.declarator] at choice
  rcases declaratorOf?_cases found with ⟨_, placed, _, _⟩ | guessed
  · rw [spells.declaratorIndex] at placed
    obtain ⟨phrase, here, _⟩ := chooseDeclarator_index
      ((congrArg Prod.fst choice).symm.trans placed)
    rw [beforeSign_eq spells, List.length_map]
    exact (List.getElem?_eq_some_iff.mp here).1
  · obtain ⟨_, _, _, short⟩ := guessDeclarator?_some guessed
    exact short

theorem declaratorOf?_behind (spells : Phrase.SpellsDeclaration declaration seen) (chosen : Chosen seen)
    (unplain : ¬ declaration.PlainInitialiser) (style : Style) :
    ∃ place segment, declaration.fromSign[place]? = some segment ∧ segment.kind = .paren ∧
      Definition.declaratorOf? style declaration = some (declaration.beforeSign.length + place,
        Definition.declaratorText segment declaration.parameters) := by
  obtain ⟨index, phrase, choice, long, there, paren⟩ :=
    chooseDeclarator_of_back (mt (plainInitialiser_iff spells).mpr unplain)
  rw [List.takeWhile_append_dropWhile, chosen.declarator] at choice
  have length := congrArg List.length (beforeSign_eq spells)
  rw [List.length_map] at length
  rw [← length] at long there
  have here : declaration.fromSign[index - declaration.beforeSign.length]? = some phrase.segment := by
    rw [fromSign_eq spells, List.getElem?_map, there]
    rfl
  refine ⟨_, _, here, paren, ?_⟩
  rw [Nat.add_sub_cancel' long]
  rw [← Declaration.fromSign_at long] at here
  exact declaratorOf?_of_chosen (spells.declaratorIndex.trans choice) here

end Reading

namespace Definition

variable {style : Style} {declaration : Declaration} {index : Nat} {qualified : Text}

theorem words_before (short : index < declaration.beforeSign.length) :
    words style index qualified declaration.segments =
      words style index qualified declaration.beforeSign := by
  have ends : declaration.fromSign.takeWhile (!·.isAssignment) = [] := by
    cases sign : declaration.fromSign with
    | nil => rfl
    | cons first others =>
        have here : declaration.fromSign[0]? = some first := by rw [sign]; rfl
        simp [Declaration.assigns_of_fromSign here]
  have plain : ∀ segment ∈ declaration.beforeSign.drop (index + 1), (!segment.isAssignment) = true := by
    intro segment member
    have kept : segment ∈ declaration.segments.takeWhile (!·.isAssignment) := List.mem_of_mem_drop member
    simpa using List.mem_takeWhile_imp kept
  rw [words, words, Declaration.segments_eq_append, List.take_append_of_le_length (by omega),
    List.drop_append_of_le_length (by omega), List.takeWhile_append_of_pos plain, ends,
    List.takeWhile_eq_self_iff.mpr plain, List.append_nil]

theorem words_behind (place : Nat) :
    words style (declaration.beforeSign.length + place) qualified declaration.segments =
      ((declaration.beforeSign ++ declaration.fromSign.take place).filter style.keeps).map (·.text) ++
        qualified :: (((declaration.fromSign.drop (place + 1)).takeWhile
          (!·.isAssignment)).filter style.keeps).map (·.text) := by
  rw [words, Declaration.segments_eq_append, List.take_length_add_append, Nat.add_assoc,
    List.drop_length_add_append]

/-- A definition is made of the segments before the first `=` exactly if the initialiser is a plain
one. Otherwise a name with a parenthesis behind the sign is taken for the declarator, and all kept
segments up to it, the sign included, are in the definition. -/
theorem initialiser_left_out_iff {parser after : Parser} {className text : Text}
    (read : Production.declaration parser = (some declaration, after))
    (defined : ofDeclaration? style className declaration = some text) :
    ∃ index declarator, declaratorOf? style declaration = some (index, declarator) ∧
      ((∃ segment, declaration.beforeSign[index]? = some segment ∧
          (declarator = segment.text ∨ ∃ parameters, segment.recovered? = some parameters ∧
            declarator = declaratorText segment (some parameters)) ∧
          text = Text.join [' '] (words style index (className ++ ':' :: ':' :: declarator)
            declaration.beforeSign)) ↔
        declaration.PlainInitialiser) ∧
      (¬ declaration.PlainInitialiser →
        ∃ place segment, declaration.fromSign[place]? = some segment ∧ 0 < place ∧
          segment.kind = .paren ∧ index = declaration.beforeSign.length + place ∧
          text = Text.join [' ']
            (((declaration.beforeSign ++ declaration.fromSign.take place).filter style.keeps).map (·.text) ++
              (className ++ ':' :: ':' :: declarator) ::
                (((declaration.fromSign.drop (place + 1)).takeWhile
                  (!·.isAssignment)).filter style.keeps).map (·.text))) := by
  obtain ⟨seen, _, spells, chosen⟩ := Reading.declaration_chosen read
  obtain ⟨⟨index, declarator⟩, found, same⟩ := Option.bind_eq_some_iff.mp defined
  obtain rfl := Option.some.inj same
  refine ⟨index, declarator, found, ⟨?_, ?_⟩, ?_⟩
  · rintro ⟨segment, here, _⟩
    by_contra unplain
    obtain ⟨place, _, _, _, behind⟩ := Reading.declaratorOf?_behind spells chosen unplain style
    have past : index = declaration.beforeSign.length + place := by
      rw [found] at behind
      exact (Prod.mk.inj (Option.some.inj behind)).1
    have short := (List.getElem?_eq_some_iff.mp here).1
    omega
  · intro plain
    have short := Reading.declaratorOf?_before spells chosen plain found
    obtain ⟨segment, here, source⟩ := Reading.declaratorOf?_source spells chosen found
    refine ⟨segment, (Declaration.beforeSign_at short).trans here, source, ?_⟩
    rw [words_before short]
  · intro unplain
    obtain ⟨place, segment, here, paren, behind⟩ :=
      Reading.declaratorOf?_behind spells chosen unplain style
    obtain ⟨rfl, rfl⟩ := Prod.mk.inj (Option.some.inj (found.symm.trans behind))
    refine ⟨place, segment, here, ?_, paren, rfl, by rw [words_behind]⟩
    rcases Nat.eq_zero_or_pos place with rfl | positive
    · have assigns := Declaration.assigns_of_fromSign here
      simp [Segment.isAssignment, paren] at assigns
    · exact positive

theorem initialiser_left_out_iff_pure :
    let text := "virtual int f(int a) = 0;".toList
    let declaration : Declaration := ⟨some 2, [⟨.plain, "virtual".toList⟩, ⟨.plain, "int".toList⟩,
      ⟨.paren, "f(int a)".toList⟩, ⟨.symbol, "=".toList⟩, ⟨.plain, "0".toList⟩],
      some ["int a".toList]⟩
    (Production.declaration (.ofText text [])).1 = some declaration ∧
      ofDeclaration? .default "A".toList declaration = some "int A::f(int a)".toList ∧
      declaration.PlainInitialiser ∧
      ∃ index declarator, declaratorOf? .default declaration = some (index, declarator) ∧
        ∃ segment, declaration.beforeSign[index]? = some segment ∧
          "int A::f(int a)".toList = Text.join [' ']
            (words .default index ("A".toList ++ ':' :: ':' :: declarator) declaration.beforeSign) := by
  intro text declaration
  have found : (Production.declaration (.ofText text [])).1 = some declaration := by decide +kernel
  have read : Production.declaration (.ofText text []) =
      (some declaration, (Production.declaration (.ofText text [])).2) := by
    rw [← found]
  have defined : ofDeclaration? .default "A".toList declaration = some "int A::f(int a)".toList := by
    decide +kernel
  have plain : declaration.PlainInitialiser := by decide +kernel
  obtain ⟨index, declarator, chosen, leftOut, _⟩ := initialiser_left_out_iff read defined
  obtain ⟨segment, here, _, same⟩ := leftOut.mpr plain
  exact ⟨found, defined, plain, index, declarator, chosen, segment, here, same⟩

/-- The initialiser is a call, and the class is put before the function that is called. -/
theorem initialiser_kept_of_call :
    let text := "static int count = compute(3);".toList
    let declaration : Declaration := ⟨some 4, [⟨.plain, "static".toList⟩, ⟨.plain, "int".toList⟩,
      ⟨.plain, "count".toList⟩, ⟨.symbol, "=".toList⟩, ⟨.paren, "compute(3)".toList⟩],
      some ["3".toList]⟩
    (Production.declaration (.ofText text [])).1 = some declaration ∧
      ¬ declaration.PlainInitialiser ∧ declaration.beforeSign.length = 3 ∧
      (declaratorOf? .default declaration).map (·.1) = some 4 ∧
      ofDeclaration? .default "A".toList declaration =
        some "int count = A::compute(3)".toList := by
  decide +kernel

end Definition

end OutOfLine
