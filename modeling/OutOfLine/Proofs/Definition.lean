import Mathlib.Data.List.TakeWhile
import OutOfLine.Definition
import OutOfLine.Proofs.Denotation
import OutOfLine.Proofs.Reading.Choice
import OutOfLine.Proofs.Scan

namespace OutOfLine

def Segment.tokens (segment : Segment) : List Token :=
  Token.significant (Token.lex segment.text)

/-- The tokens of the segments and the semicolon after them. -/
def Declaration.tokens (declaration : Declaration) : List Token :=
  declaration.segments.flatMap Segment.tokens ++ [⟨.semicolon, [';']⟩]

/-- The second list is the first one without some runs, each from an equals sign up to a comma or a
closing parenthesis, which stays. -/
inductive DefaultsRemoved : List Token → List Token → Prop where
  | nil : DefaultsRemoved [] []
  | keep {token : Token} {left right : List Token} (removed : DefaultsRemoved left right) :
      DefaultsRemoved (token :: left) (token :: right)
  | drop {equal stop : Token} {run rest right : List Token} (begins : equal.kind = .equal)
      (ends : stop.kind = .comma ∨ stop.kind = .closeParen)
      (removed : DefaultsRemoved (stop :: rest) right) :
      DefaultsRemoved (equal :: run ++ stop :: rest) right

namespace DefaultsRemoved

theorem refl (tokens : List Token) : DefaultsRemoved tokens tokens := by
  induction tokens with
  | nil => exact .nil
  | cons token tokens ih => exact .keep ih

theorem append {left right : List Token} (front : List Token) (removed : DefaultsRemoved left right) :
    DefaultsRemoved (front ++ left) (front ++ right) := by
  induction front with
  | nil => exact removed
  | cons token front ih => exact .keep ih

theorem eq_of_no_equal {left right : List Token} (removed : DefaultsRemoved left right)
    (none : ∀ token ∈ left, token.kind ≠ .equal) : right = left := by
  induction removed with
  | nil => rfl
  | keep _ ih => rw [ih fun token member => none token (List.mem_cons_of_mem _ member)]
  | drop begins _ _ _ => exact absurd begins (none _ (by simp))

theorem defaultRun {run rest right : List Token} {stop : Token} (isDefault : Reading.DefaultRun run)
    (ends : stop.kind = .comma ∨ stop.kind = .closeParen)
    (removed : DefaultsRemoved (stop :: rest) right) : DefaultsRemoved (run ++ stop :: rest) right := by
  cases run with
  | nil => exact removed
  | cons equal run => exact .drop (isDefault equal rfl) ends removed

/-- In a parameter list the default values of the parameters are such runs. -/
theorem parameters {found : List (List Phrase)} {body : List Token}
    (separated : Reading.Separated Reading.ParameterSpent found body) {close : Token}
    (closes : close.kind = .closeParen) :
    DefaultsRemoved (body ++ [close])
      (List.intercalate [⟨.comma, [',']⟩] (found.map Phrase.significant) ++ [close]) := by
  induction separated with
  | @single item used spent =>
      obtain ⟨dropped, rfl, isDefault⟩ := spent
      have removed := (defaultRun isDefault (.inr closes) (refl [close])).append
        (Phrase.significant item)
      simpa [List.intercalate] using removed
  | @cons item items used rest spent others ih =>
      obtain ⟨dropped, rfl, isDefault⟩ := spent
      have comma : DefaultsRemoved (⟨.comma, [',']⟩ :: (rest ++ [close])) _ := .keep ih
      have removed := (defaultRun isDefault (.inl rfl) comma).append (Phrase.significant item)
      cases others with
      | single _ => simpa [List.intercalate] using removed
      | cons _ _ => simpa [List.intercalate] using removed

end DefaultsRemoved

namespace Reading

/-- A character that a name can have. -/
def IsNameChar (c : Char) : Prop :=
  Token.isWordChar c = true ∨ c = ':' ∨ c = '~'

theorem IsName.chars {last : Option Token.Kind} {name : List Token} (isName : IsName last name) :
    ∀ c ∈ Token.spell name, IsNameChar c := by
  induction name generalizing last with
  | nil => simp
  | cons first name ih =>
      obtain ⟨genuine, continues, later⟩ := isName
      intro c member
      rw [Token.spell_cons, List.mem_append] at member
      rcases member with member | member
      · cases kind : first.kind with
        | word =>
            obtain ⟨d, tail, text, _, wordChar, all, _⟩ := Token.text_of_word genuine kind
            rw [text] at member
            rcases List.mem_cons.mp member with rfl | member
            · exact .inl wordChar
            · exact .inl (all c member)
        | doubleColon =>
            rw [Token.text_of_mark genuine (by rw [kind]; rfl)] at member
            exact .inr (.inl (by simpa using member))
        | tilde =>
            rw [Token.text_of_mark genuine (by rw [kind]; rfl)] at member
            exact .inr (.inr (by simpa using member))
        | _ => simp [kind, Production.continuesName] at continues
      · exact ih later c member

theorem IsNameChar.ne_paren {c : Char} (isNameChar : IsNameChar c) : c ≠ '(' := by
  rintro rfl
  rcases isNameChar with word | colon | tilde
  · exact absurd word (by decide)
  · exact absurd colon (by decide)
  · exact absurd tilde (by decide)

theorem range_of_wordChar {c : Char} (word : Token.isWordChar c = true) :
    48 ≤ c.toNat ∧ c.toNat ≤ 122 := by
  rcases Bool.or_eq_true_iff.mp word with alphanumeric | underscore
  · rcases Bool.or_eq_true_iff.mp alphanumeric with letter | digit
    · rcases Bool.or_eq_true_iff.mp letter with upper | lower
      · have within : 65 ≤ c.toNat ∧ c.toNat ≤ 90 := of_decide_eq_true upper
        omega
      · obtain ⟨above, below⟩ := Bool.and_eq_true_iff.mp lower
        have low : 97 ≤ c.toNat := of_decide_eq_true above
        have high : c.toNat ≤ 122 := of_decide_eq_true below
        omega
    · obtain ⟨above, below⟩ := Bool.and_eq_true_iff.mp digit
      have low : 48 ≤ c.toNat := of_decide_eq_true above
      have high : c.toNat ≤ 57 := of_decide_eq_true below
      omega
  · obtain rfl : c = '_' := of_decide_eq_true underscore
    decide

theorem IsNameChar.not_blank {c : Char} (isNameChar : IsNameChar c) : Text.isBlank c = false := by
  rcases isNameChar with word | rfl | rfl
  · have range := range_of_wordChar word
    simp only [Text.isBlank, Bool.or_eq_false_iff, Bool.and_eq_false_iff, decide_eq_false_iff_not,
      beq_eq_false_iff_ne]
    omega
  · decide
  · decide

theorem IsName.trimEnd_eq {name : List Token} (isName : IsName none name) :
    Text.trimEnd (Token.spell name) = Token.spell name := by
  have kept : ∀ text : Text, (∀ c ∈ text, IsNameChar c) → text.dropWhile Text.isBlank = text := by
    intro text all
    cases text with
    | nil => rfl
    | cons c text =>
        rw [List.dropWhile_cons_of_neg]
        simp [(all c List.mem_cons_self).not_blank]
  rw [Text.trimEnd, Text.dropEndWhile, kept _ fun c member => isName.chars c (by simpa using member),
    List.reverse_reverse]

theorem declaratorText_of_name {declarator : Segment} {name : List Token} {inside : Text}
    (isName : IsName none name) (text : declarator.text = Token.spell name ++ '(' :: inside)
    (parameters : List Text) :
    Definition.declaratorText declarator (some parameters) =
      Token.spell name ++ '(' :: Text.join [',', ' '] parameters ++ [')'] := by
  have front : declarator.text.takeWhile (· ≠ '(') = Token.spell name := by
    rw [text, List.takeWhile_append_of_pos fun c member => by
      simpa using (isName.chars c member).ne_paren]
    simp
  have member : '(' ∈ declarator.text := by simp [text]
  rw [Definition.declaratorText, if_pos member, front, isName.trimEnd_eq]

theorem declaratorText_denotes {declarator : Segment} {phrase : Phrase}
    (spells : Phrase.Spells declarator phrase) (shaped : Shaped phrase) (paren : phrase.kind = .paren)
    {parameters : List (List Phrase)}
    (readable : isolated declaratorParameters phrase.tokens = some parameters) {texts : List Text}
    (spelled : List.Forall₂ Phrase.SpellsParameter texts parameters) :
    ∃ core, Token.Denotes (Definition.declaratorText declarator (some texts)) core ∧
      DefaultsRemoved declarator.tokens core := by
  obtain ⟨name, inner, isName, tokens⟩ := shaped.paren paren
  have genuine : GenuineTokens phrase.tokens := by
    rw [← spells.settled.lex_eq]
    exact genuineTokens_lex _
  obtain ⟨other, body, isOther, whole, list⟩ := declaratorParameters_spends.isolated genuine readable
  have visible : Token.significant phrase.tokens =
      name ++ ⟨.openParen, ['(']⟩ :: Token.significant inner := by
    rw [tokens, Token.significant_append, isName.significant_eq, Token.significant_cons rfl]
  have both : name ++ ⟨.openParen, ['(']⟩ :: Token.significant inner =
      other ++ ⟨.openParen, ['(']⟩ :: (body ++ [⟨.closeParen, [')']⟩]) := by
    rw [← visible, whole]
    simp
  obtain ⟨rfl, _⟩ := name_unique isName.no_paren isOther.no_paren both
  have text : declarator.text = Token.spell name ++ '(' :: Token.spell inner := by
    rw [← spells.settled.spell_eq, tokens]
    simp
  refine ⟨name ++ ⟨.openParen, ['(']⟩ ::
    (List.intercalate [⟨.comma, [',']⟩] (parameters.map Phrase.significant) ++ [⟨.closeParen, [')']⟩]),
    ?_, ?_⟩
  · have list := Token.denotes_joinComma
      (List.forall₂_map_right_iff.mpr (spelled.imp fun _ _ spells => spells.denotes))
    have opening : Token.Kind.openParen.mark? = some ['('] := rfl
    have closing : Token.Kind.closeParen.mark? = some [')'] := rfl
    have closed := list.mark closing (by decide) Token.denotes_nil
    have joined := isName.settled.denotes.mark opening (by decide) closed
    rw [isName.significant_eq] at joined
    rw [declaratorText_of_name isName text]
    simpa using joined
  · have removed : DefaultsRemoved (body ++ [⟨.closeParen, [')']⟩])
        (List.intercalate [⟨.comma, [',']⟩] (parameters.map Phrase.significant) ++
          [⟨.closeParen, [')']⟩]) := by
      rcases list with ⟨rfl, rfl⟩ | separated
      · exact .refl _
      · exact .parameters separated rfl
    rw [Segment.tokens, spells.settled.lex_eq, whole]
    simpa using removed.keep.append name

theorem spells_tokens {segment : Segment} {phrase : Phrase} (spells : Phrase.Spells segment phrase) :
    segment.tokens = Token.significant phrase.tokens := by
  rw [Segment.tokens, spells.settled.lex_eq]

theorem guessDeclarator?_some {style : Style} {segments : List Segment} {index : Nat} {text : Text}
    (found : Definition.guessDeclarator? style segments = some (index, text)) :
    ∃ segment, segments[index]? = some segment ∧ text = segment.text ∧
      index < (segments.takeWhile (!·.isAssignment)).length := by
  obtain ⟨⟨segment, place⟩, guessed, same⟩ := Option.map_eq_some_iff.mp found
  obtain ⟨rfl, rfl⟩ := Prod.mk.inj same
  have member := List.mem_of_find?_eq_some guessed
  rw [List.mem_reverse, List.mem_zipIdx_iff_getElem?] at member
  obtain ⟨short, here⟩ := List.getElem?_eq_some_iff.mp member
  have within : segments[place]? = some _ :=
    List.prefix_iff_getElem?.mp (List.takeWhile_prefix _) place short
  exact ⟨segment, within.trans (congrArg some here), rfl, short⟩

/-- The declarator is the segment that was chosen, else it is guessed. -/
theorem declaratorOf?_cases {declaration : OutOfLine.Declaration} {style : Style} {index : Nat}
    {text : Text} (found : Definition.declaratorOf? style declaration = some (index, text)) :
    (∃ declarator, declaration.declaratorIndex = some index ∧
        declaration.segments[index]? = some declarator ∧
        text = Definition.declaratorText declarator declaration.parameters) ∨
      Definition.guessDeclarator? style declaration.segments = some (index, text) := by
  unfold Definition.declaratorOf? at found
  split at found
  · rename_i place declarator placed known
    obtain ⟨rfl, rfl⟩ := Prod.mk.inj (Option.some.inj found)
    exact .inl ⟨declarator, placed, by simpa [Declaration.declarator?, placed] using known, rfl⟩
  · exact .inr found

theorem declaratorOf?_denotes {declaration : OutOfLine.Declaration} {seen : Phrase.Declaration}
    (spells : Phrase.SpellsDeclaration declaration seen) (chosen : Chosen seen) {style : Style}
    {index : Nat} {text : Text}
    (found : Definition.declaratorOf? style declaration = some (index, text)) :
    ∃ declarator core, declaration.segments[index]? = some declarator ∧ Token.Denotes text core ∧
      (declaration.parameters = none → core = declarator.tokens) ∧
      DefaultsRemoved declarator.tokens core := by
  have asWritten : ∀ {segment : Segment}, declaration.segments[index]? = some segment →
      text = segment.text → ∃ declarator core, declaration.segments[index]? = some declarator ∧
        Token.Denotes text core ∧ (declaration.parameters = none → core = declarator.tokens) ∧
        DefaultsRemoved declarator.tokens core := by
    rintro segment here rfl
    obtain ⟨phrase, _, written⟩ := related_at spells.segments here
    refine ⟨segment, segment.tokens, here, ?_, fun _ => rfl, .refl _⟩
    rw [spells_tokens written]
    exact written.settled.denotes
  rcases declaratorOf?_cases found with ⟨declarator, placed, here, rfl⟩ | guessed
  · -- The parameters, if there are any, were recovered from the segment.
    cases parameters : declaration.parameters with
    | none => exact parameters ▸ asWritten here (by rw [parameters]; rfl)
    | some texts =>
        obtain ⟨list, listed, spelled⟩ : ∃ list, seen.parameters = some list ∧
            List.Forall₂ Phrase.SpellsParameter texts list := by
          have spelled := spells.parameters
          rw [parameters] at spelled
          generalize seen.parameters = other at spelled ⊢
          cases spelled with
          | some all => exact ⟨_, rfl, all⟩
        have choice := chosen.declarator
        rw [← spells.declaratorIndex, placed, listed] at choice
        obtain ⟨phrase, there, paren, readable⟩ := chooseDeclarator_some choice
        obtain ⟨other, same, written⟩ := related_at spells.segments here
        obtain rfl : phrase = other := Option.some.inj (there.symm.trans same)
        obtain ⟨core, denotes, removed⟩ := declaratorText_denotes written
          (chosen.shaped phrase (List.mem_of_getElem? same)) paren readable spelled
        exact ⟨declarator, core, here, denotes, by simp, removed⟩
  · obtain ⟨segment, here, same, _⟩ := guessDeclarator?_some guessed
    exact asWritten here same

theorem segments_tokens {segments : List Segment} {phrases : List Phrase}
    (spelled : List.Forall₂ Phrase.Spells segments phrases) :
    segments.flatMap Segment.tokens = Phrase.significant phrases := by
  unfold Phrase.significant
  induction spelled with
  | nil => rfl
  | cons first _ ih => rw [List.flatMap_cons, List.flatMap_cons, ih, spells_tokens first]

theorem declarations_tokens {declarations : List OutOfLine.Declaration}
    {seen : List Phrase.Declaration}
    (spelled : List.Forall₂ Phrase.SpellsDeclaration declarations seen) :
    declarations.flatMap Declaration.tokens = seen.flatMap (fun declaration =>
      Phrase.significant declaration.phrases ++ [⟨.semicolon, [';']⟩]) := by
  induction spelled with
  | nil => rfl
  | cons first _ ih =>
      rw [List.flatMap_cons, List.flatMap_cons, ih, Declaration.tokens, segments_tokens first.segments]

end Reading

namespace Definition

theorem words_denote {style : Style} {front back : List Segment} {declarator : Segment}
    (written : ∀ segment ∈ front ++ declarator :: back, Token.Denotes segment.text segment.tokens)
    {qualified : Text} {tokens : List Token} (denotes : Token.Denotes qualified tokens) :
    Token.Denotes (Text.join [' '] (words style front.length qualified (front ++ declarator :: back)))
      ((front.filter style.keeps).flatMap Segment.tokens ++ tokens ++
        ((back.takeWhile (!·.isAssignment)).filter style.keeps).flatMap Segment.tokens) := by
  have kept : ∀ part : List Segment, (∀ segment ∈ part, segment ∈ front ++ declarator :: back) →
      List.Forall₂ Token.Denotes ((part.filter style.keeps).map (·.text))
        ((part.filter style.keeps).map Segment.tokens) := by
    intro part among
    refine List.forall₂_map_left_iff.mpr (List.forall₂_map_right_iff.mpr (List.forall₂_same.mpr ?_))
    exact fun segment member => written segment (among segment (List.mem_of_mem_filter member))
  have before := kept front fun segment member => List.mem_append_left _ member
  have after := kept (back.takeWhile (!·.isAssignment)) fun segment member => by
    simp [(List.takeWhile_prefix _).subset member]
  have joined := Token.denotes_joinSpace (List.rel_append before (.cons denotes after))
  have left : (front ++ declarator :: back).take front.length = front := by simp
  have right : (front ++ declarator :: back).drop (front.length + 1) = back := by simp
  rw [words, left, right]
  simpa [List.flatMap_def] using joined

theorem tokens_of_assignment {segment : Segment} (assigns : segment.isAssignment = true) :
    segment.tokens = [⟨.equal, ['=']⟩] := by
  have text : segment.text = ['='] := of_decide_eq_true (Bool.and_eq_true_iff.mp assigns).2
  have marked : Token.Kind.equal.mark? = some ['='] := rfl
  rw [Segment.tokens, text]
  simpa using Token.significant_lex_mark marked (by decide) []

theorem mem_declarationTokens {declaration : Declaration} {segment : Segment} {token : Token}
    (among : segment ∈ declaration.segments) (member : token ∈ segment.tokens) :
    token ∈ declaration.tokens :=
  List.mem_append_left _ (List.mem_flatMap.mpr ⟨segment, among, member⟩)

/-- Without an equals sign nothing is cut off behind the declarator. -/
theorem takeWhile_of_no_equal {declaration : Declaration} {part : List Segment}
    (among : ∀ segment ∈ part, segment ∈ declaration.segments)
    (none : ∀ token ∈ declaration.tokens, token.kind ≠ .equal) :
    part.takeWhile (!·.isAssignment) = part := by
  refine List.takeWhile_eq_self_iff.mpr fun segment member => ?_
  cases assigns : segment.isAssignment with
  | false => rfl
  | true =>
      have sign : (⟨.equal, ['=']⟩ : Token) ∈ segment.tokens := by simp [tokens_of_assignment assigns]
      exact absurd rfl (none _ (mem_declarationTokens (among segment member) sign))

theorem tokens_of_defined {declaration : Declaration} {seen : Phrase.Declaration}
    (spells : Phrase.SpellsDeclaration declaration seen) (chosen : Reading.Chosen seen)
    {className : Text} {nameTokens : List Token} (settled : Token.Settled className nameTokens)
    {style : Style} {text : Text} (defined : ofDeclaration? style className declaration = some text) :
    ∃ front declarator back core, declaration.segments = front ++ declarator :: back ∧
      (declaratorOf? style declaration).map (·.1) = some front.length ∧
      (declaration.parameters = none → core = declarator.tokens) ∧
      DefaultsRemoved declarator.tokens core ∧
      Token.significant (Token.lex text) =
        (front.filter style.keeps).flatMap Segment.tokens ++
          (Token.significant (Token.lex className) ++ ⟨.doubleColon, [':', ':']⟩ :: core) ++
          ((back.takeWhile (!·.isAssignment)).filter style.keeps).flatMap Segment.tokens := by
  obtain ⟨⟨index, written⟩, found, same⟩ := Option.bind_eq_some_iff.mp defined
  obtain ⟨declarator, core, here, denotes, plain, removed⟩ :=
    Reading.declaratorOf?_denotes spells chosen found
  obtain ⟨front, back, whole, rfl⟩ := Reading.split_at here
  refine ⟨front, declarator, back, core, whole, by rw [found]; rfl, plain, removed, ?_⟩
  have colons : Token.Kind.doubleColon.mark? = some [':', ':'] := rfl
  have qualified := settled.denotes.mark colons (by decide) denotes
  have segments : ∀ segment ∈ front ++ declarator :: back,
      Token.Denotes segment.text segment.tokens := by
    intro segment member
    obtain ⟨phrase, _, spelled⟩ := Reading.related_of_mem spells.segments (whole ▸ member)
    rw [Reading.spells_tokens spelled]
    exact spelled.settled.denotes
  obtain rfl := Option.some.inj same
  rw [whole, settled.denotes.eq]
  exact (words_denote segments qualified).eq

/-- The tokens of a definition are those of its declaration in their order, with these edits: the
semicolon goes, the tokens of the class name and `::` come in before the declarator, segments that are
discarded go, what follows an equals sign after the declarator goes, and where the parameters of the
declarator were recovered, so do their default values. -/
theorem definition_tokens {before selection : Text} {log selectionLog : Log} {head : ClassHead}
    {declarations : List Declaration} {parser : Parser} (style : Style)
    (resolved : (enclosingClass before log).1 = some head)
    (read : Production.declarations (.ofText selection selectionLog) = (some declarations, parser)) :
    Token.significant (Token.lex selection) =
      declarations.flatMap Declaration.tokens ++ Token.significant (Token.lex parser.remaining) ∧
    ∀ declaration ∈ declarations, ∀ text, ofDeclaration? style head.name declaration = some text →
      ∃ front declarator back core, declaration.segments = front ++ declarator :: back ∧
        (declaratorOf? style declaration).map (·.1) = some front.length ∧
        (declaration.parameters = none → core = declarator.tokens) ∧
        DefaultsRemoved declarator.tokens core ∧
        Token.significant (Token.lex text) =
          (front.filter style.keeps).flatMap Segment.tokens ++
            (Token.significant (Token.lex head.name) ++ ⟨.doubleColon, [':', ':']⟩ :: core) ++
            ((back.takeWhile (!·.isAssignment)).filter style.keeps).flatMap Segment.tokens ∧
        ((∀ token ∈ declaration.tokens, token.kind ≠ .equal) →
          core = declarator.tokens ∧ back.takeWhile (!·.isAssignment) = back) := by
  have reads := Reading.declarations_reads (.ofText selection selectionLog)
  rw [read] at reads
  have lexed : Token.lex (Parser.ofText selection selectionLog).remaining = Token.lex selection := rfl
  obtain ⟨seen, found, spelled⟩ : ∃ seen,
      (Reading.declarations (Token.lex selection)).result = some seen ∧
        List.Forall₂ Phrase.SpellsDeclaration declarations seen := by
    have result := reads.result
    rw [lexed] at result
    generalize (Reading.declarations (Token.lex selection)).result = outcome at result ⊢
    cases result with
    | some spelled => exact ⟨_, rfl, spelled⟩
  obtain ⟨used, ⟨rfl, chosen⟩, split⟩ := Reading.declarations_spends (Token.lex selection)
    (Reading.genuineTokens_lex selection) seen found
  obtain ⟨nameTokens, settled⟩ := Scan.enclosingClass_settled resolved
  refine ⟨?_, fun declaration member text defined => ?_⟩
  · rw [split, Reading.declarations_tokens spelled, reads.rest, lexed]
  · obtain ⟨phrased, among, spells⟩ := Reading.related_of_mem spelled member
    obtain ⟨front, declarator, back, core, whole, place, plain, removed, tokens⟩ :=
      tokens_of_defined spells (chosen phrased among) settled defined
    refine ⟨front, declarator, back, core, whole, place, plain, removed, tokens, fun none => ⟨?_, ?_⟩⟩
    · exact removed.eq_of_no_equal fun token member =>
        none token (mem_declarationTokens (by simp [whole]) member)
    · exact takeWhile_of_no_equal (fun segment member => by simp [whole, member]) none

theorem definition_tokens_defaulted :
    let before := "class A \x7b".toList
    let selection := "virtual int f(int a = g(1, 2), T b) const override = 0;".toList
    let declaration : Declaration := ⟨some 2, [⟨.plain, "virtual".toList⟩, ⟨.plain, "int".toList⟩,
      ⟨.paren, "f(int a = g(1, 2), T b)".toList⟩, ⟨.plain, "const".toList⟩,
      ⟨.plain, "override".toList⟩, ⟨.symbol, "=".toList⟩, ⟨.plain, "0".toList⟩],
      some ["int a".toList, "T b".toList]⟩
    let text := "int A::f(int a, T b) const".toList
    ∃ head parser, (enclosingClass before []).1 = some head ∧
      Production.declarations (.ofText selection []) = (some [declaration], parser) ∧
      ofDeclaration? .default head.name declaration = some text ∧
      ∃ front declarator back core, declaration.segments = front ++ declarator :: back ∧
        (declaratorOf? .default declaration).map (·.1) = some front.length ∧
        DefaultsRemoved declarator.tokens core ∧
        Token.significant (Token.lex text) =
          (front.filter Style.default.keeps).flatMap Segment.tokens ++
            (Token.significant (Token.lex head.name) ++ ⟨.doubleColon, [':', ':']⟩ :: core) ++
            ((back.takeWhile (!·.isAssignment)).filter Style.default.keeps).flatMap Segment.tokens := by
  intro before selection declaration text
  have named : (enclosingClass before []).1.map (·.name) = some "A".toList := by decide +kernel
  obtain ⟨head, resolved, name⟩ := Option.map_eq_some_iff.mp named
  have found : (Production.declarations (.ofText selection [])).1 = some [declaration] := by
    decide +kernel
  have read : Production.declarations (.ofText selection []) =
      (some [declaration], (Production.declarations (.ofText selection [])).2) := by
    rw [← found]
  have defined : ofDeclaration? .default head.name declaration = some text := by
    rw [name]
    decide +kernel
  obtain ⟨front, declarator, back, core, whole, place, _, removed, tokens, _⟩ :=
    (definition_tokens .default resolved read).2 declaration List.mem_cons_self text defined
  exact ⟨head, _, resolved, read, defined, front, declarator, back, core, whole, place, removed, tokens⟩

end Definition

end OutOfLine
