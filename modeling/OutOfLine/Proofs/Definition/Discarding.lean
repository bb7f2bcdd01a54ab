import OutOfLine.Proofs.Definition
import OutOfLine.Proofs.Settings
import OutOfLine.Proofs.WrittenForm

namespace OutOfLine

namespace Text

/-- A text that is not empty and has no blank at either end. -/
structure Solid (text : Text) : Prop where
  nonempty : text ≠ []
  starts : ∀ c ∈ text.head?, isBlank c = false
  ends : ∀ c ∈ text.getLast?, isBlank c = false

theorem solid_iff {text : Text} : Solid text ↔ text ≠ [] ∧ text = trim text := by
  constructor
  · intro solid
    exact ⟨solid.nonempty, Trims.eq_trim ⟨⟨[], [], by simp, by simp, by simp⟩, solid.starts, solid.ends⟩⟩
  · rintro ⟨nonempty, trimmed⟩
    have trims := trims_iff.mpr trimmed
    exact ⟨nonempty, trims.starts, trims.ends⟩

instance (text : Text) : Decidable (Solid text) :=
  decidable_of_iff _ solid_iff.symm

theorem solid_of_all {text : Text} (nonempty : text ≠ []) (all : ∀ c ∈ text, isBlank c = false) :
    Solid text :=
  ⟨nonempty, fun c first => all c (List.mem_of_mem_head? first),
    fun c last => all c (List.mem_of_mem_getLast? last)⟩

/-- Only the ends matter: anything may stand between two solid texts. -/
theorem Solid.around {front back : Text} (before : Solid front) (behind : Solid back) (inner : Text) :
    Solid (front ++ (inner ++ back)) := by
  have more : inner ++ back ≠ [] := by simp [behind.nonempty]
  refine ⟨by simp [before.nonempty], fun c first => ?_, fun c last => ?_⟩
  · rw [List.head?_append_of_ne_nil _ before.nonempty] at first
    exact before.starts c first
  · rw [List.getLast?_append_of_ne_nil _ more, List.getLast?_append_of_ne_nil _ behind.nonempty] at last
    exact behind.ends c last

end Text

theorem Token.solid_mark {kind : Token.Kind} {mark : Text} (marked : kind.mark? = some mark) :
    mark.Solid := by
  cases kind <;> cases marked <;> decide

theorem Reading.IsName.solid {name : List Token} (isName : IsName none name) (nonempty : name ≠ []) :
    (Token.spell name).Solid :=
  Text.solid_of_all (isName.spell_ne_nil nonempty) fun c member => (isName.chars c member).not_blank

namespace Production

theorem qualifiedName_solid : Finds Text.Solid qualifiedName := by
  intro parser name found
  obtain ⟨tokens, isName, nonempty, rfl⟩ := ClassName.IsQualified.tokens ⟨parser, found⟩
  exact isName.solid nonempty

/-- What is read up to the closer of a bracket run ends with that closer. -/
theorem bracketBody_closed {opener closer : Token.Kind} {closing : Text}
    (closes : closer.mark? = some closing) (depth : Nat) (read : List Text) :
    Finds (fun content => ∃ inner, content = read.reverse.flatten ++ (inner ++ closing))
      (bracketBody opener closer depth read) := by
  intro parser
  fun_induction bracketBody opener closer depth read parser with
  | case1 => simp
  | case3 read parser last after found opens closed =>
      rintro content same
      obtain rfl := Option.some.inj same
      have genuine := Token.genuine_of_cut (Reading.next_some_cut found)
      have ending := Token.text_of_mark genuine (closed ▸ closes)
      exact ⟨[], by simp [ending]⟩
  | case2 depth read parser first after found _ ih
  | case4 read parser first after found _ _ depth ih
  | case5 depth read parser first after found _ _ ih =>
      intro content same
      obtain ⟨inner, rfl⟩ := ih content same
      exact ⟨first.text ++ inner, by simp⟩

theorem bracketRun_solid {opener closer : Token.Kind} {opening closing : Text}
    (opens : opener.mark? = some opening) (closes : closer.mark? = some closing) :
    Finds Text.Solid (bracketRun opener closer) := by
  have genuine : Finds Token.Genuine token := .of_reads Reading.token_reads fun _ _ found => found.2
  refine genuine.bind fun first genuine => .ite (fun fits parser content found => ?_) fun _ => .fail
  obtain ⟨inner, rfl⟩ := bracketBody_closed closes 0 [first.text] parser content found
  have begins := Token.text_of_mark genuine (fits ▸ opens)
  simpa [begins] using (Token.solid_mark opens).around (Token.solid_mark closes) inner

theorem afterName_solid {name : Text} (solid : name.Solid) (opener : Token.Kind) :
    Finds (fun segment : Segment => segment.text.Solid) (afterName name opener) := by
  have bracketed : ∀ {opener closer : Token.Kind} {opening closing : Text} (kind : Segment.Kind),
      opener.mark? = some opening → closer.mark? = some closing →
      Finds (fun segment : Segment => segment.text.Solid)
        (bracketRun opener closer >>= fun content => return ⟨kind, name ++ content⟩) := by
    intro opener closer opening closing kind opens closes
    exact (bracketRun_solid opens closes).bind fun content inside => .pure (solid.around inside [])
  unfold afterName
  cases opener with
  | openParen => exact bracketed .paren rfl rfl
  | less => exact bracketed .angle rfl rfl
  | openBracket => exact bracketed .bracket rfl rfl
  | _ => exact .pure solid

theorem namedSegment_solid : Finds (fun segment : Segment => segment.text.Solid) namedSegment := by
  refine qualifiedName_solid.bind fun name solid => (finds_any _).bind fun opener _ => ?_
  cases opener with
  | none => exact .pure solid
  | some opener => exact afterName_solid solid opener

theorem attributeSegment_solid : Finds (fun segment : Segment => segment.text.Solid) attributeSegment :=
  (bracketRun_solid rfl rfl).bind fun _ solid => .pure solid

theorem symbolSegment_solid : Finds (fun segment : Segment => segment.text.Solid) symbolSegment := by
  have eaten : Finds (fun symbol => isSymbol symbol ∧ Token.Genuine symbol) (eatIf isSymbol) :=
    .of_reads (Reading.eatIf_reads _) fun _ _ accepted => accepted.2
  refine eaten.bind fun symbol accepted => .pure ?_
  obtain ⟨mark, marked⟩ : ∃ mark, symbol.kind.mark? = some mark := by
    have accepts := accepted.1
    cases kind : symbol.kind <;> simp_all [isSymbol, Token.Kind.mark?]
  rw [Token.text_of_mark accepted.2 marked]
  exact Token.solid_mark marked

theorem segment_solid : Finds (fun segment : Segment => segment.text.Solid) segment := by
  refine namedSegment_solid.attempt.maybe.bind fun named solid => ?_
  cases named with
  | some named => exact .pure (solid named rfl)
  | none =>
      refine attributeSegment_solid.attempt.maybe.bind fun bracketed solid => ?_
      cases bracketed with
      | some bracketed => exact .pure (solid bracketed rfl)
      | none => exact symbolSegment_solid.attempt

theorem segmentsThroughSemicolon_solid {read : List Segment}
    (before : ∀ segment ∈ read, segment.text.Solid) :
    Finds (fun segments => ∀ segment ∈ segments, segment.text.Solid) (segmentsThroughSemicolon read) := by
  intro parser
  fun_induction segmentsThroughSemicolon read parser with
  | case1 => simp
  | case2 read parser last after found semicolon rest ended =>
      intro segments same
      obtain rfl := Option.some.inj same
      have all : ∀ segment ∈ last :: read, segment.text.Solid :=
        List.forall_mem_cons.mpr ⟨segment_solid parser last (by rw [found]), before⟩
      exact fun segment member => all segment (List.mem_reverse.mp member)
  | case3 read parser next after found rest ended ih =>
      exact ih (List.forall_mem_cons.mpr ⟨segment_solid parser next (by rw [found]), before⟩)

theorem declaration_solid :
    Finds (fun declaration => ∀ segment ∈ declaration.segments, segment.text.Solid) declaration := by
  have segments := segmentsThroughSemicolon_solid
    (List.forall_mem_nil fun segment : Segment => segment.text.Solid)
  refine Finds.attempt (segments.bind fun segments solid => ?_)
  exact (finds_any _).bind fun _ _ => (finds_any _).bind fun _ _ => .pure solid

end Production

/-- The words of the set that are kept. -/
def WordSet.filter (keeps : Text → Bool) (set : WordSet) : WordSet :=
  ⟨set.words.filter keeps, set.sorted.filter keeps⟩

theorem WordSet.contains_filter (keeps : Text → Bool) (set : WordSet) (word : Text) :
    (set.filter keeps).contains word = (set.contains word && keeps word) := by
  rw [Bool.eq_iff_iff]
  simp [contains, filter]

namespace Style

/-- The style without the discarded words that are empty or have a blank at an end. -/
def pruned (style : Style) : Style :=
  { style with discarded := style.discarded.filter fun word => decide word.Solid }

theorem keeps_pruned (style : Style) {segment : Segment} (solid : segment.text.Solid) :
    style.pruned.keeps segment = style.keeps segment := by
  simp [keeps, pruned, WordSet.contains_filter, solid]

end Style

namespace Definition

section

variable {style other : Style} {segments : List Segment}

theorem guessDeclarator?_congr (same : ∀ segment ∈ segments, style.keeps segment = other.keeps segment) :
    guessDeclarator? style segments = guessDeclarator? other segments := by
  have named : ∀ pair ∈ (segments.takeWhile (!·.isAssignment)).zipIdx.reverse,
      canBeName style pair.1 = canBeName other pair.1 := by
    intro pair member
    have among := List.takeWhile_subset _ (List.fst_mem_of_mem_zipIdx (List.mem_reverse.mp member))
    simp only [canBeName, same pair.1 among]
  simp only [guessDeclarator?, ← List.head?_filter, List.filter_congr named]

theorem words_congr (same : ∀ segment ∈ segments, style.keeps segment = other.keeps segment)
    (index : Nat) (qualified : Text) :
    words style index qualified segments = words other index qualified segments := by
  have filtered : ∀ part : List Segment, part ⊆ segments →
      part.filter style.keeps = part.filter other.keeps :=
    fun part within => List.filter_congr fun segment member => same segment (within member)
  have front := filtered _ (List.take_subset index segments)
  have back := filtered ((segments.drop (index + 1)).takeWhile (!·.isAssignment))
    fun segment member => List.drop_subset _ _ (List.takeWhile_subset _ member)
  simp only [words, front, back]

/-- A definition depends on a style only through the segments of its declaration that are kept. -/
theorem ofDeclaration?_congr {declaration : Declaration} (className : Text)
    (same : ∀ segment ∈ declaration.segments, style.keeps segment = other.keeps segment) :
    ofDeclaration? style className declaration = ofDeclaration? other className declaration := by
  have declarator : declaratorOf? style declaration = declaratorOf? other declaration := by
    unfold declaratorOf?
    split
    · rfl
    · exact guessDeclarator?_congr same
  simp only [ofDeclaration?, declarator, words_congr same]

end

/-- Discarded words that are empty or have a blank at an end match no segment, and so leave every
declaration with the declarator, the note and the definition it has without them. -/
theorem ofDeclaration?_pruned (parser : Parser) :
    (∀ segment after, Production.segment parser = (some segment, after) → segment.text.Solid) ∧
      ∀ (style : Style) (className : Text) declaration after,
        Production.declaration parser = (some declaration, after) →
          guessDeclarator? style.pruned declaration.segments =
            guessDeclarator? style declaration.segments ∧
          (∀ log, noteDeclaration style.pruned declaration log = noteDeclaration style declaration log) ∧
          ofDeclaration? style.pruned className declaration =
            ofDeclaration? style className declaration := by
  refine ⟨fun segment after found => Production.segment_solid parser segment (by rw [found]), ?_⟩
  intro style className declaration after found
  have same : ∀ segment ∈ declaration.segments,
      style.pruned.keeps segment = style.keeps segment := fun segment member =>
    style.keeps_pruned (Production.declaration_solid parser declaration (by rw [found]) segment member)
  have guessed := guessDeclarator?_congr same
  refine ⟨guessed, fun log => ?_, ofDeclaration?_congr className same⟩
  rw [noteDeclaration, noteDeclaration, guessed]

/-- The attribute holds blanks and a comment at its ends, yet it has brackets around them, and of the
four words only one is without blanks and not empty. -/
theorem ofDeclaration?_pruned_attribute :
    let style : Style := { Style.default with
      discarded := .ofList ["".toList, "static".toList, " value".toList, "int\n".toList] }
    let parser := Parser.ofText "[ /* a */\n] static int value = 1;".toList []
    style.pruned.discarded = .ofList ["static".toList] ∧
      (∃ segment after, Production.segment parser = (some segment, after) ∧
        segment.text = "[ /* a */\n]".toList ∧ segment.text.Solid) ∧
      ∃ declaration after, Production.declaration parser = (some declaration, after) ∧
        guessDeclarator? style.pruned declaration.segments =
          guessDeclarator? style declaration.segments ∧
        noteDeclaration style.pruned declaration [] = noteDeclaration style declaration [] ∧
        ofDeclaration? style.pruned "A".toList declaration =
          ofDeclaration? style "A".toList declaration ∧
        ofDeclaration? style "A".toList declaration = some "[ /* a */\n] int A::value".toList := by
  intro style parser
  have first : (Production.segment parser).1 = some ⟨.attribute, "[ /* a */\n]".toList⟩ := by
    decide +kernel
  have declared : (Production.declaration parser).1.bind (ofDeclaration? style "A".toList) =
      some "[ /* a */\n] int A::value".toList := by decide +kernel
  obtain ⟨declaration, found, defined⟩ := Option.bind_eq_some_iff.mp declared
  have segmentRead : Production.segment parser = (some _, _) := Prod.ext first rfl
  have read : Production.declaration parser = (some declaration, _) := Prod.ext found rfl
  have pruned := ofDeclaration?_pruned parser
  obtain ⟨guess, note, definition⟩ := pruned.2 style "A".toList declaration _ read
  exact ⟨by decide +kernel, ⟨_, _, segmentRead, rfl, pruned.1 _ _ segmentRead⟩,
    declaration, _, read, guess, note [], definition, defined⟩

end Definition

end OutOfLine
