import OutOfLine.Proofs.Reading.Parameter

/-!
The normal form of a declaration: the texts of its segments with single spaces between them, and a
semicolon. A segment is found again in front of white space wherever the token behind that is of the
kind that stood behind the segment before, and in the normal form it is.
-/

namespace OutOfLine

namespace Token

theorem lex_semicolon : lex [';'] = [⟨.semicolon, [';']⟩] := by
  have marked : Kind.mark? .semicolon = some [';'] := rfl
  have lexed := lex_of_cut (cut_mark marked (by decide) [])
  simpa using lexed

end Token

namespace Reading

variable {tokens rest others blank : List Token} {first next : Token} {phrase : Phrase}
  {opener closer kind : Token.Kind} {reachedEnd : Bool}

/-- A name is read again with white space behind it. -/
theorem nameBody_again {last : Option Token.Kind} {name : List Token}
    (read : nameBody last tokens = ⟨some name, first :: others, false⟩)
    (trivial : Token.significant blank = []) (same : next.kind = first.kind) (more : List Token) :
    nameBody last (name ++ (blank ++ next :: more)) = ⟨some name, next :: more, false⟩ := by
  induction tokens generalizing last name with
  | nil => simp [nameBody] at read
  | cons here tokens ih =>
      unfold nameBody at read
      by_cases trivia : here.kind.isTrivia = true
      · rw [if_pos trivia] at read
        exact ih read
      rw [if_neg trivia] at read
      have visible : here.kind.isTrivia = false := by simpa using trivia
      by_cases continues : Production.continuesName last here.kind = true
      · rw [if_pos continues] at read
        rcases body : nameBody (some here.kind) tokens with ⟨_ | later, left, ended⟩ <;>
          simp only [body, Outcome.map, Option.map_none, Option.map_some, Outcome.mk.injEq, reduceCtorEq,
            Option.some.injEq, false_and] at read
        obtain ⟨rfl, rfl, rfl⟩ := read
        rw [List.cons_append, nameBody, if_neg trivia, if_pos continues, ih body]
        rfl
      · rw [if_neg continues] at read
        simp only [Outcome.mk.injEq, Option.some.injEq, List.cons.injEq] at read
        obtain ⟨rfl, ⟨rfl, rfl⟩, _⟩ := read
        rw [List.nil_append, nameBody_eq, token_blank trivial, token_visible (same ▸ visible)]
        simp [same, continues]

theorem nameBody_begins {last : Option Token.Kind} {name : List Token}
    (read : nameBody last tokens = ⟨some (first :: name), rest, reachedEnd⟩) :
    (token tokens).result = some first := by
  rw [nameBody_eq] at read
  rcases found : token tokens with ⟨_ | here, left, ended⟩ <;> rw [found] at read
  · simp at read
  · by_cases continues : Production.continuesName last here.kind = true
    · simp only [continues, if_true, Outcome.map, Outcome.mk.injEq, Option.map_eq_some_iff,
        List.cons.injEq] at read
      obtain ⟨⟨_, _, rfl, _⟩, _⟩ := read
      rfl
    · simp [continues] at read

theorem visible_of_token (found : token tokens = ⟨some next, others, reachedEnd⟩) :
    next.kind.isTrivia = false := by
  have split := token_split tokens
  rw [found] at split
  exact split.1

theorem bracketBody_again {depth : Nat} {run : List Token}
    (read : (bracketBody opener closer depth tokens).result = some run) (more : List Token) :
    bracketBody opener closer depth (run ++ more) = ⟨some run, more, false⟩ := by
  induction tokens generalizing depth run with
  | nil => simp [bracketBody] at read
  | cons first tokens ih =>
      rw [bracketBody] at read
      cases step : depthAfter? opener closer depth first.kind with
      | none =>
          simp only [step, Option.some.injEq] at read
          subst read
          simp only [List.cons_append, bracketBody, step, List.nil_append]
      | some inner =>
          simp only [step, Outcome.map, Option.map_eq_some_iff] at read
          obtain ⟨later, result, rfl⟩ := read
          simp only [List.cons_append, bracketBody, step, ih result, Outcome.map, Option.map_some]

/-- A bracket run is read again whatever is behind it. -/
structure RunAgain (opener closer : Token.Kind) (tokens run : List Token) : Prop where
  begins : ∃ first inner, run = first :: inner ∧ first.kind = opener ∧
    (token tokens).result = some first ∧ first.kind.isTrivia = false
  again (more : List Token) : bracketRun opener closer (run ++ more) = ⟨some run, more, false⟩

theorem bracketRun_again {run : List Token}
    (read : bracketRun opener closer tokens = ⟨some run, rest, reachedEnd⟩) :
    RunAgain opener closer tokens run := by
  rcases token_ended_or_found tokens with ended | ⟨first, others, found⟩
  · rw [bracketRun, bind_of_none ended] at read
    simp at read
  have visible := visible_of_token found
  rw [bracketRun, bind_of_some found] at read
  by_cases opens : first.kind = opener
  · rw [if_pos opens] at read
    rcases body : bracketBody opener closer 0 others with ⟨_ | inner, left, ended⟩
    · rw [bind_of_none body] at read
      simp at read
    · rw [bind_of_some body] at read
      simp only [Pure.pure, Outcome.mk.injEq, Option.some.injEq] at read
      obtain ⟨rfl, _⟩ := read
      refine ⟨⟨first, inner, rfl, opens, by rw [found], visible⟩, fun more => ?_⟩
      have result : (bracketBody opener closer 0 others).result = some inner := by rw [body]
      rw [List.cons_append, bracketRun, bind_of_some (token_visible visible _), if_pos opens,
        bind_of_some (bracketBody_again result more)]
      rfl
  · rw [if_neg opens] at read
    simp [fail] at read

/-- In front of white space and a token of the kind, the phrase is found again. -/
def StandsBefore (phrase : Phrase) (kind : Token.Kind) : Prop :=
  ∀ blank next more, Token.significant blank = [] → next.kind = kind →
    ∃ rest, segment (phrase.tokens ++ (blank ++ next :: more)) = ⟨some phrase, rest, false⟩ ∧
      token rest = ⟨some next, more, false⟩

theorem standsBefore_of_again (visible : kind.isTrivia = false)
    (again : ∀ more, segment (phrase.tokens ++ more) = ⟨some phrase, more, false⟩) :
    StandsBefore phrase kind := by
  intro blank next more trivial same
  exact ⟨_, again _, by rw [token_blank trivial, token_visible (same ▸ visible)]⟩

/-- A segment that was found in front of a token of the kind, and is found so again. -/
structure Refound (tokens : List Token) (phrase : Phrase) (kind : Token.Kind) : Prop where
  begins : ∃ first inner, phrase.tokens = first :: inner ∧ (token tokens).result = some first
  stands : StandsBefore phrase kind

theorem namedSegment_of_name {name : List Token} (nonempty : name ≠ [])
    (body : nameBody none tokens = ⟨some name, next :: others, false⟩)
    (visible : next.kind.isTrivia = false) :
    namedSegment tokens = afterName name next.kind (next :: others) := by
  have named : qualifiedName tokens = ⟨some name, next :: others, false⟩ := by
    rw [qualifiedName, bind_of_some body]
    simp [nonempty, Pure.pure]
  rw [namedSegment, bind_of_some named, bind_of_some (peek_of_some (token_visible visible others))]
  simp

/-- How a name becomes a segment where something stands behind it. -/
theorem namedSegment_parts (read : namedSegment tokens = ⟨some phrase, rest, reachedEnd⟩)
    (behind : token rest = ⟨some next, others, false⟩) :
    ∃ name follow left, name ≠ [] ∧ nameBody none tokens = ⟨some name, follow :: left, false⟩ ∧
      follow.kind.isTrivia = false ∧
      afterName name follow.kind (follow :: left) = ⟨some phrase, rest, reachedEnd⟩ := by
  obtain ⟨name, left, ended, nonempty, body, named⟩ := namedSegment_name (by rw [read])
  rw [namedSegment, bind_of_some named] at read
  cases ended with
  | true =>
      obtain rfl := nameBody_ended body
      obtain ⟨_, rfl⟩ : phrase = ⟨.plain, name⟩ ∧ rest = [] := by
        have plain := read.symm
        simp only [Bind.bind, peek, token, Pure.pure, Outcome.mk.injEq, Option.some.injEq] at plain
        exact ⟨plain.1, plain.2.1⟩
      simp [token] at behind
  | false =>
      obtain ⟨follow, others, rfl, visible⟩ := nameBody_found body
      rw [bind_of_some (peek_of_some (token_visible visible others))] at read
      exact ⟨name, follow, others, nonempty, body, visible, read⟩

theorem namedSegment_again (read : namedSegment tokens = ⟨some phrase, rest, reachedEnd⟩)
    (behind : token rest = ⟨some next, others, false⟩) : Refound tokens phrase next.kind := by
  obtain ⟨name, follow, left, nonempty, body, visible, rear⟩ := namedSegment_parts read behind
  obtain ⟨first, inner, whole⟩ := List.exists_cons_of_ne_nil nonempty
  have begins := nameBody_begins (whole ▸ body)
  cases brackets : Production.bracketKind? follow.kind with
  | none =>
      -- The token that ended the name is the one that stands behind the segment.
      obtain ⟨rfl, rfl⟩ : phrase = ⟨.plain, name⟩ ∧ rest = follow :: left := by
        simp only [afterName, brackets, Pure.pure, Outcome.mk.injEq, Option.some.injEq] at rear
        exact ⟨rear.1.symm, rear.2.1.symm⟩
      rw [token_visible visible] at behind
      simp only [Outcome.mk.injEq, Option.some.injEq] at behind
      obtain ⟨rfl, rfl, _⟩ := behind
      refine ⟨⟨first, inner, whole, begins⟩, fun blank next more trivial same => ?_⟩
      refine ⟨next :: more, segment_of_named ?_, token_visible (same ▸ visible) more⟩
      rw [namedSegment_of_name nonempty (nameBody_again body trivial same more) (same ▸ visible), same]
      simp [afterName, brackets, Pure.pure]
  | some form =>
      obtain ⟨closer, bracketed⟩ := afterName_bracketed brackets
      rw [bracketed] at rear
      rcases enclosed : bracketRun follow.kind closer (follow :: left) with ⟨_ | run, after, ended⟩
      · rw [bind_of_none enclosed] at rear
        simp at rear
      rw [bind_of_some enclosed] at rear
      simp only [Pure.pure, Outcome.mk.injEq, Option.some.injEq] at rear
      obtain ⟨rfl, _⟩ := rear
      obtain ⟨⟨mark, content, rfl, opens, _, seen⟩, again⟩ := bracketRun_again enclosed
      refine ⟨⟨first, inner ++ mark :: content, by rw [whole]; rfl, begins⟩,
        standsBefore_of_again (visible_of_token behind) fun more => segment_of_named ?_⟩
      have nothing : Token.significant [] = [] := rfl
      have named := nameBody_again body nothing opens (content ++ more)
      have replayed := again more
      rw [List.nil_append] at named
      rw [List.cons_append] at replayed
      rw [List.append_assoc, List.cons_append, namedSegment_of_name nonempty named seen, opens, bracketed,
        bind_of_some replayed]
      rfl

theorem attributeSegment_again (read : attributeSegment tokens = ⟨some phrase, rest, reachedEnd⟩)
    (visible : kind.isTrivia = false) : Refound tokens phrase kind := by
  rcases enclosed : bracketRun .openBracket .closeBracket tokens with ⟨_ | run, left, ended⟩
  · rw [attributeSegment, bind_of_none enclosed] at read
    simp at read
  · obtain ⟨⟨first, inner, rfl, opens, begins, seen⟩, again⟩ := bracketRun_again enclosed
    rw [attributeSegment, bind_of_some enclosed] at read
    simp only [Pure.pure, Outcome.mk.injEq, Option.some.injEq] at read
    obtain ⟨rfl, _⟩ := read
    refine ⟨⟨first, inner, rfl, begins⟩, standsBefore_of_again visible fun more => ?_⟩
    have misfit : Production.continuesName none first.kind = false := by rw [opens]; rfl
    refine segment_of_attribute (namedSegment_of_misfit (token_visible seen _) misfit) ?_
    rw [attributeSegment, bind_of_some (again more)]
    rfl

theorem symbolSegment_again (read : symbolSegment tokens = ⟨some phrase, rest, reachedEnd⟩)
    (visible : kind.isTrivia = false) : Refound tokens phrase kind := by
  rcases token_ended_or_found tokens with ended | ⟨symbol, others, found⟩
  · rw [symbolSegment, bind_of_none (eatIf_of_none ended _)] at read
    simp at read
  have seen := visible_of_token found
  by_cases isSymbol : Production.isSymbol symbol = true
  · have eaten : eatIf Production.isSymbol tokens = ⟨some symbol, others, false⟩ := by
      rw [eatIf_of_some found, if_pos isSymbol]
    rw [symbolSegment, bind_of_some eaten] at read
    simp only [Pure.pure, Outcome.mk.injEq, Option.some.injEq] at read
    obtain ⟨rfl, _⟩ := read
    refine ⟨⟨symbol, [], rfl, by rw [found]⟩, standsBefore_of_again visible fun more => ?_⟩
    have here := token_visible seen more
    have notName : Production.continuesName none symbol.kind = false := by
      cases kind : symbol.kind <;> simp_all [Production.continuesName, Production.isSymbol]
    have notBracket : symbol.kind ≠ .openBracket := by
      intro bracket
      simp [Production.isSymbol, bracket] at isSymbol
    have again : eatIf Production.isSymbol (symbol :: more) = ⟨some symbol, more, false⟩ := by
      rw [eatIf_of_some here, if_pos isSymbol]
    refine segment_of_symbol (namedSegment_of_misfit here notName)
      (attributeSegment_of_misfit here notBracket) ?_
    rw [symbolSegment, List.singleton_append, bind_of_some again]
    rfl
  · have refused : eatIf Production.isSymbol tokens = ⟨none, symbol :: others, false⟩ := by
      rw [eatIf_of_some found, if_neg isSymbol]
    rw [symbolSegment, bind_of_none refused] at read
    simp at read

/-- A segment is found again wherever a token of the same kind stands behind it. -/
theorem segment_again (read : segment tokens = ⟨some phrase, rest, reachedEnd⟩)
    (behind : token rest = ⟨some next, others, false⟩) : Refound tokens phrase next.kind := by
  have visible := visible_of_token behind
  have result : (segment tokens).result = some phrase := by rw [read]
  have way := segment_found result
  rw [read] at way
  cases way with
  | named named => exact namedSegment_again named behind
  | bracketed _ bracketed => exact attributeSegment_again bracketed visible
  | symbol _ _ symbol => exact symbolSegment_again symbol visible

end Reading

namespace Phrase

/-- The phrase begins with a token that is no white space and no comment. -/
def Visible (phrase : Phrase) : Prop :=
  ∃ first inner, phrase.tokens = first :: inner ∧ first.kind.isTrivia = false

/-- The tokens of the normal form. -/
def spaced : List Phrase → List Token
  | [] => [⟨.semicolon, [';']⟩]
  | [phrase] => phrase.tokens ++ [⟨.semicolon, [';']⟩]
  | phrase :: second :: others => phrase.tokens ++ ⟨.whitespace, [' ']⟩ :: spaced (second :: others)

theorem spaced_begins {phrase : Phrase} {first : Token} {inner : List Token}
    (begins : phrase.tokens = first :: inner) (others : List Phrase) :
    ∃ more, spaced (phrase :: others) = first :: more := by
  cases others with
  | nil => exact ⟨_, by rw [spaced, begins, List.cons_append]⟩
  | cons second others => exact ⟨_, by rw [spaced, begins, List.cons_append]⟩

theorem lex_joinTexts {segments : List Segment} {phrases : List Phrase}
    (spelled : List.Forall₂ Spells segments phrases) (visible : ∀ phrase ∈ phrases, phrase.Visible) :
    Token.lex (Segment.joinTexts segments ++ [';']) = spaced phrases := by
  induction spelled with
  | nil => exact Token.lex_semicolon
  | @cons segment phrase segments phrases first others ih =>
      have later := ih fun phrase member => visible phrase (List.mem_cons_of_mem _ member)
      cases others with
      | nil =>
          have apart : Token.Apart [';'] := Token.apart_cons (by decide) []
          have joined : Segment.joinTexts [segment] = segment.text := by
            simp [Segment.joinTexts, Text.join]
          rw [joined, first.settled _ apart, Token.lex_semicolon, spaced]
      | @cons segment' phrase' segments phrases second others =>
          obtain ⟨here, inner, begins, seen⟩ := visible phrase' (by simp)
          obtain ⟨more, whole⟩ := spaced_begins begins phrases
          have apart : ∀ text, Token.Apart (' ' :: text) := Token.apart_cons (by decide)
          have joined : Segment.joinTexts (segment :: segment' :: segments) =
              segment.text ++ ' ' :: Segment.joinTexts (segment' :: segments) := by
            simp [Segment.joinTexts, Text.join, List.intercalate]
          rw [joined, List.append_assoc, List.cons_append, first.settled _ (apart _),
            Token.lex_space (later.trans whole) seen, later, spaced]

end Phrase

namespace Reading

variable {tokens rest others : List Token} {mark : Token} {phrase : Phrase} {phrases : List Phrase}

theorem segmentsStep_of_last (read : List Phrase) (word : segment tokens = ⟨some phrase, rest, false⟩)
    (behind : token rest = ⟨some mark, others, false⟩) (semicolon : mark.kind = .semicolon) :
    segmentsStep read tokens = ⟨some (.inr (phrase :: read).reverse), others, false⟩ := by
  have eaten : maybe (eat .semicolon) rest = ⟨some (some mark), others, false⟩ := by
    simp [maybe, eat, eatIf_of_some behind, semicolon]
  rw [segmentsStep, bind_of_some word, bind_of_some eaten]
  simp [Pure.pure]

theorem segmentsStep_of_more (read : List Phrase) (word : segment tokens = ⟨some phrase, rest, false⟩)
    (behind : token rest = ⟨some mark, others, false⟩) (other : mark.kind ≠ .semicolon) :
    segmentsStep read tokens = ⟨some (.inl (phrase :: read)), mark :: others, false⟩ := by
  have refused : maybe (eat .semicolon) rest = ⟨some none, mark :: others, false⟩ := by
    simp [maybe, eat, eatIf_of_some behind, other]
  rw [segmentsStep, bind_of_some word, bind_of_some refused]
  simp [Pure.pure]

/-- The phrases up to a semicolon, which are found again in their normal form. -/
structure Normal (tokens : List Token) (phrases : List Phrase) : Prop where
  begins : ∃ phrase others first inner, phrases = phrase :: others ∧ phrase.tokens = first :: inner ∧
    (token tokens).result = some first
  visible : ∀ phrase ∈ phrases, phrase.Visible
  again (before : List Phrase) :
    loop segmentsStep before (Phrase.spaced phrases) = ⟨some (before.reverse ++ phrases), [], false⟩

theorem Refound.visible {kind : Token.Kind} (refound : Refound tokens phrase kind) : phrase.Visible := by
  obtain ⟨first, inner, whole, begins⟩ := refound.begins
  refine ⟨first, inner, whole, ?_⟩
  rcases found : token tokens with ⟨result, left, ended⟩
  rw [found] at begins
  obtain rfl : result = some first := begins
  exact visible_of_token found

theorem normal_of_last (word : segment tokens = ⟨some phrase, rest, false⟩)
    (behind : token rest = ⟨some mark, others, false⟩) (semicolon : mark.kind = .semicolon) :
    Normal tokens [phrase] := by
  have refound := segment_again word behind
  obtain ⟨first, inner, whole, begins⟩ := refound.begins
  refine ⟨⟨phrase, [], first, inner, rfl, whole, begins⟩, by simpa using refound.visible, fun before => ?_⟩
  obtain ⟨left, again, next⟩ := refound.stands [] ⟨.semicolon, [';']⟩ [] rfl semicolon.symm
  rw [List.nil_append] at again
  rw [Phrase.spaced, loop_of_done (segmentsStep_of_last before again next rfl), List.reverse_cons]

theorem normal_of_more {reachedEnd : Bool} (word : segment tokens = ⟨some phrase, rest, reachedEnd⟩)
    (behind : token rest = ⟨some mark, others, false⟩) (other : mark.kind ≠ .semicolon)
    (later : Normal (mark :: others) phrases) : Normal tokens (phrase :: phrases) := by
  have refound := segment_again word behind
  obtain ⟨first, inner, whole, begins⟩ := refound.begins
  refine ⟨⟨phrase, phrases, first, inner, rfl, whole, begins⟩, ?_, fun before => ?_⟩
  · simpa using ⟨refound.visible, later.visible⟩
  · -- What follows in the normal form begins with the same token.
    obtain ⟨second, further, start, _, rfl, wholeSecond, beginsSecond⟩ := later.begins
    rw [token_visible (visible_of_token behind)] at beginsSecond
    obtain rfl : mark = start := Option.some.inj beginsSecond
    obtain ⟨more, same⟩ := Phrase.spaced_begins wholeSecond further
    obtain ⟨left, again, next⟩ := refound.stands [⟨.whitespace, [' ']⟩] mark more rfl rfl
    have rounds := later.again (phrase :: before)
    rw [same] at rounds
    rw [List.singleton_append] at again
    rw [Phrase.spaced, same, loop_of_more segmentsStep_falls
      (segmentsStep_of_more before again next other), rounds]
    simp

theorem segmentsThroughSemicolon_again (found : (segmentsThroughSemicolon tokens).result = some phrases) :
    Normal tokens phrases := by
  have normal := loop_induction segmentsStep_falls
    (motive := fun read tokens outcome => ∀ phrases, outcome.result = some phrases →
      ∃ rest, phrases = read.reverse ++ rest ∧ Normal tokens rest) ?_ ?_ ?_ [] tokens
  · obtain ⟨rest, rfl, normal⟩ := normal phrases found
    exact normal
  · intro read tokens rest reachedEnd stepped phrases found
    simp at found
  · intro read tokens result rest reachedEnd stepped phrases found
    obtain rfl : result = phrases := Option.some.inj found
    cases segmentsStep_took stepped with
    | @last phrase between rest mark word semicolon =>
        obtain ⟨behind, kind, _⟩ := eatIf_found semicolon
        exact ⟨[phrase], by simp, normal_of_last word behind (of_decide_eq_true kind)⟩
  · intro read tokens next rest reachedEnd later stepped ih phrases found
    obtain ⟨others, rfl, normal⟩ := ih phrases found
    cases segmentsStep_took stepped with
    | @more phrase between rest early late word noSemicolon =>
        have remains : rest ≠ [] := by
          rintro rfl
          obtain ⟨_, _, _, _, _, _, begins⟩ := normal.begins
          simp [token] at begins
        obtain ⟨mark, left, behind, kind, rfl⟩ := eatIf_refused noSemicolon remains
        exact ⟨phrase :: others, by simp,
          normal_of_more word behind (of_decide_eq_false kind) normal⟩

/-- The normal form of a declaration is read as the declaration. -/
theorem declaration_again {seen : Phrase.Declaration}
    (found : (declaration tokens).result = some seen) :
    declaration (Phrase.spaced seen.phrases) = ⟨some seen, [], false⟩ ∧
      ∀ phrase ∈ seen.phrases, phrase.Visible := by
  unfold declaration at found
  rcases segments : segmentsThroughSemicolon tokens with ⟨_ | phrases, left, ended⟩
  · rw [attempt_of_none (bind_of_none segments _)] at found
    simp at found
  · rw [attempt_of_some (bind_of_some segments _)] at found
    obtain rfl := Option.some.inj found
    have result : (segmentsThroughSemicolon tokens).result = some phrases := by rw [segments]
    have normal := segmentsThroughSemicolon_again result
    have again : segmentsThroughSemicolon (Phrase.spaced phrases) = ⟨some phrases, [], false⟩ :=
      normal.again []
    refine ⟨?_, normal.visible⟩
    rw [declaration, attempt_of_some (bind_of_some again _)]
    rfl

end Reading

/-- The segments of a declaration, joined by single spaces and ended by a semicolon, are read as the
same declaration, and nothing is left. -/
theorem Production.declaration_joinTexts {parser after : Parser} {found : Declaration}
    (read : declaration parser = (some found, after)) {again : Parser}
    (joined : again.remaining = Segment.joinTexts found.segments ++ [';']) :
    ∃ ended, declaration again = (some found, ended) ∧ ended.remaining = [] := by
  obtain ⟨seen, result, spells, _⟩ := Reading.declaration_chosen read
  obtain ⟨replayed, visible⟩ := Reading.declaration_again result
  have agrees := Reading.declaration_reads again
  rw [joined, Phrase.lex_joinTexts spells.segments visible, replayed] at agrees
  obtain ⟨same, ended, run, spellsAgain, rest⟩ := agrees.of_some
  rw [spells.eq_written, ← spellsAgain.eq_written]
  exact ⟨ended, run, Token.lex_eq_nil_iff.mp rest⟩

theorem Production.declaration_joinTexts_vector :
    ∃ found after, declaration (.ofText
        "std :: vector /* of */ <int , /* b */ char>\n* f(int a = g(\"; )\")) const ;".toList []) =
        (some found, after) ∧
      Segment.joinTexts found.segments =
        "std::vector<int , /* b */ char> * f(int a = g(\"; )\")) const".toList ∧
      ∃ ended, declaration (.ofText (Segment.joinTexts found.segments ++ [';']) []) =
        (some found, ended) ∧ ended.remaining = [] := by
  generalize text :
    "std :: vector /* of */ <int , /* b */ char>\n* f(int a = g(\"; )\")) const ;".toList = whole
  have joined : (declaration (.ofText whole [])).1.map (Segment.joinTexts ·.segments) =
      some "std::vector<int , /* b */ char> * f(int a = g(\"; )\")) const".toList := by
    subst text
    decide +kernel
  rcases read : declaration (.ofText whole []) with ⟨_ | found, after⟩ <;> rw [read] at joined
  · simp at joined
  · exact ⟨found, after, rfl, Option.some.inj joined, declaration_joinTexts read rfl⟩

end OutOfLine
