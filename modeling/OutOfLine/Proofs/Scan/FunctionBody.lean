import Mathlib.Data.List.Chain
import OutOfLine.Proofs.ClassHead
import OutOfLine.Proofs.Scan.Transparency

/-!
Function bodies under a scan. The brace of a function opens a level without a class, and so does not
change the enclosing class, unless the return type has a class keyword. A class head may have any words
and calls before its brace, so what follows the last keyword of a header can be a class head as well,
and the function body is then taken for the body of that class.
-/

namespace OutOfLine

namespace Grammar

instance (name : List Token) : Decidable (IsNameRun name) :=
  decidable_of_iff (name ≠ [] ∧ (∀ token ∈ name, token.kind ∈ nameKinds) ∧
      name.IsChain fun left right => (left.kind, right.kind) ∈ nameNeighbours)
    ⟨fun ⟨nonempty, kinds, neighbours⟩ => ⟨nonempty, kinds, neighbours⟩,
      fun ⟨nonempty, kinds, neighbours⟩ => ⟨nonempty, kinds, neighbours⟩⟩

/-- One word of a return type, without white space and comments. -/
inductive TypeWord : List Token → Prop where
  | name {word : List Token} (isName : IsNameRun word) : TypeWord word
  | sign {mark : Token} (isSign : mark.kind ∈ [.star, .ampersand]) : TypeWord [mark]
  | elaborated {keyword : Token} {word : List Token} (isKeyword : keyword.kind = .classKeyword)
      (isName : IsNameRun word) : TypeWord (keyword :: word)

/-- A function header up to its brace: the return type, the name, the parameters in their parentheses
and words such as `const`. White space and comments may stand between all of these. -/
inductive FunctionHeader : List Token → Prop where
  | header {types name parameters words : List Token} {typeWords : List (List Token)} {brace : Token}
      (isType : Token.significant types = typeWords.flatten) (typed : ∀ word ∈ typeWords, TypeWord word)
      (isName : IsNameRun (Token.significant name))
      (isRun : IsBracketRun .openParen .closeParen parameters)
      (inside : ∀ token ∈ parameters, token.kind ∉ [.openBrace, .closeBrace, .classKeyword])
      (areWords : ∀ token ∈ Token.significant words, token.kind = .word)
      (opens : brace.kind = .openBrace) :
      FunctionHeader (types ++ (name ++ (parameters ++ (words ++ [brace]))))

/-- The class head that tokens are taken for: behind a class keyword they are a row of at most 50 groups
up to a brace, and the last of its words that can be a name is the name. -/
inductive TakenFor : List Token → ClassHead → Prop where
  | head {before after : List Token} {keyword brace : Token} {phrases : List Phrase}
      {leading trailing : List Segment} {name : Segment} (isKeyword : keyword.kind = .classKeyword)
      (row : Row after phrases [brace]) (opens : brace.kind = .openBrace) (few : phrases.length ≤ 50)
      (split : phrases.map Phrase.segment = leading ++ name :: trailing) (names : name.NamesClass)
      (last : ∀ segment ∈ trailing, ¬ segment.NamesClass) :
      TakenFor (before ++ keyword :: after)
        ⟨name.text, ClassHead.joinTexts? leading, ClassHead.joinTexts? trailing, none⟩

/-- A token that stands between groups, or makes one without a bracket. -/
def Loose (token : Token) : Prop :=
  token.kind.isTrivia = true ∨ token.kind ∈ nameKinds ++ signs

/-- What matters of a function header to a scan: any class keyword has loose tokens around it, and behind
them is a row up to the brace. -/
structure OpensBody (types declarator : List Token) (brace : Token) : Prop where
  loose : ∀ token ∈ types, token.kind = .classKeyword ∨ Loose token
  plain : ∀ token ∈ declarator, token.kind ∉ [.openBrace, .closeBrace, .classKeyword]
  row : ∃ phrases, Row (declarator ++ [brace]) phrases [brace]
  opens : brace.kind = .openBrace

theorem Loose.plain {token : Token} (loose : Loose token) :
    token.kind ∉ [.openBrace, .closeBrace, .classKeyword] := by
  rcases loose with trivia | kind
  · cases seen : token.kind <;> simp_all [Token.Kind.isTrivia]
  · cases seen : token.kind <;> simp_all [nameKinds, signs]

theorem loose_or_seen {tokens : List Token} {token : Token} (member : token ∈ tokens) :
    Loose token ∨ token ∈ Token.significant tokens := by
  cases trivia : token.kind.isTrivia with
  | true => exact .inl (.inl trivia)
  | false => exact .inr (List.mem_filter.mpr ⟨member, by simp [trivia]⟩)

theorem IsNameRun.loose {name : List Token} (isName : IsNameRun name) : ∀ token ∈ name, Loose token :=
  fun token member => .inr (List.mem_append_left _ (isName.kinds token member))

theorem TypeWord.loose {word : List Token} (isWord : TypeWord word) :
    ∀ token ∈ word, token.kind = .classKeyword ∨ Loose token := by
  intro token member
  cases isWord with
  | name isName => exact .inr (isName.loose token member)
  | sign isSign =>
      obtain rfl := List.mem_singleton.mp member
      refine .inr (.inr (List.mem_append_right _ ?_))
      revert isSign
      cases token.kind <;> decide
  | elaborated isKeyword isName =>
      rcases List.mem_cons.mp member with rfl | member
      · exact .inl isKeyword
      · exact .inr (isName.loose token member)

end Grammar

namespace Reading

open Grammar

section Rows

variable {tokens name rest others more after front run : List Token} {first next mark : Token}
  {phrase : Phrase} {phrases : List Phrase}

theorem nameKinds_apart {kind : Token.Kind} (named : kind ∈ nameKinds) :
    kind.isTrivia = false ∧ kind ∉ nameBrackets.map fun brackets => brackets.2.1 := by
  simp only [nameKinds, List.mem_cons, List.not_mem_nil, or_false] at named
  rcases named with rfl | rfl | rfl <;> decide

theorem isNameRun_cons_iff :
    IsNameRun (first :: name) ↔ first.kind ∈ nameKinds ∧
      (∀ next ∈ name.head?, (first.kind, next.kind) ∈ nameNeighbours) ∧ (name = [] ∨ IsNameRun name) := by
  constructor
  · rintro ⟨_, kinds, chain⟩
    obtain ⟨here, later⟩ := List.forall_mem_cons.mp kinds
    obtain ⟨neighbours, chain⟩ := List.isChain_cons.mp chain
    refine ⟨here, neighbours, ?_⟩
    by_cases empty : name = []
    · exact .inl empty
    · exact .inr ⟨empty, later, chain⟩
  · rintro ⟨here, neighbours, rfl | isName⟩
    · exact ⟨by simp, by simpa using here, by simp⟩
    · exact ⟨by simp, List.forall_mem_cons.mpr ⟨here, isName.kinds⟩,
        List.isChain_cons.mpr ⟨neighbours, isName.neighbours⟩⟩

/-- A name token is a group of its own before a token that neither goes on with it nor opens a bracket. -/
theorem group_alone (named : first.kind ∈ nameKinds) (found : token tokens = ⟨some next, others, false⟩)
    (apart : (first.kind, next.kind) ∉ nameNeighbours)
    (noBracket : next.kind ∉ nameBrackets.map fun brackets => brackets.2.1) :
    Group (first :: tokens) ⟨.plain, [first]⟩ tokens := by
  have shown := head?_significant found
  have isName : IsNameRun [first] := isNameRun_cons_iff.mpr ⟨named, by simp, .inl rfl⟩
  have visible := (nameKinds_apart named).1
  refine .plain ⟨isName, ⟨[first], Token.significant_cons visible [], rfl⟩, fun other here => ?_⟩
    fun other here => ?_
  · obtain rfl := Option.some.inj (shown.symm.trans here)
    intro longer
    exact apart ((isNameRun_cons_iff.mp longer).2.1 next rfl)
  · obtain rfl := Option.some.inj (shown.symm.trans here)
    exact noBracket

/-- A name token in front of a name goes on with it or stands alone. -/
theorem nameAhead_cons (named : first.kind ∈ nameKinds) (ahead : NameAhead tokens name rest) :
    NameAhead (first :: tokens) (first :: name) rest ∨
      Group (first :: tokens) ⟨.plain, [first]⟩ tokens := by
  obtain ⟨next, inner, others, rfl, found, kind⟩ := nameAhead_first ahead
  by_cases neighbours : (first.kind, next.kind) ∈ nameNeighbours
  · obtain ⟨isName, ⟨front, shown, rfl⟩, maximal⟩ := ahead
    have longer : IsNameRun (first :: next :: inner) :=
      isNameRun_cons_iff.mpr ⟨named, by simpa using neighbours, .inr isName⟩
    refine .inl ⟨longer, ⟨first :: front, ?_, rfl⟩, fun other here extended => ?_⟩
    · rw [Token.significant_cons (nameKinds_apart named).1, shown]
    · exact maximal other here ((isNameRun_cons_iff.mp extended).2.2.resolve_left (by simp))
  · exact .inr (group_alone named found neighbours (nameKinds_apart kind).2)

/-- A name with brackets behind it, in any layout, is one group. -/
theorem group_bracketed {kind : Segment.Kind} {opener closer : Token.Kind}
    (isName : IsNameRun (Token.significant front)) (brackets : (kind, opener, closer) ∈ nameBrackets)
    (isRun : IsBracketRun opener closer run) (rest : List Token) :
    Group (front ++ (run ++ rest)) ⟨kind, Token.significant front ++ run⟩ rest := by
  have visible := (nameBrackets_visible brackets).2
  refine .bracketed ⟨isName, ⟨front, rfl, rfl⟩, fun next here longer => ?_⟩ brackets isRun
  obtain ⟨first, others, found, opens, _⟩ := token_bracketRun isRun visible Token.significant_nil rest
  obtain rfl := Option.some.inj ((head?_significant found).symm.trans here)
  have named := nameKinds_apart (longer.kinds first (by simp))
  exact named.2 (opens ▸ List.mem_map_of_mem brackets)

theorem group_cons (named : first.kind ∈ nameKinds) (group : Group tokens phrase rest) :
    (∃ longer, Group (first :: tokens) longer rest) ∨
      Group (first :: tokens) ⟨.plain, [first]⟩ tokens := by
  cases group with
  | plain ahead alone =>
      exact (nameAhead_cons named ahead).imp_left fun joined => ⟨_, .plain joined alone⟩
  | bracketed ahead brackets isRun =>
      exact (nameAhead_cons named ahead).imp_left fun joined => ⟨_, .bracketed joined brackets isRun⟩
  | @enclosed blank run _ trivial isRun =>
      have isName : IsNameRun (Token.significant (first :: blank)) := by
        rw [Token.significant_cons (nameKinds_apart named).1, trivial]
        exact isNameRun_cons_iff.mpr ⟨named, by simp, .inl rfl⟩
      have brackets : (.bracket, .openBracket, .closeBracket) ∈ nameBrackets := by decide
      exact .inl ⟨_, group_bracketed isName brackets isRun rest⟩
  | @symbol blank _ mark trivial sign =>
      obtain ⟨visible, misfit, noBracket⟩ := signs_apart sign
      have found : token (blank ++ mark :: rest) = ⟨some mark, rest, false⟩ :=
        (token_blank trivial _).trans (token_visible visible rest)
      refine .inr (group_alone named found (fun neighbours => ?_) ?_)
      · rw [continuesName_none_iff.mpr (nameKinds_of_neighbours neighbours)] at misfit
        contradiction
      · simp only [signs, List.mem_cons, List.not_mem_nil, or_false] at sign
        rcases sign with kind | kind | kind | kind <;> rw [kind] <;> decide

/-- A loose token in front of a row makes a group there, alone or with the first group of the row. -/
theorem row_cons (row : Row tokens phrases after) (behind : token after = ⟨some mark, more, false⟩)
    (stops : mark.kind ∈ [.openBrace, .classKeyword]) (loose : Loose first) :
    ∃ others, Row (first :: tokens) others after := by
  rcases loose with trivia | kind
  · have trivial : Token.significant [first] = [] := Token.significant_cons_trivia trivia []
    exact ⟨phrases, row_blank trivial row⟩
  rcases List.mem_append.mp kind with named | sign
  · cases row with
    | @done blank _ trivial =>
        have apart : mark.kind ∉ nameKinds ∧
            mark.kind ∉ nameBrackets.map fun brackets => brackets.2.1 := by
          simp only [List.mem_cons, List.not_mem_nil, or_false] at stops
          rcases stops with kind | kind <;> rw [kind] <;> decide
        have found := (token_blank trivial after).trans behind
        exact ⟨_, .more (group_alone named found (mt nameKinds_of_neighbours apart.1) apart.2)
          (.done trivial)⟩
    | more group later =>
        rcases group_cons named group with ⟨longer, joined⟩ | alone
        · exact ⟨_, .more joined later⟩
        · exact ⟨_, .more alone (.more group later)⟩
  · exact ⟨_, .more (@Group.symbol [] tokens first rfl sign) row⟩

/-- Loose tokens in front of a row belong to a row, whichever groups they make. -/
theorem row_append (row : Row tokens phrases after) (behind : token after = ⟨some mark, more, false⟩)
    (stops : mark.kind ∈ [.openBrace, .classKeyword]) (loose : ∀ token ∈ front, Loose token) :
    ∃ others, Row (front ++ tokens) others after := by
  induction front with
  | nil => exact ⟨phrases, row⟩
  | cons first front ih =>
      obtain ⟨here, later⟩ := List.forall_mem_cons.mp loose
      obtain ⟨others, row⟩ := ih later
      exact row_cons row behind stops here

theorem segment_of_keyword (isKeyword : mark.kind = .classKeyword) (more : List Token) :
    (segment (mark :: more)).result = none := by
  have found : token (mark :: more) = ⟨some mark, more, false⟩ :=
    token_visible (by rw [isKeyword]; rfl) more
  have unnamed := namedSegment_of_misfit found (by rw [isKeyword]; rfl)
  have unopened := attributeSegment_of_misfit found (by rw [isKeyword]; decide)
  have noSymbol := symbolSegment_of_misfit found (by simp [Production.isSymbol, isKeyword])
  rw [segment_of_unnamed unnamed, orElse_of_none (attempt_of_none unopened), attempt_of_none noSymbol]

/-- No head is read past a class keyword. -/
theorem headSegments_of_keyword (row : Row tokens phrases after)
    (behind : token after = ⟨some mark, more, false⟩) (isKeyword : mark.kind = .classKeyword)
    (room : Nat) : (headSegments room tokens).result = none := by
  induction row generalizing room with
  | done trivial =>
      have goesOn := atHeadEnd_of_token ((token_blank trivial _).trans behind)
      simp only [isKeyword, reduceCtorEq, decide_false, Bool.or_false] at goesOn
      cases room with
      | zero => rw [headSegments, bind_of_some goesOn]; rfl
      | succ room =>
          rw [headSegments, bind_of_some goesOn]
          exact bind_failed (segment_of_keyword isKeyword more) _
  | more group later ih =>
      obtain ⟨first, others, _, goesOn⟩ := atHeadEnd_of_group group
      cases room with
      | zero => rw [headSegments, bind_of_some goesOn]; rfl
      | succ room =>
          obtain ⟨next, others, begins⟩ := row_begins later behind
          rw [headSegments_of_group group begins, Outcome.map, ih behind room]
          rfl

end Rows

section Bodies

variable {tokens types declarator before after : List Token} {brace keyword : Token}
  {phrases : List Phrase}

theorem token_brace (opens : brace.kind = .openBrace) : token [brace] = ⟨some brace, [], false⟩ :=
  token_visible (by rw [opens]; rfl) []

theorem opensBody_of_header (isHeader : FunctionHeader tokens) :
    ∃ types declarator brace, tokens = types ++ (declarator ++ [brace]) ∧
      OpensBody types declarator brace := by
  obtain ⟨isType, typed, isName, isRun, inside, areWords, opens⟩ := isHeader
  rename_i types name parameters words typeWords brace
  have looseName : ∀ token ∈ name, Loose token := fun token member =>
    (loose_or_seen member).elim id (isName.loose token)
  have looseWords : ∀ token ∈ words, Loose token := by
    intro token member
    refine (loose_or_seen member).elim id fun seen => .inr ?_
    rw [areWords token seen]
    decide
  refine ⟨types, name ++ (parameters ++ words), brace, by simp, ?_, ?_, ?_, opens⟩
  · intro token member
    refine (loose_or_seen member).elim .inr fun seen => ?_
    rw [isType] at seen
    obtain ⟨word, among, here⟩ := List.mem_flatten.mp seen
    exact (typed word among).loose token here
  · intro token member
    rcases List.mem_append.mp member with member | member
    · exact (looseName token member).plain
    rcases List.mem_append.mp member with member | member
    · exact inside token member
    · exact (looseWords token member).plain
  · have row := @Row.done [] [brace] rfl
    obtain ⟨phrases, row⟩ := row_append row (token_brace opens) (by simp [opens]) looseWords
    have brackets : (.paren, .openParen, .closeParen) ∈ nameBrackets := by decide
    have group := group_bracketed isName brackets isRun (words ++ [brace])
    exact ⟨_, by simpa using Row.more group row⟩

theorem no_keyword_of_body (opening : OpensBody types declarator brace) :
    ∀ token ∈ declarator ++ [brace], token.kind ≠ .classKeyword := by
  intro token member isKeyword
  rcases List.mem_append.mp member with member | member
  · exact opening.plain token member (by simp [isKeyword])
  · have opens := opening.opens
    rw [← List.mem_singleton.mp member, isKeyword] at opens
    contradiction

theorem keyword_of_body (opening : OpensBody types declarator brace)
    (isKeyword : keyword.kind = .classKeyword)
    (whole : types ++ (declarator ++ [brace]) = before ++ keyword :: after) :
    ∃ others, types = before ++ keyword :: others ∧ after = others ++ (declarator ++ [brace]) := by
  have absent := no_keyword_of_body opening keyword
  rcases List.append_eq_append_iff.mp whole with ⟨extra, _, inside⟩ | ⟨extra, split, behind⟩
  · rw [inside] at absent
    exact absurd isKeyword (absent (by simp))
  · cases extra with
    | nil =>
        rw [List.nil_append] at behind
        rw [← behind] at absent
        exact absurd isKeyword (absent List.mem_cons_self)
    | cons first others =>
        obtain ⟨rfl, rfl⟩ := List.cons.inj behind
        exact ⟨others, split, rfl⟩

/-- Of several class keywords only the last one can begin a head. -/
theorem classHead_of_two_keywords (opening : OpensBody types declarator brace)
    (isKeyword : keyword.kind = .classKeyword)
    (whole : types ++ (declarator ++ [brace]) = before ++ keyword :: after)
    (again : ∃ other ∈ after, other.kind = .classKeyword) :
    (classHead (keyword :: after)).result = none := by
  obtain ⟨others, rfl, rfl⟩ := keyword_of_body opening isKeyword whole
  obtain ⟨other, member, isKeywordAlso⟩ := again
  have among : other ∈ others :=
    (List.mem_append.mp member).resolve_right fun behind =>
      no_keyword_of_body opening other behind isKeywordAlso
  have found : (others.find? (·.kind = .classKeyword)).isSome = true :=
    List.find?_isSome.mpr ⟨other, among, by simpa using isKeywordAlso⟩
  obtain ⟨next, first⟩ := Option.isSome_iff_exists.mp found
  obtain ⟨isNext, run, more, rfl, earlier⟩ := List.find?_eq_some_iff_append.mp first
  have isKeywordNext : next.kind = .classKeyword := of_decide_eq_true isNext
  have loose : ∀ token ∈ run, Loose token := fun token here =>
    (opening.loose token (by simp [here])).resolve_left (by simpa using earlier token here)
  have behind := token_visible (by rw [isKeywordNext]; rfl) (more ++ (declarator ++ [brace]))
  obtain ⟨phrases, row⟩ := row_append (@Row.done [] _ rfl) behind (by simp [isKeywordNext]) loose
  rw [List.append_assoc, List.cons_append]
  exact @classHead_of_long _ [] keyword rfl isKeyword (headSegments_of_keyword row behind isKeywordNext _)

theorem row_of_last_keyword (opening : OpensBody types declarator brace)
    (isKeyword : keyword.kind = .classKeyword)
    (whole : types ++ (declarator ++ [brace]) = before ++ keyword :: after)
    (last : ∀ other ∈ after, other.kind ≠ .classKeyword) : ∃ phrases, Row after phrases [brace] := by
  obtain ⟨others, rfl, rfl⟩ := keyword_of_body opening isKeyword whole
  obtain ⟨phrases, row⟩ := opening.row
  have loose : ∀ token ∈ others, Loose token := fun token here =>
    (opening.loose token (by simp [here])).resolve_left (last token (List.mem_append_left _ here))
  exact row_append row (token_brace opening.opens) (by simp [opening.opens]) loose

theorem classHead_of_body (isKeyword : keyword.kind = .classKeyword) (opens : brace.kind = .openBrace)
    (row : Row after phrases [brace]) (few : phrases.length ≤ 50) {head : ClassHead}
    (chosen : ClassHead.ofSegments? (phrases.map Phrase.segment) = some head) :
    classHead (keyword :: after) = ⟨some { head with bases := none }, [], false⟩ := by
  have read := (headSegments_of_row row (token_brace opens) (.inr opens) Production.headSegmentLimit).1 few
  have based : bases [brace] = ⟨some none, [], false⟩ := by
    rw [bases, bind_of_some (token_brace opens)]
    simp [opens, Pure.pure]
  have accepted := @classHead_of_row _ [brace] [] phrases keyword rfl isKeyword head read chosen
  rw [based] at accepted
  exact accepted

theorem classHead_of_unnamed (isKeyword : keyword.kind = .classKeyword) (opens : brace.kind = .openBrace)
    (row : Row after phrases [brace])
    (unfit : 50 < phrases.length ∨ ClassHead.ofSegments? (phrases.map Phrase.segment) = none) :
    (classHead (keyword :: after)).result = none := by
  obtain ⟨read, long⟩ :=
    headSegments_of_row row (token_brace opens) (.inr opens) Production.headSegmentLimit
  by_cases few : phrases.length ≤ 50
  · have unnamed := unfit.resolve_left (by omega)
    have eaten : eat .classKeyword (keyword :: after) = ⟨some keyword, after, false⟩ :=
      @eat_classKeyword after [] keyword rfl isKeyword
    rw [classHead, bind_of_some eaten, bind_of_some (read few)]
    simp [unnamed, fail]
  · have tooMany : Production.headSegmentLimit < phrases.length := Nat.not_le.mp few
    exact @classHead_of_long after [] keyword rfl isKeyword (long tooMany)

end Bodies

end Reading

namespace Scan

open Grammar

variable {front tokens types declarator before after : List Token} {brace keyword : Token}
  {head : ClassHead} {text : Text}

theorem advanceTokens?_passed {first : Token} (noBrace : first.kind ∉ [.openBrace, .closeBrace])
    (rejected : first.kind = .classKeyword → (Reading.classHead (first :: after)).result = none) :
    advanceTokens? (first :: after) = some (.passed, after) := by
  rw [advanceTokens?]
  cases kind : first.kind with
  | classKeyword =>
      have failed := rejected kind
      rcases outcome : Reading.classHead (first :: after) with ⟨_ | head, rest, ended⟩
      · rfl
      · simp [outcome] at failed
  | openBrace => simp [kind] at noBrace
  | closeBrace => simp [kind] at noBrace
  | _ => rfl

/-- Tokens without a brace leave the levels as they are, if every class keyword among them is rejected. -/
theorem levelsAfter_passed (noBrace : ∀ token ∈ front, token.kind ∉ [.openBrace, .closeBrace])
    (rejected : ∀ before keyword after, front = before ++ keyword :: after →
      keyword.kind = .classKeyword → (Reading.classHead (keyword :: (after ++ tokens))).result = none)
    (lexed : Token.lex text = front ++ tokens) :
    ∃ rest, Token.lex rest = tokens ∧
      ∀ levels, levelsAfter levels (steps text) = levelsAfter levels (steps rest) := by
  induction front generalizing text with
  | nil => exact ⟨text, lexed, fun _ => rfl⟩
  | cons first front ih =>
      obtain ⟨here, later⟩ := List.forall_mem_cons.mp noBrace
      have next : advanceTokens? (Token.lex text) = some (.passed, front ++ tokens) := by
        rw [lexed]
        exact advanceTokens?_passed here (rejected [] first front rfl)
      obtain ⟨onward, advanced, remains⟩ := advance?_of_tokens next
      obtain ⟨rest, same, unchanged⟩ := ih later
        (fun before keyword after split =>
          rejected (first :: before) keyword after (by rw [split]; rfl)) remains
      refine ⟨rest, same, fun levels => ?_⟩
      rw [steps_of_advance? advanced]
      exact unchanged levels

/-- The steps of a text that ends with its first step. -/
theorem steps_of_single {step : Step} (next : advanceTokens? (Token.lex text) = some (step, [])) :
    steps text = [step] := by
  obtain ⟨onward, advanced, remains⟩ := advance?_of_tokens next
  obtain rfl : onward = [] := Token.lex_injective (remains.trans Token.lex_nil.symm)
  rw [steps_of_advance? advanced, steps_nil]

theorem noBrace_of_body (opening : OpensBody types declarator brace) :
    ∀ token ∈ types ++ declarator, token.kind ∉ [.openBrace, .closeBrace] := by
  intro token member isBrace
  have listed : token.kind ∈ [.openBrace, .closeBrace, .classKeyword] := by
    simp only [List.mem_cons, List.not_mem_nil, or_false] at isBrace ⊢
    exact isBrace.imp_right .inl
  rcases List.mem_append.mp member with member | member
  · rcases opening.loose token member with isKeyword | loose
    · simp [isKeyword] at isBrace
    · exact loose.plain listed
  · exact opening.plain token member listed

/-- If no class keyword begins a head, the brace opens a level without a class. -/
theorem levelsAfter_body (opening : OpensBody types declarator brace)
    (rejected : ∀ before keyword after, types ++ (declarator ++ [brace]) = before ++ keyword :: after →
      keyword.kind = .classKeyword → (Reading.classHead (keyword :: after)).result = none)
    (lexed : Token.lex text = types ++ (declarator ++ [brace])) (levels : List (Option ClassHead)) :
    levelsAfter levels (steps text) = none :: levels := by
  rw [← List.append_assoc] at lexed
  obtain ⟨rest, same, passed⟩ := levelsAfter_passed (noBrace_of_body opening)
    (fun before keyword after split =>
      rejected before keyword (after ++ [brace]) (by rw [← List.append_assoc, split]; simp)) lexed
  have next : advanceTokens? (Token.lex rest) = some (.opened, []) := by
    rw [same, advanceTokens?, opening.opens]
  rw [passed, steps_of_single next]
  rfl

theorem levelsAfter_taken (opening : OpensBody types declarator brace)
    (whole : types ++ (declarator ++ [brace]) = before ++ keyword :: after)
    (isKeyword : keyword.kind = .classKeyword)
    (accepted : Reading.classHead (keyword :: after) = ⟨some head, [], false⟩)
    (lexed : Token.lex text = types ++ (declarator ++ [brace])) (levels : List (Option ClassHead)) :
    levelsAfter levels (steps text) = some head :: levels := by
  obtain ⟨others, inTypes, _⟩ := Reading.keyword_of_body opening isKeyword whole
  have noBrace : ∀ token ∈ before, token.kind ∉ [.openBrace, .closeBrace] := fun token member =>
    noBrace_of_body opening token (by simp [inTypes, member])
  have rejected : ∀ first earlier between, before = first ++ earlier :: between →
      earlier.kind = .classKeyword →
      (Reading.classHead (earlier :: (between ++ keyword :: after))).result = none := by
    intro first earlier between split isKeywordAlso
    have wholeAlso : types ++ (declarator ++ [brace]) =
        first ++ earlier :: (between ++ keyword :: after) := by
      rw [whole, split, List.append_assoc, List.cons_append]
    exact Reading.classHead_of_two_keywords opening isKeywordAlso wholeAlso ⟨keyword, by simp, isKeyword⟩
  rw [whole] at lexed
  obtain ⟨rest, same, passed⟩ := levelsAfter_passed noBrace rejected lexed
  have next : advanceTokens? (Token.lex rest) = some (.head head, []) := by
    rw [same, advanceTokens?, isKeyword, accepted]
  rw [passed, steps_of_single next]
  rfl

theorem levelsAfter_takenFor (isHeader : FunctionHeader (Token.lex text))
    (taken : TakenFor (Token.lex text) head) (levels : List (Option ClassHead)) :
    levelsAfter levels (steps text) = some head :: levels := by
  obtain ⟨types, declarator, brace, lexed, opening⟩ := Reading.opensBody_of_header isHeader
  generalize tokens : Token.lex text = header at taken
  cases taken with
  | @head before after keyword last phrases leading trailing name isKeyword row opens few split names
      only =>
      have chosen := @ClassHead.ofSegments?_eq leading trailing name names only
      rw [← split] at chosen
      have accepted := Reading.classHead_of_body isKeyword opens row few chosen
      exact levelsAfter_taken opening (lexed.symm.trans tokens) isKeyword accepted lexed levels

theorem levelsAfter_not_taken (isHeader : FunctionHeader (Token.lex text))
    (notTaken : ∀ head, ¬ TakenFor (Token.lex text) head) (levels : List (Option ClassHead)) :
    levelsAfter levels (steps text) = none :: levels := by
  obtain ⟨types, declarator, brace, lexed, opening⟩ := Reading.opensBody_of_header isHeader
  refine levelsAfter_body opening (fun before keyword after whole isKeyword => ?_) lexed levels
  by_cases again : ∃ other ∈ after, other.kind = .classKeyword
  · exact Reading.classHead_of_two_keywords opening isKeyword whole again
  obtain ⟨phrases, row⟩ := Reading.row_of_last_keyword opening isKeyword whole
    fun other member same => again ⟨other, member, same⟩
  refine Reading.classHead_of_unnamed isKeyword opening.opens row ?_
  by_cases few : phrases.length ≤ 50
  · refine .inr (ClassHead.ofSegments?_eq_none fun segment member names => ?_)
    obtain ⟨leading, name, trailing, split, named, last⟩ :=
      ClassHead.exists_last_name ⟨segment, member, names⟩
    rw [lexed, whole] at notTaken
    exact notTaken _ (.head isKeyword row opening.opens few split named last)
  · exact .inl (Nat.not_le.mp few)

/-- The brace of a function header leaves the enclosing class as it is, unless the header is taken for a
class head; then that is the enclosing class. Without a class keyword it is not taken for one. -/
theorem enclosingClass_functionHeader {front header : Text} (log : Log)
    (isHeader : FunctionHeader (Token.lex header))
    (apart : Token.lex (front ++ header) = Token.lex front ++ Token.lex header)
    (decided : ∀ start ∈ attempted front,
      (Reading.classHead (Token.lex start)).reachedEnd = false)
    (within : (Token.lex (front ++ header)).length ≤ Production.scanLimit) :
    ((∀ token ∈ Token.lex header, token.kind ≠ .classKeyword) →
      (enclosingClass (front ++ header) log).1 = (enclosingClass front log).1) ∧
    ((∀ head, ¬ TakenFor (Token.lex header) head) →
      (enclosingClass (front ++ header) log).1 = (enclosingClass front log).1) ∧
    ∀ head, TakenFor (Token.lex header) head →
      (enclosingClass (front ++ header) log).1 = some head := by
  have whole : (steps (front ++ header)).length ≤ Production.scanLimit :=
    Nat.le_trans (length_steps_le _) within
  have split := steps_append apart decided
  have start : (steps front).length ≤ Production.scanLimit := by
    rw [split, List.length_append] at whole
    omega
  have found : (enclosingClass (front ++ header) log).1 =
      (levelsAfter (levelsAfter [] (steps front)) (steps header)).findSome? id := by
    rw [enclosingClass_eq_steps, if_pos whole, split, levelsAfter, List.foldl_append]
    rfl
  have unchanged (notTaken : ∀ head, ¬ TakenFor (Token.lex header) head) :
      (enclosingClass (front ++ header) log).1 = (enclosingClass front log).1 := by
    rw [found, levelsAfter_not_taken isHeader notTaken, enclosingClass_eq_steps, if_pos start]
    rfl
  refine ⟨fun noKeyword => unchanged fun head taken => ?_, unchanged, fun head taken => ?_⟩
  · generalize Token.lex header = tokens at noKeyword taken
    cases taken with
    | head isKeyword => exact noKeyword _ (by simp) isKeyword
  · rw [found, levelsAfter_takenFor isHeader taken]
    rfl

theorem enclosingClass_functionHeader_method :
    let front := "class A \x7b int x; ".toList
    let header := "n :: T /* \x7b */ & f(int (*g)(), char c = '\x7b') const\x7b".toList
    FunctionHeader (Token.lex header) ∧
      Token.lex (front ++ header) = Token.lex front ++ Token.lex header ∧
      (∀ start ∈ attempted front, (Reading.classHead (Token.lex start)).reachedEnd = false) ∧
      (Token.lex (front ++ header)).length ≤ Production.scanLimit ∧
      (∀ token ∈ Token.lex header, token.kind ≠ .classKeyword) ∧
      (enclosingClass (front ++ header) []).1 = (enclosingClass front []).1 ∧
      (enclosingClass front []).1.map (·.name) = some "A".toList := by
  intro front header
  have lexed : Token.lex header = Token.lex "n :: T /* \x7b */ & ".toList ++
      (Token.lex "f".toList ++ (Token.lex "(int (*g)(), char c = '\x7b')".toList ++
        (Token.lex " const".toList ++ [⟨.openBrace, ['\x7b']⟩]))) := by decide +kernel
  have parameters : Reading.bracketRun .openParen .closeParen
      (Token.lex "(int (*g)(), char c = '\x7b')".toList) =
        ⟨some (Token.lex "(int (*g)(), char c = '\x7b')".toList), [], false⟩ := by decide +kernel
  have isHeader : FunctionHeader (Token.lex header) := by
    rw [lexed]
    refine @FunctionHeader.header _ _ _ _ [Token.lex "n::T".toList, [⟨.ampersand, ['&']⟩]] _
      (by decide +kernel) ?_ (by decide +kernel)
      ((Reading.bracketRun_iff (by decide) rfl).mp parameters).1 (by decide +kernel) (by decide +kernel) rfl
    simp only [List.forall_mem_cons, List.not_mem_nil, false_implies, implies_true, and_true]
    exact ⟨.name (by decide +kernel), .sign (by decide)⟩
  have apart : Token.lex (front ++ header) = Token.lex front ++ Token.lex header := by decide +kernel
  have decided : ∀ start ∈ attempted front,
      (Reading.classHead (Token.lex start)).reachedEnd = false := by decide +kernel
  have within : (Token.lex (front ++ header)).length ≤ Production.scanLimit := by decide +kernel
  have noKeyword : ∀ token ∈ Token.lex header, token.kind ≠ .classKeyword := by decide +kernel
  exact ⟨isHeader, apart, decided, within, noKeyword,
    (enclosingClass_functionHeader [] isHeader apart decided within).1 noKeyword, by decide +kernel⟩

/-- With an elaborated return type a function body is taken for the body of that type. -/
theorem elaborated_header_hides_class :
    let front := "class A \x7b ".toList
    let header := "struct B f() \x7b".toList
    FunctionHeader (Token.lex header) ∧
      Token.lex (front ++ header) = Token.lex front ++ Token.lex header ∧
      (∀ start ∈ attempted front, (Reading.classHead (Token.lex start)).reachedEnd = false) ∧
      (Token.lex (front ++ header)).length ≤ Production.scanLimit ∧
      (enclosingClass front []).1.map (·.name) = some "A".toList ∧
      (enclosingClass (front ++ header) []).1.map (·.name) = some "B".toList := by
  intro front header
  have lexed : Token.lex header = Token.lex "struct B ".toList ++ (Token.lex "f".toList ++
      (Token.lex "()".toList ++ (Token.lex " ".toList ++ [⟨.openBrace, ['\x7b']⟩]))) := by decide +kernel
  have parameters : Reading.bracketRun .openParen .closeParen (Token.lex "()".toList) =
      ⟨some (Token.lex "()".toList), [], false⟩ := by decide +kernel
  refine ⟨?_, by decide +kernel, by decide +kernel, by decide +kernel, by decide +kernel,
    by decide +kernel⟩
  rw [lexed]
  refine @FunctionHeader.header _ _ _ _ [⟨.classKeyword, "struct".toList⟩ :: Token.lex "B".toList] _
    (by decide +kernel) (List.forall_mem_singleton.mpr (.elaborated rfl (by decide +kernel)))
    (by decide +kernel) ((Reading.bracketRun_iff (by decide) rfl).mp parameters).1 (by decide +kernel)
    (by decide +kernel) rfl

end Scan

end OutOfLine
