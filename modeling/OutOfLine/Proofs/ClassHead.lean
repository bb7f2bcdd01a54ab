import Mathlib.Data.List.TakeWhile
import OutOfLine.Proofs.Grammar
import OutOfLine.Proofs.Parameters
import OutOfLine.Proofs.Reading.Base

namespace OutOfLine

/-- The tokens are the written ones in another layout. White space and comments may stand anywhere in
front, where there is no bracket; the run behind that is as it is written. -/
def Token.LaidOut (written tokens : List Token) : Prop :=
  ∃ front run, tokens = front ++ run ∧ written = significant front ++ run ∧
    ∀ token ∈ front, token.kind.closing? = none

namespace Segment

def LaidOut (segment : Segment) (tokens : List Token) : Prop :=
  Token.LaidOut (Token.lex segment.text) tokens

/-- A word that can be the name of a class. -/
def NamesClass (segment : Segment) : Prop :=
  segment.kind = .plain ∧ segment.text ≠ "final".toList

end Segment

namespace ClassHead

/-- What stands between the segments and the brace, in some layout. -/
def BasesLaidOut : Option (List Base) → List Token → Prop
  | none, tokens => Token.significant tokens = []
  | some bases, tokens => ∃ shown, Reading.Separated Base.Written bases shown ∧
      Token.significant tokens = ⟨.colon, [':']⟩ :: shown

/-- A class head in some layout, up to its brace. -/
inductive LaidOut (segments : List Segment) (bases : Option (List Base)) : List Token → Prop where
  | head {blank tail : List Token} {pieces : List (List Token)} {keyword : Token}
      (trivial : Token.significant blank = []) (isKeyword : keyword.kind = .classKeyword)
      (row : List.Forall₂ Segment.LaidOut segments pieces) (based : BasesLaidOut bases tail) :
      LaidOut segments bases (blank ++ keyword :: (pieces.flatten ++ tail))

theorem isName_iff {segment : Segment} : isName segment = true ↔ segment.NamesClass := by
  simp [isName, Segment.NamesClass]

theorem joinTexts?_eq (segments : List Segment) :
    joinTexts? segments = if segments = [] then none else some (Segment.joinTexts segments) := by
  simp [joinTexts?]

theorem exists_last_name {segments : List Segment} (named : ∃ segment ∈ segments, segment.NamesClass) :
    ∃ leading name trailing, segments = leading ++ name :: trailing ∧ name.NamesClass ∧
      ∀ segment ∈ trailing, ¬ segment.NamesClass := by
  obtain ⟨segment, member, names⟩ := named
  have found : (segments.reverse.find? isName).isSome = true :=
    List.find?_isSome.mpr ⟨segment, List.mem_reverse.mpr member, isName_iff.mpr names⟩
  obtain ⟨name, last⟩ := Option.isSome_iff_exists.mp found
  obtain ⟨isName, trailing, leading, split, others⟩ := List.find?_eq_some_iff_append.mp last
  refine ⟨leading.reverse, name, trailing.reverse, ?_, isName_iff.mp isName, fun segment member => ?_⟩
  · rw [← List.reverse_reverse segments, split]
    simp
  · rw [← isName_iff]
    simpa using others segment (List.mem_reverse.mp member)

theorem not_isName_reverse {segments : List Segment}
    (unnamed : ∀ segment ∈ segments, ¬ segment.NamesClass) :
    ∀ segment ∈ segments.reverse, (!isName segment) = true := by
  intro segment member
  have other := unnamed segment (List.mem_reverse.mp member)
  rw [← isName_iff] at other
  simpa using other

theorem ofSegments?_eq_none {segments : List Segment}
    (unnamed : ∀ segment ∈ segments, ¬ segment.NamesClass) : ofSegments? segments = none := by
  have passed := not_isName_reverse unnamed
  have split : segments.reverse.span (fun segment => !isName segment) = (segments.reverse, []) := by
    rw [List.span_eq_takeWhile_dropWhile, List.takeWhile_eq_self_iff.mpr passed,
      List.dropWhile_eq_nil_iff.mpr passed]
  simp only [ofSegments?, split]

/-- The last name is taken, and what stands on either side of it is joined. -/
theorem ofSegments?_eq {leading trailing : List Segment} {name : Segment} (names : name.NamesClass)
    (last : ∀ segment ∈ trailing, ¬ segment.NamesClass) :
    ofSegments? (leading ++ name :: trailing) =
      some ⟨name.text, joinTexts? leading, joinTexts? trailing, none⟩ := by
  have isName := isName_iff.mpr names
  have passed := not_isName_reverse last
  have reversed : (leading ++ name :: trailing).reverse =
      trailing.reverse ++ name :: leading.reverse := by
    simp
  have split : (leading ++ name :: trailing).reverse.span (fun segment => !ClassHead.isName segment) =
      (trailing.reverse, name :: leading.reverse) := by
    rw [reversed, List.span_eq_takeWhile_dropWhile, List.takeWhile_append_of_pos passed,
      List.dropWhile_append_of_pos passed, List.takeWhile_cons_of_neg (by simp [isName]),
      List.dropWhile_cons_of_neg (by simp [isName]), List.append_nil]
  simp only [ofSegments?, split, List.reverse_reverse]

end ClassHead

namespace Grammar

/-- Groups one behind the other, and what is left behind the last but white space and comments. -/
inductive Row : List Token → List Phrase → List Token → Prop where
  | done {blank rest : List Token} (trivial : Token.significant blank = []) :
      Row (blank ++ rest) [] rest
  | more {tokens rest after : List Token} {phrase : Phrase} {phrases : List Phrase}
      (group : Group tokens phrase rest) (later : Row rest phrases after) :
      Row tokens (phrase :: phrases) after

end Grammar

namespace Reading

open Grammar

variable {tokens name rest run front blank others more after used tail : List Token}
  {first mark next : Token} {phrase : Phrase} {phrases : List Phrase}

theorem significant_idem (tokens : List Token) :
    Token.significant (Token.significant tokens) = Token.significant tokens := by
  simp [Token.significant, List.filter_filter]

theorem head?_significant (found : token tokens = ⟨some first, others, false⟩) :
    (Token.significant tokens).head? = some first := by
  have split := token_split tokens
  rw [found] at split
  rw [split.2]
  rfl

/-- A bracket run begins behind the part of a phrase that may be laid out anew. -/
theorem run_of_laidOut (opens : first.kind.closing? ≠ none)
    (plain : ∀ token ∈ front, token.kind.closing? = none)
    (same : name ++ first :: others = Token.significant front ++ run) :
    ∃ extra, name = Token.significant front ++ extra ∧ run = extra ++ first :: others := by
  rcases List.append_eq_append_iff.mp same with ⟨extra, shown, inside⟩ | ⟨extra, shown, behind⟩
  · cases extra with
    | nil => exact ⟨[], by simpa using shown.symm, by simpa using inside.symm⟩
    | cons other extra =>
        obtain ⟨rfl, _⟩ := List.cons.inj inside
        have member : first ∈ Token.significant front := by simp [shown]
        exact absurd (plain first (List.mem_filter.mp member).1) opens
  · exact ⟨extra, shown, behind⟩

theorem significant_nameRun (isName : IsNameRun name) : Token.significant name = name := by
  refine List.filter_eq_self.mpr fun token member => ?_
  have kind := isName.kinds token member
  cases seen : token.kind <;> simp_all [nameKinds, Token.Kind.isTrivia]

/-- What is laid out of a name shows the name. -/
theorem significant_laidOut (isName : IsNameRun name) (named : name = Token.significant front ++ run) :
    Token.significant (front ++ run) = name := by
  rw [← significant_nameRun isName, named, Token.significant_append, Token.significant_append,
    significant_idem]

/-- A group may be laid out anew in front of tokens that begin alike. -/
theorem group_laidOut (group : Group tokens phrase rest) (laid : Token.LaidOut phrase.tokens used)
    (same : (Token.significant tail).head? = (Token.significant rest).head?) :
    ∃ blank, Token.significant blank = [] ∧ Group (used ++ tail) phrase (blank ++ tail) := by
  obtain ⟨front, run, rfl, whole, plain⟩ := laid
  cases group with
  | @plain _ name _ ahead alone =>
      have shown := significant_laidOut ahead.isName whole
      refine ⟨[], rfl, .plain ⟨ahead.isName, ⟨front ++ run, shown, rfl⟩, ?_⟩ ?_⟩
      · exact fun next here => ahead.maximal next (same ▸ here)
      · exact fun next here => alone next (same ▸ here)
  | @bracketed _ name inner _ kind opener closer ahead brackets isRun =>
      obtain ⟨first, others, rfl, opens⟩ := isRun.opens
      have visible : first.kind.isTrivia = false := opens ▸ (nameBrackets_visible brackets).2
      have closes : first.kind.closing? ≠ none := by
        rw [opens, nameBrackets_closing brackets]
        simp
      obtain ⟨extra, named, rfl⟩ := run_of_laidOut closes plain whole
      have shown := significant_laidOut ahead.isName named
      refine ⟨[], rfl, .bracketed ⟨ahead.isName, ⟨front ++ extra, shown, by simp⟩, ?_⟩ brackets isRun⟩
      intro next here
      rw [List.cons_append, Token.significant_cons visible] at here
      refine ahead.maximal next ?_
      rw [List.cons_append, Token.significant_cons visible]
      exact here
  | @enclosed blank inner _ trivial isRun =>
      obtain ⟨first, others, rfl, opens⟩ := isRun.opens
      have alone : [] ++ first :: others = Token.significant front ++ run := whole
      obtain ⟨extra, empty, rfl⟩ := run_of_laidOut (by rw [opens]; decide) plain alone
      obtain ⟨trivialAlso, rfl⟩ := List.append_eq_nil_iff.mp empty.symm
      refine ⟨[], rfl, ?_⟩
      rw [List.append_assoc]
      exact .enclosed trivialAlso isRun
  | @symbol blank _ mark trivial sign =>
      rcases List.singleton_eq_append_iff.mp whole with ⟨trivialAlso, rfl⟩ | ⟨shown, rfl⟩
      · refine ⟨[], rfl, ?_⟩
        rw [List.append_assoc]
        exact .symbol trivialAlso sign
      · obtain ⟨blank, behind, rfl, before, _, after⟩ := List.filter_eq_cons_iff.mp shown
        refine ⟨behind, after, ?_⟩
        rw [List.append_nil, List.append_assoc]
        exact .symbol (List.filter_eq_nil_iff.mpr before) sign

theorem row_blank (trivial : Token.significant blank = []) (row : Row tokens phrases after) :
    Row (blank ++ tokens) phrases after := by
  cases row with
  | done trivialAlso =>
      rw [← List.append_assoc]
      exact .done (by rw [Token.significant_append, trivial, trivialAlso, List.nil_append])
  | more group later => exact .more (group_blank trivial group) later

theorem row_begins (row : Row tokens phrases after) (behind : token after = ⟨some mark, more, false⟩) :
    ∃ first others, token tokens = ⟨some first, others, false⟩ := by
  cases row with
  | done trivial => exact ⟨mark, more, (token_blank trivial _).trans behind⟩
  | more group later =>
      obtain ⟨first, _, others, _, found, _⟩ := group_first group
      exact ⟨first, others, found⟩

/-- Rows of the same groups begin alike if what stands behind them does. -/
theorem row_heads {laid tail : List Token} (row : Row tokens phrases after)
    (again : Row laid phrases tail)
    (same : (Token.significant tail).head? = (Token.significant after).head?) :
    (Token.significant laid).head? = (Token.significant tokens).head? := by
  cases row with
  | done trivial =>
      cases again with
      | done trivialAlso =>
          rw [Token.significant_append, Token.significant_append, trivial, trivialAlso]
          exact same
  | more group later =>
      cases again with
      | more groupAgain laterAgain =>
          obtain ⟨first, inner, _, whole, found, _⟩ := group_first group
          obtain ⟨other, _, _, wholeAgain, foundAgain, _⟩ := group_first groupAgain
          rw [whole] at wholeAgain
          obtain ⟨rfl, _⟩ := List.cons.inj wholeAgain
          rw [head?_significant found, head?_significant foundAgain]

/-- A row may be laid out anew, group by group. -/
theorem row_laidOut {pieces : List (List Token)} (row : Row tokens phrases after)
    (laid : List.Forall₂ Token.LaidOut (phrases.map Phrase.tokens) pieces)
    (same : (Token.significant tail).head? = (Token.significant after).head?) :
    Row (pieces.flatten ++ tail) phrases tail := by
  induction row generalizing pieces with
  | done trivial =>
      obtain rfl : pieces = [] := by simpa using laid
      exact .done rfl
  | @more tokens rest after phrase phrases group later ih =>
      cases laid with
      | @cons _ piece _ pieces here others =>
          have row := ih others same
          obtain ⟨blank, trivial, again⟩ := group_laidOut group here (row_heads later row same)
          rw [List.flatten_cons, List.append_assoc]
          exact .more again (row_blank trivial row)

/-- Segments that go on to the end are a row in front of a token that stops names. -/
theorem row_of_splits (splits : Splits tokens phrases) (stops : StopsName mark) (more : List Token) :
    Row (tokens ++ mark :: more) phrases (mark :: more) := by
  induction splits with
  | done trivial => exact .done trivial
  | more read later ih =>
      obtain ⟨next, others, behind⟩ := row_begins ih (token_visible stops.visible more)
      exact .more (group_of_segment (segment_before read stops more) behind) ih

theorem atHeadEnd_of_token (found : token tokens = ⟨some first, others, false⟩) :
    atHeadEnd tokens =
      ⟨some (first.kind = .colon || first.kind = .openBrace), first :: others, false⟩ := by
  rw [atHeadEnd, bind_of_some (peek_of_some found)]
  rfl

theorem headSegments_congr {left right : List Token} (same : token left = token right) (room : Nat) :
    headSegments room left = headSegments room right := by
  have ends : atHeadEnd left = atHeadEnd right := by
    refine bind_congr_outcome ?_ _
    rw [peek, peek, same]
  cases room with
  | zero => exact bind_congr_outcome ends _
  | succ room => exact bind_congr_outcome ends _

theorem headSegments_of_end (found : token tokens = ⟨some mark, more, false⟩)
    (ends : mark.kind = .colon ∨ mark.kind = .openBrace) (room : Nat) :
    headSegments room tokens = ⟨some [], mark :: more, false⟩ := by
  have atEnd := atHeadEnd_of_token found
  have decided : (decide (mark.kind = .colon) || decide (mark.kind = .openBrace)) = true := by
    simpa using ends
  rw [decided] at atEnd
  cases room with
  | zero => rw [headSegments, bind_of_some atEnd]; rfl
  | succ room => rw [headSegments, bind_of_some atEnd]; rfl

theorem atHeadEnd_of_group (group : Group tokens phrase rest) :
    ∃ first others, token tokens = ⟨some first, others, false⟩ ∧
      atHeadEnd tokens = ⟨some false, first :: others, false⟩ := by
  obtain ⟨first, _, others, _, found, kind⟩ := group_first group
  refine ⟨first, others, found, ?_⟩
  rw [atHeadEnd_of_token found]
  cases seen : first.kind <;> simp_all [nameKinds, signs]

theorem headSegments_of_group (group : Group tokens phrase rest)
    (behind : token rest = ⟨some next, more, false⟩) (room : Nat) :
    headSegments (room + 1) tokens = (headSegments room rest).map (phrase :: ·) := by
  obtain ⟨first, others, found, goesOn⟩ := atHeadEnd_of_group group
  obtain ⟨left, read, remains⟩ := segment_of_group group behind
  have word : segment (first :: others) = ⟨some phrase, left, false⟩ := by
    obtain ⟨blank, trivial, rfl⟩ := token_found_split found
    rcases segment_passes blank (first :: others) trivial with same | ⟨failed, _⟩
    · rw [← same, read]
    · simp [read] at failed
  have later := headSegments_congr (remains.trans behind.symm) room
  rw [headSegments, bind_of_some goesOn]
  simp only [Bool.false_eq_true, if_false, bind_of_some word]
  rcases outcome : headSegments room rest with ⟨_ | phrases, further, ended⟩ <;> rw [outcome] at later
  · rw [bind_of_none later]
    rfl
  · rw [bind_of_some later]
    simp [Outcome.map, Pure.pure]

/-- A row is read up to the colon or the brace behind it, if there is room for it. -/
theorem headSegments_of_row (row : Row tokens phrases after)
    (behind : token after = ⟨some mark, more, false⟩)
    (ends : mark.kind = .colon ∨ mark.kind = .openBrace) (room : Nat) :
    (phrases.length ≤ room → headSegments room tokens = ⟨some phrases, mark :: more, false⟩) ∧
      (room < phrases.length → (headSegments room tokens).result = none) := by
  induction row generalizing room with
  | done trivial =>
      refine ⟨fun _ => ?_, fun short => by simp at short⟩
      exact headSegments_of_end ((token_blank trivial _).trans behind) ends room
  | @more tokens rest after phrase phrases group later ih =>
      cases room with
      | zero =>
          refine ⟨fun enough => by simp at enough, fun _ => ?_⟩
          obtain ⟨first, others, _, goesOn⟩ := atHeadEnd_of_group group
          rw [headSegments, bind_of_some goesOn]
          rfl
      | succ room =>
          obtain ⟨fits, full⟩ := ih behind room
          obtain ⟨next, others, begins⟩ := row_begins later behind
          rw [List.length_cons, headSegments_of_group group begins]
          refine ⟨fun enough => ?_, fun short => ?_⟩
          · rw [fits (by omega)]
            rfl
          · rw [Outcome.map, full (by omega)]
            rfl

/-- Segments that are found again in their joined text are a row in every layout. -/
theorem row_of_segments {segments : List Segment} {pieces : List (List Token)}
    (reproduced : Segment.Splits (Segment.joinTexts segments) segments)
    (laid : List.Forall₂ Segment.LaidOut segments pieces)
    (found : token tail = ⟨some mark, more, false⟩)
    (ends : mark.kind = .colon ∨ mark.kind = .openBrace) :
    ∃ phrases, segments = phrases.map Phrase.segment ∧ Row (pieces.flatten ++ tail) phrases tail := by
  obtain ⟨phrases, splits, spelled⟩ := Parameter.splits_phrases reproduced
  have lexed : segments.map (fun segment => Token.lex segment.text) = phrases.map Phrase.tokens := by
    clear laid splits reproduced
    induction spelled with
    | nil => rfl
    | cons spells _ ih => rw [List.map_cons, List.map_cons, ih, spells.settled.lex_eq]
  have stops : StopsName mark := by
    apply stopsName_of_kind
    rcases ends with kind | kind <;> simp [kind]
  have row := row_of_splits splits stops []
  refine ⟨phrases, Phrase.segments_eq spelled, row_laidOut row ?_ ?_⟩
  · rw [← lexed, List.forall₂_map_left_iff]
    exact laid
  · rw [head?_significant found, Token.significant_cons stops.visible]
    rfl

/-- What stands behind the segments begins with a colon or with the brace. -/
theorem bases_laidOut {bases : Option (List Base)} (based : ClassHead.BasesLaidOut bases tail)
    (behind : List Token) :
    ∃ mark more, token (tail ++ ⟨.openBrace, ['\x7b']⟩ :: behind) = ⟨some mark, more, false⟩ ∧
      (mark.kind = .colon ∨ mark.kind = .openBrace) ∧
      ((∀ list ∈ bases, list.length ≤ Production.itemLimit) →
        ∃ reachedEnd, Reading.bases (mark :: more) = ⟨some bases, behind, reachedEnd⟩) ∧
      ((∃ list ∈ bases, Production.itemLimit < list.length) →
        (Reading.bases (mark :: more)).result = none) := by
  cases bases with
  | none =>
      refine ⟨⟨.openBrace, ['\x7b']⟩, behind, (token_blank based _).trans rfl, .inr rfl, ?_, ?_⟩
      · exact fun _ => ⟨false, rfl⟩
      · intro ⟨list, absent, _⟩
        cases absent
  | some list =>
      obtain ⟨shown, separated, split⟩ := based
      obtain ⟨blank, laid, rfl, before, _, same⟩ := List.filter_eq_cons_iff.mp split
      have trivial : Token.significant blank = [] := List.filter_eq_nil_iff.mpr before
      refine ⟨⟨.colon, [':']⟩, laid ++ ⟨.openBrace, ['\x7b']⟩ :: behind, ?_, .inl rfl, ?_, ?_⟩
      · rw [List.append_assoc]
        exact (token_blank trivial _).trans rfl
      · intro few
        exact bases_of_written separated same (few list rfl) behind
      · intro ⟨other, here, many⟩
        obtain rfl := Option.some.inj here
        exact bases_of_many separated same many behind

section

variable {keyword : Token} (trivial : Token.significant blank = [])
  (isKeyword : keyword.kind = .classKeyword)
include trivial isKeyword

theorem eat_classKeyword : eat .classKeyword (blank ++ keyword :: tokens) =
    ⟨some keyword, tokens, false⟩ := by
  have visible : keyword.kind.isTrivia = false := by rw [isKeyword]; rfl
  rw [eat, eatIf_of_some ((token_blank trivial _).trans (token_visible visible tokens))]
  simp [isKeyword]

theorem classHead_of_row {head : ClassHead}
    (read : headSegments Production.headSegmentLimit tokens = ⟨some phrases, rest, false⟩)
    (chosen : ClassHead.ofSegments? (phrases.map Phrase.segment) = some head) :
    classHead (blank ++ keyword :: tokens) =
      (bases rest).map fun found => { head with bases := found } := by
  rw [classHead, bind_of_some (eat_classKeyword trivial isKeyword), bind_of_some read]
  simp only [chosen]
  rcases outcome : bases rest with ⟨_ | found, left, ended⟩
  · rw [bind_of_none outcome]
    simp [Outcome.map]
  · rw [bind_of_some outcome]
    simp [Outcome.map, Pure.pure]

theorem classHead_of_long
    (failed : (headSegments Production.headSegmentLimit tokens).result = none) :
    (classHead (blank ++ keyword :: tokens)).result = none := by
  rw [classHead, bind_of_some (eat_classKeyword trivial isKeyword)]
  exact bind_failed failed _

end

end Reading

/-- A class head is recovered from every layout: the last word that is not `final` is the name, what
stands before and behind it is joined by single spaces, and the bases are those that were written. The
text behind the brace is left. With more than 50 segments or more than 99 bases nothing is found. -/
theorem Production.classHead_of_layout {segments : List Segment} {bases : Option (List Base)}
    {parser : Parser} {tokens : List Token} {behind : Text}
    (reproduced : Segment.Splits (Segment.joinTexts segments) segments)
    (named : ∃ segment ∈ segments, segment.NamesClass)
    (layout : ClassHead.LaidOut segments bases tokens)
    (remains : Token.lex parser.remaining = tokens ++ ⟨.openBrace, ['\x7b']⟩ :: Token.lex behind) :
    (segments.length ≤ 50 → (∀ list ∈ bases, list.length ≤ 99) →
      ∃ leading name trailing head after, segments = leading ++ name :: trailing ∧ name.NamesClass ∧
        (∀ segment ∈ trailing, ¬ segment.NamesClass) ∧ classHead parser = (some head, after) ∧
        head.name = name.text ∧
        head.attributes = (if leading = [] then none else some (Segment.joinTexts leading)) ∧
        head.trailingAttributes = (if trailing = [] then none else some (Segment.joinTexts trailing)) ∧
        head.bases = bases ∧ after.remaining = behind) ∧
    (50 < segments.length ∨ (∃ list ∈ bases, 99 < list.length) → (classHead parser).1 = none) := by
  have agrees := (Reading.classHead_reads.imp fun _ _ related => related.1) parser
  rw [remains] at agrees
  obtain ⟨trivial, isKeyword, laid, based⟩ := layout
  rw [List.append_assoc, List.cons_append, List.append_assoc] at agrees
  obtain ⟨mark, more, found, ends, fits, full⟩ := Reading.bases_laidOut based (Token.lex behind)
  obtain ⟨phrases, written, row⟩ := Reading.row_of_segments reproduced laid found ends
  have length : segments.length = phrases.length := by rw [written, List.length_map]
  obtain ⟨read, long⟩ := Reading.headSegments_of_row row found ends headSegmentLimit
  obtain ⟨leading, name, trailing, split, names, last⟩ := ClassHead.exists_last_name named
  have chosen := @ClassHead.ofSegments?_eq leading trailing name names last
  rw [← split, written] at chosen
  constructor
  · intro few fewBases
    obtain ⟨ended, listed⟩ := fits fewBases
    rw [Reading.classHead_of_row trivial isKeyword (read (length ▸ few)) chosen, listed] at agrees
    obtain ⟨head, after, run, rfl, rest⟩ := agrees.of_some
    exact ⟨leading, name, trailing, _, after, split, names, last, run, rfl,
      ClassHead.joinTexts?_eq leading, ClassHead.joinTexts?_eq trailing, rfl, Token.lex_injective rest⟩
  · intro tooMany
    rw [agrees.result_eq]
    by_cases few : segments.length ≤ 50
    · have manyBases := tooMany.resolve_left (by omega)
      rw [Reading.classHead_of_row trivial isKeyword (read (length ▸ few)) chosen, Outcome.map,
        full manyBases]
      rfl
    · exact Reading.classHead_of_long trivial isKeyword (long (by unfold headSegmentLimit; omega))

/-- An attribute, a call with white space inside, a qualified name that is spread out, `final`, and
bases with `virtual` on either side of the access keyword and touching `>`. -/
theorem Production.classHead_of_layout_derived :
    let segments : List Segment := [⟨.attribute, "[[a b]]".toList⟩, ⟨.paren, "EXPORT(1 , 2)".toList⟩,
      ⟨.plain, "n::N".toList⟩, ⟨.plain, "final".toList⟩]
    let bases : List Base := [
      ⟨some "public".toList, true, .templated "A".toList [.plain "B".toList, .templated "C".toList []]⟩,
      ⟨some "private".toList, true, .plain "D".toList⟩, ⟨none, false, .plain "E".toList⟩]
    let parser := Parser.ofText ("struct[[a b]] EXPORT /*\x7b*/ (1 , 2)n :: N final" ++
      ": virtual public A<B,C<>> ,private virtual D,E\x7b \x7d;").toList []
    Segment.Splits (Segment.joinTexts segments) segments ∧
    (∃ segment ∈ segments, segment.NamesClass) ∧
    (∃ tokens, ClassHead.LaidOut segments (some bases) tokens ∧
      Token.lex parser.remaining = tokens ++ ⟨.openBrace, ['\x7b']⟩ :: Token.lex " \x7d;".toList) ∧
    (classHead parser).1.map (fun head => (head.name, head.attributes, head.trailingAttributes)) =
      some ("n::N".toList, some "[[a b]] EXPORT(1 , 2)".toList, some "final".toList) ∧
    ∃ leading name trailing head after, segments = leading ++ name :: trailing ∧ name.NamesClass ∧
      (∀ segment ∈ trailing, ¬ segment.NamesClass) ∧ classHead parser = (some head, after) ∧
      head.name = name.text ∧
      head.attributes = (if leading = [] then none else some (Segment.joinTexts leading)) ∧
      head.trailingAttributes = (if trailing = [] then none else some (Segment.joinTexts trailing)) ∧
      head.bases = some bases ∧ after.remaining = " \x7d;".toList := by
  intro segments bases parser
  have reproduced : Segment.Splits (Segment.joinTexts segments) segments := by decide +kernel
  have named : ∃ segment ∈ segments, segment.NamesClass :=
    ⟨⟨.plain, "n::N".toList⟩, by simp [segments], rfl, by decide⟩
  have laid (segment : Segment) (front run : Text)
      (written : Token.lex segment.text = Token.significant (Token.lex front) ++ Token.lex run)
      (plain : ∀ token ∈ Token.lex front, token.kind.closing? = none) :
      segment.LaidOut (Token.lex front ++ Token.lex run) :=
    ⟨_, _, rfl, written, plain⟩
  have row : List.Forall₂ Segment.LaidOut segments
      [Token.lex [] ++ Token.lex "[[a b]]".toList,
        Token.lex " EXPORT /*\x7b*/ ".toList ++ Token.lex "(1 , 2)".toList,
        Token.lex "n :: N".toList ++ Token.lex [], Token.lex " final".toList ++ Token.lex []] :=
    .cons (laid _ _ _ (by decide +kernel) (by decide +kernel))
      (.cons (laid _ _ _ (by decide +kernel) (by decide +kernel))
        (.cons (laid _ _ _ (by decide +kernel) (by decide +kernel))
          (.cons (laid _ _ _ (by decide +kernel) (by decide +kernel)) .nil)))
  have letters : ∀ letter ∈ ["A", "B", "C", "D", "E"], ClassName.IsQualified letter.toList := by
    have read : ∀ letter ∈ ["A", "B", "C", "D", "E"],
        (qualifiedName (.ofText letter.toList [])).1 = some letter.toList := by decide +kernel
    exact fun letter member => ⟨_, read letter member⟩
  have nested :
      (ClassName.templated "A".toList [.plain "B".toList, .templated "C".toList []]).Proper := by
    refine .templated (letters "A" (by simp)) (by decide) (List.forall_mem_cons.mpr ⟨?_, ?_⟩)
    · exact .plain (letters "B" (by simp))
    · exact List.forall_mem_singleton.mpr (.templated (letters "C" (by simp)) (by simp) (by simp))
  have written (base : Base) (proper : base.className.Proper) (isVirtual : base.isVirtual = true)
      (specifiers : List Token) (chosen : specifiers ∈ base.specifiers) :
      base.Written (specifiers ++ Token.significant (Token.lex base.className.render)) :=
    ⟨ClassName.proper_iff.mp proper, by simp [isVirtual], specifiers, chosen, rfl⟩
  have separated : ∃ shown, Reading.Separated Base.Written bases shown ∧ Token.significant
      (Token.lex ": virtual public A<B,C<>> ,private virtual D,E".toList) =
        ⟨.colon, [':']⟩ :: shown := by
    refine ⟨_, .cons (written _ nested rfl _ List.mem_cons_self) (.cons (written _ ?_ rfl _
      (List.mem_cons_of_mem _ List.mem_cons_self)) (.single ⟨ClassName.proper_iff.mp ?_, fun _ => ?_, [],
        List.mem_cons_self, rfl⟩)), by decide +kernel⟩
    · exact .plain (letters "D" (by simp))
    · exact .plain (letters "E" (by simp))
    · decide +kernel
  have laidOut : ∃ tokens, ClassHead.LaidOut segments (some bases) tokens ∧
      Token.lex parser.remaining = tokens ++ ⟨.openBrace, ['\x7b']⟩ :: Token.lex " \x7d;".toList :=
    ⟨_, @ClassHead.LaidOut.head segments (some bases) [] _ _ ⟨.classKeyword, "struct".toList⟩ rfl rfl row
      separated, by decide +kernel⟩
  refine ⟨reproduced, named, laidOut, by decide +kernel, ?_⟩
  obtain ⟨tokens, layout, remains⟩ := laidOut
  exact (classHead_of_layout reproduced named layout remains).1 (by decide) fun list here => by
    rw [← Option.some.inj here]
    simp [bases]

end OutOfLine
