import OutOfLine.Proofs.Cutting
import OutOfLine.Proofs.Definition
import OutOfLine.Proofs.Definition.Gluing
import OutOfLine.Proofs.Reading.Parameter
import OutOfLine.Proofs.Requests
import OutOfLine.Proofs.Termination

namespace OutOfLine

namespace Reading

theorem eat_some {kind : Token.Kind} {tokens rest : List Token} {mark : Token} {reachedEnd : Bool}
    (eaten : eat kind tokens = ⟨some mark, rest, reachedEnd⟩) :
    mark.kind = kind ∧ mark :: rest <:+ tokens := by
  obtain ⟨read, fits, _⟩ := eatIf_found eaten
  obtain ⟨blank, _, rfl⟩ := token_found_split read
  exact ⟨of_decide_eq_true fits, List.suffix_append _ _⟩

/-- The semicolon stands directly before what is left behind the segments. -/
theorem segmentsThroughSemicolon_semicolon {tokens : List Token} {phrases : List Phrase}
    (found : (segmentsThroughSemicolon tokens).result = some phrases) :
    ∃ mark, mark.kind = .semicolon ∧ mark :: (segmentsThroughSemicolon tokens).rest <:+ tokens := by
  refine loop_induction segmentsStep_falls
    (motive := fun _ tokens outcome => ∀ phrases, outcome.result = some phrases →
      ∃ mark : Token, mark.kind = .semicolon ∧ mark :: outcome.rest <:+ tokens)
    ?_ ?_ ?_ [] tokens phrases found
  · intro read tokens rest reachedEnd stepped phrases found
    simp at found
  · intro read tokens result rest reachedEnd stepped phrases found
    cases segmentsStep_took stepped with
    | @last phrase between rest mark word semicolon =>
        have behind := segment_steady.suffix tokens
        rw [word] at behind
        obtain ⟨kind, here⟩ := eat_some semicolon
        exact ⟨mark, kind, here.trans behind⟩
  · intro read tokens next rest reachedEnd later stepped ih phrases found
    have behind := (segmentsStep_steady read).suffix tokens
    rw [stepped] at behind
    obtain ⟨mark, kind, here⟩ := ih phrases found
    exact ⟨mark, kind, here.trans behind⟩

theorem declaration_split {tokens rest : List Token} {seen : Phrase.Declaration} {reachedEnd : Bool}
    (genuine : GenuineTokens tokens) (read : declaration tokens = ⟨some seen, rest, reachedEnd⟩) :
    ∃ front, tokens = front ++ ⟨.semicolon, [';']⟩ :: rest ∧
      Token.significant front = Phrase.significant seen.phrases := by
  obtain ⟨used, ⟨rfl, _⟩, split⟩ := declaration_spends tokens genuine seen (by rw [read])
  rw [read] at split
  have semicolon : ∃ mark, mark.kind = .semicolon ∧ mark :: rest <:+ tokens := by
    have here := @segmentsThroughSemicolon_semicolon tokens
    unfold declaration at read
    rcases segments : segmentsThroughSemicolon tokens with ⟨_ | phrases, left, ended⟩
    · rw [attempt_of_none (bind_of_none segments _)] at read
      simp at read
    · rw [segments] at here
      rw [attempt_of_some (bind_of_some segments _)] at read
      simp only [Pure.pure, Outcome.mk.injEq] at read
      exact read.2.1 ▸ here rfl
  obtain ⟨mark, kind, front, rfl⟩ := semicolon
  have visible : mark.kind.isTrivia = false := by rw [kind]; rfl
  rw [Token.significant_append, Token.significant_cons visible, List.append_cons,
    List.append_cancel_right_eq] at split
  obtain ⟨same, last⟩ := List.append_inj' split rfl
  obtain rfl : mark = ⟨.semicolon, [';']⟩ := by simpa using last
  exact ⟨front, rfl, same⟩

end Reading

/-- The declaration takes a text up to a semicolon. The significant tokens before the semicolon are
those of the segments. -/
def Declaration.Takes (declaration : Declaration) (text rest : Text) : Prop :=
  ∃ front, text = front ++ ';' :: rest ∧
    Token.lex text = Token.lex front ++ ⟨.semicolon, [';']⟩ :: Token.lex rest ∧
    Token.significant (Token.lex front) = declaration.segments.flatMap Segment.tokens

namespace Production

variable {parser after : Parser}

theorem declaration_takes {found : Declaration} (read : declaration parser = (some found, after)) :
    found.Takes parser.remaining after.remaining := by
  have agrees := Reading.declaration_reads parser
  rw [read] at agrees
  rcases outcome : Reading.declaration (Token.lex parser.remaining) with ⟨_ | seen, rest, reachedEnd⟩ <;>
    rw [outcome] at agrees
  · cases agrees.result
  · obtain ⟨result, remains⟩ := agrees
    cases result with
    | some spells =>
        obtain ⟨front, whole, tokens⟩ :=
          Reading.declaration_split (Reading.genuineTokens_lex _) outcome
        have again := Token.lex_spell_front whole
        simp only at remains
        subst remains
        refine ⟨Token.spell front, ?_, by rw [again, whole], ?_⟩
        · rw [← Token.spell_lex parser.remaining, whole, Token.spell_append, Token.spell_cons,
            Token.spell_lex]
          rfl
        · rw [again, tokens, Reading.segments_tokens spells.segments]

/-- Declarations that are read one after the other, each where the one before it has ended, until
there is none. -/
inductive Declares : Parser → List Declaration → Parser → Prop where
  | done {parser after : Parser} (failed : declaration parser = (none, after))
      (same : after.remaining = parser.remaining) : Declares parser [] after
  | more {parser between after : Parser} {first : Declaration} {others : List Declaration}
      (read : declaration parser = (some first, between))
      (takes : first.Takes parser.remaining between.remaining)
      (later : Declares between others after) : Declares parser (first :: others) after

theorem declaration_none_remaining (failed : declaration parser = (none, after)) :
    after.remaining = parser.remaining := by
  have same := attempt_none_tokenizer (declarationBody_keeps parser.save).checkpoints failed
  rw [Parser.remaining, same, Parser.remaining]

theorem declarationsOnto_declares (read : List Declaration) (parser : Parser) :
    ∃ found, Declares parser found (declarationsOnto read parser).2 ∧
      (declarationsOnto read parser).1 = read.reverse ++ found := by
  fun_induction declarationsOnto read parser with
  | case1 read parser after failed =>
      exact ⟨[], .done failed (declaration_none_remaining failed), by simp⟩
  | case2 read parser first after here ih =>
      obtain ⟨found, declares, same⟩ := ih
      exact ⟨first :: found, .more here (declaration_takes here) declares, by simp [same]⟩

theorem declares_of_declarations {found : List Declaration}
    (read : declarations parser = (some found, after)) : Declares parser found after := by
  obtain ⟨all, declares, same⟩ := declarationsOnto_declares [] parser
  unfold declarations at read
  split at read
  · simp at read
  · rename_i others rest _ onto
    simp only [onto, List.reverse_nil, List.nil_append] at declares same
    simp only [Prod.mk.injEq, Option.some.injEq] at read
    obtain ⟨rfl, rfl⟩ := read
    exact same ▸ declares

theorem declaration_same {left right : Parser} (same : left.remaining = right.remaining) :
    (declaration left).1 = (declaration right).1 := by
  rw [Reading.declaration_result, Reading.declaration_result, same]

theorem Declares.ended {found : List Declaration} (declares : Declares parser found after)
    {again : Parser} (remains : again.remaining = after.remaining) : (declaration again).1 = none := by
  induction declares with
  | done failed same => rw [declaration_same (remains.trans same), failed]
  | more _ _ _ ih => exact ih remains

/-- The text that is left is the one behind the last declaration. -/
theorem Declares.last {found : List Declaration} (declares : Declares parser found after)
    (nonempty : found ≠ []) :
    ∃ earlier last start, found = earlier ++ [last] ∧ start <:+ parser.remaining ∧
      last.Takes start after.remaining := by
  induction declares with
  | done failed same => contradiction
  | @more parser between after first others read takes later ih =>
      by_cases single : others = []
      · subst single
        cases later with
        | done _ same =>
            rw [← same] at takes
            exact ⟨[], first, parser.remaining, rfl, List.suffix_refl _, takes⟩
      · obtain ⟨earlier, last, start, rfl, within, takesLast⟩ := ih single
        have behind := (declaration_progresses _ _ _ read).remaining
        exact ⟨first :: earlier, last, start, rfl, within.trans behind, takesLast⟩

theorem Declares.suffix {found : List Declaration} (declares : Declares parser found after) :
    after.remaining <:+ parser.remaining := by
  induction declares with
  | done _ same => exact same ▸ List.suffix_refl _
  | more read _ _ ih => exact ih.trans (declaration_progresses _ _ _ read).remaining

theorem declarations_progresses : Progresses declarations := by
  intro parser after found read
  have kept := declarations_keeps parser
  rw [read] at kept
  cases declares_of_declarations read with
  | done _ _ => exact absurd rfl (declarations_ne_nil read)
  | more first _ later =>
      have shorter := (declaration_progresses _ _ _ first).shorter
      exact ⟨kept, Nat.lt_of_le_of_lt later.suffix.length_le shorter⟩

theorem declarations_none_remaining (failed : declarations parser = (none, after)) :
    after.remaining = parser.remaining := by
  obtain ⟨found, declares, same⟩ := declarationsOnto_declares [] parser
  unfold declarations at failed
  split at failed
  · rename_i rest onto
    simp only [Prod.mk.injEq, true_and] at failed
    subst failed
    simp only [onto, List.reverse_nil, List.nil_append] at declares same
    subst same
    cases declares with
    | done _ unchanged => exact unchanged
  · simp at failed

theorem segment_none_remaining (failed : segment parser = (none, after)) :
    after.remaining = parser.remaining := by
  rw [Parser.remaining, segment_none_tokenizer failed, Parser.remaining]

end Production

namespace Request

/-- Where it is answered, it takes something off the text. -/
def consumes : Request → Bool
  | .enclosingClass => false
  | _ => true

/-- Where it is not answered, it leaves the text alone. -/
def isAtomic : Request → Bool
  | .segment | .declaration | .declarations => true
  | _ => false

theorem progresses_of_consumes {request : Request} (consumes : request.consumes) :
    Production.Progresses request.production := by
  cases request with
  | qualifiedName => exact Production.qualifiedName_progresses
  | className => exact Production.className_progresses
  | classHead => exact Production.classHead_progresses
  | enclosingClass => contradiction
  | segment => exact Production.segment_progresses
  | declaration => exact Production.declaration_progresses
  | declarations => exact Production.declarations_progresses

theorem remaining_of_isAtomic {request : Request} (atomic : request.isAtomic) {parser after : Parser}
    (failed : request.production parser = (none, after)) : after.remaining = parser.remaining := by
  cases request with
  | segment => exact Production.segment_none_remaining failed
  | declaration => exact Production.declaration_none_remaining failed
  | declarations => exact Production.declarations_none_remaining failed
  | _ => contradiction

/-- Whatever is asked of a parser, what remains is the end of what remained before. An answer makes it
shorter, and without one a segment, a declaration or declarations leave all of it. After declarations
the text behind the last semicolon remains, and no declaration begins there. Nothing of this runs on
for ever. -/
theorem requests_progress (parser : Parser) :
    (∀ request : Request,
      (request.production parser).2.remaining <:+ parser.remaining ∧
      (request.consumes → (request.production parser).1.isSome →
        (request.production parser).2.remaining.length < parser.remaining.length) ∧
      (request.isAtomic → (request.production parser).1.isNone →
        (request.production parser).2.remaining = parser.remaining)) ∧
    (∀ found after, Production.declarations parser = (some found, after) →
      Production.Declares parser found after ∧
      (∃ earlier last start, found = earlier ++ [last] ∧ start <:+ parser.remaining ∧
        last.Takes start after.remaining) ∧
      ∀ again : Parser, again.remaining = after.remaining → (Production.declaration again).1 = none) ∧
    Production.Terminates := by
  refine ⟨fun request => ⟨(request.production_keeps parser).remaining, ?_, ?_⟩, ?_,
    Production.terminates⟩
  · intro consumes answered
    obtain ⟨result, found⟩ := Option.isSome_iff_exists.mp answered
    exact (progresses_of_consumes consumes parser _ result (Prod.ext found rfl)).shorter
  · intro atomic unanswered
    exact remaining_of_isAtomic atomic (Prod.ext (Option.isNone_iff_eq_none.mp unanswered) rfl)
  · intro found after read
    have declares := Production.declares_of_declarations read
    exact ⟨declares, declares.last (Production.declarations_ne_nil read), fun again => declares.ended⟩

/-- Two declarations in front of a brace, then the brace itself, and a name that is not read to its
end. -/
theorem requests_progress_at_brace :
    (∃ found after, Production.declarations
        (.ofText "int a; /* ; */ void f(int b = 1) const ; \x7d".toList []) = (some found, after) ∧
      found.length = 2 ∧ after.remaining = " \x7d".toList ∧
      (∃ last start, last ∈ found ∧ last.Takes start " \x7d".toList) ∧
      (Production.declaration (.ofText " \x7d".toList [])).1 = none) ∧
    (production .segment (.ofText " \x7d".toList [])).2.remaining = " \x7d".toList ∧
    (production .className (.ofText "A<B>::C".toList [])).2.remaining.length < 7 := by
  refine ⟨?_, ?_, ?_⟩
  · generalize text : "int a; /* ; */ void f(int b = 1) const ; \x7d".toList = whole
    have two : (Production.declarations (.ofText whole [])).1.map List.length = some 2 := by
      subst text
      decide +kernel
    have left : (Production.declarations (.ofText whole [])).2.remaining = " \x7d".toList := by
      subst text
      decide +kernel
    rcases read : Production.declarations (.ofText whole []) with ⟨_ | found, after⟩ <;>
      rw [read] at two left
    · simp at two
    · obtain ⟨_, ⟨earlier, last, start, same, _, takes⟩, ended⟩ :=
        (requests_progress (.ofText whole [])).2.1 found after read
      refine ⟨found, after, rfl, by simpa using two, left, ⟨last, start, by simp [same], ?_⟩, ?_⟩
      · exact left ▸ takes
      · exact ended (.ofText " \x7d".toList []) left.symm
  · exact ((requests_progress (.ofText " \x7d".toList [])).1 .segment).2.2 rfl (by decide +kernel)
  · exact ((requests_progress (.ofText "A<B>::C".toList [])).1 .className).2.1 rfl (by decide +kernel)

end Request

end OutOfLine
