import OutOfLine.Proofs.Reading.ClassHead
import OutOfLine.Proofs.Reading.Ending

namespace OutOfLine

namespace ClassName

mutual

/-- The tokens of the written form. -/
def tokens : ClassName → List Token
  | .plain name => Token.lex name
  | .templated name arguments =>
      Token.lex name ++ ⟨.less, ['<']⟩ :: (tokensAll arguments ++ [⟨.greater, ['>']⟩])

def tokensAll : List ClassName → List Token
  | [] => []
  | [last] => last.tokens
  | first :: second :: others =>
      first.tokens ++ ⟨.comma, [',']⟩ :: ⟨.whitespace, [' ']⟩ :: tokensAll (second :: others)

end

/-- Every name is a qualified name, and no argument list is too long to be read. -/
inductive Readable : ClassName → Prop where
  | plain {name : List Token} (isName : Reading.IsName none name) (nonempty : name ≠ []) :
      Readable (.plain (Token.spell name))
  | templated {name : List Token} {arguments : List ClassName} (isName : Reading.IsName none name)
      (nonempty : name ≠ []) (few : arguments.length ≤ Production.itemLimit)
      (readable : ∀ argument ∈ arguments, Readable argument) :
      Readable (.templated (Token.spell name) arguments)

end ClassName

namespace Reading

theorem className_eq (tokens : List Token) :
    className tokens =
      (qualifiedName >>= fun name => classNameTail (Token.spell name) className) tokens := by
  refine bind_congr rfl fun name named => classNameTail_congr (classNameWithin_steady _) ?_
  intro fewer short
  have shorter := qualifiedName_shortens tokens name named
  exact classNameWithin_eq (by omega)

theorem className_blank {blank : List Token} (trivial : Token.significant blank = [])
    (tokens : List Token) : className (blank ++ tokens) = className tokens := by
  have body : nameBody none (blank ++ tokens) = nameBody none tokens := by
    rw [nameBody_eq, token_blank trivial, ← nameBody_eq]
  rw [className_eq, className_eq]
  exact bind_congr_outcome (bind_congr_outcome body _) _

/-- Nothing stands behind, or a token that neither goes on with a class name nor is passed over. -/
def ClosesName (rest : List Token) : Prop :=
  ∀ mark ∈ rest.head?, mark.kind = .comma ∨ mark.kind = .greater ∨ mark.kind = .openBrace

/-- The class name is found in its own tokens. -/
structure FoundAgain (name : ClassName) : Prop where
  settled : Token.Settled name.render name.tokens
  begins : ∃ first others, name.tokens = first :: others ∧
    Production.continuesName none first.kind = true
  again : ∀ rest, ClosesName rest →
    ∃ reachedEnd, className (name.tokens ++ rest) = ⟨some name, rest, reachedEnd⟩

theorem FoundAgain.className_eq {name : ClassName} (found : FoundAgain name) :
    (Production.className (.ofText name.render [])).1 = some name := by
  obtain ⟨ended, read⟩ := found.again [] (fun mark same => by simp at same)
  have agrees := className_reads (.ofText name.render [])
  have lexed : Token.lex (Parser.ofText name.render []).remaining = name.tokens := found.settled.lex_eq
  rw [lexed, ← List.append_nil name.tokens, read] at agrees
  exact agrees.result_eq

section

variable {name rest : List Token} {arguments : List ClassName}

theorem visible_of_begins {first : Token} (begins : Production.continuesName none first.kind = true) :
    first.kind.isTrivia = false ∧ first.kind ≠ .greater := by
  cases kind : first.kind <;> simp_all [Production.continuesName, Token.Kind.isTrivia]

theorem begins_of_name (isName : IsName none name) (nonempty : name ≠ []) :
    ∃ first others, name = first :: others ∧ Production.continuesName none first.kind = true := by
  cases name with
  | nil => contradiction
  | cons first others => exact ⟨first, others, rfl, isName.2.1⟩

theorem className_plain (isName : IsName none name) (nonempty : name ≠ []) (closes : ClosesName rest) :
    ∃ reachedEnd, className (name ++ rest) = ⟨some (.plain (Token.spell name)), rest, reachedEnd⟩ := by
  rw [className_eq]
  cases rest with
  | nil =>
      have body := nameBody_of_chained isName.chained isName.significant_eq
        (fun next first => by simp at first : ∀ next ∈ (Token.significant []).head?, _)
      have named : qualifiedName (name ++ []) = ⟨some name, [], true⟩ := by
        rw [qualifiedName, bind_of_some body]
        simp [nonempty, Pure.pure, peek, token]
      exact ⟨true, by rw [bind_of_some named]; rfl⟩
  | cons mark more =>
      have kind := closes mark rfl
      have visible : mark.kind.isTrivia = false := by
        rcases kind with kind | kind | kind <;> rw [kind] <;> rfl
      have stops : ∀ last, Production.continuesName last mark.kind = false := by
        rcases kind with kind | kind | kind <;> rw [kind] <;> intro last <;> rfl
      have bare : maybe (eat .less) (mark :: more) = ⟨some none, mark :: more, false⟩ := by
        have other : mark.kind ≠ .less := by
          rcases kind with kind | kind | kind <;> rw [kind] <;> decide
        simp [maybe, eat, eatIf_of_some (token_visible visible more), other]
      refine ⟨false, ?_⟩
      rw [bind_of_some (qualifiedName_of_name isName nonempty visible stops more), classNameTail,
        bind_of_some bare]
      rfl

theorem className_opened (isName : IsName none name) (nonempty : name ≠ []) (tokens : List Token) :
    className (name ++ ⟨.less, ['<']⟩ :: tokens) =
      (do
        if (← maybe (eat .greater)).isSome then
          return ClassName.templated (Token.spell name) []
        let arguments ← commaList className
        let _ ← eat .greater
        return ClassName.templated (Token.spell name) arguments) tokens := by
  have opens : maybe (eat .less) (⟨.less, ['<']⟩ :: tokens) =
      ⟨some (some ⟨.less, ['<']⟩), tokens, false⟩ := rfl
  rw [className_eq, bind_of_some (qualifiedName_of_name isName nonempty rfl
    (fun last => by cases last <;> rfl) tokens), classNameTail, bind_of_some opens]
  simp only [Bool.false_or, Option.isNone_some, Bool.false_eq_true, if_false]

theorem className_templated (isName : IsName none name) (nonempty : name ≠ []) {first : Token}
    {others : List Token} (begins : Production.continuesName none first.kind = true) {reachedEnd : Bool}
    (list : commaList className (first :: others) =
      ⟨some arguments, ⟨.greater, ['>']⟩ :: rest, reachedEnd⟩) :
    ∃ reachedEnd, className (name ++ ⟨.less, ['<']⟩ :: first :: others) =
      ⟨some (.templated (Token.spell name) arguments), rest, reachedEnd⟩ := by
  obtain ⟨visible, unclosed⟩ := visible_of_begins begins
  have goesOn : maybe (eat .greater) (first :: others) = ⟨some none, first :: others, false⟩ := by
    simp [maybe, eat, eatIf_of_some (token_visible visible others), unclosed]
  refine ⟨reachedEnd, ?_⟩
  rw [className_opened isName nonempty, bind_of_some goesOn]
  simp only [Option.isSome_none, Bool.false_eq_true, if_false, Bool.false_or, bind_of_some list]
  simp [eat, eatIf, token, Token.Kind.isTrivia, Bind.bind, Pure.pure]

theorem tokensAll_begins (nonempty : arguments ≠ []) (found : ∀ argument ∈ arguments, FoundAgain argument) :
    ∃ first others, ClassName.tokensAll arguments = first :: others ∧
      Production.continuesName none first.kind = true := by
  obtain ⟨head, behind, rfl⟩ := List.exists_cons_of_ne_nil nonempty
  obtain ⟨first, others, split, begins⟩ := (found head List.mem_cons_self).begins
  cases behind with
  | nil => exact ⟨first, others, split, begins⟩
  | cons second behind => exact ⟨first, _, by rw [ClassName.tokensAll, split]; rfl, begins⟩

theorem commaListWithin_blank {blank : List Token} (trivial : Token.significant blank = [])
    (room : Nat) (tokens : List Token) :
    commaListWithin className (room + 1) (blank ++ tokens) =
      commaListWithin className (room + 1) tokens :=
  bind_congr_outcome (className_blank trivial tokens) _

theorem commaListWithin_again {room : Nat} (nonempty : arguments ≠ []) (few : arguments.length ≤ room)
    (found : ∀ argument ∈ arguments, FoundAgain argument) (rest : List Token) :
    ∃ reachedEnd, commaListWithin className room
        (ClassName.tokensAll arguments ++ ⟨.greater, ['>']⟩ :: rest) =
      ⟨some arguments, ⟨.greater, ['>']⟩ :: rest, reachedEnd⟩ := by
  induction arguments generalizing room with
  | nil => contradiction
  | cons first others ih =>
      obtain ⟨here, later⟩ := List.forall_mem_cons.mp found
      rw [List.length_cons] at few
      obtain ⟨room, rfl⟩ := Nat.exists_eq_succ_of_ne_zero (by omega : room ≠ 0)
      cases others with
      | nil =>
          obtain ⟨ended, item⟩ := here.again (⟨.greater, ['>']⟩ :: rest)
            fun mark same => .inr (.inl (by rw [← Option.some.inj same]))
          exact ⟨_, commaListWithin_last item rfl room⟩
      | cons second others =>
          obtain ⟨ended, list⟩ := ih (by simp) (by omega : (second :: others).length ≤ room) later
          rw [List.length_cons] at few
          obtain ⟨room, rfl⟩ := Nat.exists_eq_succ_of_ne_zero (by omega : room ≠ 0)
          rw [← @commaListWithin_blank [⟨.whitespace, [' ']⟩] rfl, List.singleton_append] at list
          obtain ⟨endedFirst, item⟩ := here.again (⟨.comma, [',']⟩ :: ⟨.whitespace, [' ']⟩ ::
              (ClassName.tokensAll (second :: others) ++ ⟨.greater, ['>']⟩ :: rest))
            fun mark same => .inl (by rw [← Option.some.inj same])
          rw [ClassName.tokensAll, List.append_assoc]
          have whole := commaListWithin_more item (maybe_eat_comma rfl _) (room + 1)
          rw [list] at whole
          exact ⟨_, whole⟩

theorem settledAll (found : ∀ argument ∈ arguments, FoundAgain argument) :
    Token.Settled (ClassName.renderAll arguments) (ClassName.tokensAll arguments) := by
  induction arguments with
  | nil => exact Token.sealed_nil.settled
  | cons first others ih =>
      obtain ⟨here, later⟩ := List.forall_mem_cons.mp found
      cases others with
      | nil => exact here.settled
      | cons second others =>
          intro follow apart
          have rest := ih later follow apart
          obtain ⟨next, more, begins, continues⟩ := tokensAll_begins (by simp) later
          have spaced := rest
          rw [begins, List.cons_append] at spaced
          have comma : Token.Kind.comma.mark? = some [','] := rfl
          have marked := Token.lex_of_cut (Token.cut_mark comma (by decide)
            (' ' :: (ClassName.renderAll (second :: others) ++ follow)))
          rw [Token.lex_space spaced (visible_of_begins continues).1, rest] at marked
          have split := here.settled (',' :: ' ' :: (ClassName.renderAll (second :: others) ++ follow))
            (Token.apart_cons (by decide) _)
          rw [ClassName.renderAll, ClassName.tokensAll]
          simp only [List.cons_append, List.nil_append, List.append_assoc] at marked ⊢
          rw [split, marked]

theorem settled_templated (isName : IsName none name)
    (found : ∀ argument ∈ arguments, FoundAgain argument) :
    Token.Settled (ClassName.templated (Token.spell name) arguments).render
      (name ++ ⟨.less, ['<']⟩ :: (ClassName.tokensAll arguments ++ [⟨.greater, ['>']⟩])) := by
  have less : Token.Kind.less.mark? = some ['<'] := rfl
  have greater : Token.Kind.greater.mark? = some ['>'] := rfl
  have closed := (settledAll found).before (Token.apart_cons (by decide) []) (by simp)
    (Token.sealed_mark greater (by decide)).settled
  have opened := (Token.sealed_mark less (by decide)).before closed
  have whole := isName.settled.before (Token.apart_cons (by decide) _) (by simp) opened
  simpa [ClassName.render] using whole

end

/-- A class name is found again in its written form, to any depth. -/
theorem foundAgain_of_readable {name : ClassName} (readable : name.Readable) : FoundAgain name := by
  induction readable with
  | @plain name isName nonempty =>
      have lexed : (ClassName.plain (Token.spell name)).tokens = name := by
        rw [ClassName.tokens, isName.settled.lex_eq]
      refine ⟨?_, ?_, fun rest closes => ?_⟩
      · rw [lexed]
        exact isName.settled
      · rw [lexed]
        exact begins_of_name isName nonempty
      · rw [lexed]
        exact className_plain isName nonempty closes
  | @templated name arguments isName nonempty few _ found =>
      have lexed : (ClassName.templated (Token.spell name) arguments).tokens =
          name ++ ⟨.less, ['<']⟩ :: (ClassName.tokensAll arguments ++ [⟨.greater, ['>']⟩]) := by
        rw [ClassName.tokens, isName.settled.lex_eq]
      refine ⟨?_, ?_, fun rest closes => ?_⟩
      · rw [lexed]
        exact settled_templated isName found
      · obtain ⟨first, others, split, begins⟩ := begins_of_name isName nonempty
        exact ⟨first, _, by rw [lexed, split]; rfl, begins⟩
      · rw [lexed, List.append_assoc, List.cons_append, List.append_assoc]
        cases arguments with
        | nil =>
            refine ⟨false, ?_⟩
            rw [ClassName.tokensAll, className_opened isName nonempty]
            rfl
        | cons head others =>
            obtain ⟨ended, list⟩ := commaListWithin_again (by simp) few found rest
            obtain ⟨first, others, split, begins⟩ := tokensAll_begins (by simp) found
            rw [split, List.cons_append] at list ⊢
            exact className_templated isName nonempty begins list

end Reading

end OutOfLine
