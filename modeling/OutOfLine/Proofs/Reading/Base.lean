import OutOfLine.Proofs.Reading.Alike
import OutOfLine.Proofs.Reading.Spending
import OutOfLine.Proofs.WrittenForm

namespace OutOfLine

namespace Base

def virtualWord : Token :=
  ⟨.word, "virtual".toList⟩

def accessTokens (access : Option Text) : List Token :=
  access.toList.map (Token.mk .accessKeyword)

/-- The ways to write the specifiers: `virtual` may stand on either side of the access keyword. -/
def specifiers (base : Base) : List (List Token) :=
  if base.isVirtual then
    [virtualWord :: accessTokens base.access, accessTokens base.access ++ [virtualWord]]
  else
    [accessTokens base.access]

/-- The significant tokens of a base. Its class name can be read somewhere, and does not begin with the
word `virtual` unless that word has been written. -/
structure Written (base : Base) (shown : List Token) : Prop where
  named : ∃ parser, (Production.className parser).1 = some base.className
  plain : base.isVirtual = false →
    ∀ first ∈ (Token.lex base.className.render).head?, first.text ≠ "virtual".toList
  split : ∃ specifiers ∈ base.specifiers,
    shown = specifiers ++ Token.significant (Token.lex base.className.render)

end Base

namespace Reading

open Base

variable {α : Type} {tokens others rest more : List Token} {first mark : Token} {ended : Bool}

theorem eatIf_of_other {accepts : Token → Bool} (begins : token tokens = ⟨some first, others, false⟩)
    (other : accepts first = false) :
    maybe (eatIf accepts) tokens = ⟨some none, first :: others, false⟩ := by
  simp [maybe, eatIf_of_some begins, other]

theorem eatVirtual_of_other (begins : token tokens = ⟨some first, others, false⟩)
    (plain : first.text ≠ "virtual".toList) :
    eatVirtual tokens = ⟨some false, first :: others, false⟩ := by
  have other : (decide (first.kind = .word) && decide (first.text = "virtual".toList)) = false := by
    rw [decide_eq_false plain, Bool.and_false]
  rw [eatVirtual, bind_of_some (eatIf_of_other begins other)]
  rfl

theorem noAccess_of_continues (continues : Production.continuesName none first.kind = true) :
    first.kind ≠ .accessKeyword := by
  intro keyword
  rw [keyword] at continues
  contradiction

/-- The access keyword is taken where there is one. -/
theorem maybe_access (access : Option Text) (visible : first.kind.isTrivia = false)
    (other : first.kind ≠ .accessKeyword) (others : List Token) :
    maybe (eat .accessKeyword) (accessTokens access ++ first :: others) =
      ⟨some (access.map (Token.mk .accessKeyword)), first :: others, false⟩ := by
  cases access with
  | none => exact eatIf_of_other (token_visible visible others) (decide_eq_false other)
  | some word => rfl

theorem eatVirtual_of_virtual (tokens : List Token) :
    eatVirtual (virtualWord :: tokens) = ⟨some true, tokens, false⟩ :=
  rfl

theorem eatVirtual_of_access (word : Text) (tokens : List Token) :
    eatVirtual (⟨.accessKeyword, word⟩ :: tokens) =
      ⟨some false, ⟨.accessKeyword, word⟩ :: tokens, false⟩ :=
  rfl

theorem accessTokens_texts (access : Option Text) :
    (access.map (Token.mk .accessKeyword)).map (·.text) = access := by
  cases access <;> rfl

theorem base_of_late {name : ClassName} (read : className (first :: others) = ⟨some name, rest, ended⟩)
    (word : Text) :
    base (⟨.accessKeyword, word⟩ :: virtualWord :: first :: others) =
      ⟨some ⟨some word, true, name⟩, rest, ended⟩ := by
  have access : maybe (eat .accessKeyword) (⟨.accessKeyword, word⟩ :: virtualWord :: first :: others) =
    ⟨some (some ⟨.accessKeyword, word⟩), virtualWord :: first :: others, false⟩ := rfl
  have late : eatVirtualUnless false (virtualWord :: first :: others) =
    ⟨some true, first :: others, false⟩ := rfl
  rw [base, bind_of_some (eatVirtual_of_access word _), bind_of_some access, bind_of_some late,
    bind_of_some read]
  simp [Pure.pure]

section

variable {name : ClassName} (continues : Production.continuesName none first.kind = true)
  (read : className (first :: others) = ⟨some name, rest, ended⟩)
include continues read

theorem base_of_early (access : Option Text) :
    base (virtualWord :: (accessTokens access ++ first :: others)) =
      ⟨some ⟨access, true, name⟩, rest, ended⟩ := by
  have visible := (visible_of_begins continues).1
  have named := maybe_access access visible (noAccess_of_continues continues) others
  have given : eatVirtualUnless true (first :: others) = ⟨some true, first :: others, false⟩ := rfl
  rw [base, bind_of_some (eatVirtual_of_virtual _), bind_of_some named, bind_of_some given,
    bind_of_some read, accessTokens_texts]
  simp [Pure.pure]

theorem base_of_ordinary (access : Option Text) (plain : first.text ≠ "virtual".toList) :
    base (accessTokens access ++ first :: others) = ⟨some ⟨access, false, name⟩, rest, ended⟩ := by
  have visible := (visible_of_begins continues).1
  have named := maybe_access access visible (noAccess_of_continues continues) others
  have missing := eatVirtual_of_other (token_visible visible others) plain
  have notYet : eatVirtual (accessTokens access ++ first :: others) =
      ⟨some false, accessTokens access ++ first :: others, false⟩ := by
    cases access with
    | none => exact missing
    | some word => exact eatVirtual_of_access word _
  have still : eatVirtualUnless false (first :: others) = ⟨some false, first :: others, false⟩ :=
    missing
  rw [base, bind_of_some notYet, bind_of_some named, bind_of_some still, bind_of_some read,
    accessTokens_texts]
  simp [Pure.pure]

end

/-- A base is found in its specifiers and the class name behind them. -/
theorem base_of_specifiers {found : Base} {specifiers : List Token}
    (chosen : specifiers ∈ found.specifiers)
    (continues : Production.continuesName none first.kind = true)
    (plain : found.isVirtual = false → first.text ≠ "virtual".toList)
    (read : className (first :: others) = ⟨some found.className, rest, ended⟩) :
    base (specifiers ++ first :: others) = ⟨some found, rest, ended⟩ := by
  obtain ⟨access, isVirtual, name⟩ := found
  cases isVirtual with
  | false =>
      obtain rfl : specifiers = accessTokens access := List.mem_singleton.mp chosen
      exact base_of_ordinary continues read access (plain rfl)
  | true =>
      rcases List.mem_cons.mp chosen with rfl | late
      · exact base_of_early continues read access
      obtain rfl : specifiers = accessTokens access ++ [virtualWord] := List.mem_singleton.mp late
      cases access with
      | none => exact base_of_early continues read none
      | some word => exact base_of_late read word

theorem significant_specifiers {found : Base} {specifiers : List Token}
    (chosen : specifiers ∈ found.specifiers) : Token.significant specifiers = specifiers := by
  have access : Token.significant (accessTokens found.access) = accessTokens found.access := by
    cases found.access <;> rfl
  unfold Base.specifiers at chosen
  split at chosen
  · simp only [List.mem_cons, List.not_mem_nil, or_false] at chosen
    rcases chosen with rfl | rfl
    · rw [Token.significant_cons rfl, access]
    · rw [Token.significant_append, access]
      rfl
  · obtain rfl := List.mem_singleton.mp chosen
    exact access

/-- The base is found somewhere with the significant tokens, whatever closes its class name. -/
theorem base_of_written {found : Base} {shown : List Token} (written : found.Written shown) :
    ∃ used, Token.significant used = shown ∧ ∀ rest, ClosesName rest →
      ∃ reachedEnd, base (used ++ rest) = ⟨some found, rest, reachedEnd⟩ := by
  obtain ⟨specifiers, chosen, rfl⟩ := written.split
  have name := foundAgain_of_readable (ClassName.proper_iff.mpr written.named).readable
  obtain ⟨first, others, split, continues⟩ := name.begins
  have plain := written.plain
  rw [name.settled.lex_eq] at plain ⊢
  refine ⟨specifiers ++ found.className.tokens, ?_, fun rest closes => ?_⟩
  · rw [Token.significant_append, significant_specifiers chosen]
  · obtain ⟨ended, read⟩ := name.again rest closes
    rw [split] at plain
    rw [split, List.cons_append] at read
    rw [List.append_assoc, split, List.cons_append]
    exact ⟨ended, base_of_specifiers chosen continues (fun ordinary => plain ordinary first rfl) read⟩

/-- Bases with commas between them are found up to a brace, if there is room for them. -/
theorem commaListWithin_bases {list : List Base} {shown : List Token}
    (separated : Separated Written list shown) :
    ∃ used, Token.significant used = shown ∧ ∀ more room,
      (list.length ≤ room → ∃ reachedEnd,
        commaListWithin base room (used ++ ⟨.openBrace, ['\x7b']⟩ :: more) =
          ⟨some list, ⟨.openBrace, ['\x7b']⟩ :: more, reachedEnd⟩) ∧
      (room < list.length →
        (commaListWithin base room (used ++ ⟨.openBrace, ['\x7b']⟩ :: more)).result = none) := by
  induction separated with
  | @single item used written =>
      obtain ⟨used, shown, found⟩ := base_of_written written
      refine ⟨used, shown, fun more room => ?_⟩
      obtain ⟨ended, read⟩ := found (⟨.openBrace, ['\x7b']⟩ :: more) fun mark same =>
        .inr (.inr (by rw [← Option.some.inj same]))
      cases room with
      | zero => exact ⟨fun enough => by simp at enough, fun _ => rfl⟩
      | succ room =>
          refine ⟨fun _ => ⟨_, commaListWithin_last read rfl room⟩, fun short => ?_⟩
          simp at short
  | @cons item items used rest written _ ih =>
      obtain ⟨used, shown, found⟩ := base_of_written written
      obtain ⟨usedLater, shownLater, later⟩ := ih
      refine ⟨used ++ ⟨.comma, [',']⟩ :: usedLater, ?_, fun more room => ?_⟩
      · rw [Token.significant_append, shown, Token.significant_cons rfl, shownLater]
      rw [List.append_assoc, List.cons_append]
      obtain ⟨ended, read⟩ := found
        (⟨.comma, [',']⟩ :: (usedLater ++ ⟨.openBrace, ['\x7b']⟩ :: more)) fun mark same =>
          .inl (by rw [← Option.some.inj same])
      cases room with
      | zero => exact ⟨fun enough => by simp at enough, fun _ => rfl⟩
      | succ room =>
          obtain ⟨fits, full⟩ := later more room
          rw [List.length_cons]
          rw [commaListWithin_more read (maybe_eat_comma rfl _) room]
          refine ⟨fun enough => ?_, fun short => ?_⟩
          · obtain ⟨endedLater, list⟩ := fits (by omega)
            rw [list]
            exact ⟨_, rfl⟩
          · rw [full (by omega)]
            rfl

/-- What is left at a mark is the mark with white space and comments before it. -/
theorem token_of_suffix {front left : List Token} (suffix : left <:+ front ++ mark :: more)
    (visible : mark.kind.isTrivia = false)
    (shown : Token.significant left = mark :: Token.significant more) :
    token left = ⟨some mark, more, false⟩ := by
  have marked : mark :: more <:+ front ++ mark :: more := List.suffix_append _ _
  rcases List.suffix_or_suffix_of_suffix suffix marked with inside | ⟨blank, rfl⟩
  · rcases List.suffix_cons_iff.mp inside with rfl | behind
    · exact token_visible visible more
    · have fewer := (behind.sublist.filter fun token => !token.kind.isTrivia).length_le
      change (Token.significant left).length ≤ (Token.significant more).length at fewer
      rw [shown, List.length_cons] at fewer
      omega
  · rw [Token.significant_append, Token.significant_cons visible] at shown
    have trivial : Token.significant blank = [] := by
      have length := congrArg List.length shown
      rw [List.length_append] at length
      exact List.length_eq_zero_iff.mp (by omega)
    rw [token_blank trivial, token_visible visible]

section

variable {reading : Reading α} (blind : Blind Eq Eq reading reading) {used laid : List Token}
  (same : Token.significant laid = Token.significant used)
include blind same

theorem Blind.like_relaid (more : List Token) :
    Like Eq Eq (reading (used ++ more)) (reading (laid ++ more)) := by
  apply blind
  apply alike_of_significant
  rw [List.forall₂_eq_eq_eq, Token.significant_append, Token.significant_append, same]

theorem Blind.failed_relaid (failed : (reading (used ++ more)).result = none) :
    (reading (laid ++ more)).result = none := by
  have like := blind.like_relaid same more
  rcases read : reading (used ++ more) with ⟨result, rest, ended⟩
  rw [read] at failed like
  subst failed
  obtain ⟨_, _, again, _⟩ := like.of_none
  rw [again]

/-- A reading that stops at a mark in one layout finds the same in any other and stops there too. -/
theorem Blind.found_relaid (steady : Steady reading) (visible : mark.kind.isTrivia = false) {result : α}
    (read : reading (used ++ mark :: more) = ⟨some result, mark :: more, ended⟩) :
    ∃ left reachedEnd, reading (laid ++ mark :: more) = ⟨some result, left, reachedEnd⟩ ∧
      token left = ⟨some mark, more, false⟩ := by
  have like := blind.like_relaid same (mark :: more)
  rw [read] at like
  obtain ⟨_, left, reachedEnd, found, rfl, alike⟩ := like.of_some
  have suffix : left <:+ laid ++ mark :: more := by
    have suffix := steady.suffix (laid ++ mark :: more)
    rwa [found] at suffix
  have shown : Token.significant left = mark :: Token.significant more := by
    rw [← alike.significant_eq, Token.significant_cons visible]
  exact ⟨left, reachedEnd, found, token_of_suffix suffix visible shown⟩

end

theorem commaList_base_blind : Blind Eq Eq (commaList base) (commaList base) := by
  have blind := commaList_blind similarity_eq (base_blind similarity_eq)
  rwa [List.forall₂_eq_eq_eq] at blind

theorem token_colon (tokens : List Token) :
    token (⟨.colon, [':']⟩ :: tokens) = ⟨some ⟨.colon, [':']⟩, tokens, false⟩ :=
  rfl

section

variable {list : List Base} {shown laid : List Token} (separated : Separated Written list shown)
  (same : Token.significant laid = shown)
include separated same

/-- A base list is found in every layout, and what stands behind its brace is left. -/
theorem bases_of_written (few : list.length ≤ Production.itemLimit) (more : List Token) :
    ∃ reachedEnd, bases (⟨.colon, [':']⟩ :: (laid ++ ⟨.openBrace, ['\x7b']⟩ :: more)) =
      ⟨some (some list), more, reachedEnd⟩ := by
  obtain ⟨used, rfl, found⟩ := commaListWithin_bases separated
  obtain ⟨ended, read⟩ := (found more Production.itemLimit).1 few
  obtain ⟨left, reachedEnd, again, behind⟩ :=
    commaList_base_blind.found_relaid same (commaList_steady base_steady) rfl read
  have brace : eat .openBrace left = ⟨some ⟨.openBrace, ['\x7b']⟩, more, false⟩ := by
    rw [eat, eatIf_of_some behind]
    rfl
  refine ⟨reachedEnd, ?_⟩
  rw [bases, bind_of_some (token_colon _)]
  simp only [bind_of_some again, bind_of_some brace]
  simp [Pure.pure]

theorem bases_of_many (many : Production.itemLimit < list.length) (more : List Token) :
    (bases (⟨.colon, [':']⟩ :: (laid ++ ⟨.openBrace, ['\x7b']⟩ :: more))).result = none := by
  obtain ⟨used, rfl, found⟩ := commaListWithin_bases separated
  have failed := commaList_base_blind.failed_relaid same ((found more Production.itemLimit).2 many)
  rw [bases, bind_of_some (token_colon _)]
  exact bind_failed failed _

end

end Reading

end OutOfLine
