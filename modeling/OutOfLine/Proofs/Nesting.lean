import OutOfLine.Proofs.Reading.Base
import OutOfLine.Proofs.Scan

namespace OutOfLine

/-- The greatest weight among the items. -/
def heaviest {α : Type} (weight : α → Nat) (items : List α) : Nat :=
  items.foldr (fun item greatest => max (weight item) greatest) 0

theorem le_heaviest {α : Type} {weight : α → Nat} {items : List α} {item : α} (member : item ∈ items) :
    weight item ≤ heaviest weight items := by
  induction items with
  | nil => simp at member
  | cons first others ih =>
      rw [heaviest, List.foldr_cons]
      rcases List.mem_cons.mp member with rfl | member
      · exact Nat.le_max_left _ _
      · exact Nat.le_trans (ih member) (Nat.le_max_right _ _)

theorem ClassName.nestingAll_eq (names : List ClassName) :
    ClassName.nestingAll names = heaviest ClassName.nesting names := by
  induction names with
  | nil => rfl
  | cons first others ih => rw [ClassName.nestingAll, ih, heaviest, heaviest, List.foldr_cons]

/-- How deep the bases of a class nest. -/
def ClassHead.nesting (head : ClassHead) : Nat :=
  heaviest (·.className.nesting) (head.bases.getD [])

theorem ClassHead.base_nesting_le {head : ClassHead} {base : Base} (member : base ∈ head.bases.getD []) :
    base.className.nesting ≤ head.nesting :=
  @le_heaviest _ (·.className.nesting) _ base member

/-- How often `<` stands among the tokens. -/
def Token.angles (tokens : List Token) : Nat :=
  tokens.countP (·.kind = .less)

namespace Reading

/-- What is found weighs no more than the `<` that were spent on it. -/
def Pays {α : Type} (weight : α → Nat) (reading : Reading α) : Prop :=
  ∀ tokens result, (reading tokens).result = some result →
    weight result + Token.angles (reading tokens).rest ≤ Token.angles tokens

section

variable {α β : Type} {reading : Reading α} {weight : α → Nat}

theorem Steady.pays (steady : Steady reading) : Pays (fun _ => 0) reading := by
  intro tokens result _
  rw [Nat.zero_add]
  exact (steady.suffix tokens).sublist.countP_le

theorem Pays.pure {result : α} (free : weight result = 0) : Pays weight (Pure.pure result) := by
  intro tokens found same
  obtain rfl := Option.some.inj same
  rw [free, Nat.zero_add]
  exact Nat.le_refl _

theorem Pays.fail : Pays weight Reading.fail := by
  intro tokens result found
  cases found

theorem Pays.ite {condition : Prop} [Decidable condition] {other : Reading α}
    (whenTrue : condition → Pays weight reading) (whenFalse : ¬ condition → Pays weight other) :
    Pays weight (if condition then reading else other) := by
  split
  · exact whenTrue ‹_›
  · exact whenFalse ‹_›

theorem Pays.bind {total : β → Nat} {later : α → Reading β} (first : Pays weight reading)
    (second : ∀ result, Pays (fun found => total found - weight result) (later result)) :
    Pays total (reading >>= later) := by
  intro tokens result found
  obtain ⟨early, rest, reachedEnd, read, late, same⟩ := bind_result found
  have paid := first tokens early (by rw [read])
  rw [read] at paid
  change weight early + Token.angles rest ≤ Token.angles tokens at paid
  have paidLater : total result - weight early + Token.angles (later early rest).rest ≤
    Token.angles rest := second early rest result late
  rw [same]
  omega

theorem Pays.commaListWithin (pays : Pays weight reading) (room : Nat) :
    Pays (heaviest weight) (commaListWithin reading room) := by
  induction room with
  | zero => exact .fail
  | succ room ih =>
      refine pays.bind fun first => (eat_steady .comma).maybe.pays.bind fun comma => ?_
      cases comma with
      | none => exact .pure (by simp [heaviest])
      | some _ => exact ih.bind fun others => .pure (by simp only [heaviest, List.foldr_cons]; omega)

end

theorem less_pays : Pays (fun found => if found.isSome then 1 else 0) (maybe (eat .less)) := by
  intro tokens found same
  cases found with
  | none => exact (eat_steady .less).maybe.pays tokens none same
  | some mark =>
      rcases eaten : eat .less tokens with ⟨result, rest, reachedEnd⟩
      simp only [maybe, eaten, Option.some.injEq] at same ⊢
      subst same
      obtain ⟨read, accepted, _⟩ := eatIf_found eaten
      have less : mark.kind = .less := of_decide_eq_true accepted
      have suffix : mark :: (token tokens).rest <:+ tokens := token_some (by rw [read])
      rw [read] at suffix
      have count : Token.angles (mark :: rest) ≤ Token.angles tokens := suffix.sublist.countP_le
      rw [Token.angles, List.countP_cons_of_pos (by simpa using less)] at count
      rw [Option.isSome_some, if_pos rfl, Nat.add_comm]
      exact count

theorem classNameTail_pays (name : Text) {argument : Reading ClassName}
    (pays : Pays ClassName.nesting argument) : Pays ClassName.nesting (classNameTail name argument) := by
  refine less_pays.bind fun less => .ite (fun _ => .pure (by simp [ClassName.nesting])) fun opened => ?_
  obtain ⟨mark, rfl⟩ := Option.ne_none_iff_exists'.mp (by simpa using opened)
  refine (eat_steady .greater).maybe.pays.bind fun greater => .ite (fun _ => .pure rfl) fun _ => ?_
  refine (pays.commaListWithin _).bind fun arguments => (eat_steady .greater).pays.bind fun _ => ?_
  exact .pure (by simp [ClassName.nesting, ClassName.nestingAll_eq])

theorem classNameWithin_pays (room : Nat) : Pays ClassName.nesting (classNameWithin room) := by
  induction room with
  | zero => exact .fail
  | succ room ih => exact qualifiedName_steady.pays.bind fun name => classNameTail_pays _ ih

theorem className_pays : Pays ClassName.nesting className :=
  fun tokens => classNameWithin_pays _ tokens

theorem base_pays : Pays (fun base => base.className.nesting) base := by
  refine eatVirtual_steady.pays.bind fun _ => (eat_steady _).maybe.pays.bind fun _ => ?_
  refine (Steady.ite (.pure _) eatVirtual_steady).pays.bind fun _ => className_pays.bind fun name => ?_
  exact .pure (by simp)

theorem bases_pays :
    Pays (fun found => heaviest (·.className.nesting) (found.getD [])) bases := by
  refine token_steady.pays.bind fun opener => ?_
  split
  · exact .pure rfl
  · refine (base_pays.commaListWithin _).bind fun found => (eat_steady _).pays.bind fun _ => ?_
    exact .pure (by simp)
  · exact .fail

theorem classHead_pays : Pays ClassHead.nesting classHead := by
  refine (eat_steady _).pays.bind fun _ => (headSegments_steady _).pays.bind fun phrases => ?_
  split
  · exact .fail
  · exact bases_pays.bind fun found => .pure (by simp [ClassHead.nesting])

theorem className_nesting_le {parser : Parser} {name : ClassName}
    (found : (Production.className parser).1 = some name) :
    name.nesting ≤ Token.angles (Token.lex parser.remaining) := by
  rw [(className_reads parser).result_eq] at found
  have paid := className_pays _ name found
  omega

theorem classHead_nesting_le {parser : Parser} {head : ClassHead}
    (found : (Production.classHead parser).1 = some head) :
    head.nesting ≤ Token.angles (Token.lex parser.remaining) := by
  rw [((classHead_reads.imp fun _ _ related => related.1) parser).result_eq] at found
  have paid := classHead_pays _ head found
  omega

end Reading

namespace Scan

theorem nesting_le_of_mem_steps {text : Text} {head : ClassHead} (member : .head head ∈ steps text) :
    head.nesting ≤ Token.angles (Token.lex text) := by
  induction text using advance_induction with
  | nil => simp at member
  | advance text step rest next ih =>
      rw [steps_of_advance? next] at member
      rcases List.mem_cons.mp member with rfl | later
      · exact Reading.classHead_nesting_le (accepted_of_advance? next)
      · have tokens := advance?_tokens text
        rw [next] at tokens
        obtain ⟨first, others, whole, suffix⟩ := advanceTokens?_leaves tokens.symm
        have fewer : Token.angles (Token.lex rest) ≤ Token.angles (Token.lex text) := by
          rw [whole]
          exact (suffix.trans (List.suffix_cons first others)).sublist.countP_le
        exact Nat.le_trans (ih later) fewer

/-- A text that is all a class head leads to its class. -/
theorem enclosingClass_of_classHead {text : Text} {head : ClassHead} {keyword : Token}
    {others : List Token} {reachedEnd : Bool} (log : Log) (lexed : Token.lex text = keyword :: others)
    (kind : keyword.kind = .classKeyword)
    (read : Reading.classHead (Token.lex text) = ⟨some head, [], reachedEnd⟩) :
    (OutOfLine.enclosingClass text log).1 = some head := by
  have next : advanceTokens? (Token.lex text) = some (.head head, []) := by
    rw [lexed] at read ⊢
    simp only [advanceTokens?, kind, read]
  obtain ⟨after, advanced, ended⟩ := advance?_of_tokens next
  obtain rfl : after = [] := Token.lex_eq_nil_iff.mp ended
  have single : steps text = [.head head] := by rw [steps_of_advance? advanced, steps_nil]
  rw [enclosingClass_eq_steps, single]
  rfl

end Scan

namespace ClassName

/-- A name within so many argument lists. -/
def chain : Nat → ClassName
  | 0 => .plain ['x']
  | depth + 1 => .templated ['N'] [chain depth]

theorem isName_letter (letter : Char) (cut : Token.cut? [letter] = some (⟨.word, [letter]⟩, [])) :
    Reading.IsName none [⟨.word, [letter]⟩] :=
  ⟨⟨[], cut⟩, rfl, trivial⟩

theorem readable_chain (depth : Nat) : (chain depth).Readable := by
  induction depth with
  | zero => exact .plain (isName_letter 'x' rfl) (by simp)
  | succ depth ih =>
      exact .templated (isName_letter 'N' rfl) (by simp) (by simp [Production.itemLimit])
        (List.forall_mem_singleton.mpr ih)

theorem nesting_chain (depth : Nat) : (chain depth).nesting = depth := by
  induction depth with
  | zero => rfl
  | succ depth ih => simp [chain, nesting, nestingAll, ih]

theorem angles_chain (depth : Nat) : Token.angles (chain depth).tokens = depth := by
  induction depth with
  | zero => decide +kernel
  | succ depth ih =>
      have letter : Token.lex ['N'] = [⟨.word, ['N']⟩] := by decide +kernel
      rw [chain, tokens, letter, tokensAll, Token.angles]
      rw [Token.angles] at ih
      simp [List.countP_append, ih]

/-- The class `A` with the class name as its base, up to its brace. -/
def asBase (name : ClassName) : Text :=
  "class".toList ++ ' ' :: 'A' :: ' ' :: ':' :: ' ' :: (name.render ++ ['\x7b'])

end ClassName

namespace Reading

open ClassName

variable {name : ClassName}

theorem lex_asBase (found : FoundAgain name) :
    Token.lex name.asBase = ⟨.classKeyword, "class".toList⟩ :: ⟨.whitespace, [' ']⟩ ::
      ⟨.word, ['A']⟩ :: ⟨.whitespace, [' ']⟩ :: ⟨.colon, [':']⟩ :: ⟨.whitespace, [' ']⟩ ::
      (name.tokens ++ [⟨.openBrace, ['\x7b']⟩]) := by
  obtain ⟨first, others, split, continues⟩ := found.begins
  have brace : Token.lex ['\x7b'] = [⟨.openBrace, ['\x7b']⟩] := by decide +kernel
  have body : Token.lex (name.render ++ ['\x7b']) = name.tokens ++ [⟨.openBrace, ['\x7b']⟩] := by
    rw [found.settled _ (Token.apart_cons (by decide) _), brace]
  have spaced := body
  rw [split, List.cons_append] at spaced
  have space := Token.lex_space spaced (visible_of_begins continues).1
  rw [body] at space
  have keyword (follow : Text) : Token.cut? ("class".toList ++ ' ' :: follow) =
    some (⟨.classKeyword, "class".toList⟩, ' ' :: follow) := rfl
  have word (follow : Text) : Token.cut? (' ' :: 'A' :: follow) =
    some (⟨.whitespace, [' ']⟩, 'A' :: follow) := rfl
  have name (follow : Text) : Token.cut? ('A' :: ' ' :: follow) =
    some (⟨.word, ['A']⟩, ' ' :: follow) := rfl
  have blank (follow : Text) : Token.cut? (' ' :: ':' :: follow) =
    some (⟨.whitespace, [' ']⟩, ':' :: follow) := rfl
  have colon (follow : Text) : Token.cut? (':' :: ' ' :: follow) =
    some (⟨.colon, [':']⟩, ' ' :: follow) := rfl
  rw [asBase, Token.lex_of_cut (keyword _), Token.lex_of_cut (word _), Token.lex_of_cut (name _),
    Token.lex_of_cut (blank _), Token.lex_of_cut (colon _), space]

theorem angles_asBase (found : FoundAgain name) :
    Token.angles (Token.lex name.asBase) = Token.angles name.tokens := by
  rw [lex_asBase found]
  simp [Token.angles, List.countP_append]

/-- The head of `A` has the class name as its only base. -/
theorem classHead_asBase (found : FoundAgain name)
    (plain : ∀ first ∈ name.tokens.head?, first.text ≠ "virtual".toList) :
    ∃ reachedEnd, classHead (Token.lex name.asBase) =
      ⟨some ⟨['A'], none, none, some [⟨none, false, name⟩]⟩, [], reachedEnd⟩ := by
  have written : Base.Written ⟨none, false, name⟩ (Token.significant name.tokens) := by
    rw [← found.settled.lex_eq] at plain ⊢
    exact ⟨⟨_, found.className_eq⟩, fun _ => plain, [], List.mem_singleton.mpr rfl, rfl⟩
  have laid : Token.significant (⟨.whitespace, [' ']⟩ :: name.tokens) = Token.significant name.tokens := rfl
  obtain ⟨ended, based⟩ := bases_of_written (.single written) laid (by simp [Production.itemLimit]) []
  rw [List.cons_append] at based
  rw [lex_asBase found]
  -- The head is all in sight up to the colon, so that it can be read off.
  have keyword (tokens : List Token) :
    eat .classKeyword (⟨.classKeyword, "class".toList⟩ :: tokens) =
      ⟨some ⟨.classKeyword, "class".toList⟩, tokens, false⟩ := rfl
  have segments (tokens : List Token) :
    headSegments Production.headSegmentLimit (⟨.whitespace, [' ']⟩ :: ⟨.word, ['A']⟩ ::
        ⟨.whitespace, [' ']⟩ :: ⟨.colon, [':']⟩ :: tokens) =
      ⟨some [⟨.plain, [⟨.word, ['A']⟩]⟩], ⟨.colon, [':']⟩ :: tokens, false⟩ := rfl
  have head : ClassHead.ofSegments? ([⟨.plain, [⟨.word, ['A']⟩]⟩].map Phrase.segment) =
    some ⟨['A'], none, none, none⟩ := rfl
  refine ⟨ended, ?_⟩
  rw [classHead, bind_of_some (keyword _), bind_of_some (segments _)]
  simp only [head, bind_of_some based]
  simp [Pure.pure]

end Reading

namespace ClassName

theorem plain_chain (depth : Nat) : ∀ first ∈ (chain depth).tokens.head?, first.text ≠ "virtual".toList := by
  have letters : Token.lex ['x'] = [⟨.word, ['x']⟩] ∧ Token.lex ['N'] = [⟨.word, ['N']⟩] := by
    decide +kernel
  intro first begins
  cases depth with
  | zero =>
      rw [chain, tokens, letters.1] at begins
      rw [← Option.some.inj begins]
      decide
  | succ depth =>
      rw [chain, tokens, letters.2] at begins
      rw [← Option.some.inj begins]
      decide

theorem className_chain (depth : Nat) :
    (Production.className (.ofText (chain depth).render [])).1 = some (chain depth) :=
  (Reading.foundAgain_of_readable (readable_chain depth)).className_eq

/-- Both ways to a class lead to a base of the depth. -/
theorem classHead_chain (depth : Nat) :
    ∃ head, head.bases = some [⟨none, false, chain depth⟩] ∧
      (Production.classHead (.ofText (chain depth).asBase [])).1 = some head ∧
      (enclosingClass (chain depth).asBase []).1 = some head := by
  have found := Reading.foundAgain_of_readable (readable_chain depth)
  obtain ⟨ended, read⟩ := Reading.classHead_asBase found (plain_chain depth)
  have agrees := (Reading.classHead_reads.imp fun _ _ related => related.1) (.ofText (chain depth).asBase [])
  have same : (Production.classHead (.ofText (chain depth).asBase [])).1 =
      (Reading.classHead (Token.lex (chain depth).asBase)).result := agrees.result_eq
  rw [read] at same
  exact ⟨_, rfl, same, Scan.enclosingClass_of_classHead [] (Reading.lex_asBase found) rfl read⟩

/-- No class name nests deeper than there are `<` in the text, be it found by itself, as a base of a
class head or as a base of the enclosing class. Where there are no more `<` than some cap, the cap so
holds; and at every depth each of the three gets as deep as there are `<`. -/
theorem nesting_le_angles (parser : Parser) (text : Text) (log : Log) (depth : Nat) :
    (∀ name, (Production.className parser).1 = some name →
      name.nesting ≤ Token.angles (Token.lex parser.remaining)) ∧
    (∀ head, (Production.classHead parser).1 = some head → ∀ base ∈ head.bases.getD [],
      base.className.nesting ≤ Token.angles (Token.lex parser.remaining)) ∧
    (∀ head, (enclosingClass text log).1 = some head → ∀ base ∈ head.bases.getD [],
      base.className.nesting ≤ Token.angles (Token.lex text)) ∧
    (∃ deep name, Token.angles (Token.lex deep) = depth ∧
      (Production.className (.ofText deep [])).1 = some name ∧ name.nesting = depth) ∧
    (∃ deep head base, Token.angles (Token.lex deep) = depth ∧
      (Production.classHead (.ofText deep [])).1 = some head ∧
      (enclosingClass deep []).1 = some head ∧ head.bases = some [base] ∧
      base.className.nesting = depth) := by
  have found := Reading.foundAgain_of_readable (readable_chain depth)
  refine ⟨fun name found => Reading.className_nesting_le found, ?_, ?_, ?_, ?_⟩
  · intro head found base member
    exact Nat.le_trans (ClassHead.base_nesting_le member) (Reading.classHead_nesting_le found)
  · intro head found base member
    exact Nat.le_trans (ClassHead.base_nesting_le member)
      (Scan.nesting_le_of_mem_steps (Scan.mem_steps_of_enclosingClass found))
  · refine ⟨(chain depth).render, chain depth, ?_, className_chain depth, nesting_chain depth⟩
    rw [found.settled.lex_eq, angles_chain]
  · obtain ⟨head, bases, accepted, enclosing⟩ := classHead_chain depth
    refine ⟨(chain depth).asBase, head, _, ?_, accepted, enclosing, bases, nesting_chain depth⟩
    rw [Reading.angles_asBase found, angles_chain]

theorem nesting_le_angles_pair :
    let text := "class A : N<N<x>, y> \x7b".toList
    (∃ name, (Production.className (.ofText "N<N<x>, y>".toList [])).1 = some name ∧
      name.nesting = 2 ∧ name.nesting ≤ Token.angles (Token.lex "N<N<x>, y>".toList)) ∧
    (∃ head base, (Production.classHead (.ofText text [])).1 = some head ∧ base ∈ head.bases.getD [] ∧
      base.className.nesting = 2 ∧ base.className.nesting ≤ Token.angles (Token.lex text)) ∧
    ∃ head base, (enclosingClass text []).1 = some head ∧ base ∈ head.bases.getD [] ∧
      base.className.nesting = 2 ∧ base.className.nesting ≤ Token.angles (Token.lex text) := by
  intro text
  obtain ⟨alone, _⟩ := nesting_le_angles (.ofText "N<N<x>, y>".toList []) text [] 2
  obtain ⟨_, ofHead, ofScope, _⟩ := nesting_le_angles (.ofText text []) text [] 2
  have named : (Production.className (.ofText "N<N<x>, y>".toList [])).1.map nesting = some 2 := by
    decide +kernel
  have headed : (Production.classHead (.ofText text [])).1.map
      (fun head => (head.bases.getD []).map (·.className.nesting)) = some [2] := by decide +kernel
  have enclosed : (enclosingClass text []).1.map
      (fun head => (head.bases.getD []).map (·.className.nesting)) = some [2] := by decide +kernel
  obtain ⟨name, found, depth⟩ := Option.map_eq_some_iff.mp named
  obtain ⟨head, foundHead, depths⟩ := Option.map_eq_some_iff.mp headed
  obtain ⟨base, member, depthBase⟩ := List.mem_map.mp (depths ▸ List.mem_singleton_self 2)
  obtain ⟨scope, foundScope, depthsScope⟩ := Option.map_eq_some_iff.mp enclosed
  obtain ⟨inner, memberScope, depthInner⟩ := List.mem_map.mp (depthsScope ▸ List.mem_singleton_self 2)
  exact ⟨⟨name, found, depth, alone name found⟩,
    ⟨head, base, foundHead, member, depthBase, ofHead head foundHead base member⟩,
    ⟨scope, inner, foundScope, memberScope, depthInner, ofScope scope foundScope inner memberScope⟩⟩

/-- No bound holds for all texts. -/
theorem nesting_unbounded :
    (¬ ∃ bound, ∀ text name, (Production.className (.ofText text [])).1 = some name →
      name.nesting ≤ bound) ∧
    (¬ ∃ bound, ∀ text head, (Production.classHead (.ofText text [])).1 = some head →
      ∀ base ∈ head.bases.getD [], base.className.nesting ≤ bound) ∧
    (¬ ∃ bound, ∀ text head, (enclosingClass text []).1 = some head →
      ∀ base ∈ head.bases.getD [], base.className.nesting ≤ bound) := by
  refine ⟨?_, ?_, ?_⟩
  · rintro ⟨bound, bounded⟩
    have deep := bounded _ _ (className_chain (bound + 1))
    rw [nesting_chain] at deep
    omega
  · rintro ⟨bound, bounded⟩
    obtain ⟨head, bases, accepted, _⟩ := classHead_chain (bound + 1)
    have deep := bounded _ head accepted ⟨none, false, chain (bound + 1)⟩ (by simp [bases])
    rw [nesting_chain] at deep
    omega
  · rintro ⟨bound, bounded⟩
    obtain ⟨head, bases, _, enclosing⟩ := classHead_chain (bound + 1)
    have deep := bounded _ head enclosing ⟨none, false, chain (bound + 1)⟩ (by simp [bases])
    rw [nesting_chain] at deep
    omega

end ClassName

end OutOfLine
