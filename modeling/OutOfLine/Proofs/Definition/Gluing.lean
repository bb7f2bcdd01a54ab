import OutOfLine.Definition
import OutOfLine.Proofs.Reading.Ending

namespace OutOfLine

namespace Reading

/-- The declarations at the front of the tokens, and the tokens from which there is none. -/
inductive Declares : List Token → List Phrase.Declaration → List Token → Prop where
  | done {tokens : List Token} (failed : (declaration tokens).result = none) :
      Declares tokens [] tokens
  | more {tokens rest left : List Token} {first : Phrase.Declaration}
      {found : List Phrase.Declaration} {reachedEnd : Bool}
      (read : declaration tokens = ⟨some first, rest, reachedEnd⟩) (later : Declares rest found left) :
      Declares tokens (first :: found) left

theorem declarationsStep_of_none {tokens rest : List Token} {reachedEnd : Bool}
    (failed : declaration tokens = ⟨none, rest, reachedEnd⟩) (read : List Phrase.Declaration) :
    declarationsStep read tokens = ⟨some (.inr read.reverse), rest, reachedEnd⟩ := by
  have tried : maybe declaration tokens = ⟨some none, rest, reachedEnd⟩ := by simp only [maybe, failed]
  rw [declarationsStep, bind_of_some tried]
  simp [Pure.pure]

theorem declarationsStep_of_some {tokens rest : List Token} {found : Phrase.Declaration}
    {reachedEnd : Bool} (here : declaration tokens = ⟨some found, rest, reachedEnd⟩)
    (read : List Phrase.Declaration) :
    declarationsStep read tokens = ⟨some (.inl (found :: read)), rest, reachedEnd⟩ := by
  have tried : maybe declaration tokens = ⟨some (some found), rest, reachedEnd⟩ := by
    simp only [maybe, here]
  rw [declarationsStep, bind_of_some tried]
  simp [Pure.pure]

theorem declaration_failed {tokens rest : List Token} {reachedEnd : Bool}
    (failed : declaration tokens = ⟨none, rest, reachedEnd⟩) : rest = tokens := by
  unfold declaration attempt at failed
  split at failed <;> simp_all

theorem loop_declares (read : List Phrase.Declaration) (tokens : List Token) :
    ∃ found left reachedEnd, Declares tokens found left ∧
      loop declarationsStep read tokens = ⟨some (read.reverse ++ found), left, reachedEnd⟩ := by
  induction size : tokens.length using Nat.strongRecOn generalizing read tokens with
  | ind size ih =>
      rcases here : declaration tokens with ⟨_ | first, rest, reachedEnd⟩
      · obtain rfl := declaration_failed here
        refine ⟨[], rest, reachedEnd, .done (by rw [here]), ?_⟩
        rw [loop_of_done (declarationsStep_of_none here read), List.append_nil]
      · have shorter := declaration_shortens tokens first (by rw [here])
        rw [here] at shorter
        obtain ⟨found, left, ended, declares, same⟩ :=
          ih rest.length (size ▸ shorter) (first :: read) rest rfl
        refine ⟨first :: found, left, reachedEnd || ended, .more here declares, ?_⟩
        rw [loop_of_more declarationsStep_falls (declarationsStep_of_some here read), same]
        simp

theorem declarations_declares (tokens : List Token) :
    ∃ found, Declares tokens found (declarations tokens).rest ∧
      (declarations tokens).result.getD [] = found := by
  obtain ⟨found, left, reachedEnd, declares, all⟩ := loop_declares [] tokens
  refine ⟨found, ?_⟩
  rw [declarations, bind_of_some all]
  cases found with
  | nil => exact ⟨declares, rfl⟩
  | cons first others => exact ⟨declares, rfl⟩

theorem Declares.unique {tokens left other : List Token} {found others : List Phrase.Declaration}
    (declares : Declares tokens found left) (again : Declares tokens others other) :
    found = others := by
  induction declares generalizing others with
  | done failed =>
      cases again with
      | done _ => rfl
      | more read _ => simp [read] at failed
  | more read _ ih =>
      cases again with
      | done failed => simp [read] at failed
      | more readAgain later =>
          obtain ⟨rfl, rfl, rfl⟩ : _ ∧ _ ∧ _ := by simpa using read.symm.trans readAgain
          rw [ih later]

/-- Where only white space and comments are left, the declarations behind follow. -/
theorem Declares.append {front back left last : List Token} {found others : List Phrase.Declaration}
    (declares : Declares front found left) (trivial : Token.significant left = [])
    (later : Declares back others last) : ∃ last, Declares (front ++ back) (found ++ others) last := by
  induction declares with
  | @done front failed =>
      rcases declaration_passes front back trivial with same | ⟨failedBoth, failedBack⟩
      · cases later with
        | done failedBack => exact ⟨_, .done (by rw [same]; exact failedBack)⟩
        | more read later => exact ⟨_, .more (same.trans read) later⟩
      · cases later with
        | done _ => exact ⟨_, .done failedBoth⟩
        | more read _ => simp [read] at failedBack
  | more read _ ih =>
      obtain ⟨last, both⟩ := ih trivial
      exact ⟨last, .more (declaration_append read back) both⟩

end Reading

namespace Production

/-- The declarations at the front of a text, none if there is no declaration. -/
def declared (text : Text) : List Declaration :=
  (declarations (.ofText text [])).1.getD []

theorem declarations_logged (text : Text) (log : Log) :
    (declarations (.ofText text log)).1 = (declarations (.ofText text [])).1 := by
  rw [Reading.declarations_result, Reading.declarations_result]
  rfl

theorem declared_of_read {text : Text} {log : Log} {found : List Declaration} {after : Parser}
    (read : declarations (.ofText text log) = (some found, after)) : declared text = found := by
  rw [declared, ← declarations_logged text log, read]
  rfl

theorem declarations_ne_nil {parser after : Parser} {found : List Declaration}
    (read : declarations parser = (some found, after)) : found ≠ [] := by
  rintro rfl
  unfold declarations at read
  split at read <;> simp_all

theorem declared_append {front back : Text} {log : Log} {found : List Declaration} {after : Parser}
    (read : declarations (.ofText front log) = (some found, after))
    (trivial : Token.significant (Token.lex after.remaining) = [])
    (cut : Token.lex (front ++ back) = Token.lex front ++ Token.lex back) :
    declared (front ++ back) = found ++ declared back := by
  have written : ∀ text, declared text =
      ((Reading.declarations (Token.lex text)).result.getD []).map Phrase.Declaration.written := by
    intro text
    rw [declared, Reading.declarations_result]
    change ((Reading.declarations (Token.lex text)).result.map _).getD [] = _
    cases (Reading.declarations (Token.lex text)).result with
    | none => rfl
    | some seen => rfl
  have left : (Reading.declarations (Token.lex front)).rest = Token.lex after.remaining := by
    have rest := (Reading.declarations_reads (.ofText front log)).rest
    rw [read] at rest
    exact rest.symm
  obtain ⟨inFront, declares, sameFront⟩ := Reading.declarations_declares (Token.lex front)
  obtain ⟨inBack, later, sameBack⟩ := Reading.declarations_declares (Token.lex back)
  obtain ⟨inBoth, whole, sameBoth⟩ := Reading.declarations_declares (Token.lex (front ++ back))
  rw [left] at declares
  obtain ⟨last, both⟩ := declares.append trivial later
  rw [cut] at whole
  rw [← declared_of_read read, written, written, written, sameFront, sameBack, sameBoth,
    whole.unique both, List.map_append]

end Production

namespace Definition

/-- The definitions for the declarations of a selection. -/
def rendered (style : Style) (className selection : Text) : List Text :=
  (Production.declared selection).filterMap (ofDeclaration? style className)

/-- The text of definitions: one with what follows it, several with what stands between them and
what follows the last. -/
def assembled? (style : Style) : List Text → Option Text
  | [] => none
  | [only] => some (only ++ style.afterDefinition)
  | first :: others =>
      some (first ++ style.afterDefinition ++
        others.flatMap (fun definition =>
          style.betweenDefinitions ++ definition ++ style.afterDefinition) ++
        style.afterDefinitions)

theorem assembled?_cons (style : Style) (first : Text) (others : List Text) :
    assembled? style (first :: others) = some (glue style (first :: others)) := by
  cases others with
  | nil => rfl
  | cons second others =>
      rw [assembled?, glue, List.map_cons, Text.join_cons]
      · simp [List.flatMap_map]
      · simp
      · simp

theorem ofSelection?_result (style : Style) (selection before : Text) (log : Log) :
    (ofSelection? style selection before log).1 =
      (enclosingClass before log).1.bind fun head =>
        assembled? style (rendered style head.name selection) := by
  unfold ofSelection? rendered Production.declared
  rcases enclosingClass before log with ⟨_ | head, noted⟩
  · rfl
  have same := Production.declarations_logged selection noted
  rcases parsed : Production.declarations (.ofText selection noted) with ⟨_ | declarations, parser⟩ <;>
    rw [parsed] at same
  · simp only [parsed, ← same]
    rfl
  · simp only [parsed, ← same, Option.getD_some, Option.bind_some]
    cases declarations.filterMap (ofDeclaration? style head.name) with
    | nil => rfl
    | cons first others => exact (assembled?_cons style first others).symm

/-- A selection that ends with its last declaration and one behind it are read, and defined, as both
one after the other. What a selection becomes depends on how many definitions it has, which may be
fewer than its declarations. -/
theorem rendered_append {front back : Text} {log : Log} {found : List Declaration} {after : Parser}
    (read : Production.declarations (.ofText front log) = (some found, after))
    (trivial : Token.significant (Token.lex after.remaining) = [])
    (cut : Token.lex (front ++ back) = Token.lex front ++ Token.lex back) :
    (∀ log, (Production.declarations (.ofText (front ++ back) log)).1 =
      some (found ++ Production.declared back)) ∧
    (∀ style className, rendered style className (front ++ back) =
      rendered style className front ++ rendered style className back) ∧
    ∀ style selection before log, (ofSelection? style selection before log).1 =
      (enclosingClass before log).1.bind fun head =>
        assembled? style (rendered style head.name selection) := by
  have whole := Production.declared_append read trivial cut
  have ofFront := Production.declared_of_read read
  refine ⟨fun log => ?_, fun style className => ?_, ofSelection?_result⟩
  · rw [Production.declarations_logged]
    have nonempty : found ≠ [] := Production.declarations_ne_nil read
    rw [Production.declared] at whole
    cases both : (Production.declarations (.ofText (front ++ back) [])).1 with
    | none => simp [both, nonempty] at whole
    | some all => rw [← whole, both, Option.getD_some]
  · rw [rendered, rendered, rendered, whole, ofFront, List.filterMap_append]

theorem rendered_append_commented :
    let front := "virtual int f(int a = 1);\n  // last\n".toList
    let back := "final; void g() const;".toList
    let before := "class A \x7b".toList
    ∃ found after,
      Production.declarations (.ofText front []) = (some found, after) ∧
      Token.significant (Token.lex after.remaining) = [] ∧
      Token.lex (front ++ back) = Token.lex front ++ Token.lex back ∧
      (∀ log, (Production.declarations (.ofText (front ++ back) log)).1 =
        some (found ++ Production.declared back)) ∧
      (found.length, (Production.declared back).length) = (1, 2) ∧
      (rendered .default "A".toList back).length = 1 ∧
      rendered .default "A".toList (front ++ back) =
        rendered .default "A".toList front ++ rendered .default "A".toList back ∧
      (ofSelection? .default (front ++ back) before []).1 =
        (enclosingClass before []).1.bind fun head =>
          assembled? .default (rendered .default head.name (front ++ back)) := by
  intro front back before
  have present : (Production.declarations (.ofText front [])).1.isSome = true := by decide +kernel
  obtain ⟨found, here⟩ := Option.isSome_iff_exists.mp present
  have read : Production.declarations (.ofText front []) =
      (some found, (Production.declarations (.ofText front [])).2) := by
    rw [← here]
  have trivial : Token.significant
      (Token.lex (Production.declarations (.ofText front [])).2.remaining) = [] := by decide +kernel
  have cut : Token.lex (front ++ back) = Token.lex front ++ Token.lex back := by decide +kernel
  have count : ((Production.declared front).length, (Production.declared back).length) = (1, 2) := by
    decide +kernel
  obtain ⟨declared, definitions, texts⟩ := rendered_append read trivial cut
  refine ⟨found, _, read, trivial, cut, declared, ?_, by decide +kernel, definitions .default _,
    texts _ _ before []⟩
  rwa [Production.declared_of_read read] at count

end Definition

end OutOfLine
