import OutOfLine.Proofs.Reading.Declaration

namespace OutOfLine

namespace Token

/-- In front of whatever lengthens no word, the text stands for the tokens. -/
def Denotes (text : Text) (tokens : List Token) : Prop :=
  ∀ follow, Apart follow → significant (lex (text ++ follow)) = tokens ++ significant (lex follow)

theorem Settled.denotes {text : Text} {tokens : List Token} (settled : Settled text tokens) :
    Denotes text (significant tokens) := by
  intro follow apart
  rw [settled follow apart, significant_append]

theorem Denotes.eq {text : Text} {tokens : List Token} (denotes : Denotes text tokens) :
    significant (lex text) = tokens := by
  simpa using denotes [] apart_nil

theorem denotes_nil : Denotes [] [] :=
  fun _ _ => rfl

theorem significant_lex_dropSpace (text : Text) :
    significant (lex (text.dropWhile isSpace)) = significant (lex text) := by
  cases text with
  | nil => rfl
  | cons c text =>
      cases space : isSpace c with
      | false => rw [List.dropWhile_cons_of_neg (by simp [space])]
      | true =>
          rw [List.dropWhile_cons_of_pos space, lex_of_cut (cut_space space text),
            significant_cons_trivia rfl]

theorem significant_lex_space (text : Text) :
    significant (lex (' ' :: text)) = significant (lex text) := by
  rw [← significant_lex_dropSpace (' ' :: text), ← significant_lex_dropSpace text]
  rfl

/-- A mark stands for itself in front of any text. -/
theorem significant_lex_mark {kind : Kind} {mark : Text} (marked : kind.mark? = some mark)
    (alone : kind ≠ .colon) (follow : Text) :
    significant (lex (mark ++ follow)) = ⟨kind, mark⟩ :: significant (lex follow) := by
  have visible : kind.isTrivia = false := by
    cases kind <;> simp_all [Kind.mark?, Kind.isTrivia]
  rw [lex_of_cut (cut_mark marked alone follow), significant_cons visible]

theorem Denotes.space {left right : Text} {leftTokens rightTokens : List Token}
    (leftDenotes : Denotes left leftTokens) (rightDenotes : Denotes right rightTokens) :
    Denotes (left ++ ' ' :: right) (leftTokens ++ rightTokens) := by
  intro follow apart
  rw [List.append_assoc, List.cons_append, leftDenotes _ (apart_cons (by decide) _),
    significant_lex_space, rightDenotes follow apart, List.append_assoc]

/-- A text, a mark behind it and another text. -/
theorem Denotes.mark {left right : Text} {leftTokens rightTokens : List Token}
    (leftDenotes : Denotes left leftTokens) {kind : Kind} {mark : Text}
    (marked : kind.mark? = some mark) (alone : kind ≠ .colon)
    (rightDenotes : Denotes right rightTokens) :
    Denotes (left ++ (mark ++ right)) (leftTokens ++ ⟨kind, mark⟩ :: rightTokens) := by
  intro follow apart
  rw [List.append_assoc, List.append_assoc, leftDenotes _ (Reading.apart_of_mark marked _),
    significant_lex_mark marked alone, rightDenotes follow apart, List.append_assoc]
  rfl

theorem denotes_joinSpace {texts : List Text} {parts : List (List Token)}
    (denoted : List.Forall₂ Denotes texts parts) : Denotes (Text.join [' '] texts) parts.flatten := by
  induction denoted with
  | nil => exact denotes_nil
  | @cons text tokens texts parts first others ih =>
      cases others with
      | nil => simpa [Text.join] using first
      | cons _ _ =>
          have joined := first.space ih
          simpa [Text.join, List.intercalate] using joined

theorem denotes_joinComma {texts : List Text} {parts : List (List Token)}
    (denoted : List.Forall₂ Denotes texts parts) :
    Denotes (Text.join [',', ' '] texts) (List.intercalate [⟨.comma, [',']⟩] parts) := by
  induction denoted with
  | nil => exact denotes_nil
  | @cons text tokens texts parts first others ih =>
      cases others with
      | nil => simpa [Text.join, List.intercalate] using first
      | cons _ _ =>
          have spaced := denotes_nil.space ih
          have comma : Kind.comma.mark? = some [','] := rfl
          have joined := first.mark comma (by decide) spaced
          simpa [Text.join, List.intercalate] using joined

end Token

theorem Phrase.SpellsParameter.denotes {text : Text} {phrases : List Phrase}
    (spells : SpellsParameter text phrases) :
    Token.Denotes text (Phrase.significant phrases) := by
  obtain ⟨words, spelled, rfl⟩ := spells
  rw [Phrase.significant, List.flatMap_def]
  refine Token.denotes_joinSpace (List.forall₂_map_right_iff.mpr ?_)
  exact spelled.imp fun _ _ settled => Token.Settled.denotes settled

end OutOfLine
