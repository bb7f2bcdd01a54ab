import OutOfLine.Token.Lexer

namespace OutOfLine.Token

/-- The text of tokens that stand one after another. -/
def spell (tokens : List Token) : Text :=
  tokens.flatMap (·.text)

/-- The tokens that can decide what is recognised. -/
def significant (tokens : List Token) : List Token :=
  tokens.filter (!·.kind.isTrivia)

@[simp]
theorem spell_nil : spell [] = [] :=
  rfl

@[simp]
theorem spell_cons (first : Token) (tokens : List Token) :
    spell (first :: tokens) = first.text ++ spell tokens :=
  rfl

@[simp]
theorem spell_append (left right : List Token) : spell (left ++ right) = spell left ++ spell right :=
  List.flatMap_append

@[simp]
theorem significant_nil : significant [] = [] :=
  rfl

@[simp]
theorem significant_append (left right : List Token) :
    significant (left ++ right) = significant left ++ significant right :=
  List.filter_append ..

theorem significant_cons_trivia {first : Token} (trivia : first.kind.isTrivia = true)
    (tokens : List Token) : significant (first :: tokens) = significant tokens := by
  simp [significant, trivia]

theorem significant_cons {first : Token} (significant : first.kind.isTrivia = false)
    (tokens : List Token) : Token.significant (first :: tokens) = first :: Token.significant tokens := by
  simp [Token.significant, significant]

/-- Every text is empty or starts with a token. -/
@[elab_as_elim]
theorem cut_induction {motive : Text → Prop} (nil : motive [])
    (cut : ∀ text token rest, cut? text = some (token, rest) → motive rest → motive text)
    (text : Text) : motive text := by
  induction size : text.length using Nat.strongRecOn generalizing text with
  | ind size ih =>
      cases read : cut? text with
      | none =>
          rw [cut?_eq_none_iff.mp read]
          exact nil
      | some pair =>
          obtain ⟨token, rest⟩ := pair
          exact cut text token rest read (ih _ (size ▸ cut?_length_lt read) rest rfl)

theorem lexOnto_eq (read : List Token) (text : Text) :
    lexOnto read text = read.reverse ++ lex text := by
  induction text using cut_induction generalizing read with
  | nil => simp [lex, lexOnto, cut?]
  | cut text token rest cut ih =>
      have step : ∀ before, lexOnto before text = lexOnto (token :: before) rest := by
        intro before
        rw [lexOnto]
        split <;> simp_all
      have whole : lex text = token :: lex rest := by
        rw [lex, step, ih]
        rfl
      rw [step, ih, whole]
      simp

@[simp]
theorem lex_nil : lex [] = [] := by
  simp [lex, lexOnto, cut?]

theorem lex_of_cut {text rest : Text} {token : Token} (cut : cut? text = some (token, rest)) :
    lex text = token :: lex rest := by
  rw [lex, lexOnto]
  split
  · simp_all
  · simp_all [lexOnto_eq]

/-- The tokens of a text are the text. -/
@[simp]
theorem spell_lex (text : Text) : spell (lex text) = text := by
  induction text using cut_induction with
  | nil => simp
  | cut text token rest cut ih => rw [lex_of_cut cut, spell_cons, ih, cut?_append cut]

theorem lex_injective {text other : Text} (same : lex text = lex other) : text = other := by
  rw [← spell_lex text, same, spell_lex]

theorem cut_of_lex {text : Text} {token : Token} {tokens : List Token}
    (lexed : lex text = token :: tokens) :
    ∃ rest, cut? text = some (token, rest) ∧ lex rest = tokens := by
  cases cut : cut? text with
  | none => simp [cut?_eq_none_iff.mp cut] at lexed
  | some pair =>
      obtain ⟨first, rest⟩ := pair
      rw [lex_of_cut cut, List.cons.injEq] at lexed
      obtain ⟨rfl, rfl⟩ := lexed
      exact ⟨rest, rfl, rfl⟩

theorem lex_eq_nil_iff {text : Text} : lex text = [] ↔ text = [] := by
  constructor
  · intro none
    simpa [none] using (spell_lex text).symm
  · rintro rfl
    exact lex_nil

theorem length_lex_le (text : Text) : (lex text).length ≤ text.length := by
  induction text using cut_induction with
  | nil => simp
  | cut text token rest cut ih =>
      rw [lex_of_cut cut, List.length_cons]
      exact Nat.lt_of_le_of_lt ih (cut?_length_lt cut)

/-- A token as the lexer cuts it before some text. -/
def Genuine (token : Token) : Prop :=
  ∃ rest, cut? (token.text ++ rest) = some (token, rest)

theorem genuine_of_cut {text rest : Text} {token : Token} (cut : cut? text = some (token, rest)) :
    Genuine token :=
  ⟨rest, by rwa [cut?_append cut]⟩

theorem genuine_of_mem_lex {text : Text} {token : Token} (member : token ∈ lex text) :
    Genuine token := by
  induction text using cut_induction with
  | nil => simp at member
  | cut text first rest cut ih =>
      rw [lex_of_cut cut] at member
      rcases List.mem_cons.mp member with rfl | member
      · exact genuine_of_cut cut
      · exact ih member

end OutOfLine.Token
