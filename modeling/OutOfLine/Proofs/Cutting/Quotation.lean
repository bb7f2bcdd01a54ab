import OutOfLine.Proofs.Relexing

/-!
Quotations. A quoted text is read from left to right in letters: a backslash with the character after
it, or any other character alone. A quotation ends with the first quote that is a letter by itself. If
there is none it goes on to the end of the text, but for a backslash there that has nothing to escape,
which is left over.
-/

namespace OutOfLine.Quotation

/-- A character of a quoted text, as it is or behind a backslash. -/
inductive Letter where
  | plain (c : Char)
  | escaped (c : Char)
deriving DecidableEq, Repr

def Letter.text : Letter → Text
  | .plain c => [c]
  | .escaped c => ['\\', c]

def spell (letters : List Letter) : Text :=
  letters.flatMap Letter.text

/-- The reading from left to right. Of backslashes only one that ends the text is a letter. -/
def letters : Text → List Letter
  | [] => []
  | '\\' :: c :: rest => .escaped c :: letters rest
  | c :: rest => .plain c :: letters rest

/-- The text breaks off behind a backslash that would escape the next character. -/
def EndsInEscape (text : Text) : Prop :=
  .plain '\\' ∈ letters text

@[simp]
theorem spell_nil : spell [] = [] :=
  rfl

@[simp]
theorem spell_cons (letter : Letter) (letters : List Letter) :
    spell (letter :: letters) = letter.text ++ spell letters :=
  rfl

@[simp]
theorem spell_letters (text : Text) : spell (letters text) = text := by
  fun_induction letters text <;> simp_all [Letter.text]

section

variable {quote c : Char} {read text rest : Text} {front back : List Letter}

theorem letters_cons (plain : c ≠ '\\') : letters (c :: rest) = .plain c :: letters rest := by
  rw [letters]
  intro d tail same
  contradiction

theorem quotationBody_of_closed (closed : letters text = front ++ .plain quote :: back)
    (first : .plain quote ∉ front) (noEscape : quote ≠ '\\') :
    Token.quotationBody quote read text =
      (read.reverse ++ spell (front ++ [.plain quote]), spell back) := by
  fun_induction Token.quotationBody quote read text generalizing front with
  | case1 => simp [letters] at closed
  | case2 read =>
      rcases List.cons_eq_append_iff.mp closed with ⟨_, other⟩ | ⟨front, rfl, inside⟩
      · simp [noEscape] at other
      · simp [letters] at inside
  | case3 read c tail ih =>
      rcases List.cons_eq_append_iff.mp closed with ⟨_, other⟩ | ⟨front, rfl, inside⟩
      · simp at other
      · rw [ih inside fun member => first (List.mem_cons_of_mem _ member)]
        simp [Letter.text]
  | case4 read tail notLast notEscape =>
      rw [letters_cons noEscape] at closed
      rcases List.cons_eq_append_iff.mp closed with ⟨rfl, here⟩ | ⟨front, rfl, _⟩
      · obtain ⟨_, rfl⟩ := List.cons.inj here
        simp [Letter.text]
      · simp at first
  | case5 read c tail notLast notEscape notQuote ih =>
      rw [letters_cons (Token.ne_backslash notLast notEscape)] at closed
      rcases List.cons_eq_append_iff.mp closed with ⟨_, other⟩ | ⟨front, rfl, inside⟩
      · exact absurd (Letter.plain.inj (List.cons.inj other).1).symm notQuote
      · rw [ih inside fun member => first (List.mem_cons_of_mem _ member)]
        simp [Letter.text]

/-- Without a quote of its own the quotation leaves at most a backslash at the end. -/
theorem quotationBody_of_open (unclosed : .plain quote ∉ letters text) :
    (¬ EndsInEscape text → Token.quotationBody quote read text = (read.reverse ++ text, [])) ∧
    (EndsInEscape text → ∃ body, text = body ++ ['\\'] ∧
      Token.quotationBody quote read text = (read.reverse ++ body, ['\\'])) := by
  fun_induction Token.quotationBody quote read text with
  | case1 => simp [EndsInEscape, letters]
  | case2 read => exact ⟨fun complete => absurd List.mem_cons_self complete, fun _ => ⟨[], rfl, by simp⟩⟩
  | case3 read c tail ih =>
      have same : EndsInEscape ('\\' :: c :: tail) ↔ EndsInEscape tail := by
        simp [EndsInEscape, letters]
      obtain ⟨complete, broken⟩ := ih fun member => unclosed (List.mem_cons_of_mem _ member)
      rw [same]
      refine ⟨fun ends => by simp [complete ends], fun ends => ?_⟩
      obtain ⟨body, rfl, left⟩ := broken ends
      exact ⟨'\\' :: c :: body, rfl, by simp [left]⟩
  | case4 read tail notLast notEscape =>
      rw [letters_cons (Token.ne_backslash notLast notEscape)] at unclosed
      simp at unclosed
  | case5 read c tail notLast notEscape notQuote ih =>
      have plain := Token.ne_backslash notLast notEscape
      have same : EndsInEscape (c :: tail) ↔ EndsInEscape tail := by
        simp [EndsInEscape, letters_cons plain, plain.symm]
      rw [letters_cons plain] at unclosed
      obtain ⟨complete, broken⟩ := ih fun member => unclosed (List.mem_cons_of_mem _ member)
      rw [same]
      refine ⟨fun ends => by simp [complete ends], fun ends => ?_⟩
      obtain ⟨body, rfl, left⟩ := broken ends
      exact ⟨c :: body, rfl, by simp [left]⟩

theorem cut?_quote (isQuote : quote = '\'' ∨ quote = '"') (rest : Text) :
    Token.cut? (quote :: rest) = some (⟨.quotation, quote :: (Token.quotationBody quote [] rest).1⟩,
      (Token.quotationBody quote [] rest).2) := by
  rcases isQuote with rfl | rfl <;> rfl

end

/-- A quotation reaches up to the first quote that no backslash escapes. Without one it is the whole
text, unless the text ends in the middle of an escape: then the backslash at the end is a token of its
own, of no known kind. -/
theorem cut?_first_unescaped {quote : Char} (isQuote : quote = '\'' ∨ quote = '"') (rest : Text) :
    (∀ front back, letters rest = front ++ .plain quote :: back → .plain quote ∉ front →
      Token.cut? (quote :: rest) =
        some (⟨.quotation, quote :: spell (front ++ [.plain quote])⟩, spell back)) ∧
    (.plain quote ∉ letters rest →
      (¬ EndsInEscape rest → Token.cut? (quote :: rest) = some (⟨.quotation, quote :: rest⟩, [])) ∧
      (EndsInEscape rest → ∃ body, rest = body ++ ['\\'] ∧
        Token.lex (quote :: rest) = [⟨.quotation, quote :: body⟩, ⟨.unknown, ['\\']⟩])) := by
  have noEscape : quote ≠ '\\' := by
    rcases isQuote with rfl | rfl <;> decide
  refine ⟨fun front back closed first => ?_, fun unclosed => ⟨fun complete => ?_, fun broken => ?_⟩⟩
  · rw [cut?_quote isQuote, quotationBody_of_closed closed first noEscape]
    rfl
  · rw [cut?_quote isQuote, (quotationBody_of_open unclosed).1 complete]
    rfl
  · obtain ⟨body, whole, left⟩ := (quotationBody_of_open unclosed).2 broken
    have backslash : Token.cut? ['\\'] = some (⟨.unknown, ['\\']⟩, []) := rfl
    refine ⟨body, whole, ?_⟩
    rw [Token.lex_of_cut (cut?_quote isQuote rest), left, Token.lex_of_cut backslash, Token.lex_nil]
    rfl

/-- Behind an escaped quote and an escaped backslash the text breaks off. -/
theorem cut?_first_unescaped_broken :
    ('"' = '\'' ∨ '"' = '"') ∧ .plain '"' ∉ letters "a\\\"b\\\\ \x7b\\".toList ∧
      EndsInEscape "a\\\"b\\\\ \x7b\\".toList ∧
      ∃ body, "a\\\"b\\\\ \x7b\\".toList = body ++ ['\\'] ∧
        Token.lex "\"a\\\"b\\\\ \x7b\\".toList = [⟨.quotation, '"' :: body⟩, ⟨.unknown, ['\\']⟩] := by
  have unclosed : .plain '"' ∉ letters "a\\\"b\\\\ \x7b\\".toList := by decide
  have broken : .plain '\\' ∈ letters "a\\\"b\\\\ \x7b\\".toList := by decide
  exact ⟨.inr rfl, unclosed, broken, ((cut?_first_unescaped (.inr rfl) _).2 unclosed).2 broken⟩

/-- An open quotation is not always the whole text. -/
theorem open_quotation_left_over :
    .plain '"' ∉ letters "\\".toList ∧
      Token.cut? "\"\\".toList = some (⟨.quotation, "\"".toList⟩, "\\".toList) ∧
      Token.cut? "\"\\".toList ≠ some (⟨.quotation, "\"\\".toList⟩, []) := by
  decide

end OutOfLine.Quotation
