import OutOfLine.Proofs.Relexing
import OutOfLine.Tokenizer

namespace OutOfLine

namespace Tokenizer

theorem next_eq (tokenizer : Tokenizer) :
    match Token.cut? tokenizer.remaining with
    | none => tokenizer.next.1 = none
    | some (token, rest) => tokenizer.next.1 = some token ∧ tokenizer.next.2.remaining = rest := by
  simp only [next, Cursor.next, remaining]
  rcases Token.cut? tokenizer.cursor.remaining with _ | ⟨token, rest⟩
  · rfl
  · exact ⟨rfl, rfl⟩

theorem next_shorter {tokenizer after : Tokenizer} {token : Token}
    (read : tokenizer.next = (some token, after)) :
    after.remaining.length < tokenizer.remaining.length := by
  have step := next_eq tokenizer
  cases cut : Token.cut? tokenizer.remaining with
  | none => simp [cut, read] at step
  | some pair =>
      obtain ⟨first, rest⟩ := pair
      simp only [cut, read] at step
      rw [step.2]
      exact Token.cut?_length_lt cut

/-- The tokens that are read until nothing remains. -/
def tokens (tokenizer : Tokenizer) : List Token :=
  match _read : tokenizer.next with
  | (none, _) => []
  | (some token, after) => token :: tokens after
termination_by tokenizer.remaining.length
decreasing_by exact next_shorter _read

theorem tokens_eq_lex (tokenizer : Tokenizer) :
    tokenizer.tokens = Token.lex tokenizer.remaining := by
  fun_induction tokens tokenizer with
  | case1 tokenizer after read =>
      have ended : tokenizer.next.1 = none := by rw [read]
      rw [(next_of_none ended).2, Token.lex_nil]
  | case2 tokenizer token after read ih =>
      have step := next_eq tokenizer
      cases cut : Token.cut? tokenizer.remaining with
      | none => simp [cut, read] at step
      | some pair =>
          obtain ⟨first, rest⟩ := pair
          simp only [cut, read, Option.some.injEq] at step
          obtain ⟨rfl, rfl⟩ := step
          rw [Token.lex_of_cut cut, ih]

end Tokenizer

namespace Token

theorem text_ne_nil_of_genuine {token : Token} (genuine : Genuine token) : token.text ≠ [] := by
  obtain ⟨rest, cut⟩ := genuine
  exact cut?_text_ne_nil cut

/-- The first tokens of a text are those of the text without what comes after them. -/
theorem lex_spell_front {text : Text} {front back : List Token} (lexed : lex text = front ++ back) :
    lex (spell front) = front := by
  induction front generalizing text with
  | nil => exact lex_nil
  | cons first front ih =>
      rw [List.cons_append] at lexed
      obtain ⟨rest, cut, later⟩ := cut_of_lex lexed
      have split : rest = spell front ++ spell back := by
        rw [← spell_lex rest, later, spell_append]
      have here : cut? (first.text ++ rest) = some (first, rest) := by
        rw [cut?_append cut, cut]
      rw [split] at here
      have alone := cut?_replace here (.front (spell front) (spell back))
      rw [spell_cons, lex_of_cut alone, ih later]

/-- The last tokens of a text are those of the text from there on. -/
theorem lex_spell_back {text : Text} {front back : List Token} (lexed : lex text = front ++ back) :
    lex (spell back) = back := by
  induction front generalizing text with
  | nil =>
      obtain rfl : lex text = back := lexed
      rw [spell_lex]
  | cons first front ih =>
      obtain ⟨rest, _, later⟩ := cut_of_lex lexed
      exact ih later

theorem lex_spell_run {text : Text} {run : List Token} (among : run <:+: lex text) :
    lex (spell run) = run := by
  obtain ⟨front, back, whole⟩ := among
  rw [List.append_assoc] at whole
  exact lex_spell_front (lex_spell_back whole.symm)

end Token

/-- Reading a text to its end loses nothing, and the tokens from one place to another are again the
tokens of the text that they make up. -/
theorem Tokenizer.tokens_of_piece (text : Text) :
    (∀ token ∈ (Tokenizer.ofText text).tokens, token.text ≠ []) ∧
    Token.spell (Tokenizer.ofText text).tokens = text ∧
    ∀ start stop,
      (Tokenizer.ofText (Token.spell (((Tokenizer.ofText text).tokens.take stop).drop start))).tokens =
        ((Tokenizer.ofText text).tokens.take stop).drop start := by
  have fresh : ∀ text, (Tokenizer.ofText text).tokens = Token.lex text :=
    fun text => tokens_eq_lex (.ofText text)
  simp only [fresh]
  refine ⟨fun token member => ?_, Token.spell_lex text, fun start stop => ?_⟩
  · exact Token.text_ne_nil_of_genuine (Token.genuine_of_mem_lex member)
  · apply Token.lex_spell_run
    exact (List.drop_suffix start _).isInfix.trans (List.take_prefix stop _).isInfix

end OutOfLine
