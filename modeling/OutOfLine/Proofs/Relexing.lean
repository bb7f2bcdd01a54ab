import OutOfLine.Proofs.Lexing

/-!
Pieces of text that keep their tokens in another place. A token ends where it did as long as the
character after it stays; a word ends before anything that is not a word character, and the marks
other than `:` and `/` end by themselves.
-/

namespace OutOfLine.Token

/-- Reading on while `accepts` holds ends before such a text. -/
def Stops (accepts : Char → Bool) (text : Text) : Prop :=
  ∀ c ∈ text.head?, accepts c = false

theorem stops_append {accepts : Char → Bool} {text rest : Text} (stops : Stops accepts (text ++ rest))
    (more : text ≠ []) (other : Text) : Stops accepts (text ++ other) := by
  cases text with
  | nil => contradiction
  | cons c text => simpa [Stops] using stops

theorem takeWhile_of_stops {accepts : Char → Bool} {run rest : Text} (all : ∀ c ∈ run, accepts c)
    (stops : Stops accepts rest) : (run ++ rest).takeWhile accepts = run := by
  rw [List.takeWhile_append_of_pos all]
  cases rest with
  | nil => simp
  | cons c rest => simp [show accepts c = false by simpa [Stops] using stops]

theorem dropWhile_of_stops {accepts : Char → Bool} {run rest : Text} (all : ∀ c ∈ run, accepts c)
    (stops : Stops accepts rest) : (run ++ rest).dropWhile accepts = rest := by
  rw [List.dropWhile_append_of_pos all]
  cases rest with
  | nil => simp
  | cons c rest => simp [show accepts c = false by simpa [Stops] using stops]

theorem stops_dropWhile (accepts : Char → Bool) (text : Text) :
    Stops accepts (text.dropWhile accepts) := by
  intro c first
  have fails := List.head?_dropWhile_not accepts text
  rw [Option.mem_def.mp first] at fails
  simpa using fails

theorem all_takeWhile (accepts : Char → Bool) (text : Text) :
    ∀ c ∈ text.takeWhile accepts, accepts c := by
  intro c member
  exact List.all_eq_true.mp List.all_takeWhile c member

/-- What may stand after a token in place of what stands there: it begins alike or is empty, and of
the lone backslash that an open quotation leaves over nothing changes but that it may go. -/
structure Replaces (rest other : Text) : Prop where
  first : ∀ c ∈ other.head?, c ∈ rest.head?
  escape : rest = ['\\'] → other = [] ∨ other = ['\\']

namespace Replaces

theorem eq_nil {other : Text} (replaces : Replaces [] other) : other = [] := by
  cases other with
  | nil => rfl
  | cons c other => exact absurd (replaces.first c rfl) (by simp)

theorem stops {accepts : Char → Bool} {rest other : Text} (replaces : Replaces rest other)
    (stops : Stops accepts rest) : Stops accepts other :=
  fun c first => stops c (replaces.first c first)

/-- What comes later may change. -/
theorem append {next : Text} (more : next ≠ []) (noEscape : next ≠ ['\\']) (rest other : Text) :
    Replaces (next ++ rest) (next ++ other) := by
  cases next with
  | nil => contradiction
  | cons c next => exact ⟨by simp, by simp_all⟩

/-- What comes later may go. -/
theorem front (next rest : Text) : Replaces (next ++ rest) next := by
  cases next with
  | nil => exact ⟨by simp, fun _ => .inl rfl⟩
  | cons c next => exact ⟨by simp, by simp_all⟩

end Replaces

theorem run_replace {accepts : Char → Bool} {run rest other : Text}
    (taken : (run ++ rest).takeWhile accepts = run) (dropped : (run ++ rest).dropWhile accepts = rest)
    (replaces : Replaces rest other) :
    (run ++ other).takeWhile accepts = run ∧ (run ++ other).dropWhile accepts = other := by
  have all := all_takeWhile accepts (run ++ rest)
  have stops := stops_dropWhile accepts (run ++ rest)
  rw [taken] at all
  rw [dropped] at stops
  have here := replaces.stops stops
  exact ⟨takeWhile_of_stops all here, dropWhile_of_stops all here⟩

/-- A line that is followed by something has its end. -/
theorem lineBody_replace {text body rest : Text} (read : lineBody text = (body, rest))
    (more : rest ≠ []) (other : Text) : lineBody (body ++ other) = (body, other) := by
  have all := all_takeWhile (· ≠ '\n') text
  have stops := stops_dropWhile (· ≠ '\n') text
  unfold lineBody at read
  split at read
  · simp_all
  · rename_i c after dropped
    simp only [Prod.mk.injEq] at read
    obtain ⟨whole, rfl⟩ := read
    rw [dropped] at stops
    have here : Stops (· ≠ '\n') (c :: other) := by simpa [Stops] using stops
    rw [← whole, List.append_assoc, List.singleton_append]
    unfold lineBody
    rw [takeWhile_of_stops all here, dropWhile_of_stops all here]

theorem commentBody_replace {depth : Nat} {read text body rest : Text}
    (ended : commentBody depth read text = (body, rest)) (more : rest ≠ []) :
    ∃ front, front ≠ [] ∧ text = front ++ rest ∧
      ∀ other, commentBody depth read (front ++ other) = (body, other) := by
  fun_induction commentBody depth read text with
  | case1 => simp_all
  | case2 depth read tail ih =>
      obtain ⟨front, _, rfl, same⟩ := ih ended
      exact ⟨'/' :: '*' :: front, by simp, rfl, fun other => by simpa [commentBody] using same other⟩
  | case3 read tail =>
      simp only [Prod.mk.injEq] at ended
      obtain ⟨rfl, rfl⟩ := ended
      exact ⟨['*', '/'], by simp, rfl, fun other => by simp [commentBody]⟩
  | case4 read tail depth ih =>
      obtain ⟨front, _, rfl, same⟩ := ih ended
      exact ⟨'*' :: '/' :: front, by simp, rfl, fun other => by simpa [commentBody] using same other⟩
  | case5 depth read c tail notOpener notCloser ih =>
      obtain ⟨front, nonempty, rfl, same⟩ := ih ended
      refine ⟨c :: front, by simp, rfl, fun other => ?_⟩
      cases front with
      | nil => contradiction
      | cons d front =>
          rw [List.cons_append, commentBody]
          · exact same other
          · rintro after rfl inner
            simp only [List.cons_append, List.cons.injEq] at inner
            exact notOpener (front ++ rest) rfl (by simp [inner.1])
          · rintro after rfl inner
            simp only [List.cons_append, List.cons.injEq] at inner
            exact notCloser (front ++ rest) rfl (by simp [inner.1])

theorem quotationBody_cons {quote c : Char} (plain : c ≠ '\\') (read rest : Text) :
    quotationBody quote read (c :: rest) =
      if c = quote then ((c :: read).reverse, rest) else quotationBody quote (c :: read) rest := by
  rw [quotationBody]
  · intro same
    contradiction
  · intro d tail same
    contradiction

/-- What is read by itself in a quotation is no backslash. -/
theorem ne_backslash {c : Char} {tail : Text} (notLast : c = '\\' → tail = [] → False)
    (notEscape : ∀ d rest, c = '\\' → tail = d :: rest → False) : c ≠ '\\' := by
  rintro rfl
  cases tail with
  | nil => exact notLast rfl rfl
  | cons d tail => exact notEscape d tail rfl rfl

theorem quotationBody_replace {quote : Char} {read text body rest : Text}
    (ended : quotationBody quote read text = (body, rest)) :
    ∃ front, text = front ++ rest ∧
      ∀ other, Replaces rest other → quotationBody quote read (front ++ other) = (body, other) := by
  fun_induction quotationBody quote read text with
  | case1 read =>
      obtain ⟨rfl, rfl⟩ := Prod.mk.inj ended
      refine ⟨[], rfl, fun other replaces => ?_⟩
      rw [replaces.eq_nil]
      rfl
  | case2 read =>
      obtain ⟨rfl, rfl⟩ := Prod.mk.inj ended
      refine ⟨[], rfl, fun other replaces => ?_⟩
      rcases replaces.escape rfl with rfl | rfl
      · rfl
      · rfl
  | case3 read c tail ih =>
      obtain ⟨front, rfl, same⟩ := ih ended
      exact ⟨'\\' :: c :: front, rfl, fun other replaces => by
        simpa [quotationBody] using same other replaces⟩
  | case4 read tail notLast notEscape =>
      have plain := ne_backslash notLast notEscape
      simp only [Prod.mk.injEq] at ended
      obtain ⟨rfl, rfl⟩ := ended
      exact ⟨[quote], rfl, fun other _ => by simp [quotationBody_cons plain]⟩
  | case5 read c tail notLast notEscape notQuote ih =>
      have plain := ne_backslash notLast notEscape
      obtain ⟨front, rfl, same⟩ := ih ended
      refine ⟨c :: front, rfl, fun other replaces => ?_⟩
      rw [List.cons_append, quotationBody_cons plain, if_neg notQuote, same other replaces]

section Cut

variable {c : Char} {kind : Kind} {text tail rest other : Text}

theorem cutFrom_of_space (space : isSpace c = true) (rest : Text) :
    cutFrom c rest = (⟨.whitespace, c :: rest.takeWhile isSpace⟩, rest.dropWhile isSpace) := by
  simp [cutFrom, space]

theorem cutFrom_of_wordChar (notSpace : isSpace c = false) (wordChar : isWordChar c = true)
    (rest : Text) :
    cutFrom c rest = (⟨wordKind (c :: rest.takeWhile isWordChar), c :: rest.takeWhile isWordChar⟩,
      rest.dropWhile isWordChar) := by
  simp [cutFrom, notSpace, wordChar]

theorem cutFrom_directive (rest : Text) :
    cutFrom '#' rest = (⟨.comment, '#' :: (lineBody rest).1⟩, (lineBody rest).2) :=
  rfl

theorem cutFrom_of_quote (quote : c = '\'' ∨ c = '"') (rest : Text) :
    cutFrom c rest = (⟨.quotation, c :: (quotationBody c [] rest).1⟩, (quotationBody c [] rest).2) := by
  rcases quote with rfl | rfl <;> rfl

theorem cutFrom_line (rest : Text) :
    cutFrom '/' ('/' :: rest) = (⟨.comment, '/' :: '/' :: (lineBody rest).1⟩, (lineBody rest).2) :=
  rfl

theorem cutFrom_block (rest : Text) :
    cutFrom '/' ('*' :: rest) =
      (⟨.comment, '/' :: '*' :: (commentBody 0 [] rest).1⟩, (commentBody 0 [] rest).2) :=
  rfl

theorem cutFrom_colons (rest : Text) : cutFrom ':' (':' :: rest) = (⟨.doubleColon, [':', ':']⟩, rest) :=
  rfl

/-- A character that begins no run, no directive and no quotation. -/
structure Punctuates (c : Char) : Prop where
  noSpace : isSpace c = false
  noWord : isWordChar c = false
  noDirective : c ≠ '#'
  noQuote : ¬ (c = '\'' ∨ c = '"')

/-- Two characters that begin a token together. -/
def Pairs (c d : Char) : Prop :=
  c = '/' ∧ (d = '/' ∨ d = '*') ∨ c = ':' ∧ d = ':'

theorem cutFrom_of_lone (punctuates : Punctuates c) (lone : ∀ d ∈ rest.head?, ¬ Pairs c d) :
    cutFrom c rest = (⟨punctuationKind c, [c]⟩, rest) := by
  obtain ⟨noSpace, noWord, noDirective, noQuote⟩ := punctuates
  simp only [cutFrom, noSpace, noWord, noDirective, noQuote, Bool.false_eq_true, if_false,
    Bool.or_eq_true, decide_eq_true_eq]
  split
  · exact absurd (.inl ⟨rfl, .inl rfl⟩) (lone '/' rfl)
  · exact absurd (.inl ⟨rfl, .inr rfl⟩) (lone '*' rfl)
  · exact absurd (.inr ⟨rfl, rfl⟩) (lone ':' rfl)
  · rfl

theorem space_replace (space : isSpace c = true)
    (cut : cutFrom c (tail ++ rest) = (⟨kind, c :: tail⟩, rest)) (replaces : Replaces rest other) :
    cutFrom c (tail ++ other) = (⟨kind, c :: tail⟩, other) := by
  simp only [cutFrom_of_space space, Prod.mk.injEq, Token.mk.injEq, List.cons.injEq, true_and] at cut
  obtain ⟨⟨rfl, taken⟩, dropped⟩ := cut
  obtain ⟨takenAlso, droppedAlso⟩ := run_replace taken dropped replaces
  rw [cutFrom_of_space space, takenAlso, droppedAlso]

theorem word_replace (notSpace : isSpace c = false) (wordChar : isWordChar c = true)
    (cut : cutFrom c (tail ++ rest) = (⟨kind, c :: tail⟩, rest)) (replaces : Replaces rest other) :
    cutFrom c (tail ++ other) = (⟨kind, c :: tail⟩, other) := by
  simp only [cutFrom_of_wordChar notSpace wordChar, Prod.mk.injEq, Token.mk.injEq, List.cons.injEq,
    true_and] at cut
  obtain ⟨⟨kinds, taken⟩, dropped⟩ := cut
  obtain ⟨takenAlso, droppedAlso⟩ := run_replace taken dropped replaces
  rw [taken] at kinds
  rw [cutFrom_of_wordChar notSpace wordChar, takenAlso, droppedAlso, kinds]

theorem directive_replace (cut : cutFrom '#' text = (⟨kind, '#' :: tail⟩, rest)) (more : rest ≠ [])
    (other : Text) : cutFrom '#' (tail ++ other) = (⟨kind, '#' :: tail⟩, other) := by
  simp only [cutFrom_directive, Prod.mk.injEq, Token.mk.injEq, List.cons.injEq, true_and] at cut
  obtain ⟨⟨rfl, rfl⟩, rfl⟩ := cut
  rw [cutFrom_directive, lineBody_replace (Prod.eta (lineBody text)).symm more]

theorem line_replace (cut : cutFrom '/' ('/' :: text) = (⟨kind, '/' :: tail⟩, rest)) (more : rest ≠ [])
    (other : Text) : cutFrom '/' (tail ++ other) = (⟨kind, '/' :: tail⟩, other) := by
  simp only [cutFrom_line, Prod.mk.injEq, Token.mk.injEq, List.cons.injEq, true_and] at cut
  obtain ⟨⟨rfl, rfl⟩, rfl⟩ := cut
  rw [List.cons_append, cutFrom_line, lineBody_replace (Prod.eta (lineBody text)).symm more]

theorem block_replace (cut : cutFrom '/' ('*' :: text) = (⟨kind, '/' :: tail⟩, rest)) (more : rest ≠ [])
    (other : Text) : cutFrom '/' (tail ++ other) = (⟨kind, '/' :: tail⟩, other) := by
  simp only [cutFrom_block, Prod.mk.injEq, Token.mk.injEq, List.cons.injEq, true_and] at cut
  obtain ⟨⟨rfl, rfl⟩, rfl⟩ := cut
  obtain ⟨front, _, whole, same⟩ := commentBody_replace (Prod.eta (commentBody 0 [] text)).symm more
  have inner : (commentBody 0 [] text).1 = front :=
    List.append_cancel_right ((commentBody_append 0 [] text).trans whole)
  rw [inner] at same ⊢
  rw [List.cons_append, cutFrom_block, same]

theorem colons_replace (cut : cutFrom ':' (':' :: text) = (⟨kind, ':' :: tail⟩, rest)) (other : Text) :
    cutFrom ':' (tail ++ other) = (⟨kind, ':' :: tail⟩, other) := by
  simp only [cutFrom_colons, Prod.mk.injEq, Token.mk.injEq, List.cons.injEq, true_and] at cut
  obtain ⟨⟨rfl, rfl⟩, rfl⟩ := cut
  exact cutFrom_colons other

theorem quotation_replace (quote : c = '\'' ∨ c = '"')
    (cut : cutFrom c text = (⟨kind, c :: tail⟩, rest)) (replaces : Replaces rest other) :
    cutFrom c (tail ++ other) = (⟨kind, c :: tail⟩, other) := by
  simp only [cutFrom_of_quote quote, Prod.mk.injEq, Token.mk.injEq, List.cons.injEq, true_and] at cut
  obtain ⟨⟨rfl, rfl⟩, rfl⟩ := cut
  obtain ⟨front, whole, same⟩ := quotationBody_replace (Prod.eta (quotationBody c [] text)).symm
  have inner : (quotationBody c [] text).1 = front :=
    List.append_cancel_right ((quotationBody_append c [] text).trans whole)
  rw [inner] at same ⊢
  rw [cutFrom_of_quote quote, same other replaces]

theorem mark_replace (punctuates : Punctuates c) (lone : ∀ d ∈ (tail ++ rest).head?, ¬ Pairs c d)
    (cut : cutFrom c (tail ++ rest) = (⟨kind, c :: tail⟩, rest)) (replaces : Replaces rest other) :
    cutFrom c (tail ++ other) = (⟨kind, c :: tail⟩, other) := by
  simp only [cutFrom_of_lone punctuates lone, Prod.mk.injEq, Token.mk.injEq, List.cons.injEq,
    true_and] at cut
  obtain ⟨⟨rfl, rfl⟩, _⟩ := cut
  exact cutFrom_of_lone punctuates fun d first => lone d (replaces.first d first)

theorem cutFrom_replace (cut : cutFrom c (tail ++ rest) = (⟨kind, c :: tail⟩, rest))
    (more : rest ≠ []) (replaces : Replaces rest other) :
    cutFrom c (tail ++ other) = (⟨kind, c :: tail⟩, other) := by
  cases space : isSpace c with
  | true => exact space_replace space cut replaces
  | false =>
      cases word : isWordChar c with
      | true => exact word_replace space word cut replaces
      | false =>
          by_cases directive : c = '#'
          · subst directive
            exact directive_replace cut more other
          by_cases quote : c = '\'' ∨ c = '"'
          · exact quotation_replace quote cut replaces
          by_cases pairs : ∃ d text, tail ++ rest = d :: text ∧ Pairs c d
          · obtain ⟨d, text, split, pairs⟩ := pairs
            rw [split] at cut
            rcases pairs with ⟨rfl, rfl | rfl⟩ | ⟨rfl, rfl⟩
            · exact line_replace cut more other
            · exact block_replace cut more other
            · exact colons_replace cut other
          · refine mark_replace ⟨space, word, directive, quote⟩ (fun d first pair => ?_) cut replaces
            obtain ⟨text, split⟩ := List.head?_eq_some_iff.mp first
            exact pairs ⟨d, text, split, pair⟩

end Cut

/-- A token is cut alike before whatever may replace what follows it. -/
theorem cut?_replace {token : Token} {rest other : Text}
    (cut : cut? (token.text ++ rest) = some (token, rest)) (replaces : Replaces rest other) :
    cut? (token.text ++ other) = some (token, other) := by
  by_cases more : rest = []
  · subst more
    rwa [replaces.eq_nil]
  obtain ⟨kind, text⟩ := token
  obtain ⟨c, tail, rfl⟩ := List.exists_cons_of_ne_nil (cut?_text_ne_nil cut)
  simp only [List.cons_append, cut?, Option.some.injEq] at cut ⊢
  exact cutFrom_replace cut more replaces

/-- The only way a mark is written. Words, quotations and trivia have many. -/
def Kind.mark? : Kind → Option Text
  | .openParen => some ['(']
  | .closeParen => some [')']
  | .openBrace => some ['\x7b']
  | .closeBrace => some ['\x7d']
  | .openBracket => some ['[']
  | .closeBracket => some [']']
  | .semicolon => some [';']
  | .doubleColon => some [':', ':']
  | .colon => some [':']
  | .less => some ['<']
  | .greater => some ['>']
  | .comma => some [',']
  | .tilde => some ['~']
  | .star => some ['*']
  | .ampersand => some ['&']
  | .equal => some ['=']
  | _ => none

theorem mark_punctuationKind {c : Char} {mark : Text}
    (marked : (punctuationKind c).mark? = some mark) : mark = [c] := by
  unfold punctuationKind at marked
  split at marked <;> simp_all [Kind.mark?]

theorem mark_wordKind (word : Text) : (wordKind word).mark? = none := by
  unfold wordKind
  split
  · rfl
  split <;> rfl

theorem cutFrom_mark (c : Char) (rest : Text) {mark : Text} :
    (cutFrom c rest).1.kind.mark? = some mark → (cutFrom c rest).1.text = mark := by
  unfold cutFrom
  split
  · simp [Kind.mark?]
  split
  · simp [mark_wordKind]
  split
  · simp [Kind.mark?]
  split
  · simp [Kind.mark?]
  split
  · simp [Kind.mark?]
  · simp [Kind.mark?]
  · simp [Kind.mark?]
  · exact fun marked => (mark_punctuationKind marked).symm

theorem text_of_mark {token : Token} (genuine : Genuine token) {mark : Text}
    (marked : token.kind.mark? = some mark) : token.text = mark := by
  obtain ⟨rest, cut⟩ := genuine
  obtain ⟨c, tail, spelled⟩ := List.exists_cons_of_ne_nil (cut?_text_ne_nil cut)
  rw [spelled, List.cons_append, cut?, Option.some.injEq] at cut
  have same := @cutFrom_mark c (tail ++ rest) mark
  rw [cut] at same
  exact same marked

theorem wordChar_of_word (c : Char) (rest : Text) :
    (cutFrom c rest).1.kind = .word → isSpace c = false ∧ isWordChar c = true := by
  unfold cutFrom
  split
  · simp
  split
  · simp_all
  split
  · simp
  split
  · simp
  split
  · simp
  · simp
  · simp
  · unfold punctuationKind
    split <;> simp

/-- A text that cannot lengthen a word before it. -/
def Apart (text : Text) : Prop :=
  Stops isWordChar text

/-- A word is a run of word characters, the first of which is no blank. -/
theorem text_of_word {token : Token} (genuine : Genuine token) (word : token.kind = .word) :
    ∃ c tail, token.text = c :: tail ∧ isSpace c = false ∧ isWordChar c = true ∧
      (∀ d ∈ tail, isWordChar d) ∧ wordKind (c :: tail) = token.kind := by
  obtain ⟨rest, cut⟩ := genuine
  obtain ⟨kind, text⟩ := token
  obtain ⟨c, tail, rfl⟩ := List.exists_cons_of_ne_nil (cut?_text_ne_nil cut)
  simp only [List.cons_append, cut?, Option.some.injEq] at cut word ⊢
  obtain ⟨notSpace, wordChar⟩ := wordChar_of_word c (tail ++ rest) (by rw [cut]; exact word)
  rw [cutFrom_of_wordChar notSpace wordChar] at cut
  have run : (tail ++ rest).takeWhile isWordChar = tail := by simp_all
  have all := all_takeWhile isWordChar (tail ++ rest)
  rw [run] at cut all
  exact ⟨c, tail, rfl, notSpace, wordChar, all, congrArg (·.1.kind) cut⟩

/-- A word ends before anything but a word character. -/
theorem cut_word {token : Token} (genuine : Genuine token) (word : token.kind = .word)
    {follow : Text} (apart : Apart follow) :
    cut? (token.text ++ follow) = some (token, follow) := by
  obtain ⟨c, tail, text, notSpace, wordChar, all, kind⟩ := text_of_word genuine word
  have whole : token = ⟨token.kind, c :: tail⟩ := by rw [← text]
  rw [text, List.cons_append, cut?, cutFrom_of_wordChar notSpace wordChar,
    takeWhile_of_stops all apart, dropWhile_of_stops all apart, kind, ← whole]

/-- A mark other than a single colon ends by itself. -/
theorem cut_mark {kind : Kind} {mark : Text} (marked : kind.mark? = some mark)
    (alone : kind ≠ .colon) (follow : Text) : cut? (mark ++ follow) = some (⟨kind, mark⟩, follow) := by
  cases kind <;> simp only [Kind.mark?, Option.some.injEq, reduceCtorEq] at marked <;>
    subst marked <;> first | contradiction | rfl

/-- White space is cut as far as it goes. -/
theorem cut_space {c : Char} (space : isSpace c = true) (text : Text) :
    cut? (c :: text) = some (⟨.whitespace, c :: text.takeWhile isSpace⟩, text.dropWhile isSpace) := by
  rw [cut?, cutFrom_of_space space]

/-- A space stands for itself unless more white space follows. -/
theorem lex_space {text : Text} {first : Token} {tokens : List Token} (lexed : lex text = first :: tokens)
    (visible : first.kind.isTrivia = false) : lex (' ' :: text) = ⟨.whitespace, [' ']⟩ :: lex text := by
  have stops : text.takeWhile isSpace = [] ∧ text.dropWhile isSpace = text := by
    cases text with
    | nil => exact ⟨rfl, rfl⟩
    | cons c text =>
        cases space : isSpace c with
        | false => simp [space]
        | true =>
            rw [lex_of_cut (cut_space space text)] at lexed
            obtain ⟨rfl, _⟩ := List.cons.inj lexed
            contradiction
  have blank : isSpace ' ' = true := rfl
  have cut := cut_space blank text
  rw [stops.1, stops.2] at cut
  rw [lex_of_cut cut]

theorem apart_nil : Apart [] := by
  simp [Apart, Stops]

theorem apart_cons {c : Char} (notWord : isWordChar c = false) (text : Text) : Apart (c :: text) := by
  simpa [Apart, Stops] using notWord

/-- The text is cut into the tokens whatever follows it. -/
def Sealed (text : Text) (tokens : List Token) : Prop :=
  ∀ follow, lex (text ++ follow) = tokens ++ lex follow

/-- The text is cut into the tokens unless a word character follows it. -/
def Settled (text : Text) (tokens : List Token) : Prop :=
  ∀ follow, Apart follow → lex (text ++ follow) = tokens ++ lex follow

theorem sealed_nil : Sealed [] [] := by
  intro follow
  rfl

theorem Sealed.settled {text : Text} {tokens : List Token} (closed : Sealed text tokens) :
    Settled text tokens :=
  fun follow _ => closed follow

theorem Settled.lex_eq {text : Text} {tokens : List Token} (settled : Settled text tokens) :
    lex text = tokens := by
  simpa using settled [] apart_nil

theorem Settled.spell_eq {text : Text} {tokens : List Token} (settled : Settled text tokens) :
    spell tokens = text := by
  rw [← settled.lex_eq, spell_lex]

theorem Settled.before {left right : Text} {leftTokens rightTokens : List Token}
    (leftSettled : Settled left leftTokens) (apart : Apart right) (more : right ≠ [])
    (rightSettled : Settled right rightTokens) :
    Settled (left ++ right) (leftTokens ++ rightTokens) := by
  intro follow free
  have alone : Apart (right ++ []) := by rwa [List.append_nil]
  have between : Apart (right ++ follow) := stops_append alone more follow
  rw [List.append_assoc, leftSettled _ between, rightSettled _ free, List.append_assoc]

theorem Sealed.before {left right : Text} {leftTokens rightTokens : List Token}
    (leftSealed : Sealed left leftTokens) (rightSettled : Settled right rightTokens) :
    Settled (left ++ right) (leftTokens ++ rightTokens) := by
  intro follow free
  rw [List.append_assoc, leftSealed, rightSettled _ free, List.append_assoc]

theorem sealed_mark {kind : Kind} {mark : Text} (marked : kind.mark? = some mark)
    (alone : kind ≠ .colon) : Sealed mark [⟨kind, mark⟩] := by
  intro follow
  rw [lex_of_cut (cut_mark marked alone follow)]
  rfl

theorem mark_ne {kind : Kind} {mark : Text} (marked : kind.mark? = some mark) :
    mark ≠ [] ∧ mark ≠ ['\\'] := by
  cases kind <;> simp_all [Kind.mark?] <;> simp [← marked]

/-- A run of neighbouring tokens keeps its tokens if it ends with a mark. -/
theorem sealed_run {text : Text} {run rest : List Token} {last : Token}
    (lexed : lex text = run ++ last :: rest) {mark : Text} (marked : last.kind.mark? = some mark)
    (alone : last.kind ≠ .colon) : Sealed (spell (run ++ [last])) (run ++ [last]) := by
  induction run generalizing text with
  | nil =>
      obtain ⟨after, cut, _⟩ := cut_of_lex lexed
      have spelled := text_of_mark (genuine_of_cut cut) marked
      have whole : last = ⟨last.kind, mark⟩ := by rw [← spelled]
      rw [whole]
      simpa using sealed_mark marked alone
  | cons first run ih =>
      obtain ⟨after, cut, tail⟩ := cut_of_lex lexed
      have later := ih tail
      have member : last ∈ lex after := by
        rw [tail]
        simp
      have ending := text_of_mark (genuine_of_mem_lex member) marked
      have split : after = spell (run ++ [last]) ++ spell rest := by
        rw [← spell_lex after, tail]
        simp
      obtain ⟨nonempty, noEscape⟩ := mark_ne marked
      have more : spell (run ++ [last]) ≠ [] := by simp [ending, nonempty]
      have free : spell (run ++ [last]) ≠ ['\\'] := by
        simp [ending, List.append_eq_singleton_iff, nonempty, noEscape]
      have here : cut? (first.text ++ (spell (run ++ [last]) ++ spell rest)) =
          some (first, spell (run ++ [last]) ++ spell rest) := by
        rw [← split, cut?_append cut, cut]
      intro follow
      rw [List.cons_append, spell_cons, List.append_assoc,
        lex_of_cut (cut?_replace here (.append more free _ follow)), later]
      rfl

end OutOfLine.Token
