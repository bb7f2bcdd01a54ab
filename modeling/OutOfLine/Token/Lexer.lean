import OutOfLine.Token

namespace OutOfLine.Token

/-- The blanks that separate tokens. Other Unicode spaces are unknown characters. -/
def isSpace (c : Char) : Bool :=
  c = ' ' || c = '\t' || c = '\r' || c = '\n' || c = '\x0c' || c = '\x0b'

def isWordChar (c : Char) : Bool :=
  c.isAlphanum || c = '_'

def classKeywords : List Text :=
  ["class".toList, "struct".toList, "interface".toList]

def accessKeywords : List Text :=
  ["public".toList, "private".toList, "protected".toList]

def wordKind (word : Text) : Kind :=
  if word ∈ classKeywords then .classKeyword
  else if word ∈ accessKeywords then .accessKeyword
  else .word

def punctuationKind : Char → Kind
  | '(' => .openParen
  | ')' => .closeParen
  | '\x7b' => .openBrace
  | '\x7d' => .closeBrace
  | '[' => .openBracket
  | ']' => .closeBracket
  | ';' => .semicolon
  | ':' => .colon
  | '<' => .less
  | '>' => .greater
  | ',' => .comma
  | '~' => .tilde
  | '*' => .star
  | '&' => .ampersand
  | '=' => .equal
  | _ => .unknown

/-- The rest of a line with its end. -/
def lineBody (text : Text) : Text × Text :=
  let body := text.takeWhile (· ≠ '\n')
  match text.dropWhile (· ≠ '\n') with
  | [] => (body, [])
  | c :: rest => (body ++ [c], rest)

/-- Reads on to the closer of a block comment in which `depth` inner comments are open, or to the
end of the text. `read` holds what was passed, the last character first. -/
def commentBody (depth : Nat) (read : Text) : Text → Text × Text
  | [] => (read.reverse, [])
  | '/' :: '*' :: rest => commentBody (depth + 1) ('*' :: '/' :: read) rest
  | '*' :: '/' :: rest =>
      match depth with
      | 0 => (('/' :: '*' :: read).reverse, rest)
      | depth + 1 => commentBody depth ('/' :: '*' :: read) rest
  | c :: rest => commentBody depth (c :: read) rest

/-- Reads on to the closing quote, or to the end of the text. A backslash takes the character
after it along; one that ends the text is left over. -/
def quotationBody (quote : Char) (read : Text) : Text → Text × Text
  | [] => (read.reverse, [])
  | ['\\'] => (read.reverse, ['\\'])
  | '\\' :: c :: rest => quotationBody quote (c :: '\\' :: read) rest
  | c :: rest =>
      if c = quote then ((c :: read).reverse, rest)
      else quotationBody quote (c :: read) rest

/-- The first token of the text `c :: rest`, and what follows it. -/
def cutFrom (c : Char) (rest : Text) : Token × Text :=
  if isSpace c then
    (⟨.whitespace, c :: rest.takeWhile isSpace⟩, rest.dropWhile isSpace)
  else if isWordChar c then
    let word := c :: rest.takeWhile isWordChar
    (⟨wordKind word, word⟩, rest.dropWhile isWordChar)
  else if c = '#' then
    let (body, rest) := lineBody rest
    (⟨.comment, c :: body⟩, rest)
  else if c = '\'' || c = '"' then
    let (body, rest) := quotationBody c [] rest
    (⟨.quotation, c :: body⟩, rest)
  else
    match c, rest with
    | '/', '/' :: rest =>
        let (body, rest) := lineBody rest
        (⟨.comment, '/' :: '/' :: body⟩, rest)
    | '/', '*' :: rest =>
        let (body, rest) := commentBody 0 [] rest
        (⟨.comment, '/' :: '*' :: body⟩, rest)
    | ':', ':' :: rest => (⟨.doubleColon, [':', ':']⟩, rest)
    | c, rest => (⟨punctuationKind c, [c]⟩, rest)

def cut? : Text → Option (Token × Text)
  | [] => none
  | c :: rest => some (cutFrom c rest)

theorem lineBody_append (text : Text) : (lineBody text).1 ++ (lineBody text).2 = text := by
  have whole := List.takeWhile_append_dropWhile (p := fun c => decide (c ≠ '\n')) (l := text)
  unfold lineBody
  split <;> rename_i dropped <;> rw [dropped] at whole <;> simpa using whole

theorem commentBody_append (depth : Nat) (read text : Text) :
    (commentBody depth read text).1 ++ (commentBody depth read text).2 = read.reverse ++ text := by
  fun_induction commentBody depth read text <;> simp_all

theorem quotationBody_append (quote : Char) (read text : Text) :
    (quotationBody quote read text).1 ++ (quotationBody quote read text).2 =
      read.reverse ++ text := by
  fun_induction quotationBody quote read text <;> simp_all

theorem cutFrom_append (c : Char) (rest : Text) :
    (cutFrom c rest).1.text ++ (cutFrom c rest).2 = c :: rest := by
  unfold cutFrom
  split
  · simp
  split
  · simp
  split
  · simp [lineBody_append]
  split
  · simp [quotationBody_append]
  split
  · simp [lineBody_append]
  · simp [commentBody_append]
  · simp
  · simp

theorem cutFrom_text_ne_nil (c : Char) (rest : Text) : (cutFrom c rest).1.text ≠ [] := by
  unfold cutFrom
  repeat' split
  all_goals simp

/-- Token and rest together are the text. -/
theorem cut?_append {text rest : Text} {token : Token} (cut : cut? text = some (token, rest)) :
    token.text ++ rest = text := by
  cases text with
  | nil => simp [cut?] at cut
  | cons c tail =>
      simp only [cut?, Option.some.injEq] at cut
      simpa [cut] using cutFrom_append c tail

theorem cut?_text_ne_nil {text rest : Text} {token : Token}
    (cut : cut? text = some (token, rest)) : token.text ≠ [] := by
  cases text with
  | nil => simp [cut?] at cut
  | cons c tail =>
      simp only [cut?, Option.some.injEq] at cut
      simpa [cut] using cutFrom_text_ne_nil c tail

theorem cut?_length_lt {text rest : Text} {token : Token}
    (cut : cut? text = some (token, rest)) : rest.length < text.length := by
  have whole := congrArg List.length (cut?_append cut)
  have nonempty := List.length_pos_iff.mpr (cut?_text_ne_nil cut)
  simp only [List.length_append] at whole
  omega

theorem cut?_eq_none_iff {text : Text} : cut? text = none ↔ text = [] := by
  cases text <;> simp [cut?]

/-- Appends the tokens of `text` to the tokens in `read`, which come last one first. -/
def lexOnto (read : List Token) (text : Text) : List Token :=
  match _cut : cut? text with
  | none => read.reverse
  | some (token, rest) => lexOnto (token :: read) rest
termination_by text.length
decreasing_by exact cut?_length_lt _cut

def lex (text : Text) : List Token :=
  lexOnto [] text

end OutOfLine.Token
