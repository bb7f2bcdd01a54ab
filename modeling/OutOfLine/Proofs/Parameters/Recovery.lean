import OutOfLine.Proofs.Definition.Initialiser
import OutOfLine.Proofs.Parameters

namespace OutOfLine

namespace Token

def brackets : List (Kind × Kind) :=
  [(.openParen, .closeParen), (.openBracket, .closeBracket), (.openBrace, .closeBrace),
    (.less, .greater)]

/-- The brackets of all four kinds are properly nested with each other. A comma stands within
brackets, unless the tokens are themselves `within` some. -/
inductive Nested : (within : Bool) → List Token → Prop where
  | nil {within : Bool} : Nested within []
  | plain {within : Bool} {token : Token} {tokens : List Token}
      (noBracket : ∀ pair ∈ brackets, token.kind ≠ pair.1 ∧ token.kind ≠ pair.2)
      (comma : token.kind = .comma → within = true) (later : Nested within tokens) :
      Nested within (token :: tokens)
  | enclosed {within : Bool} (opener closer : Token) {body tokens : List Token}
      (pair : (opener.kind, closer.kind) ∈ brackets) (inner : Nested true body)
      (later : Nested within tokens) : Nested within (opener :: (body ++ closer :: tokens))

theorem nestingAfter_of_noBracket {kind : Kind}
    (noBracket : ∀ pair ∈ brackets, kind ≠ pair.1 ∧ kind ≠ pair.2) (depth : Nat) :
    nestingAfter depth kind = depth ∧ (Production.endsParameter kind = true → kind = .comma) := by
  cases kind <;> simp_all [brackets, nestingAfter, Production.opensNesting, Production.closesNesting,
    Production.endsParameter]

theorem nestingAfter_of_brackets {opener closer : Kind} (pair : (opener, closer) ∈ brackets) (depth : Nat) :
    nestingAfter depth opener = depth + 1 ∧ Production.endsParameter opener = false ∧
      nestingAfter (depth + 1) closer = depth := by
  simp only [brackets, List.mem_cons, Prod.mk.injEq, List.not_mem_nil, or_false] at pair
  rcases pair with ⟨rfl, rfl⟩ | ⟨rfl, rfl⟩ | ⟨rfl, rfl⟩ | ⟨rfl, rfl⟩ <;> exact ⟨rfl, rfl, rfl⟩

/-- The count comes back to where it was, and is positive at each `,` and each `)`. -/
theorem Nested.guarded {within : Bool} {tokens : List Token} (nested : Nested within tokens) {depth : Nat}
    (isOpen : within = true → 0 < depth) : Guarded depth tokens ∧ nesting depth tokens = depth := by
  induction nested generalizing depth with
  | nil => exact ⟨guarded_nil depth, rfl⟩
  | plain noBracket comma _ ih =>
      obtain ⟨unchanged, ends⟩ := nestingAfter_of_noBracket noBracket depth
      obtain ⟨guarded, back⟩ := ih isOpen
      rw [guarded_cons, nesting, List.foldl_cons, unchanged]
      exact ⟨⟨fun mark => isOpen (comma (ends mark)), guarded⟩, back⟩
  | enclosed opener closer pair _ _ ihBody ihLater =>
      obtain ⟨opens, passes, closes⟩ := nestingAfter_of_brackets pair depth
      obtain ⟨guardedBody, body⟩ := ihBody fun _ => Nat.succ_pos depth
      obtain ⟨guardedLater, later⟩ := ihLater isOpen
      rw [guarded_cons, guarded_append, guarded_cons, opens, body, closes]
      refine ⟨⟨by simp [passes], guardedBody, fun _ => Nat.succ_pos depth, guardedLater⟩, ?_⟩
      rw [nesting, List.foldl_cons, List.foldl_append, List.foldl_cons, opens]
      rw [nesting] at body later
      rw [body, closes, later]

end Token

namespace Parameter

variable {parameters : List Parameter} {name inside : List Token}

theorem closed_of_nested {parameter : Parameter} (nested : Token.Nested false parameter.value) :
    parameter.Closed :=
  nested.guarded fun within => by contradiction

theorem recovered?_of_nested {text : Text} (isName : Reading.IsName none name) (named : name ≠ [])
    (lexed : Token.lex text = name ++ ⟨.openParen, ['(']⟩ :: inside)
    (lists : Lists parameters inside) (few : parameters.length ≤ 99)
    (nested : ∀ parameter ∈ parameters, Token.Nested false parameter.value) :
    recovered? name inside = some (parameters.map joined) := by
  cases lists with
  | @none blank trivial =>
      have begins : Reading.token (blank ++ [⟨.closeParen, [')']⟩]) =
          ⟨some ⟨.closeParen, [')']⟩, [], false⟩ := Reading.token_blank trivial _
      rw [recovered?, Reading.isolated_of_closed isName named begins rfl]
      rfl
  | some first others =>
      have counted : Counted name (first :: others) _ :=
        .all fun parameter member => closed_of_nested (nested parameter member)
      exact counted.recovered?_eq isName named lexed (by simp) few

/-- Where the initialisers are properly nested, the last name with a parenthesis is the declarator
with exactly its parameters, and the definition repeats them without the initialisers. -/
theorem parameters_recovered {parser after : Parser} {declaration : Declaration} {index : Nat}
    (read : Production.declaration parser = (some declaration, after))
    (declarator : IsDeclarator declaration index name parameters) (few : parameters.length ≤ 99)
    (nested : ∀ parameter ∈ parameters, Token.Nested false parameter.value) :
    declaration.declaratorIndex = some index ∧
      declaration.parameters = some (parameters.map joined) ∧
      ∀ style className, Definition.ofDeclaration? style className declaration =
        some (Text.join [' '] (Definition.words style index
          (className ++ "::".toList ++ Token.spell name ++
            '(' :: Text.join [',', ' '] (parameters.map joined) ++ [')']) declaration.segments)) := by
  obtain ⟨segment, inside, here, paren, lists, spelled⟩ := declarator.written
  obtain ⟨isName, recovers⟩ := recovers_iff read here paren declarator.plain spelled declarator.last
  obtain ⟨place, list⟩ := (recovers _).mpr (recovered?_of_nested isName declarator.named spelled lists few nested)
  refine ⟨place, list, fun style className => ?_⟩
  have text : segment.text = Token.spell name ++ '(' :: Token.spell inside := by
    rw [← Token.spell_lex segment.text, spelled]
    simp
  rw [Definition.ofDeclaration?, Reading.declaratorOf?_of_chosen place here, list,
    Reading.declaratorText_of_name isName text]
  simp

/-- A template argument list and an initialiser that is missing. -/
theorem parameters_recovered_template :
    let text := "virtual void f( int a = g<A, B>(1), T *b /* ) */ =) const = 0;".toList
    ∃ (first second : Parameter) (declaration : Declaration),
      (Production.declaration (.ofText text [])).1 = some declaration ∧
      IsDeclarator declaration 2 [⟨.word, "f".toList⟩] [first, second] ∧
      (∀ parameter ∈ [first, second], Token.Nested false parameter.value) ∧
      (first.initialiser = some " g<A, B>(1)".toList ∧ second.initialiser = some []) ∧
      declaration.declaratorIndex = some 2 ∧
      declaration.parameters = some ["int a".toList, "T * b".toList] ∧
      Definition.ofDeclaration? .default "C".toList declaration =
        some "void C::f(int a, T * b) const".toList := by
  intro text
  let first : Parameter := ⟨" int a ".toList, [⟨.plain, "int".toList⟩, ⟨.plain, "a".toList⟩],
    some " g<A, B>(1)".toList, by decide +kernel, by decide, by decide⟩
  let second : Parameter := ⟨" T *b /* ) */ ".toList,
    [⟨.plain, "T".toList⟩, ⟨.symbol, "*".toList⟩, ⟨.plain, "b".toList⟩], some [],
    by decide +kernel, by decide, by decide⟩
  let declaration : Declaration := ⟨some 2, [⟨.plain, "virtual".toList⟩, ⟨.plain, "void".toList⟩,
    ⟨.paren, "f( int a = g<A, B>(1), T *b /* ) */ =)".toList⟩, ⟨.plain, "const".toList⟩,
    ⟨.symbol, "=".toList⟩, ⟨.plain, "0".toList⟩], some ["int a".toList, "T * b".toList]⟩
  have found : (Production.declaration (.ofText text [])).1 = some declaration := by decide +kernel
  have declarator : IsDeclarator declaration 2 [⟨.word, "f".toList⟩] [first, second] :=
    ⟨⟨_, _, rfl, rfl, .some first [second], by decide +kernel⟩, by decide, by decide, by decide⟩
  have nested : Token.Nested false first.value := by
    have arguments : Token.Nested true
        [⟨.word, ['A']⟩, ⟨.comma, [',']⟩, ⟨.whitespace, [' ']⟩, ⟨.word, ['B']⟩] :=
      .plain (by decide) (by decide) <| .plain (by decide) (by decide) <|
        .plain (by decide) (by decide) <| .plain (by decide) (by decide) .nil
    have one : Token.Nested true [⟨.word, ['1']⟩] := .plain (by decide) (by decide) .nil
    have call : Token.Nested false _ :=
      .enclosed ⟨.less, ['<']⟩ ⟨.greater, ['>']⟩ (by decide) arguments <|
        .enclosed ⟨.openParen, ['(']⟩ ⟨.closeParen, [')']⟩ (by decide) one .nil
    have value : Token.Nested false (⟨.whitespace, [' ']⟩ :: ⟨.word, ['g']⟩ :: _) :=
      .plain (by decide) (by decide) (.plain (by decide) (by decide) call)
    refine (congrArg (Token.Nested false) ?_).mpr value
    decide +kernel
  have missing : Token.Nested false second.value := by
    have empty : second.value = [] := by decide +kernel
    rw [empty]
    exact .nil
  have both : ∀ parameter ∈ [first, second], Token.Nested false parameter.value :=
    List.forall_mem_cons.mpr ⟨nested, List.forall_mem_singleton.mpr missing⟩
  obtain ⟨place, list, defined⟩ := parameters_recovered (Prod.ext found rfl) declarator (by decide) both
  refine ⟨first, second, declaration, found, declarator, both, ⟨rfl, rfl⟩, place, list, ?_⟩
  rw [defined]
  decide +kernel

end Parameter

end OutOfLine
