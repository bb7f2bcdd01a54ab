import OutOfLine.ClassName
import OutOfLine.Production

/-!
Productions for qualified names and class names. A class name that fails half way is not put
back.
-/

namespace OutOfLine.Production

open OutOfLine.Parser

/-- Whether a token of a kind may come next in a qualified name, after one of the kind `last`. -/
def continuesName (last : Option Token.Kind) : Token.Kind → Bool
  | .word => last = none || last = some .doubleColon || last = some .tilde
  | .doubleColon => last = none || last = some .word
  | .tilde => last = none || last = some .doubleColon
  | _ => false

/-- Reads on in a qualified name. The first token that does not fit is pushed back. -/
def nameBody (last : Option Token.Kind) (read : List Text) (parser : Parser) : Text × Parser :=
  match _first : parser.nextSignificant with
  | (none, after) => (read.reverse.flatten, after)
  | (some token, after) =>
      if continuesName last token.kind then
        nameBody (some token.kind) (token.text :: read) after
      else (read.reverse.flatten, after.pushBack token.text)
termination_by parser.remaining.length
decreasing_by exact (nextSignificant_some_advances _first).shorter

theorem nameBody_eq (last : Option Token.Kind) (read : List Text) (parser : Parser) :
    nameBody last read parser =
      match parser.nextSignificant with
      | (none, after) => (read.reverse.flatten, after)
      | (some token, after) =>
          if continuesName last token.kind then
            nameBody (some token.kind) (token.text :: read) after
          else (read.reverse.flatten, after.pushBack token.text) := by
  rw [nameBody]
  split <;> rename_i first <;> rw [first]

/-- `name`, `ns::name`, `ns::~name`, `::name`. -/
def qualifiedName : Production Text :=
  fun parser =>
    match nameBody none [] parser with
    | ([], after) => (none, after)
    | (name, after) => (some name, after)

theorem nameBody_follows (last : Option Token.Kind) (read : List Text) (parser : Parser) :
    Follows parser (nameBody last read parser).2 := by
  fun_induction nameBody last read parser with
  | case1 last read parser after first => exact (nextSignificant_none first).1
  | case2 last read parser token after first fits ih =>
      exact (nextSignificant_some_advances first).toFollows.trans ih
  | case3 last read parser token after first misfit => exact (nextSignificant_some first).1

theorem qualifiedName_snd (parser : Parser) :
    (qualifiedName parser).2 = (nameBody none [] parser).2 := by
  unfold qualifiedName
  split <;> rename_i read <;> rw [read]

theorem qualifiedName_keeps : Keeps qualifiedName := by
  intro parser
  rw [qualifiedName_snd]
  exact nameBody_follows none [] parser

theorem qualifiedName_progresses : Progresses qualifiedName := by
  intro parser after name named
  have same := qualifiedName_snd parser
  have result : (nameBody none [] parser).1 ≠ [] := by
    intro empty
    unfold qualifiedName at named
    split at named
    · simp at named
    · rename_i found rest nonempty read
      rw [read] at empty
      exact nonempty empty
  rw [named] at same
  simp only at same
  subst same
  rw [nameBody_eq] at result ⊢
  rcases first : parser.nextSignificant with ⟨_ | token, rest⟩ <;>
    simp only [first] at result ⊢
  · simp at result
  · by_cases fits : continuesName none token.kind <;> simp only [fits, if_true] at result ⊢
    · exact (nextSignificant_some_advances first).trans_follows (nameBody_follows ..)
    · simp at result

/-- What may follow the name of a class: an argument list, of `argument`s, or nothing. -/
def classNameTail (name : Text) (argument : Production ClassName) : Production ClassName := do
  if (← maybe (eat .less)).isNone then
    return .plain name
  if (← maybe (eat .greater)).isSome then
    return .templated name []
  let arguments ← commaList argument
  let _ ← eat .greater
  return .templated name arguments

/-- A class name whose argument lists nest less deep than `room` is long. -/
def classNameWithin : (room : Text) → Production ClassName
  | [] => fail
  | _ :: room => do
      let name ← qualifiedName
      classNameTail name (classNameWithin room)

/-- `Base`, `std::vector<int>`, `Outer<Inner<double>, Other>`, `Empty<>`. Every level of nesting
reads a character, so the remaining text itself is room enough. -/
def className : Production ClassName :=
  fun parser => classNameWithin parser.remaining parser

theorem classNameTail_keeps (name : Text) {argument : Production ClassName}
    (keeps : Keeps argument) : Keeps (classNameTail name argument) :=
  (eat_keeps _).maybe.bind fun _ => ite_keeps (pure_keeps _) <|
    (eat_keeps _).maybe.bind fun _ => ite_keeps (pure_keeps _) <|
      (commaList_keeps keeps).bind fun _ => (eat_keeps _).bind fun _ => pure_keeps _

theorem classNameWithin_keeps (room : Text) : Keeps (classNameWithin room) := by
  induction room with
  | nil => exact fail_keeps
  | cons _ room ih =>
      exact qualifiedName_keeps.bind fun name => classNameTail_keeps name ih

theorem classNameWithin_progresses (room : Text) : Progresses (classNameWithin room) := by
  cases room with
  | nil => exact fail_progresses
  | cons _ room =>
      exact qualifiedName_progresses.bind fun name =>
        classNameTail_keeps name (classNameWithin_keeps room)

theorem className_keeps : Keeps className :=
  fun parser => classNameWithin_keeps parser.remaining parser

theorem className_progresses : Progresses className := by
  intro parser after name named
  exact classNameWithin_progresses parser.remaining parser after name named

end OutOfLine.Production
