import OutOfLine.Declaration.Parser
import OutOfLine.Scope
import OutOfLine.WordSet

namespace OutOfLine

structure Style where
  /-- Follows every definition. -/
  afterDefinition : Text
  /-- Stands between neighbours when there are several definitions. -/
  betweenDefinitions : Text
  /-- Follows the last of several definitions. -/
  afterDefinitions : Text
  /-- Segments with such a text are left out. -/
  discarded : WordSet
deriving DecidableEq, Repr

namespace Style

def defaultDiscarded : List String :=
  ["override", "virtual", "explicit", "static", "final"]

def default : Style where
  afterDefinition := "\n\x7b\n\x7d\n".toList
  betweenDefinitions := "\n".toList
  afterDefinitions := []
  discarded := .ofList (defaultDiscarded.map String.toList)

def keeps (style : Style) (segment : Segment) : Bool :=
  !style.discarded.contains segment.text

end Style

namespace Definition

/-- The declarator with the parameters that were recovered from it, else as written. -/
def declaratorText (declarator : Segment) : Option (List Text) → Text
  | none => declarator.text
  | some parameters =>
      if '(' ∈ declarator.text then
        Text.trimEnd (declarator.text.takeWhile (· ≠ '(')) ++
          '(' :: Text.join [',', ' '] parameters ++ [')']
      else declarator.text

def canBeName (style : Style) (segment : Segment) : Bool :=
  (segment.kind = .plain || segment.kind = .bracket) && style.keeps segment

/-- Without a parenthesis the name is the last kept word before any `=`. -/
def guessDeclarator? (style : Style) (segments : List Segment) : Option (Nat × Text) :=
  let words := segments.takeWhile (!·.isAssignment)
  (words.zipIdx.reverse.find? fun (segment, _) => canBeName style segment).map
    fun (segment, index) => (index, segment.text)

def declaratorOf? (style : Style) (declaration : Declaration) : Option (Nat × Text) :=
  match declaration.declaratorIndex, declaration.declarator? with
  | some index, some declarator => some (index, declaratorText declarator declaration.parameters)
  | _, _ => guessDeclarator? style declaration.segments

/-- The words around a declarator at `index`, of those after it only the ones before an `=`. -/
def words (style : Style) (index : Nat) (qualified : Text) (segments : List Segment) :
    List Text :=
  let kept := fun (part : List Segment) => (part.filter style.keeps).map (·.text)
  kept (segments.take index) ++
    qualified :: kept ((segments.drop (index + 1)).takeWhile (!·.isAssignment))

def ofDeclaration? (style : Style) (className : Text) (declaration : Declaration) :
    Option Text := do
  let (index, declarator) ← declaratorOf? style declaration
  let qualified := className ++ ':' :: ':' :: declarator
  return Text.join [' '] (words style index qualified declaration.segments)

def noteDeclaration (style : Style) (declaration : Declaration) (log : Log) : Log :=
  match declaration.declarator?, guessDeclarator? style declaration.segments with
  | none, some _ => .declaratorGuessed :: log
  | _, _ => log

def glue (style : Style) : List Text → Text
  | [single] => single ++ style.afterDefinition
  | definitions =>
      Text.join style.betweenDefinitions (definitions.map (· ++ style.afterDefinition)) ++
        style.afterDefinitions

/-- The definitions for the declarations in `selection`, for the class that encloses the end of
`before`, and what was noted on the way. -/
def ofSelection? (style : Style) (selection before : Text) (log : Log) : Option Text × Log :=
  match enclosingClass before log with
  | (none, log) => (none, .noEnclosingClass :: log)
  | (some head, log) =>
      match Production.declarations (.ofText selection log) with
      | (none, parser) => (none, .noDeclarationSelected :: parser.log)
      | (some declarations, parser) =>
          let log := declarations.foldl (fun log declaration =>
            noteDeclaration style declaration log) parser.log
          match declarations.filterMap (ofDeclaration? style head.name) with
          | [] => (none, .noDefinitionRendered :: log)
          | definitions => (some (glue style definitions), .definitionsRendered :: log)

end Definition

end OutOfLine
