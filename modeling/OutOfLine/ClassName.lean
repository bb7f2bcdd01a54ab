import OutOfLine.Text

namespace OutOfLine

/-- No argument list at all differs from an explicit empty one. -/
inductive ClassName where
  | plain (name : Text)
  | templated (name : Text) (arguments : List ClassName)
deriving Repr

namespace ClassName

mutual

def render : ClassName → Text
  | .plain name => name
  | .templated name arguments => name ++ '<' :: renderAll arguments ++ ['>']

def renderAll : List ClassName → Text
  | [] => []
  | [last] => last.render
  | first :: second :: others => first.render ++ ',' :: ' ' :: renderAll (second :: others)

end

mutual

/-- The number of argument lists around the innermost name. -/
def nesting : ClassName → Nat
  | .plain _ => 0
  | .templated _ arguments => nestingAll arguments + 1

def nestingAll : List ClassName → Nat
  | [] => 0
  | first :: others => max first.nesting (nestingAll others)

end

end ClassName

end OutOfLine
