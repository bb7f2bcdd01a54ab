import OutOfLine.Segment

namespace OutOfLine

structure Declaration where
  /-- The index of the segment with the name, if one looks like a function. -/
  declaratorIndex : Option Nat
  segments : List Segment
  /-- The parameters without default values, if the declarator could be read again. -/
  parameters : Option (List Text)
deriving DecidableEq, Repr

namespace Declaration

def declarator? (declaration : Declaration) : Option Segment := do
  let index ← declaration.declaratorIndex
  declaration.segments[index]?

end Declaration

end OutOfLine
