import OutOfLine.ClassName
import OutOfLine.Segment

namespace OutOfLine

/-- One entry of a base list, such as `public Base<int>`. -/
structure Base where
  access : Option Text
  isVirtual : Bool
  className : ClassName
deriving Repr

structure ClassHead where
  name : Text
  /-- What stands between the keyword and the name. -/
  attributes : Option Text
  /-- What stands between the name and the base list or the brace. -/
  trailingAttributes : Option Text
  /-- No base list at all differs from one with entries. -/
  bases : Option (List Base)
deriving Repr

namespace ClassHead

/-- A plain word names the class unless it is `final`. -/
def isName (segment : Segment) : Bool :=
  segment.kind = .plain && segment.text ≠ "final".toList

def joinTexts? (segments : List Segment) : Option Text :=
  if segments.isEmpty then none else some (Segment.joinTexts segments)

/-- The head with the segments of `segments`: the last one that can be a name is the name. -/
def ofSegments? (segments : List Segment) : Option ClassHead :=
  match segments.reverse.span (!isName ·) with
  | (_, []) => none
  | (trailing, name :: leading) => some {
      name := name.text
      attributes := joinTexts? leading.reverse
      trailingAttributes := joinTexts? trailing.reverse
      bases := none }

end ClassHead

end OutOfLine
