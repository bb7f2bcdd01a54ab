import OutOfLine.Text

namespace OutOfLine

inductive Segment.Kind where
  /-- `[[nodiscard]]` -/
  | attribute
  /-- One of `*`, `&`, `,` and `=`. -/
  | symbol
  /-- `const`, `std::uint8_t`, `EXPORT` -/
  | plain
  /-- `f(int a)` -/
  | paren
  /-- `std::vector<int>` -/
  | angle
  /-- `values[8]` -/
  | bracket
deriving DecidableEq, Repr

/-- A word of a declaration. What stands in brackets is kept as written. -/
structure Segment where
  kind : Segment.Kind
  text : Text
deriving DecidableEq, Repr

namespace Segment

/-- The sign that begins a default value, an initialiser or a deletion. -/
def isAssignment (segment : Segment) : Bool :=
  segment.kind = .symbol && segment.text = ['=']

def joinTexts (segments : List Segment) : Text :=
  Text.join [' '] (segments.map (·.text))

end Segment

end OutOfLine
