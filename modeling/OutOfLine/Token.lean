import OutOfLine.Text

namespace OutOfLine

inductive Token.Kind where
  | unknown
  | whitespace
  | comment
  | classKeyword
  | accessKeyword
  | word
  | quotation
  | openParen
  | closeParen
  | openBrace
  | closeBrace
  | openBracket
  | closeBracket
  | semicolon
  | doubleColon
  | colon
  | less
  | greater
  | comma
  | tilde
  | star
  | ampersand
  | equal
deriving DecidableEq, Repr

structure Token where
  kind : Token.Kind
  text : Text
deriving DecidableEq, Repr

namespace Token.Kind

/-- White space and comments never decide what is recognised. -/
def isTrivia : Kind → Bool
  | .whitespace | .comment => true
  | _ => false

/-- The closer of the three brackets that may follow a name. -/
def closing? : Kind → Option Kind
  | .openParen => some .closeParen
  | .openBracket => some .closeBracket
  | .less => some .greater
  | _ => none

end Token.Kind

end OutOfLine
