import OutOfLine.Text

namespace OutOfLine.Toml

inductive Fault where
  | key
  | separator
  | value
  | quotation
  | array
  | inlineTable
  | lineEnd
  | header
  | repeatedKey

namespace Fault

def message : Fault → String
  | .key => "invalid key"
  | .separator => "expected `.`, `=`"
  | .value => "invalid string\nexpected `\"`, `'`"
  | .quotation => "invalid basic string"
  | .array => "invalid array\nexpected `]`"
  | .inlineTable => "invalid inline table\nexpected `\x7d`"
  | .lineEnd => "expected newline, `#`"
  | .header => "invalid table header\nexpected `.`, `]`"
  | .repeatedKey => "duplicate key"

/-- What is wrong with a value, by the way it starts. -/
def ofValue : Text → Fault
  | c :: _ =>
      if c = '"' || c = '\'' then .quotation
      else if c = '[' then .array
      else if c = '\x7b' then .inlineTable
      else if c.isDigit || c = '+' || c = '-' then .lineEnd
      else .value
  | [] => .value

end Fault

structure SyntaxError where
  fault : Fault
  rest : Text

namespace SyntaxError

def blanks (count : Nat) : String :=
  String.ofList (List.replicate count ' ')

/-- The place of the error in the whole document, the line it is on, and what is wrong. -/
def describe (error : SyntaxError) (document : Text) : String :=
  let before := document.take (document.length - error.rest.length)
  let column := (before.reverse.takeWhile (· ≠ '\n')).length
  let line := toString (before.count '\n' + 1)
  let start := before.take (before.length - column)
  let content := (document.drop start.length).takeWhile (· ≠ '\n')
  let margin := blanks (line.length + 1) ++ "|"
  "TOML parse error at line " ++ line ++ ", column " ++ toString (column + 1) ++ "\n" ++
    margin ++ "\n" ++
    line ++ " | " ++ String.ofList content ++ "\n" ++
    margin ++ blanks (column + 1) ++ "^\n" ++
    error.fault.message ++ "\n"

end SyntaxError

end OutOfLine.Toml
