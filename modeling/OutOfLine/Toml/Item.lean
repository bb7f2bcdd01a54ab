import OutOfLine.Toml.Date
import OutOfLine.Toml.Number
import OutOfLine.Toml.Table

/-!
Keys and values of TOML. Arrays and inline tables nest less than eighty deep, and a dotted key
has fewer than eighty parts.
-/

namespace OutOfLine.Toml.Item

open Reader

def nestingLimit : Nat := 80

def isBareKeyChar (c : Char) : Bool :=
  c.isAlphanum || c = '-' || c = '_'

def simpleKey : Reader String := do
  match ← front? with
  | some '"' => Quoted.basic
  | some '\'' => Quoted.literal
  | _ => do
      let text ← get
      let key := text.takeWhile isBareKeyChar
      if key.isEmpty then failure
      set (text.drop key.length)
      return String.ofList key

def dottedPart? : Reader (Option String) := do
  if ← takes '.' then
    skipBlanks
    let part ← simpleKey
    skipBlanks
    return some part
  return none

/-- A key with the parts before its last dot. Blanks may stand around every part. -/
def key : Reader (List String × String) := do
  skipBlanks
  let first ← simpleKey
  skipBlanks
  let others ← many dottedPart?
  let parts := first :: others
  if nestingLimit ≤ parts.length then failure
  return (parts.dropLast, parts.getLast?.getD first)

/-- The next item of an array after those before it, or nothing at the closing bracket. -/
def arrayItem? (value : Reader Value) : Reader (Option Value) := do
  skipGap
  if ← takes ']' then
    return none
  let item ← value
  skipGap
  if (← front?) ≠ some ']' then
    char ','
  return some item

def inlinePair (value : Reader Value) : Reader (List String × String × Value) := do
  let (parents, name) ← key
  char '='
  skipBlanks
  let item ← value
  skipBlanks
  return (parents, name, item)

def furtherPair? (value : Reader Value) : Reader (Option (List String × String × Value)) := do
  if ← takes ',' then return some (← inlinePair value) else return none

def inlineTable (value : Reader Value) : Reader Value := do
  skipBlanks
  if ← takes '\x7d' then
    return .object []
  let first ← inlinePair value
  let others ← many (furtherPair? value)
  char '\x7d'
  let entries ← (first :: others).foldlM (fun entries (parents, name, item) =>
    Entries.assign parents name item entries) []
  return Entries.toValue entries

def momentKey : String := "$__toml_private_datetime"

def momentValue (moment : Moment) : Value :=
  .object [(momentKey, .string moment.render)]

def wordValue : Reader Value := do
  match ← get with
  | 't' :: 'r' :: 'u' :: 'e' :: rest => do
      set rest
      return .bool true
  | 'f' :: 'a' :: 'l' :: 's' :: 'e' :: rest => do
      set rest
      return .bool false
  | _ => Numeral.special

/-- A value in which arrays and inline tables nest less than `room` deep. -/
def valueWithin : (room : Nat) → Reader Value
  | 0 => failure
  | room + 1 => do
      let text ← get
      match text with
      | '"' :: _ => return .string (← Quoted.string)
      | '\'' :: _ => return .string (← Quoted.string)
      | '[' :: rest => do
          if room = 0 then failure
          set rest
          return .array (← many (arrayItem? (valueWithin room)))
      | '\x7b' :: rest => do
          if room = 0 then failure
          set rest
          inlineTable (valueWithin room)
      | c :: _ =>
          if Moment.startsDate text || Moment.startsTime text then
            return momentValue (← Moment.moment)
          else if c.isDigit || c = '+' || c = '-' then Numeral.number
          else wordValue
      | [] => failure

def value : Reader Value :=
  valueWithin nestingLimit

end OutOfLine.Toml.Item
