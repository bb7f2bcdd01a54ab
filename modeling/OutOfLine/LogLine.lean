import OutOfLine.Event

namespace OutOfLine

structure LogLine where
  /-- The time as it is written, such as `2000-01-31T23:59:59.000000Z`. -/
  time : String
  event : Event

namespace LogLine

def levelColumn (level : Level) : String :=
  let name := level.name.toUpper
  String.ofList (List.replicate (5 - name.length) ' ') ++ name

def detail (name value : String) : String :=
  " " ++ name ++ "=" ++ value

def render (line : LogLine) : String :=
  line.time ++ " " ++ levelColumn line.event.level ++ " " ++ line.event.message ++
    String.join (line.event.details.map fun (name, value) => detail name value) ++ "\n"

/-- A time, with `0` for every digit. -/
def timePattern : List Char :=
  "0000-00-00T00:00:00".toList

def afterTime? : (pattern : List Char) → (line : List Char) → Option (List Char)
  | [], line =>
      let rest := line.dropWhile fun c => c = '.' || c.isDigit
      if rest.head? = some 'Z' then some rest.tail else none
  | expected :: pattern, c :: line =>
      if (if expected = '0' then c.isDigit else c = expected) then afterTime? pattern line
      else none
  | _ :: _, [] => none

def isNameChar (c : Char) : Bool :=
  c.isAlphanum || c = '_' || c = '.'

def startsDetail : List Char → Bool
  | ' ' :: rest =>
      let name := rest.takeWhile isNameChar
      !name.isEmpty && (rest.drop name.length).head? = some '='
  | _ => false

/-- The message at the front, which ends at the first detail. -/
def messageOf : List Char → List Char
  | [] => []
  | c :: rest => if startsDetail (c :: rest) then [] else c :: messageOf rest

def read? (line : String) : Option (Level × String) := do
  let rest := (← afterTime? timePattern line.toList).dropWhile (· = ' ')
  let name := rest.takeWhile (· ≠ ' ')
  let level ← Level.all.find? fun level => level.name.toUpper.toList = name
  return (level, String.ofList (messageOf (rest.drop (name.length + 1))))

end LogLine

end OutOfLine
