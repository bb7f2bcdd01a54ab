import OutOfLine.Text

namespace OutOfLine.Toml

abbrev Reader := StateT Text Option

namespace Reader

variable {α : Type}

/-- Space and tab; line ends are no blanks. -/
def isBlank (c : Char) : Bool :=
  c = ' ' || c = '\t'

/-- The characters that may stand in a line as they are: no control character but the tab. -/
def isPrintable (c : Char) : Bool :=
  c = '\t' || (0x20 ≤ c.toNat && c.toNat ≠ 0x7F)

/-- What follows a line end, which is a line feed with or without a carriage return. -/
def afterNewline? : Text → Option Text
  | '\n' :: rest => some rest
  | '\r' :: '\n' :: rest => some rest
  | _ => none

def front? : Reader (Option Char) :=
  return (← get).head?

def skipBlanks : Reader Unit :=
  modify (·.dropWhile isBlank)

def char (expected : Char) : Reader Unit := do
  match ← get with
  | c :: rest => if c = expected then set rest else failure
  | [] => failure

def takes (expected : Char) : Reader Bool := do
  if (← front?) = some expected then
    char expected
    return true
  return false

def newline : Reader Unit := do
  match afterNewline? (← get) with
  | some rest => set rest
  | none => failure

def skipComment : Reader Unit := do
  if (← front?) = some '#' then
    modify (·.dropWhile isPrintable)

/-- Blanks and a comment up to the end of the line or of the text. -/
def lineEnd : Reader Unit := do
  skipBlanks
  skipComment
  if (← front?).isSome then
    newline

/-- Blanks, comments and line ends between the items of an array. -/
def skipGapWithin : (room : Text) → Reader Unit
  | [] => return
  | _ :: room => do
      skipBlanks
      skipComment
      match afterNewline? (← get) with
      | none => return
      | some rest => do
          set rest
          skipGapWithin room

def skipGap : Reader Unit := do
  skipGapWithin (← get)

/-- Takes what `step` gives until it gives nothing. Every result of `step` has to take a
character, so that the text is room enough. -/
def manyWithin (step : Reader (Option α)) : (room : Text) → (read : List α) → Reader (List α)
  | [], read => do
      match ← step with
      | none => return read.reverse
      | some _ => failure
  | _ :: room, read => do
      match ← step with
      | none => return read.reverse
      | some result => manyWithin step room (result :: read)

def many (step : Reader (Option α)) : Reader (List α) := do
  manyWithin step (← get) []

end Reader

end OutOfLine.Toml
