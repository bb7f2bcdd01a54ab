import OutOfLine.Toml.Item
import OutOfLine.Toml.SyntaxError

namespace OutOfLine.Toml

inductive Line where
  | blank
  | assignment (parents : List String) (key : String) (value : Value)
  | table (parents : List String) (key : String)
  | row (parents : List String) (key : String)

namespace Line

open Reader

def header : Reader Line := do
  char '['
  let isRow ← takes '['
  let (parents, key) ← Item.key
  char ']'
  if isRow then
    char ']'
  lineEnd
  return if isRow then .row parents key else .table parents key

def assignmentLine : Reader Line := do
  let (parents, key) ← Item.key
  char '='
  skipBlanks
  let value ← Item.value
  lineEnd
  return .assignment parents key value

def next? : Reader (Option Line) := do
  skipBlanks
  match ← front? with
  | none => return none
  | some '#' => do
      lineEnd
      return some .blank
  | some '\n' | some '\r' => do
      newline
      return some .blank
  | some '[' => return some (← header)
  | some _ => return some (← assignmentLine)

end Line

structure Draft where
  entries : Entries
  current : List String

namespace Draft

def add (draft : Draft) : Line → Option Draft
  | .blank => some draft
  | .assignment parents key value => do
      let entries ← Entries.update .path (fun _ entries =>
        Entries.assign parents key value entries) draft.current .header draft.entries
      return { draft with entries }
  | .table parents key => do
      return ⟨← Entries.openTable parents key draft.entries, parents ++ [key]⟩
  | .row parents key => do
      return ⟨← Entries.openRow parents key draft.entries, parents ++ [key]⟩

end Draft

/-- A byte order mark may stand at the start. -/
def dropByteOrderMark : Text → Text
  | c :: rest => if c.toNat = 0xFEFF then rest else c :: rest
  | [] => []

/-- What is wrong with a line that cannot be read, found by reading its parts one by one. -/
def Line.problem (line : Text) : SyntaxError :=
  let line := line.dropWhile Reader.isBlank
  if line.head? = some '[' then ⟨.header, line⟩
  else if line.head? = some '#' then ⟨.lineEnd, line⟩
  else
    match Item.key.run line with
    | none => ⟨.key, line⟩
    | some (_, rest) =>
        match (Reader.char '=' *> Reader.skipBlanks).run rest with
        | none => ⟨.separator, rest⟩
        | some (_, rest) =>
            match Item.value.run rest with
            | none => ⟨.ofValue rest, rest⟩
            | some (_, rest) => ⟨.lineEnd, rest⟩

/-- Reads the lines of `rest` into a draft. Every line takes a character, so that the text is
room enough. -/
def readLines : (room : Text) → (rest : Text) → Draft → Except SyntaxError Draft
  | room, rest, draft =>
      match Line.next?.run rest with
      | none => .error (Line.problem rest)
      | some (none, _) => .ok draft
      | some (some line, after) =>
          match draft.add line, room with
          | none, _ => .error ⟨.repeatedKey, rest⟩
          | some _, [] => .error ⟨.key, rest⟩
          | some draft, _ :: room => readLines room after draft

def parse (text : Text) : Except SyntaxError Value := do
  let text := dropByteOrderMark text
  let draft ← readLines text text ⟨[], []⟩
  return draft.entries.toValue

end OutOfLine.Toml
