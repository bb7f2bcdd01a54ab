import OutOfLine.Text

namespace OutOfLine

/-- A place between characters, both numbers from zero. -/
structure Position where
  line : Nat
  /-- UTF-16 units from the start of the line. -/
  column : Nat
deriving DecidableEq, Repr

def Position.precedes (position other : Position) : Bool :=
  position.line < other.line || (position.line == other.line && position.column < other.column)

/-- The part between two positions. The cursor is at `active`. -/
structure Selection where
  anchor : Position
  active : Position
deriving DecidableEq, Repr

namespace Selection

def isEmpty (selection : Selection) : Bool :=
  selection.anchor = selection.active

/-- Made from right to left, so that the cursor is at its start. -/
def isReversed (selection : Selection) : Bool :=
  selection.active.precedes selection.anchor

def start (selection : Selection) : Position :=
  if selection.isReversed then selection.active else selection.anchor

def stop (selection : Selection) : Position :=
  if selection.isReversed then selection.anchor else selection.active

end Selection

structure Document where
  text : Text
deriving DecidableEq, Repr

namespace Document

/-- Cuts after every line feed. `current` and `complete` hold what comes before, last one first. -/
def splitLines (current : Text) (complete : List Text) : Text → List Text
  | [] => (current.reverse :: complete).reverse
  | c :: rest =>
      if c = '\n' then splitLines [] ((c :: current).reverse :: complete) rest
      else splitLines (c :: current) complete rest

/-- The lines with their ends. A text that ends with a line feed has an empty last line. -/
def lines (document : Document) : List Text :=
  splitLines [] [] document.text

def lineCount (document : Document) : Nat :=
  document.lines.length

/-- A line without its end, which is a line feed and any carriage returns before it. -/
def lineText? (document : Document) (line : Nat) : Option Text :=
  document.lines[line]?.map fun text =>
    Text.dropEndWhile (· = '\r') (Text.dropEndWhile (· = '\n') text)

def columnBytes (bytes : Nat) : Nat → Text → Nat
  | 0, _ => bytes
  | _ + 1, [] => bytes
  | column + 1, c :: rest =>
      columnBytes (bytes + c.utf8Size) (column + 1 - Text.utf16Units c) rest

/-- The byte offset of a position. Columns after the end of a line stand for its end. Units are
counted here without a bound. A count of 32 bits, which is what editors have for positions, agrees
with it on lines of fewer than `2 ^ 32 - 1` units and may wrap around on longer ones. -/
def offset? (document : Document) (position : Position) : Option Nat := do
  let line ← document.lineText? position.line
  let start := (document.lines.take position.line).foldl (fun total text =>
    total + Text.byteSize text) 0
  return columnBytes start position.column line

def textBefore? (document : Document) (position : Position) : Option Text := do
  let offset ← document.offset? position
  document.text.slice? 0 offset

/-- The selected text, or the line of the cursor when nothing is selected. -/
def selected? (document : Document) (selection : Selection) : Option Text :=
  if selection.isEmpty then document.lineText? selection.active.line
  else do
    let start ← document.offset? selection.start
    let stop ← document.offset? selection.stop
    document.text.slice? start stop

end Document

structure Context where
  selection : Text
  before : Text
deriving DecidableEq, Repr

def Document.context? (document : Document) (selection : Selection) : Option Context := do
  let selected ← document.selected? selection
  let before ← document.textBefore? selection.active
  return ⟨selected, before⟩

end OutOfLine
