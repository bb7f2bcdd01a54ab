import OutOfLine.Files
import OutOfLine.Settings
import OutOfLine.Toml.Document

namespace OutOfLine.Settings.Source

variable {m : Type → Type} [Monad m]

def fileName : String := "cppdef.toml"

def firstFile? (files : Files m) : List Path → m (Option Path)
  | [] => return none
  | path :: others => do
      if ← files.isFile path then return some path else firstFile? files others

/-- The nearest settings file at or above `start`. -/
def find? (files : Files m) (start : Path) : m (Option Path) := do
  let directories := if ← files.isFile start then start.parents else start :: start.parents
  firstFile? files (directories.map (·.join fileName))

def load (files : Files m) (note : Event → m Unit) (path : Path) : m (Option Value) := do
  match ← files.readText? path with
  | none => do
      note (.configFileUnreadable path.toString)
      return none
  | some text =>
      match Toml.parse text with
      | .ok value => return some value
      | .error problem => do
          note (.configSyntaxError (problem.describe text))
          note (.malformedConfigFile path.toString)
          return none

/-- The payload in the nearest settings file at or above `start`. -/
def resolve (files : Files m) (note : Event → m Unit) (start : Path) : m (Option Value) := do
  match ← find? files start with
  | none => return none
  | some path => do
      note (.configFileUsed path.toString)
      load files note path

def settingsOf (note : Event → m Unit) (payload : Option Value) : m Settings := do
  let (settings, log) := ofPayload payload []
  log.reverse.forM note
  return settings

def fromFile (files : Files m) (note : Event → m Unit) (path : Path) : m Settings := do
  settingsOf note (← load files note path)

def discover (files : Files m) (note : Event → m Unit) (start : Path) : m Settings := do
  settingsOf note (← resolve files note start)

end OutOfLine.Settings.Source
