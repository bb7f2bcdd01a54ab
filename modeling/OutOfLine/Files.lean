import OutOfLine.FileTree
import OutOfLine.Text

/-!
What a program asks of the files around it, and how a tree in memory answers. A path that is not
absolute is meant from the working directory.
-/

namespace OutOfLine

structure Files (m : Type → Type) where
  isFile : Path → m Bool
  isDirectory : Path → m Bool
  read? : Path → m (Option ByteArray)
  /-- Makes a directory in one that is there, and tells whether that was possible. -/
  createDirectory : Path → m Bool
  /-- Makes a file in a directory that is there, unless it is there itself, and tells whether it
  can be written to. -/
  touch : Path → m Bool
  /-- Writes at the end of a file. -/
  append : Path → ByteArray → m Unit

namespace Files

variable {m : Type → Type} [Monad m]

def readText? (files : Files m) (path : Path) : m (Option Text) := do
  return ((← files.read? path).bind String.fromUTF8?).map String.toList

def createEach (files : Files m) : List Path → m Bool
  | [] => return true
  | path :: others => do
      if ← files.isDirectory path then files.createEach others
      else if ← files.createDirectory path then files.createEach others
      else return false

def createDirectories (files : Files m) (path : Path) : m Bool :=
  if path.isShort then files.createEach (path.upwards.filter (!·.isEmpty)).reverse
  else return false

/-- Makes sure that there is a file to write to, with the directories above it. -/
def prepare (files : Files m) (path : Path) : m Bool := do
  if ← files.touch path then
    return true
  match path.parent? with
  | none => return false
  | some parent => do
      if ← files.createDirectories parent then files.touch path else return false

end Files

namespace FileTree

variable {m : Type → Type} [Monad m] [MonadStateOf FileTree m]

def change (changed? : FileTree → Option FileTree) : m Bool := do
  match changed? (← getThe FileTree) with
  | some tree => do
      set tree
      return true
  | none => return false

/-- The files of a tree when the working directory is at `place`. -/
def files (place : List String) : Files m where
  isFile path := return ((← getThe FileTree).look place path).any isFile
  isDirectory path := return ((← getThe FileTree).look place path).any isDirectory
  read? path := return ((← getThe FileTree).look place path).bind content?
  createDirectory path := change (·.createDirectory? place path)
  touch path := change (·.touch? place path)
  append path added := modifyThe FileTree (·.append place path added)

end FileTree

end OutOfLine
