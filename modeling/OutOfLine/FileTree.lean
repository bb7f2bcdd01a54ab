import OutOfLine.Path

namespace OutOfLine

inductive FileTree where
  | file (content : ByteArray)
  | directory (entries : List (String × FileTree))
  /-- Always holds the same, whatever is written to it. -/
  | device (content : ByteArray)

namespace FileTree

def empty : FileTree := .directory []

def isFile : FileTree → Bool
  | .file _ => true
  | .directory _ | .device _ => false

def isDirectory : FileTree → Bool
  | .directory _ => true
  | .file _ | .device _ => false

def content? : FileTree → Option ByteArray
  | .file content | .device content => some content
  | .directory _ => none

def withEntry (name : String) (node : FileTree) (entries : List (String × FileTree)) :
    List (String × FileTree) :=
  (name, node) :: entries.filter (·.1 ≠ name)

/-- A part of a tree with the way back to the root. -/
structure Spot where
  node : FileTree
  /-- The name of each part on the way among the entries beside it, the innermost first. -/
  above : List (String × List (String × FileTree))

namespace Spot

def root (tree : FileTree) : Spot := ⟨tree, []⟩

def names (spot : Spot) : List String :=
  (spot.above.map (·.1)).reverse

/-- The directory around this spot. The root is its own. -/
def outside (spot : Spot) : Spot :=
  match spot.above with
  | [] => spot
  | (name, entries) :: above => ⟨.directory (withEntry name spot.node entries), above⟩

/-- Goes on by one piece of a path. Only a directory can be left, also by `.` and `..`. -/
def step? (spot : Spot) (piece : String) : Option Spot :=
  match spot.node with
  | .directory entries =>
      if piece = "" || piece = "." then some spot
      else if piece = ".." then some spot.outside
      else (entries.lookup piece).map fun node => ⟨node, (piece, entries) :: spot.above⟩
  | .file _ | .device _ => none

def tree (spot : Spot) : FileTree :=
  spot.above.foldl (fun node (name, entries) => .directory (withEntry name node entries)) spot.node

def put? (spot : Spot) (name : String) (node : FileTree) : Option FileTree :=
  match spot.node with
  | .directory entries => some { spot with node := .directory (withEntry name node entries) }.tree
  | .file _ | .device _ => none

end Spot

/-- Follows names from the root to where a path that is not absolute starts. -/
def origin? (tree : FileTree) (place : List String) (path : Path) : Option Spot :=
  (if path.isAbsolute then [] else place).foldlM Spot.step? (Spot.root tree)

/-- What a path leads to when the working directory is at `place`. -/
def follow? (tree : FileTree) (place : List String) (path : Path) : Option Spot := do
  if path.isEmpty || !path.isShort then
    none
  path.pieces.foldlM Spot.step? (← tree.origin? place path)

def look (tree : FileTree) (place : List String) (path : Path) : Option FileTree :=
  (tree.follow? place path).map Spot.node

def nameLimit : Nat := 255

/-- The directory that an entry is or would be in, and the name of the entry. -/
def target? (tree : FileTree) (place : List String) (path : Path) : Option (Spot × String) := do
  match path.backwards with
  | [] => none
  | name :: above =>
      if !path.isShort || name = "" || name = "." || name = ".." ||
          nameLimit < name.utf8ByteSize then
        none
      let spot ← above.reverse.foldlM Spot.step? (← tree.origin? place path)
      if spot.node.isDirectory then some (spot, name) else none

def put? (tree : FileTree) (place : List String) (path : Path) (node : FileTree) :
    Option FileTree := do
  let (spot, name) ← tree.target? place path
  spot.put? name node

def createDirectory? (tree : FileTree) (place : List String) (path : Path) : Option FileTree := do
  let (spot, name) ← tree.target? place path
  if (spot.step? name).isSome then none else spot.put? name empty

/-- Makes sure that a path names something that can be written to. -/
def touch? (tree : FileTree) (place : List String) (path : Path) : Option FileTree := do
  let (spot, name) ← tree.target? place path
  match (spot.step? name).map Spot.node with
  | none => spot.put? name (.file .empty)
  | some (.file _) | some (.device _) => some tree
  | some (.directory _) => none

/-- Writes at the end of a file. -/
def append (tree : FileTree) (place : List String) (path : Path) (added : ByteArray) :
    FileTree :=
  match tree.look place path with
  | some (.file content) => (tree.put? place path (.file (content ++ added))).getD tree
  | _ => tree

end FileTree

end OutOfLine
