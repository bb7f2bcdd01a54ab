namespace OutOfLine

structure Path where
  isAbsolute : Bool
  /-- What stands between the slashes, the last piece first. -/
  backwards : List String
deriving DecidableEq, Repr

namespace Path

def ofString (text : String) : Path :=
  match text.splitOn "/" with
  | "" :: piece :: others => ⟨true, (piece :: others).reverse⟩
  | pieces => ⟨false, pieces.reverse⟩

def pieces (path : Path) : List String :=
  path.backwards.reverse

def toString (path : Path) : String :=
  (if path.isAbsolute then "/" else "") ++ "/".intercalate path.pieces

def isEmpty (path : Path) : Bool :=
  !path.isAbsolute && (path.backwards = [] || path.backwards = [""])

/-- A slash at the end of a path stands before the name as well. -/
def join (path : Path) (name : String) : Path :=
  match path.backwards with
  | "" :: above => { path with backwards := name :: above }
  | above => { path with backwards := name :: above }

/-- Empty pieces mean nothing, nor does a `.` that does not begin a relative path. -/
def endsInName (path : Path) : Bool :=
  match path.backwards with
  | [] => true
  | last :: above => last ≠ "" && (last ≠ "." || (above.isEmpty && !path.isAbsolute))

/-- The paths that end after one of these pieces or before all of them, the longest first. Those
with a last piece that means nothing are left out. -/
def upwardsFrom (isAbsolute : Bool) : (backwards : List String) → List Path
  | [] => [⟨isAbsolute, []⟩]
  | last :: above =>
      let path : Path := ⟨isAbsolute, last :: above⟩
      if path.endsInName then path :: upwardsFrom isAbsolute above
      else upwardsFrom isAbsolute above

def upwards (path : Path) : List Path :=
  upwardsFrom path.isAbsolute path.backwards

def parents (path : Path) : List Path :=
  path.upwards.tail

def parent? (path : Path) : Option Path :=
  path.parents.head?

/-- The last name, unless it stands for a directory in any case. -/
def fileName? (path : Path) : Option String := do
  let last ← (← path.upwards.head?).backwards.head?
  if last = "." || last = ".." then none else some last

def fitsIn : (room : Nat) → (pieces : List String) → Bool
  | _, [] => true
  | room, piece :: others =>
      piece.utf8ByteSize < room && fitsIn (room - piece.utf8ByteSize - 1) others

def sizeLimit : Nat := 4096

def isShort (path : Path) : Bool :=
  fitsIn (if path.isAbsolute then sizeLimit - 1 else sizeLimit) path.backwards

end Path

end OutOfLine
