import OutOfLine.CommandLine.Run

namespace OutOfLine.CommandLine

/-- A run on files in memory. -/
structure DryRun where
  outcome : Outcome
  lines : List LogLine
  tree : FileTree

namespace DryRun

/-- Keeps the shown lines, the newest first, beside the files. -/
abbrev M := StateT (List LogLine) (StateM FileTree)

def time : String := "2000-01-01T00:00:00.000000Z"

def surroundings (place : List String) (input : ByteArray) : Surroundings M where
  workingDirectory := ⟨true, place.reverse⟩
  files := FileTree.files place
  input := return input
  clock := return time
  report lines := modifyThe (List LogLine) (lines.reverse ++ ·)

end DryRun

/-- Runs a command line in the directory at `place` of a tree. -/
def dryRun (tree : FileTree) (place : List String) (input : ByteArray)
    (arguments : List String) : DryRun :=
  let ((outcome, lines), tree) := ((run (DryRun.surroundings place input) arguments).run []).run tree
  ⟨outcome, lines.reverse, tree⟩

end OutOfLine.CommandLine
