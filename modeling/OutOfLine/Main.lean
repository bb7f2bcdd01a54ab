import OutOfLine.CommandLine.Run
import Std.Time.Format

namespace OutOfLine.CommandLine

def succeeds (action : IO Unit) : IO Bool := do
  match ← action.toBaseIO with
  | .ok _ => return true
  | .error _ => return false

def diskFiles : IO (Files IO) := do
  let here ← IO.currentDir
  return {
    isFile := fun path => do
      match ← (here / path.toString).metadata.toBaseIO with
      | .ok metadata => return metadata.type == .file
      | .error _ => return false
    isDirectory := fun path => (here / path.toString).isDir
    read? := fun path => do
      match ← (IO.FS.readBinFile (here / path.toString)).toBaseIO with
      | .ok content => return some content
      | .error _ => return none
    createDirectory := fun path => succeeds (IO.FS.createDir (here / path.toString))
    touch := fun path =>
      succeeds (IO.FS.withFile (here / path.toString) .append fun _ => return)
    append := fun path added =>
      IO.FS.withFile (here / path.toString) .append fun handle => handle.write added }

/-- The rest of a stream after the bytes that are already read. -/
partial def readOnto (content : ByteArray) (stream : IO.FS.Stream) : IO ByteArray := do
  let piece ← stream.read 65536
  if piece.isEmpty then
    return content
  readOnto (content ++ piece) stream

def clock : IO String := do
  let now := Std.Time.DateTime.ofTimestamp (← Std.Time.Timestamp.now) .UTC
  return now.format "uuuu-MM-dd'T'HH:mm:ss.SSSSSS'Z'"

def machine : IO (Surroundings IO) := do
  return {
    workingDirectory := .ofString (← IO.currentDir).toString
    files := ← diskFiles
    input := do readOnto .empty (← IO.getStdin)
    clock
    report := fun lines => IO.eprint (String.join (lines.map LogLine.render)) }

def perform (arguments : List String) : IO UInt32 := do
  let outcome ← run (← machine) arguments
  IO.print outcome.output
  return outcome.exitCode

end OutOfLine.CommandLine

def main (arguments : List String) : IO UInt32 :=
  OutOfLine.CommandLine.perform arguments
