import RegexSearch.CommandLine.Report

/-!
The program: it hands the arguments, the files that they name and the standard input to the
command line, and writes what comes back.
-/

namespace RegexSearch

/-- Reads a stream to its end, or up to where it cannot be read any further. -/
partial def readToEnd (stream : IO.FS.Stream) (before : ByteArray) : IO ByteArray := do
  match ← (stream.read 65536).toBaseIO with
  | .ok chunk =>
    if chunk.isEmpty then return before else readToEnd stream (before ++ chunk)
  | .error _ => return before

/-- What a path gives to read, if it can be opened. A directory can be opened, but nothing can be
read from it. -/
def readFile? (path : String) : IO (Option Bytes) := do
  match ← (IO.FS.Handle.mk path .read).toBaseIO with
  | .ok handle => return some (← readToEnd (.ofHandle handle) .empty).toList
  | .error _ => return none

/-- What those arguments give to read that are paths of the command and can be opened. -/
def readFiles (command : Command) (arguments : List String) : IO (List (Bytes × Bytes)) := do
  let mut found := []
  for name in arguments do
    let bytes := name.toUTF8.toList
    if command.files.contains bytes && bytes != standardInputFile then
      if let some content ← readFile? name then
        found := (bytes, content) :: found
  return found

/-- Whether a command reads the standard input. -/
def Command.needsInput (command : Command) : Bool :=
  command.files.isEmpty || command.files.contains standardInputFile

def write (stream : IO.FS.Stream) (bytes : Bytes) : IO Unit := do
  stream.write ⟨bytes.toArray⟩
  stream.flush

end RegexSearch

open RegexSearch in
def main (arguments : List String) : IO UInt32 := do
  let bytes := arguments.map fun argument => argument.toUTF8.toList
  let (files, stdin) ←
    match Command.parse bytes with
    | .error _ => pure ([], [])
    | .ok command =>
      let files ← readFiles command arguments
      if command.needsInput then
        pure (files, (← readToEnd (← IO.getStdin) .empty).toList)
      else pure (files, [])
  let output := runCommandLine bytes (files.lookup ·) stdin
  write (← IO.getStdout) output.stdout
  write (← IO.getStderr) output.stderr
  return UInt32.ofNat output.status
