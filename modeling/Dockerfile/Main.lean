import Dockerfile.Command
import Dockerfile.Text

/-!
# The program

Reads what a command line names, runs it, and prints and writes what comes of it.
-/

open Dockerfile Dockerfile.Command

namespace Dockerfile.Program

/-- The text of a file, or why there is none. -/
def readPath (path : String) : IO (Except FileFault String) := do
  try return .ok (← IO.FS.readFile path)
  catch
    | .noFileOrDirectory .. => return .error .missing
    | _ => return .error .folder

/-- Everything that is left on a stream. -/
partial def readRest (stream : IO.FS.Stream) (done : String) : IO String := do
  let line ← stream.getLine
  if line.isEmpty then return done else readRest stream (done ++ line)

/-- What an invocation can read. -/
def inputsOf (i : Invocation) : IO Inputs := do
  let entries ← i.paths.mapM fun path => do return (path, ← readPath path)
  let input ← if i.file = "-" then readRest (← IO.getStdin) "" else pure ""
  let environment ← i.environmentNames.filterMapM fun name => do
    return (← IO.getEnv name).map fun value => (name, value)
  return ⟨fun path => (entries.lookup path).getD (.error .missing), input, environment⟩

/-- Writes a file and the folders it is in. -/
def writePath (path text : String) : IO Unit := do
  let folder := Text.Path.folder path.toList
  if !folder.isEmpty then IO.FS.createDirAll (String.ofList folder)
  IO.FS.writeFile path text

/-- Prints and writes what came of a command. -/
def finish (outcome : Outcome) : IO UInt32 := do
  IO.eprint outcome.errorText
  for (path, text) in outcome.written do writePath path text
  IO.print outcome.output.render
  match outcome.broken with
  | some (.unusable message) => IO.eprintln message
  | some (.folder path) => IO.eprintln (FileFault.folder.message path)
  | some (.taken path) => IO.eprintln s!"[Errno 17] File exists: {Text.quoted path}"
  | some (.notFolder path) => IO.eprintln (FileFault.notFolder.message path)
  | none => pure ()
  return outcome.exit.toUInt32

/-- Tells how the program is used. -/
def tellUsage : Usage → IO UInt32
  | .help => do
    IO.print helpText
    return 0
  | .misuse => do
    IO.eprint helpText
    return exitUsage.toUInt32

end Dockerfile.Program

open Dockerfile.Program in
/-- Runs a command line. Which files it names is known before they are read. -/
def main (words : List String) : IO UInt32 := do
  match Invocation.read (fun _ => .error .missing) words with
  | .error usage => tellUsage usage
  | .ok i =>
    let inputs ← inputsOf i
    match runWords inputs words with
    | .error usage => tellUsage usage
    | .ok outcome => finish outcome
