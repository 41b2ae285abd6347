import Dockerfile.Text

/-!
# Reading files

What reading a file can give: its text, or no text because there is no such file, because the path
is that of a folder, or because the path leads through a file. `Files.ofEntries` keeps files in
memory and follows paths the way a file system does.
-/

namespace Dockerfile

/-- What stands in the way of reading a file. -/
inductive FileFault where
  | missing
  | folder
  /-- Something on the way is no folder. -/
  | notFolder
  deriving DecidableEq, Repr

namespace FileFault

/-- What stands in the way, in words. -/
def reason : FileFault → String
  | missing => "No such file or directory"
  | folder => "Is a directory"
  | notFolder => "Not a directory"

/-- The number of the fault. -/
def code : FileFault → Nat
  | missing => 2
  | folder => 21
  | notFolder => 20

/-- The fault of reading a path. -/
def message (fault : FileFault) (path : String) : String :=
  s!"[Errno {fault.code}] {fault.reason}: {Text.quoted path}"

end FileFault

/-- The files that can be read: each path gives the text of a file, with its line ends as they are,
or a fault. -/
abbrev Files := String → Except FileFault String

namespace Files

/-- The text of a file with line feeds at the ends of its lines. -/
def text (files : Files) (path : String) : Except FileFault String := (files path).map Text.ofFile

/-! ### Files in memory -/

/-- The components of a path. -/
abbrev Components := List (List Char)

/-- What stands at a path. -/
inductive Place where
  | file (text : String)
  | folder
  | nothing
  deriving DecidableEq, Repr

/-- What stands at some components, where an entry without a text is a folder. What leads to an
entry is a folder too, and so is the place where paths start. -/
def placeAt (entries : List (Components × Option String)) (here : Components) : Place :=
  match entries.lookup here with
  | some (some text) => .file text
  | some none => .folder
  | none => if here.isEmpty || entries.any (here.isPrefixOf ·.1) then .folder else .nothing

/-- Follows components from a place on. -/
def follow (entries : List (Components × Option String)) (here : Components) :
    Components → Except FileFault String
  | [] =>
    match placeAt entries here with
    | .file text => .ok text
    | .folder => .error .folder
    | .nothing => .error .missing
  | component :: rest =>
    match placeAt entries here with
    | .file _ => .error .notFolder
    | .nothing => .error .missing
    | .folder =>
      if component = [] || component = ['.'] then follow entries here rest
      else if component = ['.', '.'] then follow entries here.dropLast rest
      else follow entries (here ++ [component]) rest

/-- The files of some paths, of which those without a text are folders. Nothing else is there: a
path from the root leads to no file. -/
def ofEntries (entries : List (String × Option String)) : Files := fun path =>
  let components := Text.splitAt '/' path.toList
  if path = "" then .error .missing
  else if components.head? = some [] then
    .error (if components.all List.isEmpty then .folder else .missing)
  else follow (entries.map fun (name, text) => (Text.splitAt '/' name.toList, text)) [] components

end Files

end Dockerfile
