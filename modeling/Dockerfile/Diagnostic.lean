import Dockerfile.Position

/-!
# Diagnostics

What a fault tells its reader: a text, the kind of the fault, and as much of file, line and column
as is known. A file can be attached later, once.
-/

namespace Dockerfile

/-- A fault as it is shown. -/
structure Diagnostic where
  /-- What went wrong. -/
  text : String
  /-- The name of the kind of fault. -/
  kind : Option String
  line : Option Nat
  column : Option Nat
  file : Option String
  deriving DecidableEq, Repr

namespace Diagnostic

/-- A diagnostic with a text and nothing else. -/
def ofText (text : String) : Diagnostic := ⟨text, none, none, none, none⟩

/-- A diagnostic at a position. -/
def located (text kind : String) (p : Position) : Diagnostic :=
  ⟨text, some kind, some p.line, some p.column, none⟩

/-- The name shown for the file: an unknown or empty name stands as `Dockerfile`. -/
def fileName (d : Diagnostic) : String :=
  match d.file with
  | some name => if name.isEmpty then "Dockerfile" else name
  | none => "Dockerfile"

/-- `file:line:column`, up to the first part that is not known. -/
def location (d : Diagnostic) : String :=
  match d.line, d.column with
  | some line, some column => s!"{d.fileName}:{line}:{column}"
  | some line, none => s!"{d.fileName}:{line}"
  | none, _ => d.fileName

/-- The text, behind the location when the line is known. -/
def render (d : Diagnostic) : String :=
  if d.line.isSome then s!"{d.location}: {d.text}" else d.text

/-- Records the file of a diagnostic that has none. An empty name is not recorded. -/
def attach (d : Diagnostic) (name : Option String) : Diagnostic :=
  match d.file, name with
  | none, some name => if name.isEmpty then d else { d with file := some name }
  | _, _ => d

/-- The text of a fault inside a stage: the stage, its name and the instruction come first. -/
def inStage (stage : Nat) (name instruction : Option String) (text : String) : String :=
  let name := match name with
    | some name => if name.isEmpty then "" else s!" ({name})"
    | none => ""
  let instruction := match instruction with
    | some kind => if kind.isEmpty then "" else s!" {kind}"
    | none => ""
  s!"stage {stage}{name}{instruction}: {text}"

end Diagnostic

end Dockerfile
