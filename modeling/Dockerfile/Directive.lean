import Dockerfile.Text
import Dockerfile.Text.Case

/-!
# Directives

A comment at the top of a file can be a directive, `# name=value`. The names are `syntax`, `escape`
and `check`; only `escape` changes how the file is read.
-/

namespace Dockerfile

/-- A directive: its name in small letters, and its value. -/
structure Directive where
  name : String
  value : String
  deriving DecidableEq, Repr

namespace Directive

/-- The names that directives have. -/
def names : List String := ["syntax", "escape", "check"]

/-- May the name of a directive hold `c`? -/
def isNameChar (c : Char) : Bool := c.isAlphanum || c = '_' || c = '-'

/-- The name and the value of a comment `# name=value` without white space around it. -/
def split? : List Char → Option (List Char × List Char)
  | '#' :: rest =>
    let name := (rest.dropWhile Text.isSpace).takeWhile isNameChar
    if name.head?.any Char.isAlpha then
      match ((rest.dropWhile Text.isSpace).dropWhile isNameChar).dropWhile Text.isSpace with
      | '=' :: value => some (name, value.dropWhile Text.isSpace)
      | _ => none
    else none
  | _ => none

/-- Reads a comment as a directive. -/
def parse? (comment : String) : Option Directive :=
  match split? (Text.stripChars comment.toList) with
  | some (name, value) =>
    let name := String.ofList (Text.lowerChars name)
    if names.contains name && !value.contains '\n' then some ⟨name, String.ofList value⟩ else none
  | none => none

/-! ### The escape character -/

/-- The escape character of a file without directives. -/
def defaultEscape : Char := '\\'

/-- The escape character that a directive sets: a backslash or a grave accent. -/
def escape? (d : Directive) : Option Char :=
  if d.name = "escape" then
    match d.value.toList with
    | [c] => if c = '\\' || c = '\x60' then some c else none
    | _ => none
  else none

end Directive

end Dockerfile
