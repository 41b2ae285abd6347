import Dockerfile.Table
import Dockerfile.Text

/-!
# Settings files

A settings file binds names to texts, one binding a statement:

    export NAME = value  # comment

A value is bare, and then ends with its line or before a comment, or it stands in single or double
quotes, and then may run over several lines. A name without a value is a binding too. A statement
that cannot be read binds nothing, and the rest of its line is skipped.
-/

namespace Dockerfile

/-- What a settings file holds: its bindings in order, where a bare name has no value, and the lines
on which statements start that cannot be read. -/
structure Settings where
  bindings : List (String × Option String)
  unread : List Nat
  deriving DecidableEq, Repr

namespace Settings

/-- Does `c` end a line? -/
def endsLine (c : Char) : Bool := c = '\r' || c = '\n'

/-- A blank is white space that does not end a line. -/
def isBlank (c : Char) : Bool := Text.isSpace c && !endsLine c

/-- The text behind the blanks it starts with. -/
def skipBlanks (cs : List Char) : List Char := cs.dropWhile isBlank

/-- The text behind a leading word `export` that blanks follow. -/
def skipExport : List Char → List Char
  | 'e' :: 'x' :: 'p' :: 'o' :: 'r' :: 't' :: c :: rest =>
    if isBlank c then skipBlanks rest else "export".toList ++ c :: rest
  | cs => cs

/-- Reads the name of a binding. A comment has none. -/
def readName : List Char → Option (Option String × List Char)
  | '#' :: rest => some (none, '#' :: rest)
  | '\'' :: rest =>
    let name := rest.takeWhile (· != '\'')
    match rest.dropWhile (· != '\'') with
    | [] => none
    | _ :: rest => if name.isEmpty then none else some (some (String.ofList name), rest)
  | cs =>
    let inName (c : Char) : Bool := c != '=' && c != '#' && !Text.isSpace c
    let name := cs.takeWhile inName
    if name.isEmpty then none else some (some (String.ofList name), cs.dropWhile inName)

/-- What stands for an escaped character between single quotes. -/
def singleEscape? : Char → Option Char
  | '\\' => some '\\'
  | '\'' => some '\''
  | _ => none

/-- What stands for an escaped character between double quotes. -/
def doubleEscape? : Char → Option Char
  | '\\' => some '\\'
  | '\'' => some '\''
  | '"' => some '"'
  | 'a' => some '\x07'
  | 'b' => some '\x08'
  | 'f' => some '\x0c'
  | 'n' => some '\n'
  | 'r' => some '\r'
  | 't' => some '\t'
  | 'v' => some '\x0b'
  | _ => none

/-- Reads a quoted value behind its opening quote. A backslash and the character behind it stand for
one character if `escape?` gives it, and for themselves otherwise. No escaped character ends the
value, a line feed included. -/
def readQuoted (quote : Char) (escape? : Char → Option Char) :
    List Char → Option (List Char × List Char)
  | [] => none
  | '\\' :: rest =>
    match rest with
    | [] => none
    | c :: rest =>
      (readQuoted quote escape? rest).map fun (value, rest) =>
        ((match escape? c with | some d => [d] | none => ['\\', c]) ++ value, rest)
  | c :: rest =>
    if c = quote then some ([], rest)
    else (readQuoted quote escape? rest).map fun (value, rest) => (c :: value, rest)

/-- The text of a bare value before a comment, which is a `#` behind white space. -/
def beforeComment (spaced : Bool) : List Char → List Char
  | [] => []
  | c :: rest => if spaced && c = '#' then [] else c :: beforeComment (Text.isSpace c) rest

/-- Reads a value behind its equals sign; `spaced` says whether blanks stand in front of it. -/
def readValue (spaced : Bool) : List Char → Option (List Char × List Char)
  | [] => some ([], [])
  | '\'' :: rest => readQuoted '\'' singleEscape? rest
  | '"' :: rest => readQuoted '"' doubleEscape? rest
  | c :: rest =>
    if spaced && c = '#' then some ([], c :: rest)
    else
      let line := (c :: rest).takeWhile (!endsLine ·)
      some (Text.stripEnd (beforeComment false line), (c :: rest).dropWhile (!endsLine ·))

/-- The text behind blanks and a comment, if there is a comment. -/
def skipComment (cs : List Char) : List Char :=
  match skipBlanks cs with
  | '#' :: rest => rest.dropWhile (!endsLine ·)
  | _ => cs

/-- The text behind the end of a line, if only blanks stand before it. -/
def readLineEnd? (cs : List Char) : Option (List Char) :=
  match skipBlanks cs with
  | [] => some []
  | '\r' :: '\n' :: rest => some rest
  | '\r' :: rest => some rest
  | '\n' :: rest => some rest
  | _ => none

/-- The text behind the line that it starts in. -/
def skipLine (cs : List Char) : List Char := (cs.dropWhile (!endsLine ·)).drop 1

/-- What a statement binds: a name, perhaps with a value, or nothing. -/
abbrev Binding := Option (String × Option String)

/-- Reads a statement that starts with no white space. If that fails, the text is where reading
stopped. -/
def readStatement (cs : List Char) : Except (List Char) (Binding × List Char) := do
  let cs := skipExport cs
  let some (name, cs) := readName cs | throw cs
  let cs := skipBlanks cs
  let (value, cs) ← match cs with
    | '=' :: rest =>
      let behind := skipBlanks rest
      match readValue (rest.head?.any isBlank) behind with
      | some (value, cs) => pure (some (String.ofList value), cs)
      | none => throw behind
    | _ => pure (none, cs)
  let cs := skipComment cs
  let some cs := readLineEnd? cs | throw cs
  pure (name.map fun name => (name, value), cs)

/-- How many lines end in a text. -/
def lineEnds : List Char → Nat
  | [] => 0
  | '\r' :: '\n' :: rest => lineEnds rest + 1
  | c :: rest => lineEnds rest + if endsLine c then 1 else 0

/-- Reads the statements of a text that starts on line `line`. -/
def readFrom (line : Nat) (cs : List Char) : Settings :=
  match cs.dropWhile Text.isSpace with
  | [] => ⟨[], []⟩
  | c :: more =>
    let (binding, broken, rest) : Binding × Bool × List Char :=
      match readStatement (c :: more) with
      | .ok (binding, rest) => (binding, false, rest)
      | .error rest => (none, true, skipLine rest)
    if _h : rest.length < cs.length then
      let later := readFrom (line + lineEnds (cs.take (cs.length - rest.length))) rest
      ⟨binding.toList ++ later.bindings, (if broken then [line] else []) ++ later.unread⟩
    else ⟨[], []⟩
termination_by cs.length

/-- Reads a settings file. A byte order mark in front of it does not count. -/
def read (content : String) : Settings :=
  match content.toList with
  | '\ufeff' :: rest => readFrom 1 rest
  | cs => readFrom 1 cs

/-- The names of the file with their values, of which the last counts. A bare name has the empty
value. -/
def values (s : Settings) : Table String :=
  (Table.ofList s.bindings).map fun (name, value) => (name, value.getD "")

/-- The names that the file leaves without a value. -/
def bare (s : Settings) : List String :=
  (Table.ofList s.bindings).filterMap fun (name, value) => if value.isNone then some name else none

end Settings

end Dockerfile
