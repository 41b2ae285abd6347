import Dockerfile.File

/-!
# Invocations

What a command line asks for: one of four commands, the file it is about, and whether progress is
told. Words that start with a hyphen are options. A long option stands alone and may have its value
behind an equals sign; short options can be written together. Everything behind the word `--` is no
option.
-/

namespace Dockerfile.Command

/-! ### Options -/

/-- An option: the name of what it sets, how it is written, and whether it takes a value. -/
structure Flag where
  name : String
  long : String
  short : Option Char := none
  takesValue : Bool := true
  deriving DecidableEq, Repr

/-- What the words of a command line set, in order, and the other words. -/
structure Words where
  settings : List (String × String) := []
  others : List String := []
  deriving DecidableEq, Repr

namespace Words

/-- The values that are given to a name. -/
def all (w : Words) (name : String) : List String :=
  w.settings.filterMap fun (other, value) => if other = name then some value else none

/-- The last value that is given to a name. -/
def last? (w : Words) (name : String) : Option String := (w.all name).getLast?

/-- Is a name given? -/
def has (w : Words) (name : String) : Bool := !(w.all name).isEmpty

/-- Words with settings in front. -/
def behind (settings : List (String × String)) (w : Words) : Words :=
  { w with settings := settings ++ w.settings }

end Words

/-- What one word sets, and the name that takes the next word as its value. -/
abbrev Meaning := List (String × String) × Option String

/-- What short options written together mean. An option that takes a value takes the characters
behind it, or the next word if there are none. -/
def shortMeaning? (flags : List Flag) : List Char → Option Meaning
  | [] => some ([], none)
  | c :: rest =>
    match flags.find? (·.short = some c) with
    | none => none
    | some flag =>
      if flag.takesValue then
        if rest.isEmpty then some ([], some flag.name)
        else some ([(flag.name, String.ofList rest)], none)
      else (shortMeaning? flags rest).map fun (settings, waiting) =>
        ((flag.name, "") :: settings, waiting)

/-- What a word that starts with a hyphen means. -/
def meaning? (flags : List Flag) (word : List Char) : Option Meaning :=
  let long := word.takeWhile (· != '=')
  let value := (word.dropWhile (· != '=')).tail?.map String.ofList
  match flags.find? (·.long.toList = long) with
  | some flag =>
    match flag.takesValue, value with
    | true, some value => some ([(flag.name, value)], none)
    | true, none => some ([], some flag.name)
    | false, none => some ([(flag.name, "")], none)
    | false, some _ => none
  | none => if word.take 2 = ['-', '-'] then none else shortMeaning? flags (word.drop 1)

/-- Is a word an option? -/
def isOption (word : String) : Bool := word.toList.head? = some '-' && 1 < word.length

/-- Reads the words of a command line. Options may stand behind other words if `mixed` says so. -/
def readWords (flags : List Flag) (mixed : Bool) : List String → Option Words
  | [] => some {}
  | word :: rest =>
    if word = "--" then some { others := rest }
    else if isOption word then
      match meaning? flags word.toList with
      | none => none
      | some (settings, none) => (readWords flags mixed rest).map (.behind settings)
      | some (settings, some name) =>
        match rest with
        | [] => none
        | value :: rest =>
          (readWords flags mixed rest).map (.behind (settings ++ [(name, value)]))
    else if mixed then
      (readWords flags mixed rest).map fun w => { w with others := word :: w.others }
    else some { others := word :: rest }

/-! ### Invocations -/

/-- How a result is written. -/
inductive Format where
  | text
  | json
  | yaml
  deriving DecidableEq, Repr

/-- The name of a format. -/
def Format.name : Format → String
  | text => "text"
  | json => "json"
  | yaml => "yaml"

/-- Where a request comes from. -/
structure RequestOptions where
  arguments : List String
  settingsFiles : List String
  documentFile : Option String
  target : Option String
  platform : Option String
  deriving DecidableEq, Repr

/-- A command. -/
inductive Action where
  /-- Prints the document. -/
  | parse (format : Format)
  /-- Lists the findings. -/
  | check (format : Format)
  /-- Prints the graph. -/
  | lower (request : RequestOptions) (format : Format)
  /-- Draws the graph, perhaps into a file. -/
  | graph (request : RequestOptions) (out : Option String)
  deriving DecidableEq, Repr

/-- What a command line asks for. -/
structure Invocation where
  file : String
  verbose : Bool
  action : Action
  deriving DecidableEq, Repr

/-- Why a command line asks for nothing. -/
inductive Usage where
  | help
  | misuse
  deriving DecidableEq, Repr

/-- The option that asks for help. -/
def helpFlag : Flag := { name := "help", long := "--help", takesValue := false }

/-- The option that chooses a format. -/
def formatFlag : Flag := { name := "format", long := "--format" }

/-- The options in front of the command. -/
def commonFlags : List Flag := [
  { name := "file", long := "--file", short := some 'f' },
  { name := "verbose", long := "--verbose", short := some 'v', takesValue := false },
  helpFlag]

/-- The options of the commands that lower. -/
def requestFlags : List Flag := [
  { name := "build-arg", long := "--build-arg" },
  { name := "build-arg-file", long := "--build-arg-file" },
  { name := "request", long := "--request" },
  { name := "target", long := "--target" },
  { name := "platform", long := "--platform" }]

/-- Reads the words of a command, of which none may be left over. -/
def readCommand (flags : List Flag) (words : List String) : Except Usage Words := do
  let some w := readWords (helpFlag :: flags) true words | throw .misuse
  if w.has "help" then throw .help
  if !w.others.isEmpty then throw .misuse
  pure w

/-- The last format that is given, which must be among those allowed, or else the standard one. -/
def readFormat (w : Words) (allowed : List Format) (standard : Format) : Except Usage Format :=
  match w.last? "format" with
  | none => .ok standard
  | some name =>
    match allowed.find? (·.name = name) with
    | some format => .ok format
    | none => .error .misuse

/-- The options of a request. The paths must not be those of folders. -/
def readRequest (files : Files) (w : Words) : Except Usage RequestOptions :=
  let options : RequestOptions :=
    ⟨w.all "build-arg", w.all "build-arg-file", w.last? "request", w.last? "target",
      w.last? "platform"⟩
  let isFolder (path : String) : Bool := match files path with
    | .error .folder => true
    | _ => false
  if (options.settingsFiles ++ options.documentFile.toList).any isFolder then .error .misuse
  else .ok options

/-- Reads the words from the command on. -/
def readAction (files : Files) : List String → Except Usage Action
  | "parse" :: words => do
    let w ← readCommand [formatFlag] words
    pure (.parse (← readFormat w [.json, .yaml] .json))
  | "check" :: words => do
    let w ← readCommand [formatFlag] words
    pure (.check (← readFormat w [.text, .json, .yaml] .text))
  | "lower" :: words => do
    let w ← readCommand (formatFlag :: requestFlags) words
    pure (.lower (← readRequest files w) (← readFormat w [.json, .yaml] .json))
  | "graph" :: words => do
    let w ← readCommand ({ name := "out", long := "--out", short := some 'o' } :: requestFlags) words
    pure (.graph (← readRequest files w) (w.last? "out"))
  | _ => .error .misuse

/-- Reads a command line. -/
def Invocation.read (files : Files) (words : List String) : Except Usage Invocation := do
  let some w := readWords commonFlags false words | throw .misuse
  if w.has "help" then throw .help
  pure ⟨(w.last? "file").getD "Dockerfile", w.has "verbose", ← readAction files w.others⟩

/-- The paths that an invocation reads or writes. -/
def Invocation.paths (i : Invocation) : List String :=
  let ofRequest (options : RequestOptions) : List String :=
    options.settingsFiles ++ options.documentFile.toList
  i.file :: match i.action with
    | .parse _ | .check _ => []
    | .lower options _ => ofRequest options
    | .graph options out => ofRequest options ++ out.toList

/-- The names whose values an invocation may take from the environment. -/
def Invocation.environmentNames (i : Invocation) : List String :=
  match i.action with
  | .parse _ | .check _ => []
  | .lower options _ | .graph options _ => options.arguments.filter fun a => !a.contains '='

end Dockerfile.Command
