import Dockerfile.Instruction
import Dockerfile.LogicalLine
import Dockerfile.Text

/-!
# Reading instructions

A logical line is read as the instruction that its keyword names. Flags come first, then what the
kind of instruction asks for. The first thing that is wrong is reported with its place.
-/

namespace Dockerfile

namespace Instruction

/-! ### Faults -/

/-- Why a line is no instruction. -/
inductive Cause where
  | strayToken (token : Token)
  | unknownInstruction (keyword : String)
  | missing (kind : Kind) (what : String)
  | unknownFlag (kind : Kind) (flag : String)
  | flagWithoutValue (kind : Kind) (flag : String)
  | flagNotSwitch (kind : Kind) (flag : String)
  | malformedArray (kind : Kind) (fault : Json.Reader.Fault)
  /-- An array has an integer of too many digits. -/
  | overlong (digits : Nat)
  | notStrings (kind : Kind)
  | nameWithoutValue (kind : Kind) (name : String)
  | notPair (kind : Kind) (word : String)
  | blankName (kind : Kind)
  | missingAlias
  | excessBase
  | tooFewPaths (kind : Kind)
  | excessUser
  | badRetries (text : String)
  | excessNone
  | badHealthcheck (word : String)
  | excessSignal
  deriving DecidableEq, Repr

/-- The name of the kind of a cause. -/
def Cause.kind : Cause → String
  | strayToken _ => "unexpected-token"
  | unknownInstruction _ => "unknown-instruction"
  | missing _ _ | missingAlias | tooFewPaths _ => "missing-argument"
  | unknownFlag _ _ => "unknown-flag"
  | _ => "invalid-argument"

/-- The wording of a cause. -/
def Cause.message : Cause → String
  | strayToken t => s!"unexpected {t.kind.name} token {Text.quoted t.text}"
  | unknownInstruction keyword => s!"unknown instruction: {keyword}"
  | missing kind what => s!"{kind.name} requires {what}"
  | unknownFlag kind flag => s!"unknown flag --{flag} for {kind.name}"
  | flagWithoutValue kind flag => s!"flag --{flag} for {kind.name} requires a value"
  | flagNotSwitch kind flag => s!"flag --{flag} for {kind.name} expects true or false"
  | malformedArray kind fault => s!"{kind.name} has a malformed JSON array: {fault.message}"
  | overlong digits => (Json.Reader.Fault.overlong digits).message
  | notStrings kind => s!"{kind.name} expects a JSON array of strings"
  | nameWithoutValue kind name => s!"{kind.name} {name} requires a value"
  | notPair kind word => s!"{kind.name} expects key=value pairs, got {Text.quoted word}"
  | blankName kind => s!"{kind.name} names can not be blank"
  | missingAlias => "FROM ... AS requires a stage name"
  | excessBase => "FROM expects 'image [AS name]'"
  | tooFewPaths kind => s!"{kind.name} requires at least one source and a destination"
  | excessUser => "USER expects a single 'user[:group]' argument"
  | badRetries text => s!"HEALTHCHECK --retries expects an integer, got {Text.quoted text}"
  | excessNone => "HEALTHCHECK NONE takes no arguments"
  | badHealthcheck word => s!"HEALTHCHECK expects CMD or NONE, got {Text.quoted word}"
  | excessSignal => "STOPSIGNAL expects a single signal"

/-- A cause and its place. -/
structure Fault where
  cause : Cause
  position : Position
  deriving DecidableEq, Repr

/-- The fault as it is shown. -/
def Fault.diagnostic (fault : Fault) : Diagnostic :=
  .located fault.cause.message fault.cause.kind fault.position

/-! ### Flags -/

/-- What a flag takes. -/
inductive FlagType where
  /-- A value that is not empty. -/
  | value
  /-- Nothing, or `true` or `false`. -/
  | switch
  deriving DecidableEq, Repr

/-- The flags of a line with their values, in order. -/
abbrev Flags := List (String × String)

/-- The last value of a flag. -/
def Flags.last? (flags : Flags) (name : String) : Option String :=
  ((flags.filter (·.1 = name)).getLast?).map Prod.snd

/-- All values of a flag. -/
def Flags.values (flags : Flags) (name : String) : List String :=
  (flags.filter (·.1 = name)).map Prod.snd

/-- Is a word a flag? -/
def isFlag (w : Word) : Bool := ['-', '-'].isPrefixOf w.text.toList

/-- Reads one flag. -/
def readFlag (escape : Char) (kind : Kind) (allowed : List (String × FlagType)) (w : Word) :
    Except Fault (String × String) :=
  let (name, value) := Text.cutString '=' (String.ofList (w.text.toList.drop 2))
  let name := Text.toLower name
  match allowed.lookup name with
  | none => .error ⟨.unknownFlag kind name, w.position⟩
  | some .value =>
    match value with
    | some value =>
      if value.isEmpty then .error ⟨.flagWithoutValue kind name, w.position⟩ else .ok (name, value)
    | none => .error ⟨.flagWithoutValue kind name, w.position⟩
  | some .switch =>
    let setting := match value with
      | some value => Text.toLower (Template.unquote escape value)
      | none => "true"
    if setting = "true" || setting = "false" then .ok (name, setting)
    else .error ⟨.flagNotSwitch kind name, w.position⟩

/-- Reads the flags at the front of some words, and gives the words behind them. -/
def readFlags (escape : Char) (kind : Kind) (allowed : List (String × FlagType)) :
    List Word → Except Fault (Flags × List Word)
  | [] => .ok ([], [])
  | w :: rest =>
    if isFlag w then do
      let flag ← readFlag escape kind allowed w
      let (flags, words) ← readFlags escape kind allowed rest
      return (flag :: flags, words)
    else .ok ([], w :: rest)

/-! ### Commands and paths -/

/-- Is a text in brackets meant as an array? It is when it is empty, starts with a quote or holds a
comma. -/
def looksLikeArray (text : List Char) : Bool :=
  text.head? == some '[' && text.getLast? == some ']' && 1 < text.length &&
    let inner := Text.stripChars (text.drop 1).dropLast
    inner.isEmpty || inner.head?.any (fun c => c = '"' || c = '\'') || inner.contains ','

/-- Reads a text as a command. An array that is no array of strings is a text for the shell, but one
with an integer of too many digits is no command at all. -/
def commandOf (text : String) : Except Cause Command :=
  if looksLikeArray text.toList then
    match Json.Reader.read text with
    | .error (.overlong digits) => .error (.overlong digits)
    | .error fault => .ok ⟨text, .shell (some (.malformed fault))⟩
    | .ok item =>
      match item.strings? with
      | some args => .ok ⟨text, .exec args⟩
      | none => .ok ⟨text, .shell (some .notStrings)⟩
  else .ok ⟨text, .shell none⟩

/-- Reads the rest of a line as a command. -/
def readCommand (kind : Kind) (line : LogicalLine) (words : List Word) : Except Fault Command :=
  match words with
  | [] => .error ⟨.missing kind "a command", line.position⟩
  | w :: _ => (commandOf (line.textFrom w)).mapError (⟨·, w.position⟩)

/-- Puts a text between double quotes, as one word. -/
def requote (escape : Char) (text : List Char) : List Char :=
  '"' :: text.flatMap (fun c => if c = escape || c = '"' then [escape, c] else [c]) ++ ['"']

/-- The paths of a line: the strings of an array, or words. -/
def readPathList (escape : Char) (kind : Kind) (line : LogicalLine) (first : Word)
    (words : List Word) : Except Fault (List String) :=
  let text := line.textFrom first
  if looksLikeArray text.toList then
    match Json.Reader.read text with
    | .error (.overlong digits) => .error ⟨.overlong digits, first.position⟩
    | .error fault => .error ⟨.malformedArray kind fault, first.position⟩
    | .ok item =>
      match item.strings? with
      | some paths => .ok (paths.map fun path => String.ofList (requote escape path.toList))
      | none => .error ⟨.notStrings kind, first.position⟩
  else .ok (words.map Word.text)

/-- The sources and the destination of a line. -/
def readPaths (escape : Char) (kind : Kind) (line : LogicalLine) (words : List Word) :
    Except Fault (List String × String) := do
  match words with
  | [] => throw ⟨.missing kind "a source and a destination", line.position⟩
  | first :: _ =>
    let paths ← readPathList escape kind line first words
    match paths.dropLast, paths.getLast? with
    | source :: sources, some destination => return (source :: sources, destination)
    | _, _ => throw ⟨.tooFewPaths kind, line.position⟩

/-! ### Names and values -/

/-- Reads a word `name=value`. -/
def readPair (escape : Char) (kind : Kind) (w : Word) : Except Fault Binding :=
  match Text.cutString '=' w.text with
  | (_, none) => .error ⟨.notPair kind w.text, w.position⟩
  | (name, some value) =>
    let name := Template.unquote escape name
    if name.isEmpty then .error ⟨.blankName kind, w.position⟩ else .ok ⟨name, value⟩

/-- Reads words `name=value`, or a name and the rest of the line as its value. -/
def readPairs (escape : Char) (kind : Kind) (line : LogicalLine) :
    List Word → Except Fault (List Binding)
  | [] => .error ⟨.missing kind "at least one key=value pair", line.position⟩
  | first :: rest =>
    if first.text.toList.contains '=' then (first :: rest).mapM (readPair escape kind)
    else
      let value := line.rest rest
      if value.isEmpty then .error ⟨.nameWithoutValue kind first.text, first.position⟩
      else .ok [⟨Template.unquote escape first.text, value⟩]

/-- Reads a word `name[=default]`. -/
def readDeclaration (w : Word) : Except Fault Declaration :=
  let (name, default) := Text.cutString '=' w.text
  if name.isEmpty then .error ⟨.blankName .arg, w.position⟩ else .ok ⟨name, default⟩

/-! ### Mounts -/

/-- Reads one item of a mount into it. -/
def addMountItem (m : Mount) (item : List Char) : Mount :=
  let item := Text.stripChars item
  if item.isEmpty then m
  else
    let (key, value) := Text.cutString '=' (String.ofList item)
    let given := value.getD ""
    match Text.toLower (Text.strip key) with
    | "type" => { m with type := given }
    | "source" | "src" => { m with source := some given }
    | "target" | "dst" | "destination" => { m with target := some given }
    | "from" => { m with origin := some given }
    | key => { m with options := m.options ++ [⟨key, value.getD "true"⟩] }

/-- Reads a mount: items with commas between them. -/
def mountOf (escape : Char) (text : String) : Mount :=
  (Text.splitAt ',' (Template.unquote escape text).toList).foldl addMountItem
    ⟨"bind", none, none, none, []⟩

/-! ### Instructions of each kind -/

def readBase (escape : Char) (line : LogicalLine) : Except Fault Base := do
  let (flags, words) ← readFlags escape .base [("platform", .value)] line.words
  let platform := flags.last? "platform"
  match words with
  | [] => throw ⟨.missing .base "an image reference", line.position⟩
  | [image] => return ⟨image.text, none, platform⟩
  | image :: second :: rest =>
    if Text.toUpper second.text = "AS" then
      match rest with
      | [] => throw ⟨.missingAlias, second.position⟩
      | [name] => return ⟨image.text, some name.text, platform⟩
      | _ => throw ⟨.excessBase, second.position⟩
    else throw ⟨.excessBase, second.position⟩

def readRun (escape : Char) (line : LogicalLine) : Except Fault Run := do
  let (flags, words) ← readFlags escape .run
    [("mount", .value), ("network", .value), ("security", .value)] line.words
  let command ← readCommand .run line words
  return {
    command := command
    mounts := (flags.values "mount").map (mountOf escape)
    network := flags.last? "network"
    security := flags.last? "security" }

def readCopy (escape : Char) (line : LogicalLine) : Except Fault Copy := do
  let (flags, words) ← readFlags escape .copy
    [("from", .value), ("chown", .value), ("chmod", .value), ("link", .switch)] line.words
  let (sources, destination) ← readPaths escape .copy line words
  return {
    sources := sources
    destination := destination
    origin := flags.last? "from"
    chown := flags.last? "chown"
    chmod := flags.last? "chmod"
    link := flags.last? "link" = some "true" }

def readAdd (escape : Char) (line : LogicalLine) : Except Fault Add := do
  let (flags, words) ← readFlags escape .add
    [("chown", .value), ("chmod", .value), ("checksum", .value), ("link", .switch)] line.words
  let (sources, destination) ← readPaths escape .add line words
  return {
    sources := sources
    destination := destination
    chown := flags.last? "chown"
    chmod := flags.last? "chmod"
    checksum := flags.last? "checksum"
    link := flags.last? "link" = some "true" }

def readArg (line : LogicalLine) : Except Fault (List Declaration) :=
  match line.words with
  | [] => .error ⟨.missing .arg "a name", line.position⟩
  | words => words.mapM readDeclaration

def readUser (line : LogicalLine) : Except Fault (String × Option String) :=
  match line.words with
  | [] => .error ⟨.missing .user "a user", line.position⟩
  | [w] => .ok (Text.cutWord ':' w.text)
  | _ :: second :: _ => .error ⟨.excessUser, second.position⟩

def readVolume (escape : Char) (line : LogicalLine) : Except Fault (List String) :=
  match line.words with
  | [] => .error ⟨.missing .volume "at least one path", line.position⟩
  | first :: rest => readPathList escape .volume line first (first :: rest)

def readRetries (line : LogicalLine) : Option String → Except Fault (Option Int)
  | none => .ok none
  | some text =>
    match Text.readInt? text with
    | some n => .ok (some n)
    | none => .error ⟨.badRetries text, line.position⟩

def readHealthcheck (escape : Char) (line : LogicalLine) : Except Fault Healthcheck := do
  let (flags, words) ← readFlags escape .healthcheck
    [("interval", .value), ("timeout", .value), ("start-period", .value),
     ("start-interval", .value), ("retries", .value)] line.words
  match words with
  | [] => throw ⟨.missing .healthcheck "CMD or NONE", line.position⟩
  | mode :: rest =>
    let retries ← readRetries line (flags.last? "retries")
    let command ←
      if Text.toUpper mode.text = "CMD" then some <$> readCommand .healthcheck line rest
      else if Text.toUpper mode.text = "NONE" then
        match rest with
        | [] => pure none
        | excess :: _ => throw ⟨.excessNone, excess.position⟩
      else throw ⟨.badHealthcheck mode.text, mode.position⟩
    return {
      command := command
      interval := flags.last? "interval"
      timeout := flags.last? "timeout"
      startPeriod := flags.last? "start-period"
      startInterval := flags.last? "start-interval"
      retries := retries }

def readSignal (line : LogicalLine) : Except Fault String :=
  match line.words with
  | [] => .error ⟨.missing .stopsignal "a signal", line.position⟩
  | [w] => .ok w.text
  | _ :: second :: _ => .error ⟨.excessSignal, second.position⟩

/-- The whole argument text of a line that must have one. -/
def readText (kind : Kind) (what : String) (line : LogicalLine) : Except Fault String :=
  match line.words with
  | [] => .error ⟨.missing kind what, line.position⟩
  | w :: _ => .ok (line.textFrom w)

def readPorts (line : LogicalLine) : Except Fault (List String) :=
  match line.words with
  | [] => .error ⟨.missing .expose "at least one port", line.position⟩
  | words => .ok (words.map Word.text)

/-! ### All instructions -/

/-- Reads a line as an instruction of a kind, `ONBUILD` apart: of that, only the fault of a line
without a trigger is told. -/
def readKind (escape : Char) (line : LogicalLine) : Kind → Except Fault Body
  | .base => .base <$> readBase escape line
  | .run => .run <$> readRun escape line
  | .copy => .copy <$> readCopy escape line
  | .add => .add <$> readAdd escape line
  | .env => .env <$> readPairs escape .env line line.words
  | .arg => .arg <$> readArg line
  | .workdir => .workdir <$> readText .workdir "a path" line
  | .user => (fun (user, group) => .user user group) <$> readUser line
  | .expose => .expose <$> readPorts line
  | .volume => .volume <$> readVolume escape line
  | .label => .label <$> readPairs escape .label line line.words
  | .healthcheck => .healthcheck <$> readHealthcheck escape line
  | .entrypoint => .entrypoint <$> readCommand .entrypoint line line.words
  | .cmd => .cmd <$> readCommand .cmd line line.words
  | .shell => .shell <$> readCommand .shell line line.words
  | .onbuild => .error ⟨.missing .onbuild "a trigger instruction", line.position⟩
  | .stopsignal => .stopsignal <$> readSignal line
  | .maintainer => .maintainer <$> readText .maintainer "a name" line

/-- Reads the instruction with the given keyword, place and words. The trigger of `ONBUILD` is the
instruction that its words make, the first of them being the keyword. -/
def readBody (escape : Char) (raw keyword : String) (position : Position) :
    List Word → Except Fault Body
  | [] =>
    match Kind.ofKeyword? keyword with
    | none => .error ⟨.unknownInstruction keyword, position⟩
    | some kind => readKind escape ⟨keyword, position, [], raw⟩ kind
  | head :: tail =>
    let line : LogicalLine := ⟨keyword, position, head :: tail, raw⟩
    match Kind.ofKeyword? keyword with
    | none => .error ⟨.unknownInstruction keyword, position⟩
    | some .onbuild =>
      (fun trigger => .onbuild head.position trigger (line.textFrom head)) <$>
        readBody escape raw head.text head.position tail
    | some kind => readKind escape line kind

/-- Reads a line as an instruction. -/
def ofLine (escape : Char) (line : LogicalLine) : Except Fault Instruction :=
  (fun body => ⟨line.position, body⟩) <$>
    readBody escape line.raw line.keyword line.position line.words

end Instruction

end Dockerfile
