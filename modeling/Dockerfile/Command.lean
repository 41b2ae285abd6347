import Dockerfile.Command.Invocation
import Dockerfile.Compile
import Dockerfile.Document.Dump
import Dockerfile.Drawing
import Dockerfile.Request.Loader
import Dockerfile.Text
import Dockerfile.Yaml

/-!
# Commands

What a command does is a function of its words, of the files it can read, of the standard input and
of the environment. Its `Outcome` says what it prints, what it writes and how it ends. What it says
itself is printed without control sequences; log lines are printed as they are.
-/

namespace Dockerfile

namespace Command

/-! ### Log lines -/

/-- How much a line matters. -/
inductive Level where
  | debug
  | warning
  deriving DecidableEq, Repr

/-- The name of a level. -/
def Level.name : Level → String
  | debug => "DEBUG"
  | warning => "WARNING"

/-- A line of the log. -/
structure Line where
  level : Level
  origin : String
  text : String
  deriving DecidableEq, Repr

namespace Line

/-- The line as it is written. -/
def render (l : Line) : String := s!"{l.level.name} {l.origin}: {l.text}"

/-- Is a line written? Progress is written only if it is asked for. -/
def isShown (verbose : Bool) (l : Line) : Bool := verbose || l.level != .debug

/-- The line of an event of gathering a request. -/
def ofRequest : Request.Event → Line
  | .loaded source =>
    ⟨.debug, "dfc.PARSERS.request_parser", s!"Loaded build request from {source}"⟩
  | .unread line =>
    ⟨.warning, "dotenv.main", s!"python-dotenv could not parse statement starting at line {line}"⟩
  | .bare name =>
    ⟨.debug, "dfc.PARSERS.env_parser",
      s!"Build argument {name} has no value in file; using empty string"⟩
  | .unset name =>
    ⟨.debug, "dfc.PARSERS.request_parser",
      s!"Build argument {name} not set in the environment; skipped"⟩

/-- The line of an event of lowering. -/
def ofLower (event : Lower.Event) : Line :=
  let line (level : Level) (text : String) : Line := ⟨level, "dfc.CONVERTERS.to_ir_graph", text⟩
  match event with
  | .pruned stages target =>
    let numbers := ", ".intercalate (stages.map toString)
    line .debug s!"Pruned stage(s) {numbers} not needed by target stage {target}"
  | .stage index name => line .debug s!"Lowering stage {index} ({name})"
  | .missing missing => line .warning missing.message
  | .keyed id kind key => line .debug s!"{id.render} {kind.name} cache key {key}"
  | .unused names =>
    let listed := ", ".intercalate names
    line .debug s!"Build arguments not consumed: {listed}"

/-- The lines of an event of compiling. -/
def ofCompile (event : Compile.Event) : List Line :=
  let line (text : String) : Line := ⟨.debug, "dfc.BUILDERS.pipeline", text⟩
  match event with
  | .reading file => [line s!"Parsing {file}"]
  | .read stages preamble => [
      ⟨.debug, "dfc.PARSERS.dockerfile_parser",
        s!"Parsed {stages} stage(s), {preamble} preamble instruction(s)"⟩,
      line s!"Parsed {stages} stage(s)"]
  | .checked errors warnings references => [
      ⟨.debug, "dfc.VALIDATORS.dockerfile_validator",
        s!"Validation finished: {errors} error(s), {warnings} warning(s), {references} resolved reference(s)"⟩]
  | .lowering event => [ofLower event]
  | .lowered operations target =>
    [line s!"Lowered {operations} operation(s) for target stage {target}"]

end Line

/-! ### Outcomes -/

/-- What a command can read. -/
structure Inputs where
  files : Files
  input : String
  environment : Table String

/-- What is printed on the standard output: a text as it is, or data in a format. -/
inductive Output where
  | text (text : String)
  | data (format : Format) (data : Json)

/-- Why a command breaks off. -/
inductive Break where
  /-- A request names a value that does not exist, or the file has an integer of too many digits. -/
  | unusable (message : String)
  /-- A file cannot be written because its path is that of a folder. -/
  | folder (path : String)
  /-- A folder cannot be made because its path is that of a file. -/
  | taken (path : String)
  /-- A folder cannot be made because its path leads through a file. -/
  | notFolder (path : String)
  deriving DecidableEq, Repr

/-- What a command did. -/
structure Outcome where
  exit : Nat := 0
  output : Output := .text ""
  /-- The lines on the error stream. -/
  errors : List String := []
  /-- The files that are written. -/
  written : List (String × String) := []
  /-- How the command broke off, if it did. -/
  broken : Option Break := none

/-- The code of a command that found something wrong with the file. -/
def exitFindings : Nat := 1

/-- The code of a command that could not do its work. -/
def exitUsage : Nat := 2

/-- The lines of a log that are shown. -/
def shown (verbose : Bool) (lines : List Line) : List String :=
  (lines.filter (Line.isShown verbose)).map Line.render

/-- A finding behind the name of the file. -/
def findingLine (file : String) (f : Check.Finding) : String := Text.plain s!"{file}:{f.render}"

/-- A line that says why a command fails. -/
def errorLine (message : String) : String := Text.plain ("Error: " ++ message)

/-- A finding as data. -/
def findingData (f : Check.Finding) : Json := .obj [
  ("severity", .str f.issue.severity.name), ("kind", .str f.issue.kind),
  ("message", .str f.issue.message), ("line", .nat f.position.line),
  ("column", .nat f.position.column)]

/-- The text of a file, or of the standard input if the path is a hyphen. -/
def readSource (inputs : Inputs) (path : String) : Except FileFault String :=
  if path = "-" then .ok (Text.ofFile inputs.input) else inputs.files.text path

/-- What a fault prints: all findings of a file that was refused, or the fault itself. -/
def faultLines (file : String) : Compile.Fault → List String
  | .lowering (.rejected report) => report.sorted.map (findingLine file)
  | fault => [errorLine (fault.diagnostic (some file)).render]

/-- What a fault of the file comes to. -/
def faultOutcome (file : String) (lines : List String) : Compile.Fault → Outcome
  | .source (.overlong digits) =>
    let message := (SourceFault.overlong digits).diagnostic.text
    { exit := exitFindings, errors := lines, broken := some (.unusable message) }
  | fault => { exit := exitFindings, errors := lines ++ faultLines file fault }

/-! ### Requests -/

/-- The sources of a request, in the order in which they count. -/
def sources (inputs : Inputs) (options : RequestOptions) : List Request.Source :=
  (options.documentFile.toList.filter (!·.isEmpty)).map .documentFile ++
    options.settingsFiles.map .settingsFile ++
    [.arguments inputs.environment options.arguments, .override [] options.target options.platform]

/-- The decoders of the program. -/
def decoders : Request.Decoders where
  document content := (Yaml.load content).mapError fun
    | .malformed => .malformed
    | fault => .unusable fault.message
  settings := Settings.read

/-- Gathers sources, up to one with a fault. -/
def gather (files : Files) (l : Request.Loader) :
    List Request.Source → List Request.Event × Except Request.Fault Request
  | [] => ([], l.build)
  | source :: rest =>
    let (l, reading) := l.load decoders files source
    match reading.fault with
    | some fault => (reading.events, .error fault)
    | none =>
      let (events, result) := gather files l rest
      (reading.events ++ events, result)

/-- What a fault of a request comes to. -/
def requestOutcome (lines : List String) : Request.Fault → Outcome
  | .unusable message => { exit := exitFindings, errors := lines, broken := some (.unusable message) }
  | fault => { exit := exitUsage, errors := lines ++ [errorLine fault.message] }

/-! ### Running -/

/-- Reads and checks the file and goes on with what was found. -/
def withAnalysis (i : Invocation) (source : String) (next : Analysis → Outcome) : Outcome :=
  let run := Compile.analyze (some i.file) source
  let lines := shown i.verbose (run.events.flatMap Line.ofCompile)
  match run.result with
  | .error fault => faultOutcome i.file lines fault
  | .ok analysis =>
    let outcome := next analysis
    { outcome with errors := lines ++ outcome.errors }

/-- The warnings of a compilation. -/
def warningLines (file : String) (c : Compilation) : List String :=
  c.report.warnings.map (findingLine file) ++
    c.graph.warnings.map (fun w => Text.plain ("warning: " ++ w.message)) ++
    if c.graph.unusedArgs.isEmpty then []
    else [Text.plain ("warning: unused build arguments: " ++ ", ".intercalate c.graph.unusedArgs)]

/-- Lowers the file for a request and goes on with the graph. -/
def withGraph (inputs : Inputs) (i : Invocation) (options : RequestOptions) (source : String)
    (next : Graph → Outcome) : Outcome :=
  let (events, request) := gather inputs.files {} (sources inputs options)
  let told := shown i.verbose (events.map Line.ofRequest)
  match request with
  | .error fault => requestOutcome told fault
  | .ok request =>
    let run := Compile.compile (some i.file) source request
    let lines := told ++ shown i.verbose (run.events.flatMap Line.ofCompile)
    match run.result with
    | .error fault => faultOutcome i.file lines fault
    | .ok compilation =>
      let outcome := next compilation.graph
      { outcome with errors := lines ++ warningLines i.file compilation ++ outcome.errors }

/-- Lists findings. -/
def listFindings (file : String) (format : Format) (report : Report) : Outcome where
  exit := if report.ok then 0 else exitFindings
  output := match format with
    | .text =>
      let lines := report.sorted.map (findingLine file)
      let lines := if lines.isEmpty then ["No problems found."] else lines
      .text (String.join (lines.map (· ++ "\n")))
    | format => .data format (.arr (report.sorted.map findingData))

/-- Why a file cannot be written, if so. The folder that it is in is made if it is missing. -/
def unwritable? (files : Files) (path : String) : Option Break :=
  let folder := String.ofList (Text.Path.folder path.toList)
  let inFolder : Option Break := match files folder with
    | .ok _ => some (.taken folder)
    | .error .notFolder => some (.notFolder folder)
    | .error _ => none
  let isFolder := path.toList.getLast? = some '/' ||
    match files path with
    | .error .folder => true
    | _ => false
  inFolder.or (if isFolder then some (.folder path) else none)

/-- Prints a drawing, or writes it into a file. -/
def showDrawing (files : Files) (out : Option String) (g : Graph) : Outcome :=
  let drawing := (Drawing.ofGraph g).render
  match out.filter (!·.isEmpty) with
  | none => { output := .text (Text.plain drawing) }
  | some path =>
    match unwritable? files path with
    | some broken => { exit := exitFindings, broken := some broken }
    | none => { output := .text (Text.plain s!"Wrote {path}\n"), written := [(path, drawing)] }

/-- Does what is asked for with the text of the file. -/
def act (inputs : Inputs) (i : Invocation) (source : String) : Outcome :=
  match i.action with
  | .parse format => withAnalysis i source fun a => { output := .data format a.document.toJson }
  | .check format => withAnalysis i source fun a => listFindings i.file format a.report
  | .lower options format =>
    withGraph inputs i options source fun g => { output := .data format g.toJson }
  | .graph options out => withGraph inputs i options source (showDrawing inputs.files out)

/-- Does what is asked for. -/
def run (inputs : Inputs) (i : Invocation) : Outcome :=
  match readSource inputs i.file with
  | .error fault =>
    { exit := exitUsage, errors := [errorLine s!"cannot read {i.file}: {fault.reason}"] }
  | .ok source => act inputs i source

/-- Runs a command line, unless it asks for nothing. -/
def runWords (inputs : Inputs) (words : List String) : Except Usage Outcome :=
  (Invocation.read inputs.files words).map (run inputs)

/-- The text of an output. Data in JSON is indented; data in YAML is written in flow style. -/
def Output.render : Output → String
  | text t => t
  | data .yaml d => d.compact ++ "\n"
  | data _ d => d.indented ++ "\n"

/-- The text of the error stream. -/
def Outcome.errorText (o : Outcome) : String := String.join (o.errors.map (· ++ "\n"))

/-- What `--help` prints. -/
def helpText : String :=
  "Usage: dfc [OPTIONS] COMMAND [ARGS]...\n\n" ++
  "  Parses, validates and lowers Dockerfiles into a build graph.\n\n" ++
  "Options:\n" ++
  "  -f, --file TEXT  Dockerfile path, or - for stdin\n" ++
  "  -v, --verbose    Log compiler progress\n" ++
  "  --help           Show this message and exit.\n\n" ++
  "Commands:\n" ++
  "  check  Validate the Dockerfile and list findings.\n" ++
  "  graph  Render the IR graph as Graphviz DOT.\n" ++
  "  lower  Print the IR graph for the target stage.\n" ++
  "  parse  Print the syntax tree.\n"

end Command

end Dockerfile
