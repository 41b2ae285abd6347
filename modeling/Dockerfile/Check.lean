import Dockerfile.Check.Finding
import Dockerfile.Check.Pattern
import Dockerfile.Check.Resolution

/-!
# Checking documents

A check goes over a document once and collects all that it finds, in the order of the document: the
preamble, the names of the stages, and then each stage with its `FROM` and its instructions. Beside
the findings it tells which references mean which stages.

Which variables an instruction may use is decided by a `Scope`, which every instruction passes on
to the next one. The trigger of an `ONBUILD` is checked without a scope: it runs in another build.
-/

namespace Dockerfile

namespace Check

/-! ### Variables -/

/-- Does a text refer to variables? -/
def hasVariables (escape : Char) (text : String) : Bool :=
  !(Template.references escape text).isEmpty

/-- What is known of variables at a place. -/
structure Scope where
  /-- The names declared before the first stage. -/
  metas : List String
  /-- Is the place inside a stage, where those names are not in force? -/
  inStage : Bool
  /-- The names that can be used. -/
  known : List String
  /-- The names that an `ARG` further on declares. -/
  later : List String

namespace Scope

/-- The issue of a name that cannot be used. -/
def issue (s : Scope) (name : String) : Issue :=
  if s.later.contains name then .usedBefore name
  else if s.inStage && s.metas.contains name then .globalOnly name
  else .undeclared name

/-- The issues of the variables of some texts, one for each name that cannot be used. -/
def issues (s : Scope) (escape : Char) (texts : List (Option String)) : List Issue :=
  let names := (texts.filterMap id).flatMap (Template.references escape)
  ((names.filter fun name => !s.known.contains name).eraseDups).map s.issue

/-- The scope behind an instruction. -/
def after (s : Scope) : Body → Scope
  | .env bindings => { s with known := s.known ++ bindings.map Binding.name }
  | .arg declarations =>
    let names := declarations.map Declaration.name
    { s with known := s.known ++ names, later := s.later.filter fun name => !names.contains name }
  | _ => s

end Scope

/-! ### References to stages -/

/-- The references of an instruction to stages, each with its slot: that of a `COPY`, and those of
the mounts of a `RUN`. -/
def origins : Body → List (Nat × String)
  | .copy c => c.origin.toList.map fun text => (0, text)
  | .run r => r.mounts.zipIdx.filterMap fun (mount, slot) =>
    match mount.origin with
    | some text => if text.isEmpty then none else some (slot, text)
    | none => none
  | _ => []

/-- What instructions of a stage are checked against: the scope and the meaning of references. -/
structure Context where
  escape : Char
  /-- None in the trigger of an `ONBUILD`. -/
  scope : Option Scope
  /-- The earlier stage that a reference means. -/
  resolve? : String → Option Nat

namespace Context

/-- The issues of the variables of some texts. -/
def references (c : Context) (texts : List (Option String)) : List Issue :=
  c.scope.elim [] fun scope => scope.issues c.escape texts

/-- The text without quotes and escapes. -/
def unquote (c : Context) (text : String) : String := Template.unquote c.escape text

/-- The issue of a text without variables whose unquoted form is refused. -/
def form (c : Context) (text : Option String) (accept : String → Bool) (issue : String → Issue) :
    List Issue :=
  match text with
  | some text =>
    if hasVariables c.escape text || accept (c.unquote text) then [] else [issue text]
  | none => []

/-- The issue of a reference that means no earlier stage. -/
def origin (c : Context) (what text : String) : List Issue :=
  if c.scope.isNone || hasVariables c.escape text then []
  else if (c.resolve? (c.unquote text)).isSome then []
  else [.unknownOrigin what (c.unquote text)]

end Context

/-! ### Instructions -/

/-- The issue of a command that looks like an array and is none. -/
def commandIssues (kind : Kind) (command : Command) : List Issue :=
  match command.misread? with
  | some misread => [.malformedArguments kind misread]
  | none => []

/-- Is there a text that is not empty? -/
def isGiven (text : Option String) : Bool := text.any fun t => !t.isEmpty

/-- The first thing that is wrong with a mount. -/
def mountIssue? (m : Mount) : Option Issue :=
  if !mountTypes.contains m.type then some (.mountType m.type)
  else if ["bind", "cache", "tmpfs"].contains m.type && !isGiven m.target then
    some (.mountTarget m.type)
  else if m.type = "secret" && !(isGiven m.target || isGiven (m.option? "id")) then
    some .mountSecret
  else if !(["bind", "cache"].contains m.type) && isGiven m.origin then some (.mountOrigin m.type)
  else none

def mountIssues (c : Context) (m : Mount) : List Issue :=
  (mountIssue? m).toList ++
    match m.origin with
    | some text => if text.isEmpty then [] else c.origin "--mount from" text
    | none => []

def runIssues (c : Context) (r : Run) : List Issue :=
  let command := if r.command.isExec then [] else [some r.command.raw]
  let mounts := r.mounts.flatMap fun m =>
    [m.source, m.target, m.origin] ++ m.options.map fun o => some o.value
  c.references ([r.network, r.security] ++ command ++ mounts) ++
    commandIssues .run r.command ++
    c.form r.network networks.contains .network ++
    c.form r.security securityModes.contains .security ++
    r.mounts.flatMap (mountIssues c)

def ownershipIssues (c : Context) (chown chmod : Option String) : List Issue :=
  c.form chown isOwner .owner ++ c.form chmod isMode .mode

def copyIssues (c : Context) (i : Copy) : List Issue :=
  c.references (i.sources.map some ++ [some i.destination, i.origin, i.chown, i.chmod]) ++
    ownershipIssues c i.chown i.chmod ++
    i.origin.elim [] (c.origin "COPY --from")

def checksumIssues (c : Context) (text : String) : List Issue :=
  if hasVariables c.escape text then []
  else
    let (algorithm, digest) := Text.cutString ':' (c.unquote text)
    match digest, hashLengths.lookup algorithm with
    | some digest, some length =>
      if digest.length = length && isHexDigits digest then [] else [.digest algorithm length]
    | _, _ => [.checksum text]

def addIssues (c : Context) (i : Add) : List Issue :=
  c.references (i.sources.map some ++ [some i.destination, i.chown, i.chmod, i.checksum]) ++
    ownershipIssues c i.chown i.chmod ++
    i.checksum.elim [] (checksumIssues c)

/-- A path that is neither absolute nor starts with a variable. -/
def isRelative (path : String) : Bool := path.toList.head? ≠ some '$' && !isAbsolutePath path

def workdirIssues (c : Context) (path : String) : List Issue :=
  c.references [some path] ++
    if isRelative (c.unquote path) then [.relativeWorkdir (c.unquote path)] else []

def volumeIssues (c : Context) (paths : List String) : List Issue :=
  c.references (paths.map some) ++
    ((paths.map c.unquote).filter isRelative).map .relativeVolume

def healthcheckIssues (c : Context) (h : Healthcheck) : List Issue :=
  match h.command with
  | none => if h.hasOptions then [.optionsOfNone] else []
  | some command =>
    commandIssues .healthcheck command ++
      (if command.isExec && command.args.isEmpty then [.healthcheckEmpty] else []) ++
      (if h.retries.any (· < 0) then [.negativeRetries] else []) ++
      [("interval", h.interval), ("timeout", h.timeout), ("start-period", h.startPeriod),
       ("start-interval", h.startInterval)].flatMap fun (option, value) =>
        match value with
        | some text => if isDuration (c.unquote text) then [] else [.duration option text]
        | none => []

def shellIssues (command : Command) : List Issue :=
  match command.form with
  | .shell (some misread) => [.malformedArguments .shell misread]
  | .shell none => [.shellText]
  | .exec [] => [.shellEmpty]
  | .exec _ => []

/-- The issues of an instruction. Those of a `FROM` and of a trigger are told elsewhere. -/
def issues (c : Context) : Body → List Issue
  | .base _ => []
  | .run r => runIssues c r
  | .copy i => copyIssues c i
  | .add i => addIssues c i
  | .env bindings =>
    c.references (bindings.map fun v => some v.value) ++
      ((bindings.map Binding.name).filter fun name => !isName name).map .variableName
  | .arg declarations =>
    c.references (declarations.map Declaration.default) ++
      ((declarations.map Declaration.name).filter fun name => !isName name).map .argumentName
  | .workdir path => workdirIssues c path
  | .user user group => c.references [some user, group]
  | .expose ports =>
    c.references (ports.map some) ++ ports.flatMap fun port => c.form (some port) isPort .port
  | .volume paths => volumeIssues c paths
  | .label labels => c.references (labels.flatMap fun l => [some l.name, some l.value])
  | .healthcheck h => healthcheckIssues c h
  | .entrypoint command => commandIssues .entrypoint command
  | .cmd command => commandIssues .cmd command
  | .shell command => shellIssues command
  | .onbuild _ _ _ => []
  | .stopsignal signal =>
    c.references [some signal] ++
      c.form (some signal) (fun text => isSignal (Text.toUpper text)) .signal
  | .maintainer _ => [.deprecatedMaintainer]

/-- Can an instruction not be a trigger? -/
def isForbiddenTrigger (kind : Kind) : Bool := [Kind.onbuild, .base, .maintainer].contains kind

/-- The findings of an instruction. A trigger is checked at its own place. -/
def findings (c : Context) (i : Instruction) : List Finding :=
  match i.body with
  | .onbuild place trigger _ =>
    if isForbiddenTrigger trigger.kind then [⟨.forbiddenTrigger trigger.kind, i.position⟩]
    else (issues { c with scope := none } trigger).map (⟨·, place⟩)
  | body => (issues c body).map (⟨·, i.position⟩)

/-! ### The preamble -/

/-- The names declared before the first stage. -/
def metaNames (d : Document) : List String :=
  d.metaArgs.flatMap fun arg => arg.2.map Declaration.name

/-- The findings of instructions before the first stage, of which only the first one that is no
`ARG` counts. -/
def preambleFindings (escape : Char) (scope : Scope) (reported : Bool) :
    List Instruction → List Finding
  | [] => []
  | i :: rest =>
    match i.body with
    | .arg _ =>
      findings ⟨escape, some scope, fun _ => none⟩ i ++
        preambleFindings escape (scope.after i.body) reported rest
    | body =>
      (if reported then [] else [⟨.beforeBase body.kind, i.position⟩]) ++
        preambleFindings escape scope true rest

/-- Is an instruction an `ARG`? -/
def isArg (i : Instruction) : Bool := i.kind = .arg

def checkPreamble (d : Document) : List Finding :=
  preambleFindings d.escape ⟨[], false, Platform.globalArgs, []⟩ false d.preamble ++
    if d.stages.isEmpty && d.preamble.all isArg then [⟨.noBase, Position.start⟩] else []

/-! ### Stages -/

/-- The findings of the names of stages behind the stages `earlier`. -/
def nameFindings (earlier : List Stage) : List Stage → List Finding
  | [] => []
  | stage :: rest =>
    (match stage.name with
      | none => []
      | some name =>
        (if isStageName name then [] else [⟨.stageName name, stage.position⟩]) ++
          match earlier.find? (·.isNamed name) with
          | some first =>
            [⟨.duplicateStage name first.index first.position.line, stage.position⟩]
          | none => []) ++
      nameFindings (earlier ++ [stage]) rest

/-- The stage that the `FROM` of a stage means, if its text says so. -/
def base? (d : Document) (stage : Stage) : Option Nat :=
  if hasVariables d.escape stage.base.image then none
  else d.resolve? (Template.unquote d.escape stage.base.image) stage.index

/-- The issue of a `FROM` without variables that means no earlier stage. -/
def imageIssues (d : Document) (stage : Stage) (image : String) : List Issue :=
  if (Text.decimalIndex? image).isSome then [.baseIndex image]
  else
    let later := (d.stageNamed? image).filter (stage.index < ·.index)
    match later with
    | some later => [.laterBase image (later.name.getD "")]
    | none =>
      if Text.toLower image = "scratch" then []
      else match Image.parse image with
        | .ok _ => []
        | .error fault => [.image image fault]

/-- The issues of the `FROM` of a stage. -/
def baseIssues (d : Document) (metas : List String) (stage : Stage) : List Issue :=
  let scope : Scope := ⟨metas, false, metas ++ Platform.globalArgs, []⟩
  scope.issues d.escape [some stage.base.image, stage.base.platform] ++
    (match stage.base.platform with
      | some text =>
        if text.isEmpty || hasVariables d.escape text then []
        else match Platform.parse (Template.unquote d.escape text) with
          | .ok _ => []
          | .error fault => [.platform fault]
      | none => []) ++
    if hasVariables d.escape stage.base.image || (base? d stage).isSome then []
    else imageIssues d stage (Template.unquote d.escape stage.base.image)

/-- The names that the `ARG` instructions of a stage declare. -/
def argNames (stage : Stage) : List String :=
  stage.instructions.flatMap fun i =>
    match i.body with
    | .arg declarations => declarations.map Declaration.name
    | _ => []

/-- Of these kinds only the last instruction of a stage counts. -/
def isSingle (kind : Kind) : Bool := [Kind.cmd, .entrypoint, .healthcheck].contains kind

/-- The findings of the instructions of a stage behind instructions of the kinds `seen`. -/
def instructionFindings (d : Document) (stage : Stage) (scope : Scope) (seen : List Kind) :
    List Instruction → List Finding
  | [] => []
  | i :: rest =>
    let context : Context := ⟨d.escape, some scope, fun text => d.resolve? text stage.index⟩
    (if isSingle i.kind && seen.contains i.kind
      then [⟨.duplicateInstruction i.kind stage.displayName, i.position⟩] else []) ++
      findings context i ++
      instructionFindings d stage (scope.after i.body) (i.kind :: seen) rest

/-- The scope behind some instructions. -/
def Scope.afterAll (scope : Scope) (instructions : List Instruction) : Scope :=
  instructions.foldl (fun s i => s.after i.body) scope

/-- The findings of stages behind earlier ones, of which the list says for each which names are
known at its end: a stage that starts from it knows them too, build arguments and all. -/
def stageFindings (d : Document) (metas : List String) (settled : List (List String)) :
    List Stage → List Finding
  | [] => []
  | stage :: rest =>
    let inherited := ((base? d stage).bind (settled[·]?)).getD []
    let scope : Scope := ⟨metas, true, inherited, argNames stage⟩
    (baseIssues d metas stage).map (⟨·, stage.position⟩) ++
      instructionFindings d stage scope [] stage.instructions ++
      stageFindings d metas (settled ++ [(scope.afterAll stage.instructions).known]) rest

/-! ### The resolution -/

/-- The references of the instruction at a position of a stage that mean earlier stages. -/
def originEntries (d : Document) (stage : Stage) (position : Nat) (body : Body) :
    List (Site × Nat) :=
  (origins body).filterMap fun (slot, text) =>
    if hasVariables d.escape text then none
    else (d.resolve? (Template.unquote d.escape text) stage.index).map fun target =>
      (⟨stage.index, some position, slot⟩, target)

/-- The references of a stage that mean earlier stages. -/
def stageEntries (d : Document) (stage : Stage) : List (Site × Nat) :=
  ((base? d stage).toList.map fun target => (⟨stage.index, none, 0⟩, target)) ++
    stage.instructions.zipIdx.flatMap fun (i, position) => originEntries d stage position i.body

end Check

open Check

/-- What a check finds. -/
structure Report where
  /-- In the order of the document. -/
  findings : List Finding
  resolution : Resolution
  deriving DecidableEq, Repr

namespace Report

def errors (r : Report) : List Finding := r.findings.filter Finding.isError

def warnings (r : Report) : List Finding := r.findings.filter fun f => !f.isError

/-- Can the document be lowered? -/
def ok (r : Report) : Bool := r.errors.isEmpty

/-- All findings in the order of their places, errors before warnings at one place. -/
def sorted (r : Report) : List Finding := Finding.sortByPlace (r.errors ++ r.warnings)

end Report

/-- Checks a document. -/
def Document.check (d : Document) : Report where
  findings := checkPreamble d ++ nameFindings [] d.stages ++ stageFindings d (metaNames d) [] d.stages
  resolution := ⟨d.stages.flatMap (stageEntries d)⟩

end Dockerfile
