import Dockerfile.Image
import Dockerfile.Instruction
import Dockerfile.Platform

/-!
# Findings

What a check can find: an issue and its place. An error keeps a document from being lowered, a
warning does not.
-/

namespace Dockerfile.Check

/-- What can be found in a document. -/
inductive Issue where
  /-- An instruction other than `ARG` before the first stage. -/
  | beforeBase (kind : Kind)
  | noBase
  | stageName (name : String)
  /-- A name that an earlier stage has, with that stage's number and line. -/
  | duplicateStage (name : String) (first line : Nat)
  | platform (fault : Platform.Fault)
  /-- A `FROM` with the number of a stage that is not earlier. -/
  | baseIndex (image : String)
  /-- A `FROM` with the name of a later stage. -/
  | laterBase (image name : String)
  | image (image : String) (fault : Image.Fault)
  /-- A reference that names no earlier stage. -/
  | unknownOrigin (what reference : String)
  | malformedArguments (kind : Kind) (misread : Command.Misread)
  | shellText
  | shellEmpty
  | network (mode : String)
  | security (mode : String)
  | mountType (type : String)
  | mountTarget (type : String)
  | mountSecret
  | mountOrigin (type : String)
  | owner (text : String)
  | mode (text : String)
  | checksum (text : String)
  | digest (algorithm : String) (length : Nat)
  | variableName (name : String)
  | argumentName (name : String)
  | port (text : String)
  | optionsOfNone
  | healthcheckEmpty
  | negativeRetries
  | duration (option text : String)
  | forbiddenTrigger (kind : Kind)
  | signal (text : String)
  | undeclared (name : String)
  /-- A name that is only declared before the first stage. -/
  | globalOnly (name : String)
  | usedBefore (name : String)
  | duplicateInstruction (kind : Kind) (stage : String)
  | deprecatedMaintainer
  | relativeWorkdir (path : String)
  | relativeVolume (path : String)
  deriving DecidableEq, Repr

/-- How much an issue matters. -/
inductive Severity where
  | error
  | warning
  deriving DecidableEq, Repr

/-- The name of a severity. -/
def Severity.name : Severity → String
  | error => "error"
  | warning => "warning"

/-- The networks that a command can run in. -/
def networks : List String := ["default", "none", "host"]

/-- The security modes that a command can run in. -/
def securityModes : List String := ["insecure", "sandbox"]

/-- The types of mounts. -/
def mountTypes : List String := ["bind", "cache", "tmpfs", "secret", "ssh"]

namespace Issue

/-- The severity of an issue. -/
def severity : Issue → Severity
  | undeclared _ | globalOnly _ | usedBefore _ | duplicateInstruction _ _ | deprecatedMaintainer
  | relativeWorkdir _ | relativeVolume _ => .warning
  | _ => .error

/-- The name of the kind of an issue. -/
def kind : Issue → String
  | beforeBase _ | noBase => "missing-from"
  | baseIndex _ | laterBase _ _ | unknownOrigin _ _ => "unknown-stage"
  | duplicateStage _ _ _ => "duplicate-stage-name"
  | malformedArguments _ _ | shellText | shellEmpty => "malformed-argument-form"
  | port _ => "invalid-port"
  | signal _ => "invalid-signal"
  | image _ _ => "invalid-image-reference"
  | platform _ => "invalid-platform"
  | stageName _ | variableName _ | argumentName _ => "invalid-name"
  | owner _ => "invalid-chown"
  | mode _ => "invalid-chmod"
  | checksum _ | digest _ _ => "invalid-checksum"
  | mountType _ | mountTarget _ | mountSecret | mountOrigin _ => "invalid-mount"
  | network _ => "invalid-network"
  | security _ => "invalid-security"
  | duration _ _ => "invalid-duration"
  | optionsOfNone | healthcheckEmpty | negativeRetries => "invalid-healthcheck"
  | forbiddenTrigger _ => "forbidden-onbuild-trigger"
  | undeclared _ | globalOnly _ => "undeclared-variable"
  | usedBefore _ => "used-before-declaration"
  | duplicateInstruction _ _ => "duplicate-instruction"
  | deprecatedMaintainer => "deprecated-instruction"
  | relativeWorkdir _ => "relative-workdir"
  | relativeVolume _ => "relative-volume"

/-- Names with commas between them. -/
def listed (names : List String) : String := ", ".intercalate names

/-- The wording of an issue. -/
def message : Issue → String
  | beforeBase k =>
    s!"{k.name} appears before the first FROM; only ARG may precede FROM"
  | noBase => "Dockerfile has no FROM instruction"
  | stageName name => s!"invalid stage name {Text.quoted name}"
  | duplicateStage name first line =>
    s!"stage name {Text.quoted name} is already used by stage {first} (line {line})"
  | platform fault => fault.message
  | baseIndex text => s!"FROM {text}: stage index must refer to an earlier stage"
  | laterBase text name => s!"FROM {text}: stage {Text.quoted name} is declared after this stage"
  | image text fault => s!"FROM {text}: {fault.message}"
  | unknownOrigin what reference => s!"{what}={reference} does not name an earlier stage"
  | malformedArguments k misread =>
    s!"{k.name} arguments look like a JSON array but do not parse: {misread.message}"
  | shellText => "SHELL requires the JSON form, e.g. SHELL [\"/bin/sh\", \"-c\"]"
  | shellEmpty => "SHELL requires at least one argument"
  | network text =>
    s!"invalid network mode {Text.quoted text}, expected one of {listed networks}"
  | security text =>
    s!"invalid security mode {Text.quoted text}, expected one of {listed securityModes}"
  | mountType type =>
    s!"invalid mount type {Text.quoted type}, expected one of {listed mountTypes}"
  | mountTarget type => s!"{type} mount requires a target"
  | mountSecret => "secret mount requires an id or a target"
  | mountOrigin type => s!"{type} mount does not accept from="
  | owner text => s!"invalid --chown value {Text.quoted text}, expected user[:group]"
  | mode text => s!"invalid --chmod value {Text.quoted text}, expected an octal mode"
  | checksum text =>
    s!"invalid --checksum {Text.quoted text}, expected one of " ++
      "md5, sha1, sha256, sha512 followed by ':<hex digest>'"
  | digest algorithm length => s!"invalid {algorithm} digest, expected {length} hex characters"
  | variableName name => s!"invalid environment variable name {Text.quoted name}"
  | argumentName name => s!"invalid build argument name {Text.quoted name}"
  | port text =>
    s!"invalid port {Text.quoted text}, expected port[-port][/tcp|udp|sctp] in the range 1-65535"
  | optionsOfNone => "HEALTHCHECK NONE does not take options"
  | healthcheckEmpty => "HEALTHCHECK CMD requires at least one command"
  | negativeRetries => "HEALTHCHECK --retries must be non-negative"
  | duration option text =>
    s!"invalid --{option} duration {Text.quoted text}, expected e.g. 30s, 1m30s or 500ms"
  | forbiddenTrigger k => s!"{k.name} is not allowed as an ONBUILD trigger"
  | signal text => s!"invalid stop signal {Text.quoted text}"
  | undeclared name => s!"${name} is not declared with ARG or ENV"
  | globalOnly name =>
    s!"${name} is a global ARG; declare 'ARG {name}' in the stage to use it"
  | usedBefore name => s!"${name} is used before its ARG declaration"
  | duplicateInstruction k stage =>
    s!"multiple {k.name} instructions in stage {stage}; only the last takes effect"
  | deprecatedMaintainer => "MAINTAINER is deprecated; use LABEL maintainer=... instead"
  | relativeWorkdir path =>
    s!"WORKDIR {path} is relative; it resolves against the previous WORKDIR"
  | relativeVolume path => s!"VOLUME {path} is not an absolute path"

end Issue

/-- An issue and its place. -/
structure Finding where
  issue : Issue
  position : Position
  deriving DecidableEq, Repr

namespace Finding

/-- Does the finding keep the document from being lowered? -/
def isError (f : Finding) : Bool := f.issue.severity = .error

/-- The finding on one line. -/
def render (f : Finding) : String :=
  s!"{f.position.render}: {f.issue.severity.name}: {f.issue.message} [{f.issue.kind}]"

/-- Puts a finding behind those that stand at or before its place. -/
def insertByPlace (f : Finding) : List Finding → List Finding
  | [] => [f]
  | g :: rest => if g.position.le f.position then g :: insertByPlace f rest else f :: g :: rest

/-- Findings in the order of their places; those at one place keep their order. -/
def sortByPlace (findings : List Finding) : List Finding :=
  findings.foldl (fun done f => insertByPlace f done) []

end Finding

end Dockerfile.Check
