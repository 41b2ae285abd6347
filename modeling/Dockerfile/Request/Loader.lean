import Dockerfile.File
import Dockerfile.Request
import Dockerfile.Settings

/-!
# Gathering a request

A request is gathered from documents, settings files, arguments given one by one, and overrides. A
source is read by itself into a `Patch`, which says what the source sets. A source that breaks off
with a fault has set what stands before it. How the text of a document or of a settings file is
decoded is left to `Decoders`.

A `Loader` holds what its sources have set so far. Later sources win: a name takes its last value and
keeps its first place, and target and platform are the last ones given.
-/

namespace Dockerfile.Request

/-- Why the text of a document has no data. -/
inductive DecodeFault where
  | malformed
  /-- The text names a value that does not exist. -/
  | unusable (message : String)

/-- How the texts of documents and of settings files are decoded. -/
structure Decoders where
  document : String → Except DecodeFault Data
  settings : String → Settings

/-- What a source sets. -/
structure Patch where
  bindings : List (String × String) := []
  target : Option String := none
  platform : Option Value := none

/-- Why a source, or the request it adds to, is refused. -/
inductive Fault where
  /-- A document is no YAML. -/
  | malformed (source : String)
  /-- A document names a value that does not exist. -/
  | unusable (message : String)
  | notMap (source : String)
  | fieldNotMap (source field : String)
  | unreadableRequest (path : String) (fault : FileFault)
  | unreadableSettings (path : String) (fault : FileFault)
  | argument (text : String)
  | refused (details : List Detail)
  deriving DecidableEq, Repr

/-- The wording of a fault. -/
def Fault.message : Fault → String
  | malformed source => s!"{source}: invalid YAML"
  | unusable message => message
  | notMap source => s!"{source}: request must be a mapping"
  | fieldNotMap source field => s!"{source}: {field} must be a mapping"
  | unreadableRequest path fault => s!"cannot read request file {path}: {fault.message path}"
  | unreadableSettings path fault => s!"cannot read build-arg file {path}: {fault.message path}"
  | argument text => s!"invalid build argument {Text.quoted text}, expected KEY=VALUE"
  | refused _ => "invalid build request"

/-- The file that a fault is about. -/
def Fault.file? : Fault → Option String
  | malformed source | notMap source | fieldNotMap source _ => some source
  | unreadableRequest path _ | unreadableSettings path _ => some path
  | unusable _ | argument _ | refused _ => none

/-- What is told while a source is read. -/
inductive Event where
  | loaded (source : String)
  /-- A statement of a settings file that cannot be read. -/
  | unread (line : Nat)
  /-- A name without a value in a settings file. -/
  | bare (name : String)
  /-- A name that the environment does not set. -/
  | unset (name : String)
  deriving DecidableEq, Repr

/-- What reading a source gives. -/
structure Reading where
  patch : Patch := {}
  events : List Event := []
  fault : Option Fault := none

/-! ### Documents -/

/-- The names of the fields with build arguments. -/
def argFields : List String := ["build_args", "buildArgs"]

/-- The names of the fields with a target. -/
def targetFields : List String := ["target", "target_stage", "targetStage"]

/-- The value of a field that is there and not null. -/
def given? (data : Data) (field : String) : Option Data.Cell :=
  match data.field? field with
  | some (.leaf .null) => none
  | other => other

/-- The build arguments of some fields of a document, up to a field that is no map. -/
def documentArgs (source : String) (data : Data) :
    List String → List (String × String) × Option Fault
  | [] => ([], none)
  | field :: fields =>
    match given? data field with
    | none => documentArgs source data fields
    | some cell =>
      match data.entries? cell with
      | some entries =>
        let (more, fault) := documentArgs source data fields
        (bindings (entries.map fun (name, cell) => (name, data.value cell)) ++ more, fault)
      | none => ([], some (.fieldNotMap source field))

/-- Reads the data of a document. An empty value counts as an empty map. -/
def ofData (source : String) (data : Data) : Reading :=
  if (data.entries? data.root).isNone && !(data.value data.root).isEmpty then
    { fault := some (.notMap source) }
  else
    match documentArgs source data argFields with
    | (args, some fault) => { patch := { bindings := args }, fault := some fault }
    | (args, none) => {
        patch := {
          bindings := args
          target := (targetFields.filterMap (given? data)).getLast?.map fun cell =>
            (data.value cell).text
          platform := (given? data "platform").map data.value }
        events := [.loaded source] }

/-- Reads a document. -/
def ofDocument (decoders : Decoders) (source content : String) : Reading :=
  match decoders.document content with
  | .ok data => ofData source data
  | .error .malformed => { fault := some (.malformed source) }
  | .error (.unusable message) => { fault := some (.unusable message) }

/-! ### Settings and arguments -/

/-- Reads settings. -/
def ofSettings (settings : Settings) : Reading where
  patch := { bindings := settings.values }
  events := settings.unread.map .unread ++ settings.bare.map .bare

/-- The name and perhaps the value of an argument `NAME=value`. -/
def readArgument (text : String) : Except Fault (String × Option String) :=
  let (name, value) := Text.cutString '=' text
  if name.isEmpty then .error (.argument text) else .ok (name, value)

/-- Reads arguments, up to one that has no name. An argument without a value takes it from the
environment, and sets nothing if the environment has none. -/
def ofArguments (environment : Table String) : List String → Reading
  | [] => {}
  | text :: texts =>
    match readArgument text with
    | .error fault => { fault := some fault }
    | .ok (name, value) =>
      let rest := ofArguments environment texts
      match value.or (environment.get? name) with
      | some value =>
        { rest with patch := { rest.patch with bindings := (name, value) :: rest.patch.bindings } }
      | none => { rest with events := .unset name :: rest.events }

/-! ### All sources -/

/-- A source of a request. -/
inductive Source where
  | document (source content : String)
  | documentFile (path : String)
  | settingsFile (path : String)
  | arguments (environment : Table String) (texts : List String)
  | override (bindings : List (String × String)) (target platform : Option String)

/-- Reads a source. -/
def Source.read (decoders : Decoders) (files : Files) : Source → Reading
  | document source content => ofDocument decoders source content
  | documentFile path =>
    match files.text path with
    | .ok content => ofDocument decoders path content
    | .error fault => { fault := some (.unreadableRequest path fault) }
  | settingsFile path =>
    match files.text path with
    | .ok content => ofSettings (decoders.settings content)
    | .error fault => { fault := some (.unreadableSettings path fault) }
  | arguments environment texts => ofArguments environment texts
  | override bindings target platform =>
    { patch := { bindings, target, platform := platform.map .str } }

/-! ### Loaders -/

/-- What has been set so far. -/
structure Loader where
  buildArgs : Table String := []
  target : Option String := none
  platform : Option Value := none

namespace Loader

/-- Adds what a patch sets. -/
def apply (l : Loader) (p : Patch) : Loader where
  buildArgs := l.buildArgs.update p.bindings
  target := p.target.or l.target
  platform := p.platform.or l.platform

/-- Adds what a source sets, up to its fault if it has one. -/
def load (l : Loader) (decoders : Decoders) (files : Files) (source : Source) : Loader × Reading :=
  let reading := source.read decoders files
  (l.apply reading.patch, reading)

/-- The request that has been gathered. -/
def build (l : Loader) : Except Fault Request :=
  (ofParts (.ok l.buildArgs) (.ok l.target) (readPlatform l.platform)).mapError .refused

end Loader

end Dockerfile.Request
