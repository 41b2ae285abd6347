import Dockerfile.Document.Dump
import Dockerfile.Graph

/-!
# Graphs as JSON

Every part of a graph as a JSON value, its fields always in the same order. The content key of an
operation is computed from `Task.payload`, which holds what the operation does and nothing of where
it stands.
-/

namespace Dockerfile

/-- A table as an object. -/
def Table.toJson (t : Table String) : Json := .obj (t.map fun (name, value) => (name, .str value))

/-- A table as an array of keys and values. -/
def Table.pairsJson (t : Table String) : Json :=
  .arr (t.map fun (name, value) => Binding.toJson ⟨name, value⟩)

/-- A list of texts, or `null`. -/
def stringsOrNull (items : Option (List String)) : Json := items.elim .null .strings

/-- A field for a value that is given. -/
def givenField (name : String) (value : Option Json) : List (String × Json) :=
  value.toList.map fun v => (name, v)

def HealthTest.toJson (h : HealthTest) : Json := .obj (
  [("test", .strings h.test)] ++
  givenField "interval" (h.interval.map .str) ++
  givenField "timeout" (h.timeout.map .str) ++
  givenField "start_period" (h.startPeriod.map .str) ++
  givenField "start_interval" (h.startInterval.map .str) ++
  givenField "retries" (h.retries.map .int))

def Config.toJson (c : Config) : Json := .obj [
  ("env", c.env.pairsJson),
  ("workdir", .str c.workdir),
  ("user", .ofOption c.user),
  ("exposed_ports", .strings c.ports),
  ("volumes", .strings c.volumes),
  ("labels", c.labels.pairsJson),
  ("entrypoint", stringsOrNull c.entrypoint),
  ("cmd", stringsOrNull c.cmd),
  ("shell", .strings c.shell),
  ("healthcheck", c.healthcheck.elim .null HealthTest.toJson),
  ("stop_signal", .ofOption c.stopSignal),
  ("onbuild", .strings c.onbuild),
  ("maintainer", .ofOption c.maintainer)]

/-- The settings that a change makes. -/
def Change.fields : Change → List (String × Json)
  | .env values => [("env", values.toJson)]
  | .workdir path => [("workdir", .str path)]
  | .user name => [("user", .str name)]
  | .ports items => [("exposed_ports", .strings items)]
  | .volumes paths => [("volumes", .strings paths)]
  | .labels values => [("labels", values.toJson)]
  | .healthcheck test => [("healthcheck", test.toJson)]
  | .entrypoint args dropCmd =>
    ("entrypoint", .strings args) :: if dropCmd then [("cmd", .null)] else []
  | .cmd args => [("cmd", .strings args)]
  | .shell args => [("shell", .strings args)]
  | .onbuild expression => [("onbuild", .strings [expression])]
  | .stopSignal signal => [("stop_signal", .str signal)]
  | .maintainer name => [("maintainer", .str name)]

/-- A change as an object. -/
def Change.toJson (c : Change) : Json := .obj c.fields

def MountPoint.toJson (m : MountPoint) : Json := .obj [
  ("type", .str m.type),
  ("source", .ofOption m.source),
  ("target", .ofOption m.target),
  ("source_stage", .ofNat? m.origin.stage),
  ("source_image", .ofOption m.origin.image),
  ("options", .arr (m.options.map Binding.toJson))]

def Exec.fields (e : Exec) : List (String × Json) := [
  ("args", .strings e.args),
  ("env", .arr (e.env.map Binding.toJson)),
  ("workdir", .str e.workdir),
  ("user", .ofOption e.user),
  ("mounts", .arr (e.mounts.map MountPoint.toJson)),
  ("network", .ofOption e.network),
  ("security", .ofOption e.security),
  ("platform", .ofOption e.platform)]

/-- The name of a file action. -/
def FileAction.name : FileAction → String
  | copy _ => "copy"
  | add _ => "add"

/-- Where the files of an action come from. -/
def FileAction.origin : FileAction → Source
  | copy origin => origin
  | add _ => ⟨none, none⟩

/-- The checksum of an action. -/
def FileAction.checksum : FileAction → Option String
  | copy _ => none
  | add checksum => checksum

def FileTask.fields (f : FileTask) : List (String × Json) := [
  ("action", .str f.action.name),
  ("sources", .strings f.sources),
  ("destination", .str f.destination),
  ("source_stage", .ofNat? f.action.origin.stage),
  ("source_image", .ofOption f.action.origin.image),
  ("chown", .ofOption f.chown),
  ("chmod", .ofOption f.chmod),
  ("checksum", .ofOption f.action.checksum),
  ("link", .bool f.link),
  ("platform", .ofOption f.platform)]

/-- What an operation does, with the name of its sort. -/
def Task.fields : Task → List (String × Json)
  | exec e => ("op", .str "exec") :: e.fields
  | file f => ("op", .str "file") :: f.fields
  | config change => [("op", .str "meta"), ("changes", change.toJson)]

/-- What the content key of an operation is computed from. A file operation holds the fields of its
action only. -/
def Task.payload : Task → Json
  | exec e => .obj e.fields
  | file f => .obj ([
      ("action", .str f.action.name),
      ("sources", .strings f.sources),
      ("destination", .str f.destination),
      ("chown", .ofOption f.chown),
      ("chmod", .ofOption f.chmod),
      ("link", .bool f.link),
      ("platform", .ofOption f.platform)] ++
    match f.action with
    | .copy origin => [
        ("source_stage", .ofNat? origin.stage), ("source_image", .ofOption origin.image)]
    | .add checksum => [("checksum", .ofOption checksum)])
  | config change => .obj [("changes", change.toJson)]

/-- An identifier as JSON. -/
def OperationId.toJson (id : OperationId) : Json := .str id.render

def Operation.toJson (o : Operation) : Json := .obj ([
  ("id", o.id.toJson),
  ("stage", .nat o.id.stage),
  ("instruction", .str o.kind.name),
  ("inputs", .arr (o.inputs.map OperationId.toJson)),
  ("cache_key", .str o.key),
  ("location", o.position.toJson),
  ("base_image", .ofOption o.baseImage)] ++ o.task.fields)

def StageGraph.toJson (s : StageGraph) : Json := .obj [
  ("index", .nat s.index),
  ("name", .ofOption s.name),
  ("base_image", .str s.baseImage),
  ("base_stage", .ofNat? s.baseStage),
  ("platform", .ofOption s.platform),
  ("operations", .arr (s.operations.map OperationId.toJson)),
  ("terminal", s.terminal.elim .null OperationId.toJson),
  ("config", s.config.toJson)]

def Missing.toJson (m : Missing) : Json := .obj [
  ("variable", .str m.name),
  ("stage", .ofNat? m.stage),
  ("instruction", .str m.kind.name),
  ("line", .nat m.position.line),
  ("column", .nat m.position.column)]

/-- The fields of a graph. -/
def Graph.fields (g : Graph) : List (String × Json) := [
  ("operations", .arr (g.operations.map Operation.toJson)),
  ("stages", .arr (g.stages.map StageGraph.toJson)),
  ("target", .nat g.target),
  ("platform", .ofOption g.platform),
  ("warnings", .arr (g.warnings.map Missing.toJson)),
  ("unused_build_args", .strings g.unusedArgs)]

/-- A graph as JSON. -/
def Graph.toJson (g : Graph) : Json := .obj g.fields

end Dockerfile
