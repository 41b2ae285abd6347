import Dockerfile.Instruction
import Dockerfile.Table

/-!
# Build graphs

A document lowers to a graph of operations. An operation runs a command, brings in files or changes
the configuration of the image. It names the operations it builds on and carries a content key:
equal keys stand for equal results.
-/

namespace Dockerfile

/-! ### Configurations -/

/-- How the health of a container is checked. -/
structure HealthTest where
  test : List String
  interval : Option String
  timeout : Option String
  startPeriod : Option String
  startInterval : Option String
  retries : Option Int
  deriving DecidableEq, Repr

/-- The configuration of an image. -/
structure Config where
  env : Table String
  workdir : String
  user : Option String
  ports : List String
  volumes : List String
  labels : Table String
  entrypoint : Option (List String)
  cmd : Option (List String)
  shell : List String
  healthcheck : Option HealthTest
  stopSignal : Option String
  onbuild : List String
  maintainer : Option String
  deriving DecidableEq, Repr

/-- The configuration of an image that sets nothing. -/
def Config.initial : Config where
  env := []
  workdir := "/"
  user := none
  ports := []
  volumes := []
  labels := []
  entrypoint := none
  cmd := none
  shell := ["/bin/sh", "-c"]
  healthcheck := none
  stopSignal := none
  onbuild := []
  maintainer := none

/-- A change of a configuration. -/
inductive Change where
  | env (values : Table String)
  | workdir (path : String)
  | user (user : String)
  | ports (ports : List String)
  | volumes (paths : List String)
  | labels (labels : Table String)
  | healthcheck (test : HealthTest)
  /-- A new entry point, which may drop the command. -/
  | entrypoint (args : List String) (dropCmd : Bool)
  | cmd (args : List String)
  | shell (args : List String)
  | onbuild (expression : String)
  | stopSignal (signal : String)
  | maintainer (name : String)
  deriving DecidableEq, Repr

/-- Adds the values that are not there at the end of a list. -/
def addNew {α : Type} [DecidableEq α] (values more : List α) : List α :=
  more.foldl (fun done value => if done.contains value then done else done ++ [value]) values

/-- The configuration after a change. -/
def Config.apply (c : Config) : Change → Config
  | .env values => { c with env := c.env.update values }
  | .workdir path => { c with workdir := path }
  | .user name => { c with user := some name }
  | .ports ports => { c with ports := addNew c.ports ports }
  | .volumes paths => { c with volumes := addNew c.volumes paths }
  | .labels labels => { c with labels := c.labels.update labels }
  | .healthcheck test => { c with healthcheck := some test }
  | .entrypoint args dropCmd =>
    { c with entrypoint := some args, cmd := if dropCmd then none else c.cmd }
  | .cmd args => { c with cmd := some args }
  | .shell args => { c with shell := args }
  | .onbuild expression => { c with onbuild := c.onbuild ++ [expression] }
  | .stopSignal signal => { c with stopSignal := some signal }
  | .maintainer name => { c with maintainer := some name }

/-! ### Operations -/

/-- Names an operation: the stage and the position of its instruction. -/
structure OperationId where
  stage : Nat
  position : Nat
  deriving DecidableEq, Repr

/-- The name as text. -/
def OperationId.render (id : OperationId) : String := s!"s{id.stage}.{id.position}"

/-- Where files come from: a stage, an image, both for a stage without operations, or neither for
the context of the build. -/
structure Source where
  stage : Option Nat
  image : Option String
  deriving DecidableEq, Repr

/-- What is mounted while a command runs. -/
structure MountPoint where
  type : String
  source : Option String
  target : Option String
  origin : Source
  options : List Binding
  deriving DecidableEq, Repr

/-- A command with all it runs in. -/
structure Exec where
  args : List String
  env : List Binding
  workdir : String
  user : Option String
  mounts : List MountPoint
  network : Option String
  security : Option String
  platform : Option String
  deriving DecidableEq, Repr

/-- The part of a file operation that depends on its instruction. -/
inductive FileAction where
  | copy (origin : Source)
  | add (checksum : Option String)
  deriving DecidableEq, Repr

/-- Files that are brought in. -/
structure FileTask where
  action : FileAction
  sources : List String
  destination : String
  chown : Option String
  chmod : Option String
  link : Bool
  platform : Option String
  deriving DecidableEq, Repr

/-- What an operation does. -/
inductive Task where
  | exec (exec : Exec)
  | file (file : FileTask)
  | config (change : Change)
  deriving DecidableEq, Repr

/-- An operation of a graph. -/
structure Operation where
  id : OperationId
  kind : Kind
  inputs : List OperationId
  key : String
  position : Position
  /-- The image that the operation starts from, if it builds on no other operation of its stage or
  of the stage's base. -/
  baseImage : Option String
  task : Task
  deriving DecidableEq, Repr

/-! ### Graphs -/

/-- A stage of a graph. -/
structure StageGraph where
  index : Nat
  name : Option String
  baseImage : String
  baseStage : Option Nat
  platform : Option String
  operations : List OperationId
  /-- The operation whose result is the stage. -/
  terminal : Option OperationId
  config : Config
  deriving DecidableEq, Repr

/-- A variable that had no value where it was used. -/
structure Missing where
  name : String
  /-- None before the first stage. -/
  stage : Option Nat
  kind : Kind
  position : Position
  deriving DecidableEq, Repr

/-- The wording of a missing variable. -/
def Missing.message (m : Missing) : String :=
  let scope := m.stage.elim "global scope" fun stage => s!"stage {stage}"
  s!"{m.position.render}: ${m.name} has no value in {scope} {m.kind.name}; " ++
    "substituted an empty string"

/-- What a target stage of a document lowers to. -/
structure Graph where
  /-- Each operation behind those it builds on. -/
  operations : List Operation
  stages : List StageGraph
  target : Nat
  platform : Option String
  warnings : List Missing
  /-- The names of supplied build arguments that nothing declares. -/
  unusedArgs : List String
  deriving DecidableEq, Repr

namespace Graph

/-- The operation of a name. -/
def operation? (g : Graph) (id : String) : Option Operation :=
  g.operations.find? (·.id.render = id)

/-- The stage of a number. -/
def stage? (g : Graph) (index : Nat) : Option StageGraph := g.stages.find? (·.index = index)

/-- The operations of a stage. -/
def stageOperations (g : Graph) (index : Nat) : List Operation :=
  g.operations.filter (·.id.stage = index)

/-- The operation whose result is the target. -/
def terminal? (g : Graph) : Option OperationId := (g.stage? g.target).bind StageGraph.terminal

end Graph

end Dockerfile
