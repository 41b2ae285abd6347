import Dockerfile.Dependencies
import Dockerfile.Graph.Dump
import Dockerfile.Json.Writer
import Dockerfile.Lower.Trace
import Dockerfile.Sha256

/-!
# Lowering

A target stage of a document is lowered in three steps: all stages are planned, the stages that the
target needs are put in order, and each of them is lowered into a chain of operations that starts
where its base ends.
-/

namespace Dockerfile

namespace Lower

/-! ### Content keys -/

/-- What the key of an operation is computed from: the instruction, what it does, the keys of the
operations it builds on, and for the first operation of a stage the image and the platform that the
stage starts from. -/
def payload (kind : Kind) (task : Task) (keys : List String)
    (root : Option (String × Option String)) : Json :=
  .obj ([
    ("instruction", .str kind.name),
    ("args", task.payload),
    ("inputs", .strings keys)] ++
    match root with
    | some (image, platform) =>
      [("base", .obj [("image", .str image), ("platform", .ofOption platform)])]
    | none => [])

/-- The content key of a payload. -/
def contentKey (payload : Json) : String := "sha256:" ++ Sha256.ofText payload.canonical

/-! ### Stages -/

/-- A stage that is lowered. -/
structure Lowered where
  graph : StageGraph
  /-- The image that the stage goes back to. -/
  root : String
  operations : List Operation

/-- What is the same for all stages. -/
structure Frame where
  setting : Setting
  metas : Metas
  /-- The requested platform. -/
  platform : Option Platform

/-- A text of a `FROM` with its variables replaced. -/
def Frame.value (frame : Frame) (text : String) : String :=
  (Phrase.word text).value frame.setting.escape (frame.setting.globalLookup frame.metas)

/-- The stage of a number among those that are lowered. -/
def find? (done : List Lowered) (index : Nat) : Option Lowered :=
  done.find? (·.graph.index = index)

/-- The lowered stage that a stage starts from. -/
def baseIn? (done : List Lowered) (plan : Plan) : Option Lowered := plan.base.bind (find? done)

/-- The image that a stage goes back to: that of the stage it starts from, else the one that its
`FROM` names. -/
def Frame.root (frame : Frame) (done : List Lowered) (plan : Plan) : String :=
  (baseIn? done plan).elim (Image.normalize (frame.value plan.stage.base.image)) Lowered.root

/-- Looks up the stages of some numbers. -/
def lookUpStages (done : List Lowered) : List Nat → Except Fault Unit
  | [] => .ok ()
  | index :: rest =>
    match find? done index with
    | none => .error (.unlowered index)
    | some _ => lookUpStages done rest

/-- Where the files of a reference come from, and the operation that must be done before. -/
def sourceOf (done : List Lowered) : Option Reference → Source × Option OperationId
  | none => (⟨none, none⟩, none)
  | some (.image name) => (⟨none, some (Image.normalize name)⟩, none)
  | some (.stage index) =>
    match find? done index with
    | none => (⟨some index, none⟩, none)
    | some stage =>
      match stage.graph.terminal with
      | none => (⟨some index, some stage.root⟩, none)
      | some id => (⟨some index, none⟩, some id)

/-- The key of an operation among those that are made. -/
def keyOf? (made : List Operation) (id : OperationId) : Option String :=
  (made.find? (·.id = id)).map Operation.key

/-- Looks up the keys of operations. -/
def lookUpKeys (made : List Operation) : List OperationId → Except Fault (List String)
  | [] => .ok []
  | id :: rest =>
    match keyOf? made id with
    | none => .error (.unkeyed id)
    | some key => (key :: ·) <$> lookUpKeys made rest

/-- The walk over a stage so far. -/
structure Progress where
  config : Config
  args : Table (Option String)
  ownCmd : Bool
  /-- The last operation so far, of the stage or of its base. -/
  previous : Option OperationId
  operations : List Operation

/-- The scope at the end of the walk so far. -/
def Progress.scope (p : Progress) : Scope := ⟨p.config.env, p.args⟩

/-- The walk before the first instruction of a stage. -/
def Progress.start (base : Option Lowered) : Progress where
  config := base.elim Config.initial fun b => b.graph.config
  args := []
  ownCmd := false
  previous := base.bind fun b => b.graph.terminal
  operations := []

/-- What is the same for all instructions of a stage. -/
structure StageFrame where
  frame : Frame
  plan : Plan
  done : List Lowered
  platform : Option String
  root : String

namespace StageFrame

/-- The place of an instruction of the stage. -/
def place (f : StageFrame) (kind : Kind) (position : Position) : Place :=
  ⟨some (f.plan.stage.index, f.plan.stage.name), kind, position⟩

/-- What an instruction knows of its surroundings. -/
def surroundings (f : StageFrame) (p : Progress) (position : Nat) : Surroundings where
  setting := f.frame.setting
  scope := p.scope
  config := p.config
  ownCmd := p.ownCmd
  platform := f.platform
  source := fun slot => sourceOf f.done (f.plan.reference? position slot)

/-- The operations that are made so far, of the stages before and of the stage. -/
def made (f : StageFrame) (p : Progress) : List Operation :=
  f.done.flatMap Lowered.operations ++ p.operations

/-- The operations that an instruction builds on: the last one so far and those of other stages. -/
def inputs (f : StageFrame) (p : Progress) (position : Nat) (i : Instruction) : List OperationId :=
  addNew p.previous.toList ((f.surroundings p position).links i.body)

/-- The operation of a task, with the keys of its inputs. -/
def operation (f : StageFrame) (p : Progress) (position : Nat) (i : Instruction) (task : Task)
    (keys : List String) : Operation :=
  let first := p.operations.isEmpty
  let root := if first then some (f.root, f.platform) else none
  { id := ⟨f.plan.stage.index, position⟩
    kind := i.kind
    inputs := f.inputs p position i
    key := contentKey (payload i.kind task keys root)
    position := i.position
    baseImage := if first && p.previous.isNone then some f.root else none
    task := task }

/-- The configuration after a task. -/
def configAfter (config : Config) : Task → Config
  | .config change => config.apply change
  | _ => config

/-- Lowers an instruction. -/
def lowerInstruction (f : StageFrame) (p : Progress) (position : Nat) (i : Instruction) :
    Traced Progress := do
  report (f.place i.kind i.position) (p.scope.expansions f.frame.setting f.frame.metas i.body)
  Traced.ofExcept (lookUpStages f.done (f.plan.stagesAt position))
  let args := (p.scope.after f.frame.setting f.frame.metas i.body).args
  match (f.surroundings p position).task? i.body with
  | none => return { p with args := args }
  | some task =>
    let keys ← Traced.ofExcept (lookUpKeys (f.made p) (f.inputs p position i))
    let operation := f.operation p position i task keys
    Traced.tell (.keyed operation.id i.kind operation.key)
    return {
      config := configAfter p.config task
      args := args
      ownCmd := p.ownCmd || i.kind = .cmd
      previous := some operation.id
      operations := p.operations ++ [operation] }

/-- Lowers the instructions from a position on. -/
def lowerFrom (f : StageFrame) (p : Progress) (position : Nat) :
    List Instruction → Traced Progress
  | [] => pure p
  | i :: rest => do
    let p ← f.lowerInstruction p position i
    f.lowerFrom p (position + 1) rest

/-- The stage at the end of the walk over it. -/
def lowered (f : StageFrame) (p : Progress) : Lowered where
  graph := {
    index := f.plan.stage.index
    name := f.plan.stage.name
    baseImage :=
      if (baseIn? f.done f.plan).isSome then f.frame.value f.plan.stage.base.image else f.root
    baseStage := f.plan.base
    platform := f.platform
    operations := p.operations.map Operation.id
    terminal := p.previous
    config := p.config }
  root := f.root
  operations := p.operations

end StageFrame

/-- The platform of a stage: the requested one, with which the one that its `FROM` names must
agree, else the one that its `FROM` names, else the one of its base. -/
def stagePlatform (requested : Option Platform) (pinned : Option String)
    (base : Option Lowered) (place : Place) : Except Fault (Option String) :=
  let pinned := pinned.filter fun text => !text.isEmpty
  let parsed := pinned.bind fun text => (Platform.parse text).toOption
  match requested, parsed with
  | some platform, some own =>
    if own.agrees platform then .ok (some platform.render)
    else .error (.platformConflict own platform place)
  | some platform, none => .ok (some platform.render)
  | none, some own => .ok (some own.render)
  | none, none =>
    match pinned with
    | some text => .ok (some text)
    | none => .ok (base.bind fun b => b.graph.platform)

/-- The texts of a `FROM` whose variables are replaced. -/
def basePhrases (base : Base) : List Phrase := .word base.image :: Phrase.optional base.platform

/-- Lowers a stage behind those that it needs. -/
def lowerStage (frame : Frame) (done : List Lowered) (plan : Plan) : Traced Lowered := do
  let stage := plan.stage
  Traced.tell (.stage stage.index stage.displayName)
  let place : Place := ⟨some (stage.index, stage.name), .base, stage.position⟩
  let lookup := frame.setting.globalLookup frame.metas
  report place ((basePhrases stage.base).map (Phrase.expand frame.setting.escape lookup))
  let base := baseIn? done plan
  let platform ← Traced.ofExcept
    (stagePlatform frame.platform (stage.base.platform.map frame.value) base place)
  let f : StageFrame := ⟨frame, plan, done, platform, frame.root done plan⟩
  let p ← f.lowerFrom (Progress.start base) 0 stage.instructions
  return f.lowered p

/-- Lowers planned stages in an order. -/
def lowerStages (frame : Frame) (plans : List Plan) (done : List Lowered) :
    List Nat → Traced (List Lowered)
  | [] => pure done
  | index :: rest =>
    match plans[index]? with
    | none => Traced.fail (.unplanned index)
    | some plan => do
      let lowered ← lowerStage frame done plan
      lowerStages frame plans (done ++ [lowered]) rest

/-! ### Targets and arguments -/

/-- The stage that a target names: its number or its name, and without a target the last stage. -/
def target (d : Document) : Option String → Except Fault Nat
  | none =>
    match d.stages.getLast? with
    | some stage => .ok stage.index
    | none => .error .noStages
  | some reference =>
    if d.stages.isEmpty then .error .noStages
    else match (Text.decimalIndex? reference).filter (· < d.stages.length) with
      | some index => .ok index
      | none =>
        match d.stageNamed? reference with
        | some stage => .ok stage.index
        | none =>
          .error (.unknownTarget reference
            ((d.stages.filterMap Stage.name).filter fun name => !name.isEmpty))

/-- The values that are declared before the first stage. -/
def declareMetas (setting : Setting) (metas : Metas) :
    List (Position × List Declaration) → Traced Metas
  | [] => pure metas
  | (position, declarations) :: rest => do
    report ⟨none, .arg, position⟩ (setting.metaExpansions metas declarations)
    declareMetas setting (declarations.foldl setting.declareMeta metas) rest

/-- The names of arguments that some instructions declare. -/
def declaredIn (instructions : List Instruction) : List String :=
  instructions.flatMap fun i =>
    match i.body with
    | .arg declarations => declarations.map Declaration.name
    | _ => []

/-- The supplied arguments that neither the preamble nor a lowered stage declares, in order. -/
def unusedArgs (d : Document) (buildArgs : Table String) (stages : List Nat) : List String :=
  let declared := declaredIn d.preamble ++
    (d.stages.filter fun s => stages.contains s.index).flatMap fun s => declaredIn s.instructions
  Dependencies.sortDistinct (buildArgs.names.filter fun name =>
    !declared.contains name && !Platform.globalArgs.contains name)

/-! ### Graphs -/

/-- Which stages planned stages use. -/
def dependencies (plans : List Plan) : Dependencies Nat :=
  ⟨plans.map fun plan => (plan.stage.index, plan.uses)⟩

/-- Puts a stage before those with higher numbers. -/
def insertByIndex (stage : StageGraph) : List StageGraph → List StageGraph
  | [] => [stage]
  | other :: rest =>
    if stage.index < other.index then stage :: other :: rest else other :: insertByIndex stage rest

/-- Stages in the order of their numbers. -/
def sortByIndex (stages : List StageGraph) : List StageGraph :=
  stages.foldl (fun sorted stage => insertByIndex stage sorted) []

/-- The platform of a graph: the requested one, else that of the target. -/
def graphPlatform (requested : Option Platform) (done : List Lowered) (goal : Nat) :
    Except Fault (Option String) :=
  match requested with
  | some platform => .ok (some platform.render)
  | none =>
    match find? done goal with
    | some stage => .ok stage.graph.platform
    | none => .error (.unlowered goal)

/-- The missing variable that an event tells. -/
def Event.missing? : Event → Option Missing
  | .missing m => some m
  | _ => none

/-- Do two missing variables have one name and one place? -/
def sameMissing (m n : Missing) : Bool := m.name = n.name && m.position = n.position

/-- Does an event tell a missing variable that earlier events tell? -/
def isRepeated (earlier : List Event) (event : Event) : Bool :=
  event.missing?.any fun m => (earlier.filterMap Event.missing?).any (sameMissing m)

/-- Events without those that tell a missing variable of a place once more. -/
def distinctEvents (events : List Event) : List Event :=
  events.foldl (fun done event => if isRepeated done event then done else done ++ [event]) []

/-- What is asked of a lowering. -/
structure Job where
  buildArgs : Table String
  target : Option String
  platform : Option Platform
  deriving DecidableEq, Repr

/-- The setting in which a document is lowered. -/
def Job.setting (job : Job) (d : Document) : Setting where
  escape := d.escape
  buildArgs := job.buildArgs
  platformArgs := job.platform.elim [] Platform.buildArgs

/-- Lowers a document up to its warnings, which are among the events, a missing variable each time
that it is used. -/
def build (d : Document) (job : Job) (resolution : Resolution) : Traced Graph := do
  let setting := job.setting d
  let goal ← Traced.ofExcept (target d job.target)
  let metas ← declareMetas setting [] d.metaArgs
  let planner : Planner := ⟨d, setting, metas, resolution⟩
  let plans ← Traced.ofExcept (planner.plans.mapError .unplanned)
  let needed := (dependencies plans).closure goal
  let skipped := (List.range plans.length).filter fun index => !needed.contains index
  Traced.tellIf (!skipped.isEmpty) (.pruned skipped goal)
  let order ← Traced.ofExcept
    (((dependencies plans).order goal).mapError fun cycle => .cycle cycle.member)
  let done ← lowerStages ⟨setting, metas, job.platform⟩ plans [] order
  let unused := unusedArgs d job.buildArgs order
  Traced.tellIf (!unused.isEmpty) (.unused unused)
  let platform ← Traced.ofExcept (graphPlatform job.platform done goal)
  return {
    operations := done.flatMap Lowered.operations
    stages := sortByIndex (done.map Lowered.graph)
    target := goal
    platform := platform
    warnings := []
    unusedArgs := unused }

end Lower

open Lower

/-- Lowers a document with the references that a resolution settles. A variable that is missing more
than once at a place is told once. -/
def Document.lower (d : Document) (job : Job) (resolution : Resolution) : Traced Graph :=
  let built := build d job resolution
  let events := distinctEvents built.events
  ⟨events, built.result.map fun g => { g with warnings := events.filterMap Event.missing? }⟩

/-- Lowers a document that was checked, unless the check found errors. -/
def Document.lowerChecked (d : Document) (report : Report) (job : Job) : Traced Graph :=
  if report.ok then d.lower job report.resolution else Traced.fail (.rejected report)

/-- The platform that a text asks for. -/
def Lower.readPlatform : Option String → Except Fault (Option Platform)
  | none => .ok none
  | some text =>
    match Platform.parse text with
    | .ok platform => .ok (some platform)
    | .error fault => .error (.platform text fault)

/-- Lowers a document for a platform that is given as text. Errors of a check are refused first,
then a platform that cannot be read. References are settled by a resolution, or else by the
check. -/
def Document.lowerFor (d : Document) (report : Option Report) (resolution : Option Resolution)
    (buildArgs : Table String) (target platform : Option String) : Traced Graph :=
  match report.filter fun r => !r.ok with
  | some report => Traced.fail (.rejected report)
  | none =>
    match Lower.readPlatform platform with
    | .error fault => Traced.fail fault
    | .ok platform =>
      let settled := resolution.or (report.map Report.resolution)
      d.lower ⟨buildArgs, target, platform⟩ (settled.getD .empty)

end Dockerfile
