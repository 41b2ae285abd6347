import Dockerfile.Check.Resolution
import Dockerfile.Lower.Scope

/-!
# Plans

Before anything is lowered, every stage is walked to find out which stages it needs: the one it
starts from and those that its instructions refer to. References may hold variables, so the walk
keeps the scope of the stage.
-/

namespace Dockerfile.Lower

/-- What a reference means: a stage, or an image. -/
inductive Reference where
  | stage (index : Nat)
  | image (name : String)
  deriving DecidableEq, Repr

/-- The stage that a reference means, if it means one. -/
def Reference.stage? : Reference → Option Nat
  | stage index => some index
  | image _ => none

/-- What the walk over a stage found. -/
structure Plan where
  stage : Stage
  /-- The stage that the stage starts from. -/
  base : Option Nat
  /-- The references of the stage, each with the position of its instruction and its slot. -/
  references : List ((Nat × Nat) × Reference)
  /-- The variables that are set at the end of the stage. -/
  env : Table String

namespace Plan

/-- The reference at a position and slot. -/
def reference? (p : Plan) (position slot : Nat) : Option Reference :=
  p.references.lookup (position, slot)

/-- The stages that the instruction at a position refers to. -/
def stagesAt (p : Plan) (position : Nat) : List Nat :=
  (p.references.filter (·.1.1 = position)).filterMap fun entry => entry.2.stage?

/-- The stages that a stage uses directly. -/
def uses (p : Plan) : List Nat :=
  p.base.toList ++ p.references.filterMap fun entry => entry.2.stage?

end Plan

/-- What is known when stages are planned. -/
structure Planner where
  document : Document
  setting : Setting
  metas : Metas
  /-- References that are settled from outside. -/
  resolution : Resolution

namespace Planner

/-- The image text of a stage with its variables replaced. -/
def image (p : Planner) (stage : Stage) : String :=
  (Phrase.word stage.base.image).value p.setting.escape (p.setting.globalLookup p.metas)

/-- The stage that a stage starts from. -/
def base? (p : Planner) (stage : Stage) : Option Nat :=
  match p.resolution.baseOf? stage.index with
  | some index => some index
  | none => p.document.resolve? (p.image stage) stage.index

/-- What a reference of a stage means. -/
def reference (p : Planner) (stage : Stage) (position slot : Nat) (text : String) : Reference :=
  match p.resolution.get? ⟨stage.index, some position, slot⟩ with
  | some index => .stage index
  | none =>
    match p.document.resolve? text stage.index with
    | some index => .stage index
    | none => .image text

/-- The references of an instruction, each with its slot. -/
def origins : Body → List (Nat × String)
  | .copy c => (c.origin.filter fun text => !text.isEmpty).toList.map fun text => (0, text)
  | .run r => r.mounts.zipIdx.filterMap fun (mount, slot) =>
    (mount.origin.filter fun text => !text.isEmpty).map fun text => (slot, text)
  | _ => []

/-- The references of the instructions from a position on. -/
def references (p : Planner) (stage : Stage) (scope : Scope) (position : Nat) :
    List Instruction → List ((Nat × Nat) × Reference)
  | [] => []
  | i :: rest =>
    ((origins i.body).map fun (slot, text) =>
        ((position, slot), p.reference stage position slot (scope.word p.setting text))) ++
      p.references stage (scope.after p.setting p.metas i.body) (position + 1) rest

/-- The scope behind some instructions. -/
def scopeAfter (p : Planner) (scope : Scope) (instructions : List Instruction) : Scope :=
  instructions.foldl (fun s i => s.after p.setting p.metas i.body) scope

/-- Plans a stage that starts with some variables set. -/
def planFrom (p : Planner) (stage : Stage) (env : Table String) : Plan where
  stage := stage
  base := p.base? stage
  references := p.references stage ⟨env, []⟩ 0 stage.instructions
  env := (p.scopeAfter ⟨env, []⟩ stage.instructions).env

/-- Plans stages behind those that are planned. A stage that starts from one that is not planned
yet stops the walk, and is given as the fault. -/
def planStages (p : Planner) (plans : List Plan) : List Stage → Except Nat (List Plan)
  | [] => .ok plans
  | stage :: rest =>
    match p.base? stage with
    | none => p.planStages (plans ++ [p.planFrom stage []]) rest
    | some base =>
      match plans[base]? with
      | some earlier => p.planStages (plans ++ [p.planFrom stage earlier.env]) rest
      | none => .error base

/-- The plans of all stages. -/
def plans (p : Planner) : Except Nat (List Plan) := p.planStages [] p.document.stages

end Planner

end Dockerfile.Lower
