import Dockerfile.Lower
import Dockerfile.Proofs.Relocation
import Mathlib.Data.List.Basic

/-!
# Places of what is lowered

Where the instructions of a document stand does not matter for what it is lowered to. The operations
and the missing variables have other places, and nothing else changes (`lower_relocate`), as long as
different places stay different: a missing variable is told once for a place.
-/

namespace Dockerfile

variable (f : Position → Position)

/-! ### Instructions -/

section Bodies

open Lower

theorem after_relocate (s : Scope) (setting : Setting) (metas : Metas) (body : Body) :
    s.after setting metas (body.relocate f) = s.after setting metas body := by
  cases body <;> rfl

theorem expansions_relocate (s : Scope) (setting : Setting) (metas : Metas) (body : Body) :
    s.expansions setting metas (body.relocate f) = s.expansions setting metas body := by
  cases body <;> rfl

theorem task?_relocate (s : Surroundings) (body : Body) :
    s.task? (body.relocate f) = s.task? body := by
  cases body <;> rfl

theorem links_relocate (s : Surroundings) (body : Body) :
    s.links (body.relocate f) = s.links body := by
  cases body <;> rfl

theorem origins_relocate (body : Body) :
    Planner.origins (body.relocate f) = Planner.origins body := by
  cases body <;> rfl

end Bodies

/-! ### Graphs -/

def Missing.relocate (m : Missing) : Missing := { m with position := f m.position }

def Operation.relocate (o : Operation) : Operation := { o with position := f o.position }

def Graph.relocate (g : Graph) : Graph :=
  { g with
    operations := g.operations.map (Operation.relocate f)
    warnings := g.warnings.map (Missing.relocate f) }

namespace Lower

def Event.relocate : Event → Event
  | .missing m => .missing (m.relocate f)
  | event => event

def Place.relocate (place : Place) : Place := { place with position := f place.position }

/-- The faults that lowering itself can have. -/
def Fault.relocate : Fault → Fault
  | .required unset place => .required unset (place.relocate f)
  | .platformConflict pinned requested place =>
    .platformConflict pinned requested (place.relocate f)
  | fault => fault

namespace Traced

variable {α α' β β' : Type} {g : α → α'} {h : β → β'}

def relocate (g : α → α') (x : Traced α) : Traced α' :=
  ⟨x.events.map (Event.relocate f), mapBoth (Fault.relocate f) g x.result⟩

/-- Steps that are the same elsewhere, one after the other. -/
theorem bind_relocate {x : Traced α} {x' : Traced α'} {k : α → Traced β} {k' : α' → Traced β'}
    (hx : x' = x.relocate f g) (hk : ∀ a, k' (g a) = (k a).relocate f h) :
    x' >>= k' = (x >>= k).relocate f h := by
  subst hx
  obtain ⟨events, result⟩ := x
  cases result with
  | error fault => rfl
  | ok a =>
    show (⟨events.map (Event.relocate f) ++ (k' (g a)).events, (k' (g a)).result⟩ : Traced β') =
      relocate f h ⟨events ++ (k a).events, (k a).result⟩
    rw [hk, relocate, relocate, List.map_append]

theorem ofExcept_relocate (x : Except Fault α) :
    ofExcept (mapBoth (Fault.relocate f) g x) = (ofExcept x).relocate f g := by
  cases x <;> rfl

theorem tellIf_relocate (condition : Bool) {event : Event} (h : event = event.relocate f) :
    tellIf condition event = (tellIf condition event).relocate f id := by
  cases condition with
  | false => rfl
  | true => exact congrArg (fun e => (⟨[e], .ok ()⟩ : Traced Unit)) h

end Traced

open Traced

theorem report_relocate (place : Place) (expansions : List Template.Expansion) :
    report (place.relocate f) expansions = (report place expansions).relocate f id := by
  induction expansions with
  | nil => rfl
  | cons e rest ih =>
    have hmissing : (e.missing.map fun name => Event.missing ⟨name,
          (place.relocate f).stage.map Prod.fst, (place.relocate f).kind,
          (place.relocate f).position⟩) =
        (e.missing.map fun name => Event.missing ⟨name, place.stage.map Prod.fst, place.kind,
          place.position⟩).map (Event.relocate f) := by
      rw [List.map_map]
      rfl
    rw [report, report]
    dsimp only
    rw [hmissing]
    cases e.result with
    | error unset => rfl
    | ok value =>
      dsimp only
      rw [ih, Traced.relocate, Traced.relocate, List.map_append]

/-! ### Lowered stages -/

def Lowered.relocate (stage : Lowered) : Lowered :=
  { stage with operations := stage.operations.map (Operation.relocate f) }

def Plan.relocate (plan : Plan) : Plan := { plan with stage := plan.stage.relocate f }

def Progress.relocate (p : Progress) : Progress :=
  { p with operations := p.operations.map (Operation.relocate f) }

theorem find?_relocate (done : List Lowered) (index : Nat) :
    find? (done.map (Lowered.relocate f)) index = (find? done index).map (Lowered.relocate f) := by
  unfold find?
  rw [List.find?_map]
  rfl

theorem baseIn?_relocate (done : List Lowered) (plan : Plan) :
    baseIn? (done.map (Lowered.relocate f)) (plan.relocate f) =
      (baseIn? done plan).map (Lowered.relocate f) := by
  unfold baseIn?
  rw [show (plan.relocate f).base = plan.base from rfl]
  cases plan.base with
  | none => rfl
  | some index => exact find?_relocate f done index

theorem lookUpStages_relocate (done : List Lowered) (indices : List Nat) :
    lookUpStages (done.map (Lowered.relocate f)) indices =
      mapBoth (Fault.relocate f) id (lookUpStages done indices) := by
  induction indices with
  | nil => rfl
  | cons index rest ih =>
    rw [lookUpStages, lookUpStages, find?_relocate, ih]
    cases find? done index <;> rfl

theorem sourceOf_relocate (done : List Lowered) (reference : Option Reference) :
    sourceOf (done.map (Lowered.relocate f)) reference = sourceOf done reference := by
  cases reference with
  | none => rfl
  | some reference =>
    cases reference with
    | image name => rfl
    | stage index =>
      rw [sourceOf, sourceOf, find?_relocate]
      cases find? done index <;> rfl

theorem keyOf?_relocate (made : List Operation) (id : OperationId) :
    keyOf? (made.map (Operation.relocate f)) id = keyOf? made id := by
  unfold keyOf?
  rw [List.find?_map, Option.map_map]
  rfl

theorem lookUpKeys_relocate (made : List Operation) (ids : List OperationId) :
    lookUpKeys (made.map (Operation.relocate f)) ids =
      mapBoth (Fault.relocate f) id (lookUpKeys made ids) := by
  induction ids with
  | nil => rfl
  | cons i rest ih =>
    rw [lookUpKeys, lookUpKeys, keyOf?_relocate, ih]
    cases keyOf? made i with
    | none => rfl
    | some key => exact mapBoth_map fun _ => rfl

theorem flatMap_operations_relocate (done : List Lowered) :
    (done.map (Lowered.relocate f)).flatMap Lowered.operations =
      (done.flatMap Lowered.operations).map (Operation.relocate f) := by
  rw [List.flatMap_map, List.map_flatMap]
  rfl

namespace StageFrame

def relocate (frame : StageFrame) : StageFrame :=
  { frame with plan := frame.plan.relocate f, done := frame.done.map (Lowered.relocate f) }

variable (frame : StageFrame) (p : Progress) (position : Nat)

theorem surroundings_relocate :
    (frame.relocate f).surroundings (p.relocate f) position = frame.surroundings p position := by
  unfold surroundings
  congr 1
  funext slot
  exact sourceOf_relocate f frame.done _

theorem made_relocate : (frame.relocate f).made (p.relocate f) =
    (frame.made p).map (Operation.relocate f) := by
  unfold made
  rw [List.map_append, ← flatMap_operations_relocate]
  rfl

theorem inputs_relocate (i : Instruction) :
    (frame.relocate f).inputs (p.relocate f) position (i.relocate f) =
      frame.inputs p position i := by
  unfold inputs
  rw [surroundings_relocate]
  exact congrArg (addNew p.previous.toList) (links_relocate f _ i.body)

theorem operation_relocate (i : Instruction) (task : Task) (keys : List String) :
    (frame.relocate f).operation (p.relocate f) position (i.relocate f) task keys =
      (frame.operation p position i task keys).relocate f := by
  unfold operation
  rw [inputs_relocate, Document.kind_relocate]
  have hfirst : (p.relocate f).operations.isEmpty = p.operations.isEmpty := List.isEmpty_map
  rw [hfirst]
  rfl

/-- An instruction elsewhere is lowered to the same operation elsewhere. -/
theorem lowerInstruction_relocate (i : Instruction) :
    (frame.relocate f).lowerInstruction (p.relocate f) position (i.relocate f) =
      (frame.lowerInstruction p position i).relocate f (Progress.relocate f) := by
  have hplace : (frame.relocate f).place (i.relocate f).kind (i.relocate f).position =
      (frame.place i.kind i.position).relocate f := by
    rw [Document.kind_relocate]
    rfl
  have hexpansions := expansions_relocate f p.scope frame.frame.setting frame.frame.metas i.body
  have hafter := after_relocate f p.scope frame.frame.setting frame.frame.metas i.body
  have htask := task?_relocate f (frame.surroundings p position) i.body
  have hstages := lookUpStages_relocate f frame.done (frame.plan.stagesAt position)
  unfold lowerInstruction
  rw [hplace, surroundings_relocate, made_relocate, inputs_relocate, lookUpKeys_relocate,
    show (i.relocate f).body = i.body.relocate f from rfl, htask,
    show (p.relocate f).scope = p.scope from rfl,
    show (frame.relocate f).frame = frame.frame from rfl, hexpansions, hafter, report_relocate,
    show (frame.relocate f).done = frame.done.map (Lowered.relocate f) from rfl,
    show (frame.relocate f).plan.stagesAt position = frame.plan.stagesAt position from rfl, hstages,
    ofExcept_relocate, ofExcept_relocate]
  refine bind_relocate f rfl fun _ => bind_relocate f rfl fun _ => ?_
  cases (frame.surroundings p position).task? i.body with
  | none => rfl
  | some task =>
    refine bind_relocate f rfl fun keys => ?_
    dsimp only [id]
    have hoperations (o : Operation) : (p.relocate f).operations ++ [o.relocate f] =
        (p.operations ++ [o]).map (Operation.relocate f) := by
      rw [List.map_append]
      rfl
    rw [operation_relocate, Document.kind_relocate, hoperations]
    rfl

theorem lowerFrom_relocate (instructions : List Instruction) :
    (frame.relocate f).lowerFrom (p.relocate f) position
        (instructions.map (Instruction.relocate f)) =
      (frame.lowerFrom p position instructions).relocate f (Progress.relocate f) := by
  induction instructions generalizing p position with
  | nil => rfl
  | cons i rest ih =>
    rw [List.map_cons, lowerFrom, lowerFrom]
    exact bind_relocate f (lowerInstruction_relocate f frame p position i) fun p =>
      ih p (position + 1)

theorem lowered_relocate : (frame.relocate f).lowered (p.relocate f) =
    (frame.lowered p).relocate f := by
  have hbase : (baseIn? (frame.relocate f).done (frame.relocate f).plan).isSome =
      (baseIn? frame.done frame.plan).isSome := by
    rw [show (frame.relocate f).done = frame.done.map (Lowered.relocate f) from rfl,
      show (frame.relocate f).plan = frame.plan.relocate f from rfl, baseIn?_relocate,
      Option.isSome_map]
  have hids : (p.relocate f).operations.map Operation.id = p.operations.map Operation.id := by
    rw [show (p.relocate f).operations = p.operations.map (Operation.relocate f) from rfl,
      List.map_map]
    rfl
  unfold lowered
  rw [hbase, hids]
  rfl

end StageFrame

theorem root_relocate (frame : Frame) (done : List Lowered) (plan : Plan) :
    frame.root (done.map (Lowered.relocate f)) (plan.relocate f) = frame.root done plan := by
  unfold Frame.root
  rw [baseIn?_relocate]
  cases baseIn? done plan <;> rfl

theorem start_relocate (base : Option Lowered) :
    Progress.start (base.map (Lowered.relocate f)) = (Progress.start base).relocate f := by
  cases base <;> rfl

theorem stagePlatform_relocate (requested : Option Platform) (pinned : Option String)
    (base : Option Lowered) (place : Place) :
    stagePlatform requested pinned (base.map (Lowered.relocate f)) (place.relocate f) =
      mapBoth (Fault.relocate f) id (stagePlatform requested pinned base place) := by
  have hbase : ((base.map (Lowered.relocate f)).bind fun b => b.graph.platform) =
      base.bind fun b => b.graph.platform := by
    cases base <;> rfl
  unfold stagePlatform
  dsimp only
  rw [hbase]
  generalize pinned.filter (fun text => !text.isEmpty) = pinned
  cases requested with
  | none =>
    cases pinned.bind fun text => (Platform.parse text).toOption with
    | none => cases pinned <;> rfl
    | some own => rfl
  | some platform =>
    cases pinned.bind fun text => (Platform.parse text).toOption with
    | none => rfl
    | some own =>
      dsimp only
      rw [mapBoth_ite]
      rfl

/-- A stage elsewhere is lowered to the same operations elsewhere. -/
theorem lowerStage_relocate (frame : Frame) (done : List Lowered) (plan : Plan) :
    lowerStage frame (done.map (Lowered.relocate f)) (plan.relocate f) =
      (lowerStage frame done plan).relocate f (Lowered.relocate f) := by
  have hplatform := stagePlatform_relocate f frame.platform
    (plan.stage.base.platform.map frame.value) (baseIn? done plan)
    ⟨some (plan.stage.index, plan.stage.name), .base, plan.stage.position⟩
  have hreport := report_relocate f
    ⟨some (plan.stage.index, plan.stage.name), .base, plan.stage.position⟩
    ((basePhrases plan.stage.base).map
      (Phrase.expand frame.setting.escape (frame.setting.globalLookup frame.metas)))
  unfold lowerStage
  dsimp only
  rw [baseIn?_relocate, root_relocate]
  refine bind_relocate f (g := id) rfl fun _ => bind_relocate f hreport fun _ => ?_
  refine bind_relocate f ((congrArg ofExcept hplatform).trans (ofExcept_relocate f _))
    fun platform => ?_
  let stageFrame : StageFrame := ⟨frame, plan, done, platform, frame.root done plan⟩
  rw [start_relocate]
  refine bind_relocate f (stageFrame.lowerFrom_relocate f _ 0 plan.stage.instructions) fun p => ?_
  exact congrArg Traced.ok (stageFrame.lowered_relocate f p)

theorem lowerStages_relocate (frame : Frame) (plans : List Plan) (done : List Lowered)
    (order : List Nat) :
    lowerStages frame (plans.map (Plan.relocate f)) (done.map (Lowered.relocate f)) order =
      (lowerStages frame plans done order).relocate f (List.map (Lowered.relocate f)) := by
  induction order generalizing done with
  | nil => rfl
  | cons index rest ih =>
    rw [lowerStages, lowerStages, List.getElem?_map]
    cases plans[index]? with
    | none => rfl
    | some plan =>
      refine bind_relocate f (lowerStage_relocate f frame done plan) fun lowered => ?_
      rw [← ih, List.map_append]
      rfl

/-! ### Plans -/

def Planner.relocate (p : Planner) : Planner := { p with document := p.document.relocate f }

theorem resolve?_relocate (d : Document) (reference : String) (before : Nat) :
    (d.relocate f).resolve? reference before = d.resolve? reference before := by
  refine Document.resolve?_congr ?_ reference before
  rw [show (d.relocate f).stages = d.stages.map (Stage.relocate f) from rfl, List.map_map]
  rfl

namespace Planner

variable (p : Planner)

theorem base?_relocate (stage : Stage) :
    (p.relocate f).base? (stage.relocate f) = p.base? stage := by
  unfold base?
  rw [show (p.relocate f).document = p.document.relocate f from rfl, resolve?_relocate]
  rfl

theorem reference_relocate (stage : Stage) (position slot : Nat) (text : String) :
    (p.relocate f).reference (stage.relocate f) position slot text =
      p.reference stage position slot text := by
  unfold reference
  rw [show (p.relocate f).document = p.document.relocate f from rfl, resolve?_relocate]
  rfl

theorem references_relocate (stage : Stage) (scope : Scope) (position : Nat)
    (instructions : List Instruction) :
    (p.relocate f).references (stage.relocate f) scope position
        (instructions.map (Instruction.relocate f)) =
      p.references stage scope position instructions := by
  induction instructions generalizing scope position with
  | nil => rfl
  | cons i rest ih =>
    have hbody : (i.relocate f).body = i.body.relocate f := rfl
    rw [List.map_cons, references, references, hbody, origins_relocate, after_relocate, ih]
    simp only [reference_relocate]
    rfl

theorem scopeAfter_relocate (scope : Scope) (instructions : List Instruction) :
    (p.relocate f).scopeAfter scope (instructions.map (Instruction.relocate f)) =
      p.scopeAfter scope instructions := by
  unfold scopeAfter
  rw [List.foldl_map]
  simp only [Instruction.relocate, after_relocate]
  rfl

theorem planFrom_relocate (stage : Stage) (env : Table String) :
    (p.relocate f).planFrom (stage.relocate f) env = (p.planFrom stage env).relocate f := by
  unfold planFrom
  rw [base?_relocate,
    show (stage.relocate f).instructions = stage.instructions.map (Instruction.relocate f) from rfl,
    references_relocate, scopeAfter_relocate]
  rfl

theorem planStages_relocate (plans : List Plan) (stages : List Stage) :
    (p.relocate f).planStages (plans.map (Plan.relocate f)) (stages.map (Stage.relocate f)) =
      mapBoth id (List.map (Plan.relocate f)) (p.planStages plans stages) := by
  induction stages generalizing plans with
  | nil => rfl
  | cons stage rest ih =>
    have hplan (env : Table String) : plans.map (Plan.relocate f) ++
        [(p.relocate f).planFrom (stage.relocate f) env] =
          (plans ++ [p.planFrom stage env]).map (Plan.relocate f) := by
      rw [List.map_append, planFrom_relocate]
      rfl
    rw [List.map_cons, planStages, planStages, base?_relocate]
    cases p.base? stage with
    | none => rw [hplan, ih]
    | some base =>
      dsimp only
      rw [List.getElem?_map]
      cases plans[base]? with
      | none => rfl
      | some earlier =>
        dsimp only [Option.map_some]
        rw [hplan, ih]
        rfl

end Planner

/-! ### Documents -/

theorem target_relocate (d : Document) (reference : Option String) :
    target (d.relocate f) reference = mapBoth (Fault.relocate f) id (target d reference) := by
  have hstages : (d.relocate f).stages = d.stages.map (Stage.relocate f) := rfl
  cases reference with
  | none =>
    rw [target, target, hstages, List.getLast?_map]
    cases d.stages.getLast? <;> rfl
  | some reference =>
    have hnames : (d.stages.map (Stage.relocate f)).filterMap Stage.name =
        d.stages.filterMap Stage.name := by
      rw [List.filterMap_map]
      rfl
    have hnamed : (d.relocate f).stageNamed? reference =
        (d.stageNamed? reference).map (Stage.relocate f) := by
      unfold Document.stageNamed?
      rw [hstages, List.find?_map]
      rfl
    rw [target, target, hnamed, hstages, List.isEmpty_map, List.length_map, hnames, mapBoth_ite]
    refine ite_congr rfl (fun _ => rfl) fun _ => ?_
    cases (Text.decimalIndex? reference).filter (· < d.stages.length) with
    | some index => rfl
    | none => cases d.stageNamed? reference <;> rfl

theorem metaArgs_relocate (d : Document) :
    (d.relocate f).metaArgs = d.metaArgs.map (Prod.map f id) := by
  unfold Document.metaArgs
  rw [show (d.relocate f).preamble = d.preamble.map (Instruction.relocate f) from rfl,
    List.filterMap_map, List.map_filterMap]
  refine List.filterMap_congr fun i _ => ?_
  obtain ⟨position, body⟩ := i
  cases body <;> rfl

theorem declareMetas_relocate (setting : Setting) (metas : Metas)
    (args : List (Position × List Declaration)) :
    declareMetas setting metas (args.map (Prod.map f id)) =
      (declareMetas setting metas args).relocate f id := by
  induction args generalizing metas with
  | nil => rfl
  | cons arg rest ih =>
    obtain ⟨position, declarations⟩ := arg
    exact bind_relocate f (report_relocate f ⟨none, .arg, position⟩ _) fun _ => ih _

theorem declaredIn_relocate (instructions : List Instruction) :
    declaredIn (instructions.map (Instruction.relocate f)) = declaredIn instructions := by
  unfold declaredIn
  rw [List.flatMap_map]
  refine List.flatMap_congr fun i _ => ?_
  obtain ⟨position, body⟩ := i
  cases body <;> rfl

theorem unusedArgs_relocate (d : Document) (buildArgs : Table String) (stages : List Nat) :
    unusedArgs (d.relocate f) buildArgs stages = unusedArgs d buildArgs stages := by
  have hstages : ((d.relocate f).stages.filter fun s => stages.contains s.index).flatMap
        (fun s => declaredIn s.instructions) =
      (d.stages.filter fun s => stages.contains s.index).flatMap
        fun s => declaredIn s.instructions := by
    rw [show (d.relocate f).stages = d.stages.map (Stage.relocate f) from rfl, List.filter_map,
      List.flatMap_map]
    exact List.flatMap_congr fun s _ => declaredIn_relocate f s.instructions
  unfold unusedArgs
  dsimp only
  rw [hstages, show (d.relocate f).preamble = d.preamble.map (Instruction.relocate f) from rfl,
    declaredIn_relocate]

theorem dependencies_relocate (plans : List Plan) :
    dependencies (plans.map (Plan.relocate f)) = dependencies plans := by
  unfold dependencies
  rw [List.map_map]
  rfl

theorem graphPlatform_relocate (requested : Option Platform) (done : List Lowered) (goal : Nat) :
    graphPlatform requested (done.map (Lowered.relocate f)) goal =
      mapBoth (Fault.relocate f) id (graphPlatform requested done goal) := by
  cases requested with
  | some platform => rfl
  | none =>
    rw [graphPlatform, graphPlatform, find?_relocate]
    cases find? done goal <;> rfl

/-- What lowering builds has the places of the document, and nothing else depends on them. -/
theorem build_relocate (d : Document) (job : Job) (resolution : Resolution) :
    build (d.relocate f) job resolution =
      (build d job resolution).relocate f (Graph.relocate f) := by
  unfold build
  dsimp only
  rw [show job.setting (d.relocate f) = job.setting d from rfl, target_relocate,
    metaArgs_relocate]
  refine bind_relocate f (ofExcept_relocate f _) fun goal => ?_
  refine bind_relocate f (declareMetas_relocate f _ _ _) fun metas => ?_
  have hplans : ((⟨d.relocate f, job.setting d, metas, resolution⟩ : Planner).plans.mapError
        Fault.unplanned) =
      mapBoth (Fault.relocate f) (List.map (Plan.relocate f))
        ((⟨d, job.setting d, metas, resolution⟩ : Planner).plans.mapError Fault.unplanned) := by
    refine (congrArg (Except.mapError Fault.unplanned)
      (Planner.planStages_relocate f ⟨d, job.setting d, metas, resolution⟩ [] d.stages)).trans ?_
    unfold Planner.plans
    cases Planner.planStages ⟨d, job.setting d, metas, resolution⟩ [] d.stages <;> rfl
  refine bind_relocate f ((congrArg ofExcept hplans).trans (ofExcept_relocate f _)) fun plans => ?_
  rw [dependencies_relocate, List.length_map]
  refine bind_relocate f (tellIf_relocate f _ rfl) fun _ => ?_
  have horder : (((dependencies plans).order goal).mapError fun cycle =>
        Fault.cycle cycle.member) =
      mapBoth (Fault.relocate f) id
        (((dependencies plans).order goal).mapError fun cycle => Fault.cycle cycle.member) := by
    cases (dependencies plans).order goal <;> rfl
  refine bind_relocate f ((congrArg ofExcept horder).trans (ofExcept_relocate f _)) fun order => ?_
  refine bind_relocate f (lowerStages_relocate f _ plans [] order) fun done => ?_
  rw [show id order = order from rfl, unusedArgs_relocate]
  refine bind_relocate f (tellIf_relocate f _ rfl) fun _ => ?_
  rw [show id goal = goal from rfl, graphPlatform_relocate]
  refine bind_relocate f (ofExcept_relocate f _) fun platform => ?_
  -- The stages of the graph have no places.
  rw [flatMap_operations_relocate, List.map_map]
  rfl

theorem missing?_relocate (event : Event) :
    (event.relocate f).missing? = event.missing?.map (Missing.relocate f) := by
  cases event <;> rfl

theorem filterMap_missing?_relocate (events : List Event) :
    (events.map (Event.relocate f)).filterMap Event.missing? =
      (events.filterMap Event.missing?).map (Missing.relocate f) := by
  rw [List.filterMap_map, List.map_filterMap]
  exact List.filterMap_congr fun event _ => missing?_relocate f event

variable {f}

theorem sameMissing_relocate (hf : Function.Injective f) (m n : Missing) :
    sameMissing (m.relocate f) (n.relocate f) = sameMissing m n := by
  unfold sameMissing Missing.relocate
  simp only [hf.eq_iff]

theorem isRepeated_relocate (hf : Function.Injective f) (earlier : List Event) (event : Event) :
    isRepeated (earlier.map (Event.relocate f)) (event.relocate f) = isRepeated earlier event := by
  unfold isRepeated
  rw [missing?_relocate, filterMap_missing?_relocate, Option.any_map]
  congr 1
  funext m
  rw [List.any_map]
  congr 1
  funext n
  exact sameMissing_relocate hf m n

theorem distinctEvents_relocate (hf : Function.Injective f) (events : List Event) :
    distinctEvents (events.map (Event.relocate f)) =
      (distinctEvents events).map (Event.relocate f) := by
  have hfold (done : List Event) : (events.map (Event.relocate f)).foldl
        (fun done event => if isRepeated done event then done else done ++ [event])
        (done.map (Event.relocate f)) =
      (events.foldl (fun done event => if isRepeated done event then done else done ++ [event])
        done).map (Event.relocate f) := by
    induction events generalizing done with
    | nil => rfl
    | cons event rest ih =>
      rw [List.map_cons, List.foldl_cons, List.foldl_cons, isRepeated_relocate hf, ← ih]
      by_cases hrepeated : isRepeated done event = true
      · rw [if_pos hrepeated, if_pos hrepeated]
      · rw [if_neg hrepeated, if_neg hrepeated, List.map_append]
        rfl
  exact hfold []

end Lower

namespace Document

open Lower

variable {f}

/-- A document elsewhere is lowered to the same graph: ids, inputs, tasks and keys of its operations
do not depend on where the instructions stand. -/
theorem lower_relocate (hf : Function.Injective f) (d : Document) (job : Job)
    (resolution : Resolution) :
    (d.relocate f).lower job resolution =
      (d.lower job resolution).relocate f (Graph.relocate f) := by
  unfold lower Traced.relocate
  rw [build_relocate, Traced.relocate]
  dsimp only
  rw [distinctEvents_relocate hf, filterMap_missing?_relocate]
  cases (build d job resolution).result <;> rfl

variable (f)

theorem base?_relocate (d : Document) (stage : Stage) :
    Check.base? (d.relocate f) (stage.relocate f) = Check.base? d stage := by
  unfold Check.base?
  rw [resolve?_relocate]
  rfl

theorem stageEntries_relocate (d : Document) (stage : Stage) :
    Check.stageEntries (d.relocate f) (stage.relocate f) = Check.stageEntries d stage := by
  unfold Check.stageEntries
  rw [base?_relocate,
    show (stage.relocate f).instructions = stage.instructions.map (Instruction.relocate f) from rfl,
    List.zipIdx_map, List.flatMap_map]
  refine congrArg (_ ++ ·) (List.flatMap_congr fun entry _ => ?_)
  obtain ⟨⟨place, body⟩, position⟩ := entry
  have horigins : Check.origins (body.relocate f) = Check.origins body := by
    cases body <;> rfl
  simp only [Check.originEntries, Prod.map_apply, Instruction.relocate, horigins, resolve?_relocate]
  rfl

/-- The stages that references mean do not depend on where the instructions stand. -/
theorem check_resolution_relocate (d : Document) :
    (d.relocate f).check.resolution = d.check.resolution := by
  have hstages : (d.relocate f).stages = d.stages.map (Stage.relocate f) := rfl
  unfold check
  dsimp only
  rw [hstages, List.flatMap_map]
  exact congrArg Resolution.mk (List.flatMap_congr fun stage _ => stageEntries_relocate f d stage)

end Document

end Dockerfile
