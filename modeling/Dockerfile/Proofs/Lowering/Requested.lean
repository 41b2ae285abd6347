import Dockerfile.Proofs.Lowering.Platforms
import Dockerfile.Proofs.Lowering.Pruning
import Dockerfile.Proofs.Lowering.Variables

/-!
# Requested platforms

Where a platform is requested, a stage whose `FROM` names a platform that disagrees with it is
refused, if the target needs the stage. Everything else is for the requested platform: the graph,
its stages and its operations (`requested_platform`).
-/

namespace Dockerfile

/-- The platform that a task is for, if it runs a command or touches files. -/
def Task.platform? : Task → Option (Option String)
  | .exec e => some e.platform
  | .file f => some f.platform
  | .config _ => none

namespace Lower

variable {d : Document} {job : Job} {r : Resolution} {g : Graph} {plans : List Plan} {plan : Plan}
  {order : List Nat} {done : List Lowered} {l : Lowered} {p own asked : Platform} {place : Place}
  {fault : Fault}

/-! ### Conflicts -/

theorem lookUpStages_error {indices : List Nat} (h : lookUpStages done indices = .error fault) :
    ∃ index, fault = .unlowered index := by
  induction indices with
  | nil => cases h
  | cons index rest ih =>
    unfold lookUpStages at h
    split at h
    · cases h
      exact ⟨index, rfl⟩
    · exact ih h

theorem lookUpKeys_error {made : List Operation} {ids : List OperationId}
    (h : lookUpKeys made ids = .error fault) : ∃ id, fault = .unkeyed id := by
  induction ids with
  | nil => cases h
  | cons id rest ih =>
    unfold lookUpKeys at h
    split at h
    · cases h
      exact ⟨id, rfl⟩
    · cases hrest : lookUpKeys made rest with
      | error fault' =>
        rw [hrest] at h
        cases h
        exact ih hrest
      | ok keys =>
        rw [hrest] at h
        cases h

/-- A conflict of platforms arises at the `FROM` of a stage. -/
theorem stagePlatform_of_conflict {frame : Frame}
    (h : (lowerStage frame done plan).result = .error (.platformConflict own asked place)) :
    stagePlatform frame.platform (plan.stage.base.platform.map frame.value) (baseIn? done plan)
      (basePlace plan.stage) = .error (.platformConflict own asked place) := by
  rcases lowerStage_error h with h | h | ⟨platform, before, i, after, q, -, -, h⟩
  · obtain ⟨unset, hfault⟩ := report_error h
    cases hfault
  · exact h
  · rcases StageFrame.lowerInstruction_error h with h | h | h
    · obtain ⟨unset, hfault⟩ := report_error h
      cases hfault
    · obtain ⟨index, hfault⟩ := lookUpStages_error h
      cases hfault
    · obtain ⟨id, hfault⟩ := lookUpKeys_error h
      cases hfault

/-- A conflict of platforms arises at a stage that the target needs. -/
theorem exists_of_conflict
    (h : (d.lower job r).result = .error (.platformConflict own asked place)) :
    ∃ n plans done plan, n ∈ job.needed d r ∧ (job.planner d r).plans = .ok plans ∧
      plans[n]? = some plan ∧
      (lowerStage (job.frame d) done plan).result = .error (.platformConflict own asked place) := by
  -- Every other part of a lowering fails with a fault of its own kind.
  rcases build_error (lower_eq_error h) with h | h | ⟨goal, hgoal, h⟩
  · rcases target_error h with hfault | ⟨reference, names, hfault⟩ <;> cases hfault
  · obtain ⟨unset, other, hfault⟩ := declareMetas_error h
    cases hfault
  rcases h with ⟨n, -, hfault⟩ | ⟨plans, hplans, h⟩
  · cases hfault
  rcases h with ⟨cycle, -, hfault⟩ | ⟨order, horder, h⟩
  · cases hfault
  rcases h with h | ⟨done, -, h⟩
  · obtain ⟨before, n, after, done, rfl, -, hn⟩ := lowerStages_error .nil h
    rcases hn with ⟨-, hfault⟩ | ⟨plan, hplan, hstage⟩
    · cases hfault
    refine ⟨n, plans, done, plan, ?_, hplans, hplan, hstage⟩
    rw [Job.needed, hgoal, hplans]
    exact Dependencies.mem_closure.2 (((Dependencies.order_ok horder).mem_iff n).1 (by simp))
  · unfold graphPlatform at h
    split at h
    · cases h
    · split at h <;> cases h

/-! ### Graphs -/

theorem stagePlatform_of_requested {pinned : Option String} {base : Option Lowered}
    {platform : Option String} (h : stagePlatform (some p) pinned base place = .ok platform) :
    platform = some p.render := by
  unfold stagePlatform at h
  dsimp only at h
  split at h
  · rename_i heq _
    cases heq
    split at h
    · cases h
      rfl
    · cases h
  · rename_i heq _
    cases heq
    cases h
    rfl
  · rename_i heq _
    cases heq
  · rename_i heq _
    cases heq

/-- A stage is for the requested platform. -/
theorem Run.platform_of_requested (run : Run d job r g plans order done) (hd : d.Numbered)
    (hl : l ∈ done) (hp : job.platform = some p) : l.graph.platform = some p.render := by
  obtain ⟨before, earlier, plan, -, -, -, hstep⟩ := (run.started.lowered hd).mem hl
  obtain ⟨platform, progress, hplatform, -, rfl⟩ := lowerStage_ok hstep
  have hframe : (job.frame d).platform = some p := hp
  rw [hframe] at hplatform
  exact stagePlatform_of_requested hplatform

theorem Surroundings.platform_of_task {s : Surroundings} {body : Body} {task : Task}
    (h : s.task? body = some task) : ∀ platform ∈ task.platform?, platform = s.platform := by
  intro platform hplatform
  unfold task? at h
  split at h
  · cases h
    exact (Option.some.inj hplatform).symm
  · cases h
    exact (Option.some.inj hplatform).symm
  · cases h
    exact (Option.some.inj hplatform).symm
  · obtain ⟨change, -, rfl⟩ := Option.map_eq_some_iff.1 h
    cases hplatform

/-- The operations of a stage are for the platform of the stage. -/
theorem Run.platform_of_operation (run : Run d job r g plans order done) (hd : d.Numbered)
    (hl : l ∈ done) {o : Operation} (ho : o ∈ l.operations) :
    ∀ platform ∈ o.task.platform?, platform = l.graph.platform := by
  obtain ⟨before, earlier, plan, -, -, -, hstep⟩ := (run.started.lowered hd).mem hl
  obtain ⟨platform, progress, -, hw, rfl⟩ := lowerStage_ok hstep
  obtain ⟨i, q, -, -, -, htask⟩ := hw.exists_task rfl ho
  exact Surroundings.platform_of_task htask

theorem exists_graphPlatform (h : (d.lower job r).result = .ok g) :
    ∃ done, graphPlatform job.platform done g.target = .ok g.platform := by
  simp only [Document.lower] at h
  cases hbuild : (build d job r).result with
  | error fault =>
    rw [hbuild] at h
    cases h
  | ok g' =>
    rw [hbuild] at h
    cases h
    unfold build at hbuild
    obtain ⟨goal, -, hbuild⟩ := Traced.bind_eq_ok.1 hbuild
    obtain ⟨metas, -, hbuild⟩ := Traced.bind_eq_ok.1 hbuild
    obtain ⟨plans, -, hbuild⟩ := Traced.bind_eq_ok.1 hbuild
    obtain ⟨_, -, hbuild⟩ := Traced.bind_eq_ok.1 hbuild
    obtain ⟨order, -, hbuild⟩ := Traced.bind_eq_ok.1 hbuild
    obtain ⟨done, -, hbuild⟩ := Traced.bind_eq_ok.1 hbuild
    obtain ⟨_, -, hbuild⟩ := Traced.bind_eq_ok.1 hbuild
    obtain ⟨platform, hplatform, hbuild⟩ := Traced.bind_eq_ok.1 hbuild
    rw [Traced.result_ofExcept] at hplatform
    cases hbuild
    exact ⟨done, hplatform⟩

/-- Where a platform is requested: a lowering that is refused because of a conflict of platforms
names a stage that the target needs, and the `FROM` of that stage names a platform that disagrees
with the request. In a graph no stage does, and the graph, its stages and its operations are for the
requested platform. -/
theorem requested_platform (hd : d.Parsed) (hp : job.platform = some p) :
    (∀ own asked place, (d.lower job r).result = .error (.platformConflict own asked place) →
      asked = p ∧ ∃ n ∈ job.needed d r, ∃ s, d.stages[n]? = some s ∧ place = basePlace s ∧
        job.pinned? d n = some own ∧ own.agrees p = false) ∧
    ∀ g, (d.lower job r).result = .ok g →
      (∀ s ∈ g.stages, ∀ own, job.pinned? d s.index = some own → own.agrees p = true) ∧
      g.platform = some p.render ∧ (∀ s ∈ g.stages, s.platform = some p.render) ∧
      ∀ o ∈ g.operations, ∀ platform ∈ o.task.platform?, platform = some p.render := by
  constructor
  · intro own asked place h
    obtain ⟨n, plans, done, plan, hn, hplans, hplan, hstage⟩ := exists_of_conflict h
    obtain ⟨own', platform, hplatform, hpinned, hdisagree, hfault⟩ :=
      stagePlatform_error (stagePlatform_of_conflict hstage)
    cases hfault
    obtain rfl := Option.some.inj (hp.symm.trans hplatform)
    have hs := stage_of_plans hplans hplan
    refine ⟨rfl, n, hn, plan.stage, hs, rfl, ?_, hdisagree⟩
    rw [Job.pinned?, hs]
    exact hpinned
  · intro g h
    obtain ⟨plans, order, done, run⟩ := lower_ok h
    have hstages : ∀ s ∈ g.stages, s.platform = some p.render := by
      intro s hs
      obtain ⟨l, hl, rfl⟩ := run.mem_stages.1 hs
      exact run.platform_of_requested hd.numbered hl hp
    refine ⟨?_, ?_, hstages, ?_⟩
    · intro s hs own hown
      obtain ⟨l, hl, rfl⟩ := run.mem_stages.1 hs
      exact (run.platform_of_pinned hd.numbered hl hown).2.2 p hp
    · obtain ⟨done', hplatform⟩ := exists_graphPlatform h
      rw [hp] at hplatform
      exact (Except.ok.inj hplatform).symm
    · intro o ho platform hplatform
      obtain ⟨l, hl, ho⟩ := run.exists_of_mem_operations ho
      rw [run.platform_of_operation hd.numbered hl ho platform hplatform]
      exact run.platform_of_requested hd.numbered hl hp

/-- A stage that names its platform by an argument, one that names what is no platform, and one that
the target does not need: the request is refused or served as the argument says. -/
theorem requested_platform_argument : ∃ d g, Document.parse
      ("ARG A=arm64\nFROM --platform=linux/$A a AS x\nRUN b\nFROM --platform=none c AS y\n" ++
        "COPY --from=x d e\nUSER u\nFROM --platform=windows f\n") = .ok d ∧
    (d.lower ⟨[], some "y", some ⟨"linux", some "amd64", none⟩⟩ .empty).result =
      .error (.platformConflict ⟨"linux", some "arm64", none⟩ ⟨"linux", some "amd64", none⟩
        ⟨some (0, some "x"), .base, ⟨2, 1⟩⟩) ∧
    (∃ n ∈ Job.needed ⟨[], some "y", some ⟨"linux", some "amd64", none⟩⟩ d .empty,
      Job.pinned? ⟨[], some "y", some ⟨"linux", some "amd64", none⟩⟩ d n =
        some ⟨"linux", some "arm64", none⟩) ∧
    (d.lower ⟨[("A", "amd64")], some "y", some ⟨"linux", some "amd64", none⟩⟩ .empty).result =
      .ok g ∧
    g.operations.map (·.task.platform?) =
      [some (some "linux/amd64"), some (some "linux/amd64"), none] ∧
    g.platform = some "linux/amd64" ∧ ∀ s ∈ g.stages, s.platform = some "linux/amd64" := by
  obtain ⟨d, g, hd, hg, hfault, hoperations⟩ := exists_lowered_with
    ("ARG A=arm64\nFROM --platform=linux/$A a AS x\nRUN b\nFROM --platform=none c AS y\n" ++
      "COPY --from=x d e\nUSER u\nFROM --platform=windows f\n")
    ⟨[("A", "amd64")], some "y", some ⟨"linux", some "amd64", none⟩⟩ (fun _ => .empty)
    (fun d g => (d.lower ⟨[], some "y", some ⟨"linux", some "amd64", none⟩⟩ .empty).result.map
        (fun _ => ()) = .error (.platformConflict ⟨"linux", some "arm64", none⟩
          ⟨"linux", some "amd64", none⟩ ⟨some (0, some "x"), .base, ⟨2, 1⟩⟩) ∧
      g.operations.map (·.task.platform?) =
        [some (some "linux/amd64"), some (some "linux/amd64"), none]) (by decide +kernel)
  have hparsed : d.Parsed := .inl ⟨_, hd⟩
  have hrefused := eq_error_of_map hfault
  obtain ⟨-, n, hn, -, -, -, hpinned, -⟩ := (requested_platform hparsed rfl).1 _ _ _ hrefused
  obtain ⟨-, hplatform, hstages, -⟩ := (requested_platform hparsed rfl).2 g hg
  exact ⟨d, g, hd, hrefused, ⟨n, hn, hpinned⟩, hg, hoperations, hplatform, hstages⟩

end Lower

end Dockerfile
