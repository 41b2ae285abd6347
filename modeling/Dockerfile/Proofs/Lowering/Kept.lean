import Dockerfile.Proofs.Lowering.Run
import Mathlib.Order.Bounds.Defs

/-!
# What a graph keeps

`Planner.Refers` says which stages a stage refers to, by its `FROM` and by its instructions, without
the walk that plans it: each reference is read in the scope of its position, and that scope goes
back to the variables of the stage's base (`Planner.Inherits`). The graph of a target keeps the
least set of stages that holds the target and all that its stages refer to, and of every stage it
keeps one operation for each instruction that is no `ARG` (`lower_keeps`).
-/

namespace Dockerfile.Lower

namespace Planner

/-! ### References of stages -/

/-- The variables that a stage starts with: none, or those at the end of the stage that it starts
from. -/
inductive Inherits (p : Planner) : Stage → Table String → Prop where
  | image {s : Stage} (hbase : p.base? s = none) : Inherits p s []
  | stage {s earlier : Stage} {b : Nat} {env : Table String} (hbase : p.base? s = some b)
    (hearlier : p.document.stages[b]? = some earlier) (henv : Inherits p earlier env) :
    Inherits p s (p.scopeAfter ⟨env, []⟩ earlier.instructions).env

/-- The scope at a position of a stage. -/
def ScopeAt (p : Planner) (s : Stage) (position : Nat) (scope : Scope) : Prop :=
  ∃ env, p.Inherits s env ∧ scope = p.scopeAfter ⟨env, []⟩ (s.instructions.take position)

/-- A stage refers to another one by number. -/
inductive Refers (p : Planner) (n m : Nat) : Prop where
  /-- It starts from the other one. -/
  | base {s : Stage} (hs : p.document.stages[n]? = some s) (hbase : p.base? s = some m)
  /-- One of its instructions takes files from the other one. -/
  | origin {s : Stage} {i : Instruction} {position slot : Nat} {text : String} {scope : Scope}
    (hs : p.document.stages[n]? = some s) (hi : s.instructions[position]? = some i)
    (horigin : (slot, text) ∈ origins i.body) (hscope : p.ScopeAt s position scope)
    (hstage : p.reference s position slot (scope.word p.setting text) = .stage m)

theorem Inherits.unique {p : Planner} {s : Stage} {env env' : Table String} (h : p.Inherits s env)
    (h' : p.Inherits s env') : env = env' := by
  induction h generalizing env' with
  | image hbase =>
    cases h' with
    | image => rfl
    | stage hbase' =>
      rw [hbase] at hbase'
      cases hbase'
  | stage hbase hearlier _ ih =>
    cases h' with
    | image hbase' =>
      rw [hbase] at hbase'
      cases hbase'
    | stage hbase' hearlier' henv' =>
      rw [hbase] at hbase'
      cases hbase'
      rw [hearlier] at hearlier'
      cases hearlier'
      rw [ih henv']

end Planner

section Plans

variable {d : Document} {job : Job} {r : Resolution} {plans : List Plan} {plan : Plan} {n m : Nat}

/-- A plan is made in the variables that its stage starts with. -/
theorem exists_inherits (h : (job.planner d r).plans = .ok plans) (hn : plans[n]? = some plan) :
    ∃ env, (job.planner d r).Inherits plan.stage env ∧
      plan = (job.planner d r).planFrom plan.stage env := by
  induction n using Nat.strong_induction_on generalizing plan with
  | h n ih =>
    rcases planned_of_plans h hn with ⟨hbase, hplan⟩ | ⟨b, earlier, hbase, hearlier, hplan⟩
    · exact ⟨[], .image hbase, hplan⟩
    · rw [List.getElem?_take] at hearlier
      split at hearlier
      · rename_i hlt
        obtain ⟨env, henv, heq⟩ := ih b hlt hearlier
        refine ⟨_, .stage hbase (stage_of_plans h hearlier) henv, ?_⟩
        rw [heq] at hplan
        exact hplan
      · cases hearlier

theorem exists_plan (h : (job.planner d r).plans = .ok plans) {s : Stage}
    (hs : d.stages[n]? = some s) : ∃ plan, plans[n]? = some plan ∧ plan.stage = s := by
  rw [← show plans.map Plan.stage = d.stages from (Planner.plans_ok h).1, List.getElem?_map,
    Option.map_eq_some_iff] at hs
  exact hs

/-- The stages of the graph of the plans use those that they refer to. -/
theorem uses_iff_refers (hd : d.Numbered) (h : (job.planner d r).plans = .ok plans) :
    (dependencies plans).Uses n m ↔ (job.planner d r).Refers n m := by
  rw [uses_dependencies hd h]
  constructor
  · rintro ⟨plan, hn, hm⟩
    have hs := stage_of_plans h hn
    obtain ⟨env, henv, hplan⟩ := exists_inherits h hn
    rcases stage_of_mem_uses hm with hbase | ⟨entry, he, hstage⟩
    · rw [hplan] at hbase
      exact .base hs hbase
    · rw [hplan] at he
      obtain ⟨position, i, slot, text, hi, horigin, rfl⟩ := Planner.mem_references.1 he
      rw [Nat.zero_add] at hstage
      exact .origin hs hi horigin ⟨env, henv, rfl⟩ hstage
  · intro href
    cases href with
    | base hs hbase =>
      obtain ⟨plan, hn, rfl⟩ := exists_plan h hs
      obtain ⟨env, -, hplan⟩ := exists_inherits h hn
      refine ⟨plan, hn, mem_uses_of_base ?_⟩
      rw [hplan]
      exact hbase
    | @origin s i position slot text scope hs hi horigin hscope hstage =>
      obtain ⟨plan, hn, rfl⟩ := exists_plan h hs
      obtain ⟨env, henv, rfl⟩ := hscope
      obtain ⟨env', henv', hplan⟩ := exists_inherits h hn
      obtain rfl := henv.unique henv'
      have hmem : ((position, slot), Reference.stage m) ∈ plan.references := by
        rw [hplan, ← hstage]
        refine Planner.mem_references.2 ⟨position, i, slot, text, hi, horigin, ?_⟩
        rw [Nat.zero_add]
      exact ⟨plan, hn, mem_uses_of_reference hmem rfl⟩

end Plans

/-! ### The stages and operations of a graph -/

/-- The sets of stages that hold a stage and all that their members refer to. -/
def Planner.closedSets (p : Planner) (goal : Nat) : Set (Set Nat) :=
  {kept | goal ∈ kept ∧ ∀ n ∈ kept, ∀ m, p.Refers n m → m ∈ kept}

/-- A graph keeps what its target needs and nothing else. -/
structure Keeps (p : Planner) (g : Graph) : Prop where
  /-- The stages are the least set that is closed under references. -/
  least : IsLeast (p.closedSets g.target) {n | ∃ s ∈ g.stages, s.index = n}
  increasing : g.stages.Pairwise (·.index < ·.index)
  /-- A stage has one operation for each of its instructions that is no `ARG`, in order. -/
  outline : ∀ s ∈ g.stages, ∃ stage, p.document.stages[s.index]? = some stage ∧
    s.baseStage = p.base? stage ∧
    s.operations = (g.stageOperations s.index).map Operation.id ∧
    (g.stageOperations s.index).map Operation.outline = stage.outline
  /-- There are no other operations. -/
  stage : ∀ o ∈ g.operations, ∃ s ∈ g.stages, s.index = o.id.stage
  /-- A stage ends with its last operation, else where its base ends. -/
  terminal : ∀ s ∈ g.stages, s.terminal = ((g.stageOperations s.index).getLast?.map Operation.id).or
    (s.baseStage.bind fun b => (g.stage? b).bind StageGraph.terminal)

/-- An instruction of a kept stage that is no `ARG` has an operation. -/
theorem Keeps.exists_operation {p : Planner} {g : Graph} (h : Keeps p g) {s : StageGraph}
    (hs : s ∈ g.stages) {stage : Stage} (hstage : p.document.stages[s.index]? = some stage)
    (hindex : stage.index = s.index) {n : Nat} {i : Instruction}
    (hi : stage.instructions[n]? = some i) (hkind : i.kind ≠ .arg) :
    ∃ o ∈ g.operations, o.id = ⟨s.index, n⟩ := by
  obtain ⟨stage', hstage', -, -, houtline⟩ := h.outline s hs
  obtain rfl : stage = stage' := Option.some.inj (hstage.symm.trans hstage')
  have hmem : (⟨⟨s.index, n⟩, i.kind, i.position⟩ : OperationId × Kind × Position) ∈
      stage.outline := by
    refine List.mem_filterMap.2 ⟨(i, n), List.mk_mem_zipIdx_iff_getElem?.2 hi, ?_⟩
    simp [Instruction.outline?, hkind, hindex]
  rw [← houtline] at hmem
  obtain ⟨o, ho, heq⟩ := List.mem_map.1 hmem
  exact ⟨o, (List.mem_filter.1 ho).1, congrArg Prod.fst heq⟩

section Runs

variable {d : Document} {job : Job} {r : Resolution} {g : Graph} {plans : List Plan}
  {order : List Nat} {done : List Lowered}

namespace Run

theorem mem_index_iff (run : Run d job r g plans order done) (hd : d.Numbered) {n : Nat} :
    (∃ s ∈ g.stages, s.index = n) ↔ (dependencies plans).Needs g.target n := by
  rw [← run.isOrder.mem_iff, run.mem_order_iff hd]
  constructor
  · rintro ⟨s, hs, rfl⟩
    obtain ⟨l, hl, rfl⟩ := run.mem_stages.1 hs
    exact ⟨l, hl, rfl⟩
  · rintro ⟨l, hl, rfl⟩
    exact ⟨l.graph, run.mem_stages.2 ⟨l, hl, rfl⟩, rfl⟩

theorem isLeast (run : Run d job r g plans order done) (hd : d.Numbered) :
    IsLeast ((job.planner d r).closedSets g.target) {n | ∃ s ∈ g.stages, s.index = n} := by
  have hset : {n | ∃ s ∈ g.stages, s.index = n} = {n | (dependencies plans).Needs g.target n} :=
    Set.ext fun n => run.mem_index_iff hd
  rw [hset]
  refine ⟨⟨Relation.ReflTransGen.refl, ?_⟩, ?_⟩
  · intro n hn m href
    exact Relation.ReflTransGen.tail hn ((uses_iff_refers hd run.plans_eq).2 href)
  · rintro kept ⟨hgoal, hclosed⟩ n hn
    induction hn with
    | refl => exact hgoal
    | tail _ huse ih => exact hclosed _ ih _ ((uses_iff_refers hd run.plans_eq).1 huse)

theorem keeps (run : Run d job r g plans order done) (hd : d.Shaped) :
    Keeps (job.planner d r) g where
  least := run.isLeast hd.numbered
  increasing := run.pairwise_stages hd.numbered
  outline := by
    intro s hs
    obtain ⟨l, hl, rfl⟩ := run.mem_stages.1 hs
    obtain ⟨plan, before, hplan, hafter⟩ := run.exists_loweredAfter hd.numbered hl
    have hstage := stage_of_plans run.plans_eq hplan
    obtain ⟨env, -, hfrom⟩ := exists_inherits run.plans_eq hplan
    rw [run.stageOperations_eq hd.numbered hl]
    refine ⟨plan.stage, hstage, ?_, hafter.listed,
      hafter.outline (hd.noBase _ (List.mem_of_getElem? hstage))⟩
    rw [hafter.baseStage, hfrom]
    rfl
  stage := by
    intro o ho
    obtain ⟨l, hl, ho⟩ := run.exists_of_mem_operations ho
    exact ⟨l.graph, run.mem_stages.2 ⟨l, hl, rfl⟩, (run.stage_eq hd.numbered hl ho).symm⟩
  terminal := by
    intro s hs
    obtain ⟨l, hl, rfl⟩ := run.mem_stages.1 hs
    obtain ⟨plan, before, hafter, hbase⟩ := run.base_eq hd.numbered hl
    rw [run.stageOperations_eq hd.numbered hl, hafter.terminal, ← Option.bind_assoc, ← hbase,
      Option.bind_map]
    rfl

end Run

/-- The graph of every document that was read, for every request and every resolution. -/
theorem lower_keeps (hd : d.Parsed) (h : (d.lower job r).result = .ok g) :
    target d job.target = .ok g.target ∧ Keeps (job.planner d r) g := by
  obtain ⟨plans, order, done, run⟩ := lower_ok h
  exact ⟨run.target, run.keeps hd.shaped⟩

/-- A stage that nothing refers to is dropped, one that is referred to by a variable is kept, and an
`ARG` leaves a gap in the positions. -/
theorem lower_keeps_substituted :
    ∃ d g, Document.parse ("FROM a AS x\nRUN b\nFROM c AS y\nRUN d\nFROM x AS z\nFROM z\n" ++
        "ENV S=x\nARG T=${S}\nCOPY --from=$T e f\n") = .ok d ∧
      (d.lower ⟨[], none, none⟩ d.check.resolution).result = .ok g ∧
      (g.stages.map StageGraph.index, g.operations.map fun o => (o.id.render, o.kind)) =
        ([0, 2, 3], [("s0.0", .run), ("s3.0", .env), ("s3.2", .copy)]) ∧
      target d none = .ok g.target ∧
      Keeps (Job.planner ⟨[], none, none⟩ d d.check.resolution) g := by
  obtain ⟨d, g, hd, hg, hkept⟩ := exists_lowered
    ("FROM a AS x\nRUN b\nFROM c AS y\nRUN d\nFROM x AS z\nFROM z\n" ++
      "ENV S=x\nARG T=${S}\nCOPY --from=$T e f\n")
    ⟨[], none, none⟩ (fun d => d.check.resolution)
    (fun g => (g.stages.map StageGraph.index, g.operations.map fun o => (o.id.render, o.kind)))
    ([0, 2, 3], [("s0.0", .run), ("s3.0", .env), ("s3.2", .copy)]) (by decide +kernel)
  exact ⟨d, g, hd, hg, hkept, lower_keeps (Or.inl ⟨_, hd⟩) hg⟩

end Runs

end Dockerfile.Lower
