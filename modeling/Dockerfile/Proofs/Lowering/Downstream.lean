import Dockerfile.Proofs.Lowering.Faults
import Dockerfile.Proofs.Lowering.Pruning
import Dockerfile.Proofs.Text

/-!
# What stands further down

Nothing that stands further down a document reaches back to an operation. A stage that is cut off at
a position (`Stage.cut`) is planned as before up to that position (`Planner.cutAt_planFrom`) and is
lowered to the operations before it (`lowerStage_cut`). Two documents that agree up to an
instruction (`Document.SameUpTo`) have the stage that is cut off there in common, and all stages
before it, so their graphs hold the same operations up to there (`lower_downstream_local`).
-/

namespace Dockerfile

/-- A stage without its instructions from a position on. -/
def Stage.cut (s : Stage) (position : Nat) : Stage :=
  { s with instructions := s.instructions.take position }

/-- Documents with a stage `n` that have the same preamble, the same escape character, the same
stages before stage `n`, and the same of stage `n` up to a position: its `FROM` and its
instructions. -/
structure Document.SameUpTo (d d' : Document) (n position : Nat) : Prop where
  isStage : n < d.stages.length
  preamble : d'.preamble = d.preamble
  escape : d'.escape = d.escape
  before : d'.stages.take n = d.stages.take n
  stage : d'.stages[n]?.map (·.cut position) = d.stages[n]?.map (·.cut position)

theorem Document.resolve?_of_take {d d' : Document} {n before : Nat}
    (h : d'.stages.take n = d.stages.take n) (hle : before ≤ n) (reference : String) :
    d'.resolve? reference before = d.resolve? reference before := by
  have htake := congrArg (List.take before) h
  rw [List.take_take, List.take_take, Nat.min_eq_left hle] at htake
  unfold resolve?
  rw [htake]

namespace Lower

/-! ### Plans that are cut off -/

/-- A plan of which another one is the part up to a position. -/
structure Plan.CutAt (plan cut : Plan) (position : Nat) : Prop where
  stage : cut.stage = plan.stage.cut position
  base : cut.base = plan.base
  references : ∃ more, plan.references = cut.references ++ more ∧
    ∀ entry ∈ more, position ≤ entry.1.1

namespace Planner

variable {p : Planner} {s : Stage}

theorem references_append (scope : Scope) (first : Nat) (front back : List Instruction) :
    p.references s scope first (front ++ back) = p.references s scope first front ++
      p.references s (p.scopeAfter scope front) (first + front.length) back := by
  induction front generalizing scope first with
  | nil => rfl
  | cons i front ih =>
    rw [List.cons_append, references, references, ih, List.append_assoc, List.length_cons,
      Nat.add_right_comm, Nat.add_assoc]
    rfl

theorem references_cut (position : Nat) (scope : Scope) (first : Nat)
    (instructions : List Instruction) :
    p.references (s.cut position) scope first instructions =
      p.references s scope first instructions := by
  induction instructions generalizing scope first with
  | nil => rfl
  | cons i rest ih =>
    rw [references, references, ih]
    rfl

theorem cutAt_planFrom (position : Nat) (env : Table String) :
    (p.planFrom s env).CutAt (p.planFrom (s.cut position) env) position where
  stage := rfl
  base := rfl
  references := by
    refine ⟨p.references s (p.scopeAfter ⟨env, []⟩ (s.instructions.take position))
      (0 + (s.instructions.take position).length) (s.instructions.drop position), ?_, ?_⟩
    · show p.references s ⟨env, []⟩ 0 s.instructions = p.references (s.cut position) ⟨env, []⟩ 0
        (s.instructions.take position) ++ _
      rw [references_cut, ← references_append, List.take_append_drop]
    · intro entry hentry
      obtain ⟨n, i, slot, text, hi, -, rfl⟩ := mem_references.1 hentry
      have hlt := (List.getElem?_eq_some_iff.1 hi).1
      rw [List.length_drop] at hlt
      simp only [List.length_take]
      omega

end Planner

namespace Plan.CutAt

variable {plan cut : Plan} {position n : Nat}

theorem reference?_eq (h : plan.CutAt cut position) (hn : n < position) (slot : Nat) :
    cut.reference? n slot = plan.reference? n slot := by
  obtain ⟨more, hmore, hge⟩ := h.references
  have hnone : more.lookup (n, slot) = none := by
    rw [List.lookup_eq_none_iff]
    intro entry hentry
    have hle := hge entry hentry
    rw [bne_iff_ne]
    intro heq
    rw [← heq] at hle
    omega
  unfold reference?
  rw [hmore, List.lookup_append, hnone, Option.or_none]

theorem stagesAt_eq (h : plan.CutAt cut position) (hn : n < position) :
    cut.stagesAt n = plan.stagesAt n := by
  obtain ⟨more, hmore, hge⟩ := h.references
  have hnil : more.filter (·.1.1 = n) = [] := by
    rw [List.filter_eq_nil_iff]
    intro entry hentry
    have hle := hge entry hentry
    rw [decide_eq_true_eq]
    omega
  unfold stagesAt
  rw [hmore, List.filter_append, hnil, List.append_nil]

theorem uses_subset (h : plan.CutAt cut position) : cut.uses ⊆ plan.uses := by
  obtain ⟨more, hmore, -⟩ := h.references
  intro m hm
  unfold uses at hm ⊢
  rw [hmore, ← h.base, List.filterMap_append, ← List.append_assoc]
  exact List.mem_append_left _ hm

end Plan.CutAt

/-! ### Stages that are cut off -/

namespace StageFrame

variable {f : StageFrame} {p q : Progress} {n position : Nat} {i : Instruction} {cut : Plan}
  {instructions : List Instruction}

theorem lowerInstruction_cut (h : f.plan.CutAt cut position) (hn : n < position) :
    { f with plan := cut }.lowerInstruction p n i = f.lowerInstruction p n i := by
  have hindex : cut.stage.index = f.plan.stage.index := by
    rw [h.stage]
    rfl
  have hname : cut.stage.name = f.plan.stage.name := by
    rw [h.stage]
    rfl
  have hsurroundings : { f with plan := cut }.surroundings p n = f.surroundings p n := by
    unfold surroundings
    simp only [h.reference?_eq hn]
  have hinputs : { f with plan := cut }.inputs p n i = f.inputs p n i := by
    unfold inputs
    rw [hsurroundings]
  have hoperation : ∀ task keys,
      { f with plan := cut }.operation p n i task keys = f.operation p n i task keys := by
    intro task keys
    unfold operation
    rw [hinputs, hindex]
  have hplace : { f with plan := cut }.place i.kind i.position = f.place i.kind i.position := by
    unfold place
    rw [hindex, hname]
  unfold lowerInstruction
  rw [hsurroundings, hinputs, hplace]
  simp only [hoperation, h.stagesAt_eq hn]
  rfl

theorem lowerFrom_cut (h : f.plan.CutAt cut position) (hn : n + instructions.length ≤ position) :
    { f with plan := cut }.lowerFrom p n instructions = f.lowerFrom p n instructions := by
  induction instructions generalizing p n with
  | nil => rfl
  | cons i rest ih =>
    rw [List.length_cons] at hn
    unfold lowerFrom
    rw [lowerInstruction_cut h (by omega)]
    exact Traced.bind_congr fun q _ => ih (by omega)

/-- A walk adds operations for the positions that it goes over. -/
theorem exists_operations_of_lowerFrom (h : (f.lowerFrom p n instructions).result = .ok q) :
    ∃ more, q.operations = p.operations ++ more ∧
      ∀ o ∈ more, n ≤ o.id.position ∧ o.id.position < n + instructions.length := by
  induction instructions generalizing p n with
  | nil =>
    cases h
    exact ⟨[], (List.append_nil _).symm, by simp⟩
  | cons i rest ih =>
    obtain ⟨p', hstep, hrest⟩ := Traced.bind_eq_ok.1 h
    obtain ⟨more, hmore, hpos⟩ := ih hrest
    rw [List.length_cons]
    cases (lowerInstruction_ok hstep).2.2 with
    | pass =>
      refine ⟨more, hmore, fun o ho => ?_⟩
      have := hpos o ho
      omega
    | make task keys =>
      refine ⟨f.operation p n i task keys :: more, ?_, ?_⟩
      · rw [hmore, behind, List.append_assoc, List.singleton_append]
      · intro o ho
        rcases List.mem_cons.1 ho with rfl | ho
        · exact ⟨Nat.le_refl n, by show n < _; omega⟩
        · have := hpos o ho
          omega

/-- The walk over the first instructions makes the operations of their positions. -/
theorem exists_lowerFrom_take (hp : p.operations = [])
    (h : (f.lowerFrom p 0 instructions).result = .ok q) (position : Nat) :
    ∃ m, (f.lowerFrom p 0 (instructions.take position)).result = .ok m ∧
      m.operations = q.operations.filter (·.id.position < position) := by
  rw [← List.take_append_drop position instructions] at h
  obtain ⟨m, hfront, hback⟩ := lowerFrom_append_ok h
  obtain ⟨own, hown, hownpos⟩ := exists_operations_of_lowerFrom hfront
  obtain ⟨more, hmore, hmorepos⟩ := exists_operations_of_lowerFrom hback
  rw [List.length_take] at hownpos
  rw [List.length_take, List.length_drop] at hmorepos
  rw [hp, List.nil_append] at hown
  refine ⟨m, hfront, ?_⟩
  have hkept : own.filter (·.id.position < position) = own := by
    rw [List.filter_eq_self]
    intro o ho
    have := hownpos o ho
    rw [decide_eq_true_eq]
    omega
  have hdropped : more.filter (·.id.position < position) = [] := by
    rw [List.filter_eq_nil_iff]
    intro o ho
    have := hmorepos o ho
    rw [decide_eq_true_eq]
    omega
  rw [hmore, hown, List.filter_append, hkept, hdropped, List.append_nil]

end StageFrame

/-- A stage that is cut off is lowered to the operations before the cut. -/
theorem lowerStage_cut {frame : Frame} {done : List Lowered} {plan cut : Plan} {position : Nat}
    {l : Lowered} (hcut : plan.CutAt cut position) (h : (lowerStage frame done plan).result = .ok l) :
    ∃ l', (lowerStage frame done cut).result = .ok l' ∧
      l'.operations = l.operations.filter (·.id.position < position) := by
  have hbase : baseIn? done cut = baseIn? done plan := by
    unfold baseIn?
    rw [hcut.base]
  have hroot : frame.root done cut = frame.root done plan := by
    unfold Frame.root
    rw [hbase, hcut.stage]
    rfl
  obtain ⟨hreport, platform, q, hplatform, hq, rfl⟩ := lowerStage_eq_ok.1 h
  obtain ⟨m, hm, hoperations⟩ := StageFrame.exists_lowerFrom_take rfl hq position
  have hwithin : 0 + (plan.stage.instructions.take position).length ≤ position := by
    rw [Nat.zero_add]
    exact List.length_take_le _ _
  rw [← StageFrame.lowerFrom_cut (f := stageFrame frame done plan platform) hcut hwithin] at hm
  refine ⟨(stageFrame frame done cut platform).lowered m, lowerStage_eq_ok.2 ?_, hoperations⟩
  have hframe : stageFrame frame done cut platform =
      { stageFrame frame done plan platform with plan := cut } := by
    rw [stageFrame, hroot]
    rfl
  rw [hbase, hcut.stage]
  refine ⟨hreport, platform, m, hplatform, ?_, rfl⟩
  rw [hframe]
  exact hm

/-! ### Two documents -/

section Documents

variable {d d' : Document} {job : Job} {r : Resolution} {plans plans' : List Plan}
  {plan plan' : Plan} {n m position : Nat}

theorem frame_congr (h : d.SameUpTo d' n position) : job.frame d' = job.frame d := by
  unfold Job.frame
  rw [setting_congr h.escape, metas_congr h.escape h.preamble]

theorem planFrom_eq_of_le (h : d.SameUpTo d' n position) {s : Stage} (hs : s.index ≤ n)
    (r : Resolution) (env : Table String) :
    (job.planner d' r).planFrom s env = (job.planner d r).planFrom s env := by
  rw [planner_eq h.escape h.preamble]
  exact Planner.planFrom_congr (p := job.planner d r)
    (Document.resolve?_of_take h.before hs) env

section

variable (hd : d.Numbered) (hr : r.Backward) (h : d.SameUpTo d' n position)

include hd hr h

theorem plans_eq_of_lt (hplans : (job.planner d r).plans = .ok plans)
    (hplans' : (job.planner d' r).plans = .ok plans') (hm : m < n) : plans'[m]? = plans[m]? := by
  have hle : ∀ k, (dependencies plans).Needs m k → k < n := fun k hk =>
    Nat.lt_of_le_of_lt (le_of_needs hd hr hplans hk) hm
  refine plans_congr hd hplans hplans' (fun k hk => ?_) fun k s env hk hs => ?_
  · rw [← List.getElem?_take_of_lt (hle k hk), h.before, List.getElem?_take_of_lt (hle k hk)]
  · rw [← hd k s hs] at hk
    exact planFrom_eq_of_le h (Nat.le_of_lt (hle s.index hk)) r env

/-- The plans of the stage in question start from the same variables. -/
theorem exists_env (hplans : (job.planner d r).plans = .ok plans)
    (hplans' : (job.planner d' r).plans = .ok plans') (hplan : plans[n]? = some plan)
    (hplan' : plans'[n]? = some plan') :
    plan'.stage.cut position = plan.stage.cut position ∧
      ∃ env, plan = (job.planner d r).planFrom plan.stage env ∧
        plan' = (job.planner d r).planFrom plan'.stage env := by
  have hs := stage_of_plans hplans hplan
  have hs' := stage_of_plans hplans' hplan'
  have hstage : plan'.stage.cut position = plan.stage.cut position := by
    have := h.stage
    rw [hs, hs', Option.map_some, Option.map_some] at this
    exact Option.some.inj this
  have hindex : (plan'.stage.cut position).index = n := by
    rw [hstage]
    exact hd n plan.stage hs
  have hsame := @planFrom_eq_of_le d d' job n position h plan'.stage (Nat.le_of_eq hindex) r
  have heq := plan_eq hplans hplan
  have heq' := plan_eq hplans' hplan'
  have hbase : plan'.base = plan.base :=
    calc
      plan'.base = (job.planner d' r).base? plan'.stage := congrArg Plan.base heq'
      _ = (job.planner d r).base? plan'.stage := congrArg Plan.base (hsame [])
      _ = (job.planner d r).base? (plan'.stage.cut position) := rfl
      _ = (job.planner d r).base? (plan.stage.cut position) := congrArg _ hstage
      _ = plan.base := (congrArg Plan.base heq).symm
  have hearlier : plan.base.bind (plans'[·]?) = plan.base.bind (plans[·]?) := by
    cases hb : plan.base with
    | none => rfl
    | some b => exact plans_eq_of_lt hd hr h hplans hplans' (base_of_plans hplans hplan hb)
  rw [hbase, hearlier, hsame] at heq'
  exact ⟨hstage, _, heq, heq'⟩

/-- The plans of the stage in question have the plan of what is common in common. -/
theorem exists_cut (hplans : (job.planner d r).plans = .ok plans)
    (hplans' : (job.planner d' r).plans = .ok plans') (hplan : plans[n]? = some plan)
    (hplan' : plans'[n]? = some plan') :
    ∃ cut, plan.CutAt cut position ∧ plan'.CutAt cut position ∧ cut.stage.index = n := by
  obtain ⟨hstage, env, heq, heq'⟩ := exists_env hd hr h hplans hplans' hplan hplan'
  have hindex : plan.stage.index = n := index_of_plans hd hplans hplan
  refine ⟨(job.planner d r).planFrom (plan.stage.cut position) env, ?_, ?_, hindex⟩
  · rw [heq]
    exact Planner.cutAt_planFrom position env
  · rw [heq', ← hstage]
    exact Planner.cutAt_planFrom position env

end

end Documents

/-! ### Two graphs -/

namespace Run

variable {d d' : Document} {job : Job} {g g' : Graph} {plans plans' : List Plan}
  {order order' : List Nat} {done done' : List Lowered}

/-- The target is lowered last, behind all that it needs. -/
theorem exists_last {r : Resolution} (run : Run d job r g plans order done) (hd : d.Numbered) :
    ∃ earlier before plan l, order = earlier ++ [g.target] ∧ done = before ++ [l] ∧
      Started d job r plans earlier before ∧ g.target ∉ earlier ∧
      plans[g.target]? = some plan ∧ (∀ m ∈ plan.uses, m ∈ earlier) ∧
      (lowerStage (job.frame d) before plan).result = .ok l := by
  obtain ⟨earlier, rfl⟩ := List.getLast?_eq_some_iff.1 run.isOrder.last
  obtain ⟨before, plan, l, rfl, hbuilt, hplan, hstep⟩ := run.built.concat_inv
  have hnodup := run.isOrder.nodup
  rw [List.nodup_append] at hnodup
  refine ⟨earlier, before, plan, l, rfl, rfl,
    run.started.cut hbuilt (List.prefix_append _ _), ?_, hplan, ?_, hstep⟩
  · intro hmem
    exact hnodup.2.2 _ hmem _ (List.mem_singleton_self _) rfl
  · intro m hm
    exact (eachAfter_concat.1 run.isOrder.after).2 m
      ((uses_dependencies hd run.plans_eq).2 ⟨plan, hplan, hm⟩)

/-- Runs for one target over documents that agree up to an instruction of it. -/
theorem operations_eq_of_sameUpTo {position : Nat} (run : Run d job .empty g plans order done)
    (run' : Run d' job .empty g' plans' order' done') (hd : d.Numbered) (hd' : d'.Numbered)
    (htarget : g'.target = g.target) (h : d.SameUpTo d' g.target position) :
    (g'.stageOperations g.target).filter (·.id.position < position) =
        (g.stageOperations g.target).filter (·.id.position < position) ∧
      ∀ m < g.target, m ∈ order → m ∈ order' → g'.stageOperations m = g.stageOperations m := by
  obtain ⟨earlier, before, plan, l, rfl, rfl, s, hfresh, hplan, huses, hstep⟩ := run.exists_last hd
  obtain ⟨earlier', before', plan', l', rfl, rfl, s', hfresh', hplan', huses', hstep'⟩ :=
    run'.exists_last hd'
  rw [htarget] at hfresh' hplan'
  have hframe : job.frame d' = job.frame d := frame_congr h
  have hlt : ∀ m ∈ earlier, m < g.target := by
    intro m hm
    have hle := le_of_needs hd Resolution.backward_empty run.plans_eq
      ((run.isOrder.mem_iff m).1 (List.mem_append_left _ hm))
    have hne : m ≠ g.target := fun heq => hfresh (heq ▸ hm)
    omega
  have hsame : ∀ m ∈ earlier, m ∈ earlier' → find? before m = find? before' m := by
    intro m hm hm'
    refine s.find?_eq hd s' hd' hframe.symm (fun k hk _ => ?_) hm hm'
    exact (plans_eq_of_lt hd Resolution.backward_empty h run.plans_eq run'.plans_eq (hlt k hk)).symm
  constructor
  · -- Both plans of the target have a cut in common, and the runs before it look the same to that.
    obtain ⟨cut, hcut, hcut', hindex⟩ :=
      exists_cut hd Resolution.backward_empty h run.plans_eq run'.plans_eq hplan hplan'
    obtain ⟨c, hc, hoperations⟩ := lowerStage_cut hcut hstep
    obtain ⟨c', hc', hoperations'⟩ := lowerStage_cut hcut' hstep'
    have hlook : SameFor cut before before' := s.sameFor hd s' hd' hsame
      (fun m hm => huses m (hcut.uses_subset hm)) (fun m hm => huses' m (hcut'.uses_subset hm))
      (hindex ▸ hfresh) (hindex ▸ hfresh')
    rw [hframe, lowerStage_congr hlook, hc] at hc'
    cases hc'
    have hl : l.graph.index = g.target := by
      rw [(loweredAfter hstep).index, index_of_plans hd run.plans_eq hplan]
    have hl' : l'.graph.index = g.target := by
      rw [(loweredAfter hstep').index, index_of_plans hd' run'.plans_eq hplan']
    have hown := run.stageOperations_eq hd (l := l) (by simp)
    have hown' := run'.stageOperations_eq hd' (l := l') (by simp)
    rw [hl] at hown
    rw [hl'] at hown'
    rw [hown, hown', ← hoperations, ← hoperations']
  · intro m hm hmem hmem'
    have hearlier : m ∈ earlier := by
      rcases List.mem_append.1 hmem with hmem | hmem
      · exact hmem
      · rw [List.mem_singleton.1 hmem] at hm
        omega
    have hearlier' : m ∈ earlier' := by
      rcases List.mem_append.1 hmem' with hmem' | hmem'
      · exact hmem'
      · rw [List.mem_singleton.1 hmem', htarget] at hm
        omega
    obtain ⟨k, hk, rfl, hfind⟩ := s.find?_of_mem hd hearlier
    have hfind' : find? before' k.graph.index = some k := by
      rw [← hsame _ hearlier hearlier', hfind]
    have hk' : k ∈ before' := List.mem_of_find?_eq_some hfind'
    rw [run.stageOperations_eq hd (List.mem_append_left _ hk),
      run'.stageOperations_eq hd' (List.mem_append_left _ hk')]

end Run

theorem eq_of_target_toString {d : Document} {n goal : Nat} (hn : n < d.stages.length)
    (h : target d (some (toString n)) = .ok goal) : goal = n := by
  have hne : d.stages.isEmpty = false := by
    rw [List.isEmpty_eq_false_iff]
    rintro heq
    rw [heq] at hn
    cases hn
  simp only [target, hne, decimalIndex?_toString, Option.filter, hn, decide_true, if_true] at h
  cases h
  rfl

/-- A change further down is local: graphs of one stage in two documents that agree up to a position
of that stage hold the same operations of the stage before the position, and the same operations of
every earlier stage that both of them keep. -/
theorem lower_downstream_local {d d' : Document} {buildArgs : Table String}
    {platform : Option Platform} {n position : Nat} {g g' : Graph} (hd : d.Parsed) (hd' : d'.Parsed)
    (h : d.SameUpTo d' n position)
    (hg : (d.lower ⟨buildArgs, some (toString n), platform⟩ .empty).result = .ok g)
    (hg' : (d'.lower ⟨buildArgs, some (toString n), platform⟩ .empty).result = .ok g') :
    (g'.stageOperations n).filter (·.id.position < position) =
        (g.stageOperations n).filter (·.id.position < position) ∧
      ∀ m < n, m ∈ g.stages.map StageGraph.index → m ∈ g'.stages.map StageGraph.index →
        g'.stageOperations m = g.stageOperations m := by
  obtain ⟨plans, order, done, run⟩ := lower_ok hg
  obtain ⟨plans', order', done', run'⟩ := lower_ok hg'
  have hlength : n < d'.stages.length := by
    have hstage := h.stage
    rw [List.getElem?_eq_getElem h.isStage, Option.map_some, Option.map_eq_some_iff] at hstage
    obtain ⟨s, hs, -⟩ := hstage
    exact (List.getElem?_eq_some_iff.1 hs).1
  obtain rfl : g.target = n := eq_of_target_toString h.isStage run.target
  have htarget : g'.target = g.target := eq_of_target_toString hlength run'.target
  obtain ⟨hown, hothers⟩ :=
    run.operations_eq_of_sameUpTo run' hd.numbered hd'.numbered htarget h
  refine ⟨hown, fun m hm hkept hkept' => hothers m hm ?_ ?_⟩
  · rw [run.isOrder.mem_iff, ← run.mem_index_iff hd.numbered]
    exact List.mem_map.1 hkept
  · rw [run'.isOrder.mem_iff, ← run'.mem_index_iff hd'.numbered]
    exact List.mem_map.1 hkept'

/-- A copy further down makes one more stage needed, which is then lowered first. -/
theorem lower_downstream_local_reordered : ∃ d d' g g', Document.parse
      "FROM a AS x\nUSER b\nFROM c AS y\nUSER d\nFROM y\nUSER e\nENV f=1\nUSER $f\n" = .ok d ∧
    Document.parse
      "FROM a AS x\nUSER b\nFROM c AS y\nUSER d\nFROM y\nUSER e\nCOPY --from=x f g\n" = .ok d' ∧
    (d.lower ⟨[], some (toString 2), none⟩ .empty).result = .ok g ∧
    (d'.lower ⟨[], some (toString 2), none⟩ .empty).result = .ok g' ∧
    g.operations.map (·.id.render) = ["s1.0", "s2.0", "s2.1", "s2.2"] ∧
    g'.operations.map (·.id.render) = ["s0.0", "s1.0", "s2.0", "s2.1"] ∧
    (g'.stageOperations 2).filter (·.id.position < 1) =
      (g.stageOperations 2).filter (·.id.position < 1) ∧
    g'.stageOperations 1 = g.stageOperations 1 := by
  obtain ⟨d, d', g, g', hd, hd', hg, hg', hids, hkept, hstage, hsame⟩ := @exists_lowered₂
    "FROM a AS x\nUSER b\nFROM c AS y\nUSER d\nFROM y\nUSER e\nENV f=1\nUSER $f\n"
    "FROM a AS x\nUSER b\nFROM c AS y\nUSER d\nFROM y\nUSER e\nCOPY --from=x f g\n"
    ⟨[], some (toString 2), none⟩ ⟨[], some (toString 2), none⟩ (fun _ => .empty)
    (fun d d' g g' => [g, g'].map (fun g => g.operations.map (·.id.render)) =
        [["s1.0", "s2.0", "s2.1", "s2.2"], ["s0.0", "s1.0", "s2.0", "s2.1"]] ∧
      (∀ h ∈ [g, g'], 1 ∈ h.stages.map StageGraph.index) ∧ 2 < d.stages.length ∧
      [d, d'].map (fun d => (d.preamble, d.escape, d.stages.take 2, d.stages[2]?.map (·.cut 1))) =
        List.replicate 2 ([], '\\',
          [⟨0, ⟨1, 1⟩, ⟨"a", some "x", none⟩, [⟨⟨2, 1⟩, .user "b" none⟩]⟩,
            ⟨1, ⟨3, 1⟩, ⟨"c", some "y", none⟩, [⟨⟨4, 1⟩, .user "d" none⟩]⟩],
          some ⟨2, ⟨5, 1⟩, ⟨"y", none, none⟩, [⟨⟨6, 1⟩, .user "e" none⟩]⟩))
    (fun _ _ _ _ => inferInstance) (by decide +kernel)
  simp only [List.map_cons, List.map_nil, List.replicate, List.cons.injEq, Prod.mk.injEq, and_true]
    at hids hsame
  obtain ⟨⟨hpreamble, hescape, hbefore, hcut⟩, hpreamble', hescape', hbefore', hcut'⟩ := hsame
  have hsame : d.SameUpTo d' 2 1 := {
    isStage := hstage
    preamble := hpreamble'.trans hpreamble.symm
    escape := hescape'.trans hescape.symm
    before := hbefore'.trans hbefore.symm
    stage := hcut'.trans hcut.symm }
  obtain ⟨hown, hothers⟩ :=
    lower_downstream_local (Or.inl ⟨_, hd⟩) (Or.inl ⟨_, hd'⟩) hsame hg hg'
  exact ⟨d, d', g, g', hd, hd', hg, hg', hids.1, hids.2, hown,
    hothers 1 (by decide) (hkept g (by simp)) (hkept g' (by simp))⟩

end Lower

end Dockerfile
