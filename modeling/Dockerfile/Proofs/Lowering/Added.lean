import Dockerfile.Proofs.Lowering.Downstream
import Dockerfile.Proofs.Lowering.Required

/-!
# One more instruction

An instruction that takes no files from elsewhere, and whose texts can be expanded whatever the
variables are, stops no lowering (`Harmless`). So a document to which it is added at the end can be
lowered for whatever target the document can (`exists_lower_add`), and in a graph for the last stage
it has an operation (`exists_operation_add`). The argument goes through the stage at which a
lowering would fail: each stage that the target needs is planned as before, but for the last one,
whose walk has one more step.
-/

namespace Dockerfile

theorem Stage.cut_add (s : Stage) (i : Instruction) :
    (s.add i).cut s.instructions.length = s := by
  simp [cut, add]

namespace Document

variable {d : Document} {front : List Stage} {s : Stage}

theorem add_of_stages (h : d.stages = front ++ [s]) (i : Instruction) :
    d.add i = { d with stages := front ++ [s.add i] } := by
  simp [add, h]

theorem map_label_add (h : d.stages = front ++ [s]) (i : Instruction) :
    (d.add i).stages.map Stage.label = d.stages.map Stage.label := by
  rw [add_of_stages h, h, List.map_append, List.map_append]
  rfl

theorem Numbered.add (hd : d.Numbered) (h : d.stages = front ++ [s]) (i : Instruction) :
    (d.add i).Numbered := by
  intro n t ht
  have hlabel := congrArg (·[n]?) (map_label_add h i)
  simp only [List.getElem?_map, ht, Option.map_some] at hlabel
  obtain ⟨t', ht', heq⟩ := Option.map_eq_some_iff.1 hlabel.symm
  rw [← hd n t' ht']
  exact (congrArg Prod.fst heq).symm

theorem sameUpTo_add (h : d.stages = front ++ [s]) (i : Instruction) :
    d.SameUpTo (d.add i) front.length s.instructions.length where
  isStage := by simp [h]
  preamble := by rw [add_of_stages h]
  escape := by rw [add_of_stages h]
  before := by simp [add_of_stages h, h]
  stage := by
    rw [add_of_stages h, h, List.getElem?_concat_length, List.getElem?_concat_length,
      Option.map_some, Option.map_some, Stage.cut_add]
    simp [Stage.cut]

end Document

namespace Lower

/-- An instruction that takes no files from elsewhere and whose texts can be expanded whatever the
variables are. -/
structure Harmless (setting : Setting) (body : Body) : Prop where
  origins : Planner.origins body = []
  report : ∀ place metas (scope : Scope),
    (report place (scope.expansions setting metas body)).result = .ok ()

/-! ### Plans -/

/-- A plan of the same stage with one more instruction, which refers to nothing. -/
structure Plan.Adds (plan plan' : Plan) (i : Instruction) : Prop where
  stage : plan'.stage = plan.stage.add i
  base : plan'.base = plan.base
  references : plan'.references = plan.references

theorem Plan.Adds.uses_eq {plan plan' : Plan} {i : Instruction} (h : plan.Adds plan' i) :
    plan'.uses = plan.uses := by
  rw [uses, uses, h.base, h.references]

theorem Plan.Adds.cutAt {plan plan' : Plan} {i : Instruction} (h : plan.Adds plan' i) :
    plan'.CutAt plan plan.stage.instructions.length where
  stage := by rw [h.stage, Stage.cut_add]
  base := h.base.symm
  references := ⟨[], by rw [h.references, List.append_nil], by simp⟩

theorem Planner.adds_planFrom {p : Planner} {s : Stage} {i : Instruction}
    (hi : origins i.body = []) (env : Table String) :
    (p.planFrom s env).Adds (p.planFrom (s.add i) env) i where
  stage := rfl
  base := rfl
  references := by
    have hcut := (p.references_cut (s := s.add i) s.instructions.length ⟨env, []⟩ 0
      s.instructions).symm
    rw [Stage.cut_add] at hcut
    show p.references (s.add i) ⟨env, []⟩ 0 (s.instructions ++ [i]) = _
    rw [references_append, hcut, references, hi]
    exact List.append_nil _

section Documents

variable {d : Document} {job : Job} {r : Resolution} {plans plans' : List Plan}
  {plan plan' : Plan} {front : List Stage} {s : Stage} {i : Instruction} {n : Nat}

/-- The plans of a document with one more instruction: all but the last one are the same. -/
theorem plans_add (hd : d.Numbered) (hr : r.Backward) (hs : d.stages = front ++ [s])
    (hi : Planner.origins i.body = []) (hplans : (job.planner d r).plans = .ok plans)
    (hplans' : (job.planner (d.add i) r).plans = .ok plans') (hplan : plans[n]? = some plan)
    (hplan' : plans'[n]? = some plan') : plan' = plan ∨ plan.Adds plan' i := by
  have hsame := Document.sameUpTo_add hs i
  have hstage := stage_of_plans hplans hplan
  have hstage' := stage_of_plans hplans' hplan'
  have hlt := (List.getElem?_eq_some_iff.1 hstage).1
  rw [hs, List.length_append, List.length_singleton] at hlt
  rcases Nat.lt_succ_iff_lt_or_eq.1 hlt with hlt | rfl
  · rw [plans_eq_of_lt hd hr hsame hplans hplans' hlt, hplan] at hplan'
    exact .inl (Option.some.inj hplan').symm
  · rw [hs, List.getElem?_concat_length] at hstage
    rw [Document.add_of_stages hs, List.getElem?_concat_length] at hstage'
    obtain ⟨-, env, heq, heq'⟩ := exists_env hd hr hsame hplans hplans' hplan hplan'
    rw [← Option.some.inj hstage] at heq
    rw [← Option.some.inj hstage'] at heq'
    rw [heq, heq']
    exact .inr (Planner.adds_planFrom hi env)

theorem exists_plan_add (hs : d.stages = front ++ [s])
    (hplans : (job.planner d r).plans = .ok plans)
    (hplans' : (job.planner (d.add i) r).plans = .ok plans') (hplan' : plans'[n]? = some plan') :
    ∃ plan, plans[n]? = some plan := by
  have hlt := (List.getElem?_eq_some_iff.1 hplan').1
  rw [length_plans hplans', ← List.length_map Stage.label, Document.map_label_add hs,
    List.length_map, ← length_plans hplans] at hlt
  exact ⟨_, List.getElem?_eq_getElem hlt⟩

theorem needs_of_add (hd : d.Numbered) (hr : r.Backward) (hs : d.stages = front ++ [s])
    (hi : Planner.origins i.body = []) (hplans : (job.planner d r).plans = .ok plans)
    (hplans' : (job.planner (d.add i) r).plans = .ok plans') {goal : Nat}
    (h : (dependencies plans').Needs goal n) : (dependencies plans).Needs goal n := by
  refine Relation.ReflTransGen.mono (fun a b huses => ?_) goal n h
  obtain ⟨plan', hplan', hb⟩ := (uses_dependencies (hd.add hs i) hplans').1 huses
  obtain ⟨plan, hplan⟩ := exists_plan_add hs hplans hplans' hplan'
  refine (uses_dependencies hd hplans).2 ⟨plan, hplan, ?_⟩
  rcases plans_add hd hr hs hi hplans hplans' hplan hplan' with rfl | hadds
  · exact hb
  · rwa [← hadds.uses_eq]

/-! ### Stages -/

theorem StageFrame.lowerFrom_concat {f : StageFrame} {p m q : Progress}
    {front : List Instruction} (h : (f.lowerFrom p n front).result = .ok m)
    (hi : (f.lowerInstruction m (n + front.length) i).result = .ok q) :
    (f.lowerFrom p n (front ++ [i])).result = .ok q := by
  induction front generalizing p n with
  | nil =>
    cases h
    exact Traced.bind_eq_ok.2 ⟨q, hi, rfl⟩
  | cons j front ih =>
    obtain ⟨p', hstep, hrest⟩ := Traced.bind_eq_ok.1 h
    rw [List.length_cons, Nat.add_comm front.length, ← Nat.add_assoc] at hi
    exact Traced.bind_eq_ok.2 ⟨p', hstep, ih hrest hi⟩

variable {order : List Nat} {done : List Lowered}

/-- A stage that can be lowered can be lowered with one more instruction. -/
theorem exists_lowerStage_add {l : Lowered} (hstarted : Started d job r plans order done)
    (hd : d.Numbered) (hadds : plan.Adds plan' i) (huses : ∀ m ∈ plan'.uses, m ∈ order)
    (hi : Harmless (job.setting d) i.body)
    (h : (lowerStage (job.frame d) done plan).result = .ok l) :
    ∃ l', (lowerStage (job.frame d) done plan').result = .ok l' := by
  have hbase : baseIn? done plan' = baseIn? done plan := by rw [baseIn?, baseIn?, hadds.base]
  have hroot : (job.frame d).root done plan' = (job.frame d).root done plan := by
    rw [Frame.root, Frame.root, hbase, hadds.stage]
    rfl
  obtain ⟨hreport, platform, p, hplatform, hwalk, -⟩ := lowerStage_eq_ok.1 h
  have hframe : stageFrame (job.frame d) done plan platform =
      { stageFrame (job.frame d) done plan' platform with plan := plan } := by
    rw [stageFrame, ← hroot]
    rfl
  rw [hframe, ← hbase, StageFrame.lowerFrom_cut (f := stageFrame (job.frame d) done plan' platform)
    hadds.cutAt (by rw [Nat.zero_add])] at hwalk
  have hwalked := StageFrame.lowerFrom_ok .nil hwalk
  obtain ⟨q, hq⟩ : ∃ q, ((stageFrame (job.frame d) done plan' platform).lowerInstruction p
      plan.stage.instructions.length i).result = .ok q := by
    cases hresult : ((stageFrame (job.frame d) done plan' platform).lowerInstruction p
        plan.stage.instructions.length i).result with
    | ok q => exact ⟨q, rfl⟩
    | error fault =>
      have herror := report_of_lowerInstruction_error hstarted hd huses hwalked hresult
      rw [hi.report] at herror
      cases herror
  have hwhole := StageFrame.lowerFrom_concat hwalk (by rwa [Nat.zero_add])
  refine ⟨_, lowerStage_eq_ok.2 ⟨?_, platform, q, ?_, ?_, rfl⟩⟩
  · rw [hadds.stage]
    exact hreport
  · rw [hadds.stage, hbase]
    exact hplatform
  · rw [hadds.stage]
    exact hwhole

/-! ### Documents -/

variable {g : Graph}

/-- Stages that are lowered before another one stand before the target. -/
theorem Run.lt_target {earlier : List Nat} (run : Run d job r g plans order done) (hd : d.Numbered)
    (hr : r.Backward) (hpre : earlier ++ [n] <+: order) {k : Nat} (hk : k ∈ earlier) :
    k < g.target := by
  obtain ⟨front, rfl⟩ := List.getLast?_eq_some_iff.1 run.isOrder.last
  have hlength := hpre.length_le
  rw [List.length_append, List.length_append, List.length_singleton, List.length_singleton]
    at hlength
  have hfront : earlier <+: front := List.prefix_of_prefix_length_le
    ((List.prefix_append _ _).trans hpre) (List.prefix_append _ _) (by omega)
  have hmem := hfront.subset hk
  have hnodup := run.isOrder.nodup
  rw [List.nodup_append] at hnodup
  have hne : k ≠ g.target := hnodup.2.2 k hmem g.target (List.mem_singleton_self _)
  have hle := le_of_needs hd hr run.plans_eq
    ((run.isOrder.mem_iff k).1 (List.mem_append_left _ hmem))
  omega

/-- Every stage of the run of a document can be lowered in a run of the document with one more
instruction. -/
theorem Run.exists_lowerStage_add {before' : List Nat} {done' : List Lowered}
    (run : Run d job r g plans order done) (hd : d.Numbered) (hr : r.Backward)
    (hs : d.stages = front ++ [s]) (hi : Harmless (job.setting d) i.body)
    (hs' : Started (d.add i) job r plans' before' done') (hplan' : plans'[n]? = some plan')
    (huses' : ∀ m ∈ plan'.uses, m ∈ before') (hfresh' : n ∉ before') (hn : n ∈ order) :
    ∃ l, (lowerStage (job.frame (d.add i)) done' plan').result = .ok l := by
  have hd' := hd.add hs i
  have hsame := Document.sameUpTo_add hs i
  have hframe : job.frame (d.add i) = job.frame d := frame_congr hsame
  obtain ⟨earlier, before, plan, l, hstarted, hpre, hfresh, -, hplan, huses, hstep, -⟩ :=
    run.started.exists_before hd hn
  have hadds := plans_add hd hr hs hi.origins run.plans_eq hs'.plans_eq hplan hplan'
  have hindex := index_of_plans hd run.plans_eq hplan
  have hlt := target_lt hd run.target
  rw [hs, List.length_append, List.length_singleton] at hlt
  -- What is lowered before the stage stands before the target, so its plans are the same.
  have hfind : ∀ m ∈ earlier, m ∈ before' → find? before m = find? done' m := by
    intro m hm hm'
    refine hstarted.find?_eq hd hs' hd' hframe.symm (fun k hk _ => ?_) hm hm'
    have := run.lt_target hd hr hpre hk
    exact (plans_eq_of_lt hd hr hsame run.plans_eq hs'.plans_eq (by omega)).symm
  have hlook : SameFor plan before done' := by
    refine hstarted.sameFor hd hs' hd' hfind huses ?_ (hindex ▸ hfresh) (hindex ▸ hfresh')
    rcases hadds with rfl | hadds
    · exact huses'
    · rwa [← hadds.uses_eq]
  rw [← hframe, ← lowerStage_congr hlook] at hstep
  rcases hadds with rfl | hadds
  · exact ⟨l, hstep⟩
  · exact Lower.exists_lowerStage_add hs' hd' hadds huses'
      (by rwa [setting_congr hsame.escape]) hstep

/-- A document that can be lowered can be lowered with one more instruction that is harmless. -/
theorem exists_lower_add (hd : d.Numbered) (hr : r.Backward) (hs : d.stages = front ++ [s])
    (hi : Harmless (job.setting d) i.body) (h : (d.lower job r).result = .ok g) :
    ∃ g', ((d.add i).lower job r).result = .ok g' := by
  have hsame := Document.sameUpTo_add hs i
  obtain ⟨plans, order, done, run⟩ := lower_ok h
  cases hresult : ((d.add i).lower job r).result with
  | ok g' => exact ⟨g', rfl⟩
  | error fault =>
    have hgoal := (target_congr (Document.map_label_add hs i) job.target).trans run.target
    rcases exists_of_build_error (hd.add hs i) hr hgoal (lower_eq_error hresult) with
      hmetas | ⟨plans', before', n, done', plan', hneeds, hfresh', hs', hplan', huses', hstage'⟩
    · obtain ⟨all, hall⟩ := exists_declareMetas h
      rw [setting_congr hsame.escape, metaArgs_congr hsame.preamble, hall] at hmetas
      cases hmetas
    · have hn := (run.isOrder.mem_iff n).2
        (needs_of_add hd hr hs hi.origins run.plans_eq hs'.plans_eq hneeds)
      obtain ⟨l, hl⟩ := run.exists_lowerStage_add hd hr hs hi hs' hplan' huses' hfresh' hn
      rw [hl] at hstage'
      cases hstage'

/-- An instruction of a stage that is kept has an operation, which is what it comes to. -/
theorem Run.exists_operation (run : Run d job r g plans order done) (hd : d.Shaped)
    (hs : s ∈ d.stages) (hkept : ∃ k ∈ g.stages, k.index = s.index)
    (hi : s.instructions[n]? = some i) (hkind : i.kind ≠ .arg) :
    ∃ o ∈ g.operations, o.id = ⟨s.index, n⟩ ∧ o.kind = i.kind ∧
      ∃ t : Surroundings, t.setting = job.setting d ∧ t.task? i.body = some o.task := by
  obtain ⟨graph, hgraph, hindex⟩ := hkept
  obtain ⟨m, hm⟩ := List.mem_iff_getElem?.1 hs
  rw [← hd.numbered m s hm, ← hindex] at hm
  obtain ⟨o, ho, hid⟩ := (run.keeps hd).exists_operation hgraph hm hindex.symm hi hkind
  obtain ⟨stage, j, t, hstage, hj, hsame, -, hsetting, htask⟩ := run.exists_task hd.numbered ho
  rw [hid, hm] at hstage
  cases hstage
  rw [hid, hi] at hj
  cases hj
  exact ⟨o, ho, by rw [hid, hindex], hsame, t, hsetting, htask⟩

/-- The operation of the instruction that is added, in a graph for the last stage: it is what the
instruction comes to. -/
theorem exists_operation_add (hd : (d.add i).Shaped) (hs : d.stages = front ++ [s])
    (hkind : i.kind ≠ .arg) (htarget : target d job.target = .ok s.index)
    (h : ((d.add i).lower job r).result = .ok g) :
    ∃ o ∈ g.operations, o.id = ⟨s.index, s.instructions.length⟩ ∧
      ∃ t : Surroundings, t.setting = job.setting d ∧ t.task? i.body = some o.task := by
  obtain ⟨plans, order, done, run⟩ := lower_ok h
  have hlast : s.add i ∈ (d.add i).stages := by simp [Document.add_of_stages hs]
  have hi : (s.add i).instructions[s.instructions.length]? = some i := List.getElem?_concat_length
  have hgoal : g.target = s.index := by
    rw [← target_congr (Document.map_label_add hs i), run.target] at htarget
    exact Except.ok.inj htarget
  have hkept : ∃ k ∈ g.stages, k.index = (s.add i).index :=
    (run.mem_index_iff hd.numbered).2 (hgoal ▸ Relation.ReflTransGen.refl)
  obtain ⟨o, ho, hid, -, t, hsetting, htask⟩ := run.exists_operation hd hlast hkept hi hkind
  rw [setting_congr (Document.sameUpTo_add hs i).escape] at hsetting
  exact ⟨o, ho, hid, t, hsetting, htask⟩

end Documents

end Lower

end Dockerfile
