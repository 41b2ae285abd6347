import Dockerfile.Proofs.Dependencies
import Dockerfile.Proofs.Document
import Dockerfile.Proofs.Lowering.Steps

/-!
# Plans

The plans of a document stand in the order of its stages, and each of them starts from the
variables of the plan of its base (`plans_ok`). The graph in which stages are ordered is that of
the plans: a stage uses another one if its plan does (`uses_dependencies`). Where references only
point backward, every document that was read can be planned (`exists_plans`).
-/

namespace Dockerfile.Lower

/-! ### Before the first stage -/

/-- The values behind some declarations before the first stage. -/
def Setting.metasAfter (s : Setting) (metas : Metas)
    (args : List (Position × List Declaration)) : Metas :=
  args.foldl (fun metas arg => arg.2.foldl s.declareMeta metas) metas

/-- The values that a document declares before its first stage. -/
def Job.metas (job : Job) (d : Document) : Metas := (job.setting d).metasAfter [] d.metaArgs

/-- What is known when the stages of a document are planned. -/
def Job.planner (job : Job) (d : Document) (r : Resolution) : Planner :=
  ⟨d, job.setting d, job.metas d, r⟩

/-- What is the same for all stages of a document. -/
def Job.frame (job : Job) (d : Document) : Frame := ⟨job.setting d, job.metas d, job.platform⟩

theorem declareMetas_ok {s : Setting} {metas all : Metas}
    {args : List (Position × List Declaration)} (h : (declareMetas s metas args).result = .ok all) :
    all = s.metasAfter metas args := by
  induction args generalizing metas with
  | nil =>
    cases h
    rfl
  | cons arg rest ih =>
    obtain ⟨_, -, h⟩ := Traced.bind_eq_ok.1 h
    exact ih h

theorem declareMetas_error {s : Setting} {metas : Metas}
    {args : List (Position × List Declaration)} {fault : Fault}
    (h : (declareMetas s metas args).result = .error fault) :
    ∃ unset place, fault = .required unset place := by
  induction args generalizing metas with
  | nil => cases h
  | cons arg rest ih =>
    rcases Traced.bind_eq_error.1 h with h | ⟨_, -, h⟩
    · obtain ⟨unset, hu⟩ := report_error h
      exact ⟨unset, _, hu⟩
    · exact ih h

/-! ### The target -/

theorem target_lt {d : Document} (hd : d.Numbered) {name : Option String} {goal : Nat}
    (h : target d name = .ok goal) : goal < d.stages.length := by
  unfold target at h
  split at h
  · split at h
    · rename_i s hs
      cases h
      exact hd.index_lt (List.mem_of_getLast? hs)
    · cases h
  · split at h
    · cases h
    · split at h
      · rename_i n hn
        cases h
        simpa using (Option.filter_eq_some_iff.1 hn).2
      · split at h
        · rename_i s hs
          cases h
          exact hd.index_lt (List.mem_of_find?_eq_some hs)
        · cases h

theorem target_error {d : Document} {name : Option String} {fault : Fault}
    (h : target d name = .error fault) :
    fault = .noStages ∨ ∃ reference names, fault = .unknownTarget reference names := by
  unfold target at h
  split at h
  · split at h
    · cases h
    · cases h
      exact Or.inl rfl
  · split at h
    · cases h
      exact Or.inl rfl
    · split at h
      · cases h
      · split at h
        · cases h
        · cases h
          exact Or.inr ⟨_, _, rfl⟩

/-! ### Stages -/

namespace Planner

variable {p : Planner} {plans all : List Plan} {stages : List Stage}

/-- A plan behind the plans of earlier stages: it starts from the variables that the stage of its
base leaves, if it has one. -/
def PlannedAfter (p : Planner) (before : List Plan) (plan : Plan) : Prop :=
  (p.base? plan.stage = none ∧ plan = p.planFrom plan.stage []) ∨
    ∃ b earlier, p.base? plan.stage = some b ∧ before[b]? = some earlier ∧
      plan = p.planFrom plan.stage earlier.env

theorem planStages_ok (hplans : EachAfter p.PlannedAfter plans)
    (h : p.planStages plans stages = .ok all) :
    all.map Plan.stage = plans.map Plan.stage ++ stages ∧ EachAfter p.PlannedAfter all := by
  induction stages generalizing plans with
  | nil =>
    cases h
    exact ⟨(List.append_nil _).symm, hplans⟩
  | cons stage rest ih =>
    unfold planStages at h
    split at h
    · rename_i hbase
      obtain ⟨hstages, hall⟩ := ih (eachAfter_concat.2 ⟨hplans, Or.inl ⟨hbase, rfl⟩⟩) h
      refine ⟨?_, hall⟩
      rw [hstages, List.map_append, List.append_assoc]
      rfl
    · rename_i b hbase
      split at h
      · rename_i earlier hearlier
        obtain ⟨hstages, hall⟩ :=
          ih (eachAfter_concat.2 ⟨hplans, Or.inr ⟨b, earlier, hbase, hearlier, rfl⟩⟩) h
        refine ⟨?_, hall⟩
        rw [hstages, List.map_append, List.append_assoc]
        rfl
      · cases h

theorem plans_ok (h : p.plans = .ok plans) :
    plans.map Plan.stage = p.document.stages ∧ EachAfter p.PlannedAfter plans := by
  have := planStages_ok eachAfter_nil h
  rwa [List.map_nil, List.nil_append] at this

theorem planStages_ne_error (hbase : ∀ s b, p.base? s = some b → b < s.index)
    (hindex : ∀ n s, stages[n]? = some s → s.index = plans.length + n) :
    ∃ all, p.planStages plans stages = .ok all := by
  induction stages generalizing plans with
  | nil => exact ⟨plans, rfl⟩
  | cons stage rest ih =>
    have hnext : ∀ plan n s, rest[n]? = some s → s.index = (plans ++ [plan]).length + n := by
      intro plan n s hs
      rw [hindex (n + 1) s (by rwa [List.getElem?_cons_succ])]
      simp only [List.length_append, List.length_singleton]
      omega
    unfold planStages
    split
    · exact ih (hnext _)
    · rename_i b hb
      have hlt : b < plans.length := by
        have := hbase stage b hb
        rwa [hindex 0 stage rfl] at this
      rw [List.getElem?_eq_getElem hlt]
      exact ih (hnext _)

/-! ### References -/

theorem base?_lt (hd : p.document.Numbered) (hr : p.resolution.Backward) {s : Stage} {b : Nat}
    (h : p.base? s = some b) : b < s.index := by
  unfold base? at h
  split at h
  · rename_i n hn
    cases h
    exact hr _ _ hn
  · exact hd.resolve?_lt h

theorem reference_lt (hd : p.document.Numbered) (hr : p.resolution.Backward) {s : Stage}
    {n slot m : Nat} {text : String} (h : p.reference s n slot text = .stage m) : m < s.index := by
  unfold reference at h
  split at h
  · rename_i k hk
    cases h
    exact hr _ _ hk
  · split at h
    · rename_i k hk
      cases h
      exact hd.resolve?_lt hk
    · cases h

/-- The references of instructions are those that they write, each in the scope of its place. -/
theorem mem_references {s : Stage} {scope : Scope} {first : Nat} {instructions : List Instruction}
    {entry : (Nat × Nat) × Reference} :
    entry ∈ p.references s scope first instructions ↔
      ∃ n i slot text, instructions[n]? = some i ∧ (slot, text) ∈ origins i.body ∧
        entry = ((first + n, slot), p.reference s (first + n) slot
          ((p.scopeAfter scope (instructions.take n)).word p.setting text)) := by
  induction instructions generalizing scope first with
  | nil => simp [references]
  | cons i rest ih =>
    rw [references, List.mem_append, ih]
    constructor
    · rintro (h | ⟨n, j, slot, text, hj, ho, rfl⟩)
      · obtain ⟨⟨slot, text⟩, ho, rfl⟩ := List.mem_map.1 h
        exact ⟨0, i, slot, text, rfl, ho, rfl⟩
      · refine ⟨n + 1, j, slot, text, hj, ho, ?_⟩
        rw [show first + (n + 1) = first + 1 + n by omega, List.take_succ_cons]
        rfl
    · rintro ⟨n, j, slot, text, hj, ho, rfl⟩
      cases n with
      | zero =>
        cases hj
        exact Or.inl (List.mem_map.2 ⟨(slot, text), ho, rfl⟩)
      | succ n =>
        refine Or.inr ⟨n, j, slot, text, hj, ho, ?_⟩
        rw [show first + (n + 1) = first + 1 + n by omega, List.take_succ_cons]
        rfl

end Planner

/-! ### The plans of a document -/

section Document

variable {d : Document} {job : Job} {r : Resolution} {plans : List Plan} {plan : Plan} {n m : Nat}

theorem exists_plans (hd : d.Numbered) (hr : r.Backward) :
    ∃ plans, (job.planner d r).plans = .ok plans :=
  Planner.planStages_ne_error (fun _ _ h => Planner.base?_lt hd hr h)
    fun n s h => by rw [hd n s h]; simp

theorem stage_of_plans (h : (job.planner d r).plans = .ok plans) (hn : plans[n]? = some plan) :
    d.stages[n]? = some plan.stage := by
  rw [← show plans.map Plan.stage = d.stages from (Planner.plans_ok h).1, List.getElem?_map, hn]
  rfl

theorem length_plans (h : (job.planner d r).plans = .ok plans) :
    plans.length = d.stages.length := by
  rw [← show plans.map Plan.stage = d.stages from (Planner.plans_ok h).1, List.length_map]

theorem index_of_plans (hd : d.Numbered) (h : (job.planner d r).plans = .ok plans)
    (hn : plans[n]? = some plan) : plan.stage.index = n :=
  hd n _ (stage_of_plans h hn)

/-- A plan is made behind the plans of the earlier stages. -/
theorem planned_of_plans (h : (job.planner d r).plans = .ok plans) (hn : plans[n]? = some plan) :
    (job.planner d r).PlannedAfter (plans.take n) plan := by
  obtain ⟨hlt, hget⟩ := List.getElem?_eq_some_iff.1 hn
  apply (Planner.plans_ok h).2 (plans.take n) plan (plans.drop (n + 1))
  rw [← hget, List.getElem_cons_drop, List.take_append_drop]

/-- A stage starts from a stage that is planned before it. -/
theorem base_of_plans (h : (job.planner d r).plans = .ok plans) (hn : plans[n]? = some plan)
    (hm : plan.base = some m) : m < n := by
  rcases planned_of_plans h hn with ⟨hbase, hplan⟩ | ⟨b, earlier, hbase, hearlier, hplan⟩
  · rw [hplan] at hm
    rw [show (job.planner d r).base? plan.stage = some m from hm] at hbase
    cases hbase
  · rw [hplan] at hm
    rw [show (job.planner d r).base? plan.stage = some m from hm] at hbase
    cases hbase
    have := (List.getElem?_eq_some_iff.1 hearlier).1
    rw [List.length_take] at this
    omega

theorem stage_of_mem_uses (hm : m ∈ plan.uses) :
    plan.base = some m ∨ ∃ entry ∈ plan.references, entry.2 = .stage m := by
  rcases List.mem_append.1 hm with hm | hm
  · exact Or.inl (Option.mem_toList.1 hm)
  · obtain ⟨entry, he, hs⟩ := List.mem_filterMap.1 hm
    refine Or.inr ⟨entry, he, ?_⟩
    cases hentry : entry.2 with
    | stage k =>
      rw [hentry] at hs
      cases hs
      rfl
    | image name =>
      rw [hentry] at hs
      cases hs

theorem mem_uses_of_base (h : plan.base = some m) : m ∈ plan.uses :=
  List.mem_append_left _ (Option.mem_toList.2 h)

theorem mem_uses_of_reference {entry : (Nat × Nat) × Reference} (he : entry ∈ plan.references)
    (h : entry.2 = .stage m) : m ∈ plan.uses :=
  List.mem_append_right _ (List.mem_filterMap.2 ⟨entry, he, by rw [h]; rfl⟩)

theorem mem_uses_of_reference? {position slot : Nat}
    (h : plan.reference? position slot = some (.stage m)) : m ∈ plan.uses := by
  obtain ⟨before, after, hsplit, -⟩ := List.lookup_eq_some_iff.1 h
  have hmem : ((position, slot), Reference.stage m) ∈ plan.references := by
    rw [hsplit]
    simp
  exact mem_uses_of_reference hmem rfl

theorem mem_uses_of_stagesAt {position : Nat} (h : m ∈ plan.stagesAt position) : m ∈ plan.uses := by
  obtain ⟨entry, he, hs⟩ := List.mem_filterMap.1 h
  exact List.mem_append_right _ (List.mem_filterMap.2 ⟨entry, (List.mem_filter.1 he).1, hs⟩)

/-- The entry of a number in a table that is numbered in order. -/
theorem find?_reverse_numbered {entries : List (Nat × List Nat)}
    (h : ∀ (k : Nat) (e : Nat × List Nat), entries[k]? = some e → e.1 = k) (n : Nat) :
    entries.reverse.find? (·.1 = n) = entries[n]? := by
  cases hn : entries[n]? with
  | none =>
    rw [List.find?_eq_none]
    intro e he
    obtain ⟨k, hk⟩ := List.mem_iff_getElem?.1 (List.mem_reverse.1 he)
    have hek := h k e hk
    simp only [decide_eq_true_eq]
    rintro rfl
    rw [hek, hk] at hn
    cases hn
  | some e =>
    have hsome : (entries.reverse.find? (·.1 = n)).isSome := by
      rw [List.find?_isSome]
      exact ⟨e, List.mem_reverse.2 (List.mem_of_getElem? hn), by simp [h n e hn]⟩
    obtain ⟨e', he'⟩ := Option.isSome_iff_exists.1 hsome
    obtain ⟨k, hk⟩ := List.mem_iff_getElem?.1
      (List.mem_reverse.1 (List.mem_of_find?_eq_some he'))
    have hkn : k = n := by
      rw [← h k e' hk]
      simpa using List.find?_some he'
    rw [he', ← hn, ← hk, hkn]

/-- A stage uses what its plan does, in increasing order. -/
theorem uses_eq (hd : d.Numbered) (h : (job.planner d r).plans = .ok plans) (n : Nat) :
    (dependencies plans).uses n =
      plans[n]?.elim [] fun plan => Dependencies.sortDistinct plan.uses := by
  have hnum : ∀ (k : Nat) (e : Nat × List Nat),
      (plans.map fun plan => (plan.stage.index, plan.uses))[k]? = some e → e.1 = k := by
    intro k e he
    rw [List.getElem?_map, Option.map_eq_some_iff] at he
    obtain ⟨plan, hk, rfl⟩ := he
    exact index_of_plans hd h hk
  unfold Dependencies.uses
  rw [show (dependencies plans).entries.reverse.find? (·.1 = n) = _ from
    find?_reverse_numbered hnum n, List.getElem?_map]
  cases plans[n]? <;> rfl

/-- A stage uses another one in the graph of the plans if its plan does. -/
theorem uses_dependencies (hd : d.Numbered) (h : (job.planner d r).plans = .ok plans) :
    (dependencies plans).Uses n m ↔ ∃ plan, plans[n]? = some plan ∧ m ∈ plan.uses := by
  unfold Dependencies.Uses
  rw [uses_eq hd h]
  cases plans[n]? with
  | none => simp
  | some plan => simp [Dependencies.mem_sortDistinct]

theorem uses_lt (hd : d.Numbered) (hr : r.Backward) (h : (job.planner d r).plans = .ok plans)
    (hu : (dependencies plans).Uses n m) : m < n := by
  obtain ⟨plan, hn, hm⟩ := (uses_dependencies hd h).1 hu
  rcases stage_of_mem_uses hm with hbase | ⟨entry, he, hs⟩
  · exact base_of_plans h hn hbase
  · have hplan : ∃ env, plan = (job.planner d r).planFrom plan.stage env := by
      rcases planned_of_plans h hn with ⟨-, hplan⟩ | ⟨_, earlier, -, -, hplan⟩
      · exact ⟨[], hplan⟩
      · exact ⟨earlier.env, hplan⟩
    obtain ⟨env, hplan⟩ := hplan
    rw [hplan] at he
    obtain ⟨k, i, slot, text, -, -, rfl⟩ := Planner.mem_references.1 he
    rw [← index_of_plans hd h hn]
    exact Planner.reference_lt (p := job.planner d r) hd hr hs

end Document

end Dockerfile.Lower
