import Dockerfile.Proofs.Lowering.Run

/-!
# Faults of a lowering

A lowering can look for a plan, for a lowered stage and for the key of an operation before they are
there, and it can find a cycle of stages. Where references only point backward none of this
happens (`lower_result`): a document that was read comes to a graph, or the request is refused with
one of the faults of `Fault.IsRefusal`.
-/

namespace Dockerfile.Lower

/-- The faults by which a request for a document is refused. -/
inductive Fault.IsRefusal : Fault → Prop where
  | noStages : IsRefusal .noStages
  | unknownTarget (target : String) (names : List String) : IsRefusal (.unknownTarget target names)
  | required (unset : Template.Unset) (place : Place) : IsRefusal (.required unset place)
  | platformConflict (pinned requested : Platform) (place : Place) :
    IsRefusal (.platformConflict pinned requested place)

/-- The faults by which a stage is refused, with the platform that is asked for. -/
inductive Fault.IsStageRefusal (requested : Option Platform) : Fault → Prop where
  | required (unset : Template.Unset) (place : Place) :
    IsStageRefusal requested (.required unset place)
  | platformConflict (pinned asked : Platform) (place : Place) (h : requested = some asked) :
    IsStageRefusal requested (.platformConflict pinned asked place)

theorem Fault.IsStageRefusal.isRefusal {requested : Option Platform} {fault : Fault}
    (h : fault.IsStageRefusal requested) : fault.IsRefusal := by
  cases h with
  | required unset place => exact .required unset place
  | platformConflict pinned asked place => exact .platformConflict pinned asked place

theorem Fault.IsRefusal.kind {fault : Fault} (h : fault.IsRefusal) : fault.kind ∈
    [some "unknown-target-stage", some "platform-conflict", some "missing-build-arg"] := by
  cases h <;> simp [Fault.kind]

/-- What a lowering that only fails by refusing the request gives. -/
def Answers (result : Except Fault Graph) : Prop :=
  (∃ g, result = .ok g) ∨ ∃ fault, result = .error fault ∧ fault.IsRefusal ∧ fault.kind ∈
    [some "unknown-target-stage", some "platform-conflict", some "missing-build-arg"]

variable {d : Document} {job : Job} {r : Resolution} {plans : List Plan} {plan : Plan}
  {order : List Nat} {done : List Lowered} {n : Nat} {fault : Fault}

theorem isRefusal_of_target (h : target d job.target = .error fault) : fault.IsRefusal := by
  rcases target_error h with rfl | ⟨reference, names, rfl⟩
  · exact .noStages
  · exact .unknownTarget reference names

/-! ### Keys of inputs -/

variable {goal : Nat} {platform : Option String} {p : Progress}

/-- The last operation so far, of the stage or of its base, is made. -/
theorem previous_mem_made {frame : Frame} {instructions : List Instruction}
    (hb : Built frame plans order done)
    (hw : (stageFrame frame done plan platform).Walked (.start (baseIn? done plan)) instructions p)
    {id : OperationId} (hid : p.previous = some id) :
    id ∈ ((stageFrame frame done plan platform).made p).map Operation.id := by
  unfold StageFrame.made
  rw [List.map_append, List.mem_append]
  rw [(hw.inv rfl).previous, Option.or_eq_some_iff] at hid
  rcases hid with hid | ⟨-, hid⟩
  · obtain ⟨o, ho, rfl⟩ := Option.map_eq_some_iff.1 hid
    exact Or.inr (List.mem_map_of_mem (List.mem_of_getLast? ho))
  · obtain ⟨l, hl, hid⟩ := Option.bind_eq_some_iff.1 hid
    obtain ⟨b, -, hfind⟩ := Option.bind_eq_some_iff.1 hl
    exact Or.inl (hb.terminal_mem (List.mem_of_find?_eq_some hfind) hid)

theorem inputs_subset_made {frame : Frame} {instructions : List Instruction} {i : Instruction}
    (hb : Built frame plans order done)
    (hw : (stageFrame frame done plan platform).Walked (.start (baseIn? done plan)) instructions p)
    {id : OperationId} (hid : id ∈ (stageFrame frame done plan platform).inputs p n i) :
    id ∈ ((stageFrame frame done plan platform).made p).map Operation.id := by
  rcases mem_addNew.1 hid with hid | hid
  · exact previous_mem_made hb hw (Option.mem_toList.1 hid)
  · obtain ⟨m, -, l, hl, hterminal⟩ := StageFrame.exists_of_mem_links hid
    unfold StageFrame.made
    rw [List.map_append]
    exact List.mem_append_left _ (hb.terminal_mem (List.mem_of_find?_eq_some hl) hterminal)

/-! ### Stages -/

/-- An instruction of a stage whose uses are lowered can only fail at its texts. -/
theorem report_of_lowerInstruction_error (hs : Started d job r plans order done) (hd : d.Numbered)
    (huses : ∀ m ∈ plan.uses, m ∈ order) {front : List Instruction} {i : Instruction}
    (hw : (stageFrame (job.frame d) done plan platform).Walked (.start (baseIn? done plan)) front p)
    (h : ((stageFrame (job.frame d) done plan platform).lowerInstruction p front.length i).result =
      .error fault) :
    (report ((stageFrame (job.frame d) done plan platform).place i.kind i.position)
      (p.scope.expansions (job.setting d) (job.metas d) i.body)).result = .error fault := by
  rcases StageFrame.lowerInstruction_error h with hreport | hstages | hkeys
  · exact hreport
  · have hfound : lookUpStages done (plan.stagesAt front.length) = .ok () := by
      refine lookUpStages_ok fun m hm => ?_
      obtain ⟨l, -, -, hl⟩ := hs.find?_of_mem hd (huses m (mem_uses_of_stagesAt hm))
      exact ⟨l, hl⟩
    rw [show lookUpStages done (plan.stagesAt front.length) = .error fault from hstages] at hfound
    cases hfound
  · obtain ⟨keys, hfound⟩ := lookUpKeys_ok fun id hid => inputs_subset_made hs.built hw hid
    rw [hkeys] at hfound
    cases hfound

/-- A stage whose uses are lowered can only fail by refusing the request. -/
theorem isStageRefusal_of_lowerStage (hs : Started d job r plans order done) (hd : d.Numbered)
    (huses : ∀ m ∈ plan.uses, m ∈ order)
    (h : (lowerStage (job.frame d) done plan).result = .error fault) :
    fault.IsStageRefusal job.platform := by
  rcases lowerStage_error h with h | h | h
  · obtain ⟨unset, rfl⟩ := report_error h
    exact .required unset _
  · obtain ⟨own, platform, hplatform, -, -, rfl⟩ := stagePlatform_error h
    exact .platformConflict own platform _ hplatform
  obtain ⟨platform, before, i, after, p, -, hw, hi⟩ := h
  obtain ⟨unset, rfl⟩ := report_error (report_of_lowerInstruction_error hs hd huses hw hi)
  exact .required unset _

section

variable (hd : d.Numbered) (hr : r.Backward)

include hd hr

/-- Everything that a stage needs stands before it. -/
theorem le_of_needs (hplans : (job.planner d r).plans = .ok plans)
    (h : (dependencies plans).Needs goal n) : n ≤ goal := by
  induction h with
  | refl => exact Nat.le_refl goal
  | tail _ huse ih => exact Nat.le_of_lt (Nat.lt_of_lt_of_le (uses_lt hd hr hplans huse) ih)

/-- No stage needs itself through others. -/
theorem not_transGen_uses (hplans : (job.planner d r).plans = .ok plans) :
    ¬Relation.TransGen (dependencies plans).Uses n n := by
  intro h
  obtain ⟨m, huse, hneeds⟩ := Relation.TransGen.head'_iff.1 h
  have hlt : m < n := uses_lt hd hr hplans huse
  have hle : n ≤ m := le_of_needs hd hr hplans hneeds
  omega

/-- Stages in an order of their dependencies fail at one of them, whose uses are lowered before. -/
theorem exists_of_lowerStages_error (hplans : (job.planner d r).plans = .ok plans)
    (hgoal : goal < plans.length) (ho : (dependencies plans).IsOrder goal order)
    (h : (lowerStages (job.frame d) plans [] order).result = .error fault) :
    ∃ before n done plan, n ∈ order ∧ n ∉ before ∧ Started d job r plans before done ∧
      plans[n]? = some plan ∧ (∀ m ∈ plan.uses, m ∈ before) ∧
      (lowerStage (job.frame d) done plan).result = .error fault := by
  obtain ⟨before, n, after, done, hsplit, hb, hn⟩ := lowerStages_error .nil h
  rw [List.nil_append] at hb
  have hmem : n ∈ order := by
    rw [hsplit]
    simp
  rcases hn with ⟨hnone, -⟩ | ⟨plan, hplan, hstage⟩
  · have hle := le_of_needs hd hr hplans ((ho.mem_iff n).1 hmem)
    have := List.getElem?_eq_none_iff.1 hnone
    omega
  · have hall := ho.after
    rw [hsplit] at hall
    have hs : Started d job r plans before done := {
      plans_eq := hplans
      nodup := ho.nodup.sublist (hsplit ▸ List.sublist_append_left before (n :: after))
      after := hall.left
      built := hb }
    have hnodup := ho.nodup
    rw [hsplit, List.nodup_append] at hnodup
    have hfresh : n ∉ before := fun hmem => hnodup.2.2 n hmem n List.mem_cons_self rfl
    refine ⟨before, n, done, plan, hmem, hfresh, hs, hplan, fun m hm => ?_, hstage⟩
    exact ho.after before n after hsplit m ((uses_dependencies hd hplans).2 ⟨plan, hplan, hm⟩)

/-! ### Documents -/

/-- Where the target of a job is known, a lowering fails at a declaration before the first stage or
at a stage that the target needs. -/
theorem exists_of_build_error (hgoal : target d job.target = .ok goal)
    (h : (build d job r).result = .error fault) :
    (declareMetas (job.setting d) [] d.metaArgs).result = .error fault ∨
      ∃ plans before n done plan, (dependencies plans).Needs goal n ∧ n ∉ before ∧
        Started d job r plans before done ∧ plans[n]? = some plan ∧ (∀ m ∈ plan.uses, m ∈ before) ∧
        (lowerStage (job.frame d) done plan).result = .error fault := by
  rcases build_error h with h | h | ⟨goal', hgoal', h⟩
  · rw [hgoal] at h
    cases h
  · exact .inl h
  obtain rfl := Except.ok.inj (hgoal.symm.trans hgoal')
  rcases h with ⟨n, hn, -⟩ | ⟨plans, hplans, h⟩
  · obtain ⟨plans, hplans⟩ : ∃ plans, (job.planner d r).plans = .ok plans := exists_plans hd hr
    rw [hn] at hplans
    cases hplans
  rcases h with ⟨cycle, hcycle, -⟩ | ⟨order, horder, h⟩
  · exact absurd (Dependencies.order_error hcycle).2 (not_transGen_uses hd hr hplans)
  have ho := Dependencies.order_ok horder
  rcases h with h | ⟨done, hb, h⟩
  · have hlt : goal < plans.length := by
      rw [length_plans hplans]
      exact target_lt hd hgoal
    obtain ⟨before, n, done, plan, hn, hstage⟩ :=
      exists_of_lowerStages_error hd hr hplans hlt ho h
    exact .inr ⟨plans, before, n, done, plan, (ho.mem_iff n).1 hn, hstage⟩
  · have hs : Started d job r plans order done := ⟨hplans, ho.nodup, ho.after, hb⟩
    obtain ⟨l, -, -, hl⟩ := hs.find?_of_mem hd ((ho.mem_iff goal).2 Relation.ReflTransGen.refl)
    unfold graphPlatform at h
    rw [hl] at h
    split at h <;> cases h

theorem isStageRefusal_of_build (hgoal : target d job.target = .ok goal)
    (h : (build d job r).result = .error fault) : fault.IsStageRefusal job.platform := by
  rcases exists_of_build_error hd hr hgoal h with
    h | ⟨plans, before, n, done, plan, -, -, hs, -, huses, h⟩
  · obtain ⟨unset, place, rfl⟩ := declareMetas_error h
    exact .required unset place
  · exact isStageRefusal_of_lowerStage hs hd huses h

theorem isRefusal_of_build (h : (build d job r).result = .error fault) : fault.IsRefusal := by
  cases hgoal : target d job.target with
  | ok goal => exact (isStageRefusal_of_build hd hr hgoal h).isRefusal
  | error other =>
    obtain rfl := Except.error.inj (h.symm.trans (build_of_target_error hgoal))
    exact isRefusal_of_target hgoal

theorem answers_lower (job : Job) : Answers (d.lower job r).result := by
  cases h : (d.lower job r).result with
  | ok g => exact Or.inl ⟨g, rfl⟩
  | error fault =>
    have hfault := isRefusal_of_build hd hr (lower_eq_error h)
    exact Or.inr ⟨fault, rfl, hfault, hfault.kind⟩

end

/-- A document that was read, with references that only point backward: for every request there is
a graph or one of the refusals, and a platform that is given as text is refused exactly if it cannot
be read. -/
theorem lower_result (hd : d.Parsed) (hr : r.Backward) :
    (∀ job, Answers (d.lower job r).result) ∧
      ∀ buildArgs target platform,
        (∀ text fault, platform = some text → Platform.parse text = .error fault →
          (d.lowerFor none (some r) buildArgs target platform).result =
            .error (.platform text fault)) ∧
        ((∀ text, platform = some text → ∃ own, Platform.parse text = .ok own) →
          Answers (d.lowerFor none (some r) buildArgs target platform).result) := by
  refine ⟨answers_lower hd.numbered hr, fun buildArgs target platform => ⟨?_, ?_⟩⟩
  · rintro text fault rfl hfault
    simp [Document.lowerFor, readPlatform, hfault, Traced.fail]
  · intro hread
    cases platform with
    | none => exact answers_lower hd.numbered hr ⟨buildArgs, target, none⟩
    | some text =>
      obtain ⟨own, hown⟩ := hread text rfl
      have := answers_lower hd.numbered hr ⟨buildArgs, target, some own⟩
      simpa [Document.lowerFor, readPlatform, hown] using this

/-- A document with a base of its own, a copy from it and the resolution of its check: lowered for a
target by name, and for a system that no platform has. -/
theorem lower_result_checked :
    ∃ d, Document.parse "FROM --platform=linux/arm64 a AS x\nRUN b\nFROM x\nCOPY --from=0 c d\n" =
        .ok d ∧
      d.check.resolution.Backward ∧
      Answers (d.lower ⟨[], some "x", none⟩ d.check.resolution).result ∧
      Platform.parse "plan9" = .error (.unsupportedOs "plan9") ∧
      (d.lowerFor none (some d.check.resolution) [] none (some "plan9")).result =
        .error (.platform "plan9" (.unsupportedOs "plan9")) := by
  have h : (Document.parse "FROM --platform=linux/arm64 a AS x\nRUN b\nFROM x\nCOPY --from=0 c d\n"
      ).toOption.isSome := by
    decide +kernel
  obtain ⟨d, hd⟩ := Option.isSome_iff_exists.1 h
  have hparse := eq_ok_of_toOption hd
  have hd : d.Parsed := Or.inl ⟨_, hparse⟩
  have hr := Resolution.backward_check hd.numbered
  have hfault : Platform.parse "plan9" = .error (.unsupportedOs "plan9") := by decide +kernel
  obtain ⟨hlower, htext⟩ := lower_result hd hr
  exact ⟨d, hparse, hr, hlower _, hfault, (htext [] none (some "plan9")).1 _ _ rfl hfault⟩

end Dockerfile.Lower
