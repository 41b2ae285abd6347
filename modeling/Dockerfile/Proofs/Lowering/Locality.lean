import Dockerfile.Proofs.Lowering.Run

/-!
# What a stage depends on

What a stage is lowered to depends on its plan and on the lowered stages that the plan uses, not on
what else is lowered or in which order (`lowerStage_congr`). So in two runs over the same plans each
stage comes to the same (`Started.find?_eq`), and a graph holds the same of a stage whatever its
target is (`stage_independent_of_target`).
-/

namespace Dockerfile.Lower

theorem Traced.bind_congr {α β : Type} {x : Traced α} {f g : α → Traced β}
    (h : ∀ a, x.result = .ok a → f a = g a) : x >>= f = x >>= g := by
  show andThen x f = andThen x g
  unfold andThen
  cases hx : x.result with
  | error fault => rfl
  | ok a =>
    dsimp only
    rw [h a hx]

/-! ### Looking up in two lists -/

theorem keyOf?_append_eq_or (made more : List Operation) (id : OperationId) :
    keyOf? (made ++ more) id = (keyOf? made id).or (keyOf? more id) := by
  unfold keyOf?
  rw [List.find?_append]
  cases made.find? (·.id = id) <;> rfl

variable {done' done : List Lowered}

theorem lookUpStages_congr {indices : List Nat} (h : ∀ m ∈ indices, find? done m = find? done' m) :
    lookUpStages done indices = lookUpStages done' indices := by
  induction indices with
  | nil => rfl
  | cons m rest ih =>
    unfold lookUpStages
    rw [h m List.mem_cons_self, ih fun k hk => h k (List.mem_cons_of_mem m hk)]

theorem lookUpKeys_congr {made made' : List Operation} {ids : List OperationId}
    (h : ∀ id ∈ ids, keyOf? made id = keyOf? made' id) :
    lookUpKeys made ids = lookUpKeys made' ids := by
  induction ids with
  | nil => rfl
  | cons id rest ih =>
    unfold lookUpKeys
    rw [h id List.mem_cons_self, ih fun other ho => h other (List.mem_cons_of_mem id ho)]

theorem sourceOf_congr {reference : Option Reference}
    (h : ∀ m, reference = some (.stage m) → find? done m = find? done' m) :
    sourceOf done reference = sourceOf done' reference := by
  rcases reference with _ | _ | name
  · rfl
  · simp only [sourceOf, h _ rfl]
  · rfl

/-! ### One stage -/

/-- Two lists of lowered stages look the same to a plan. -/
structure SameFor (plan : Plan) (done done' : List Lowered) : Prop where
  stage : ∀ m ∈ plan.uses, find? done m = find? done' m
  /-- The keys of the operations that the stage can build on: its own and the last ones of the
  stages that it uses. -/
  key : ∀ id : OperationId, (id.stage = plan.stage.index ∨
      ∃ m ∈ plan.uses, ∃ l, find? done m = some l ∧ l.graph.terminal = some id) →
    keyOf? (done.flatMap Lowered.operations) id = keyOf? (done'.flatMap Lowered.operations) id

namespace SameFor

variable {plan : Plan} {done done' : List Lowered}

theorem baseIn?_eq (h : SameFor plan done done') : baseIn? done plan = baseIn? done' plan := by
  unfold baseIn?
  cases hb : plan.base with
  | none => rfl
  | some b => exact h.stage b (mem_uses_of_base hb)

end SameFor

namespace StageFrame

variable {f : StageFrame} {done' : List Lowered} {p q : Progress} {n : Nat} {i : Instruction}

theorem surroundings_congr (h : SameFor f.plan f.done done') :
    { f with done := done' }.surroundings p n = f.surroundings p n := by
  unfold surroundings
  congr 1
  funext slot
  exact (sourceOf_congr fun m hm => h.stage m (mem_uses_of_reference? hm)).symm

theorem inputs_congr (h : SameFor f.plan f.done done') :
    { f with done := done' }.inputs p n i = f.inputs p n i := by
  unfold inputs
  rw [surroundings_congr h]

/-- The operation before an instruction is one whose key is known alike. -/
def PreviousKnown (f : StageFrame) (done' : List Lowered) (p : Progress) : Prop :=
  ∀ id ∈ p.previous, keyOf? (f.done.flatMap Lowered.operations) id =
    keyOf? (done'.flatMap Lowered.operations) id

section

variable (h : SameFor f.plan f.done done') (hp : f.PreviousKnown done' p)

include h hp

theorem lookUpKeys_inputs :
    lookUpKeys ({ f with done := done' }.made p) ({ f with done := done' }.inputs p n i) =
      lookUpKeys (f.made p) (f.inputs p n i) := by
  rw [inputs_congr h]
  refine lookUpKeys_congr fun id hid => ?_
  have hkey : keyOf? (f.done.flatMap Lowered.operations) id =
      keyOf? (done'.flatMap Lowered.operations) id := by
    rcases mem_addNew.1 hid with hid | hid
    · exact hp id (Option.mem_toList.1 hid)
    · exact h.key id (Or.inr (exists_of_mem_links hid))
  rw [made, made, keyOf?_append_eq_or, keyOf?_append_eq_or, hkey]

theorem lowerInstruction_congr :
    { f with done := done' }.lowerInstruction p n i = f.lowerInstruction p n i := by
  have hstages : lookUpStages done' (f.plan.stagesAt n) = lookUpStages f.done (f.plan.stagesAt n) :=
    lookUpStages_congr fun m hm => (h.stage m (mem_uses_of_stagesAt hm)).symm
  have hoperation : ∀ task keys,
      { f with done := done' }.operation p n i task keys = f.operation p n i task keys := by
    intro task keys
    unfold operation
    rw [inputs_congr h]
  unfold lowerInstruction
  rw [surroundings_congr h, lookUpKeys_inputs h hp]
  simp only [hoperation, hstages]
  rfl

theorem PreviousKnown.step (hstep : f.Step p n i q) : f.PreviousKnown done' q := by
  cases hstep with
  | pass => exact hp
  | make task keys =>
    intro id hid
    obtain rfl := Option.some.inj hid
    exact h.key _ (Or.inl rfl)

theorem lowerFrom_congr {instructions : List Instruction} :
    { f with done := done' }.lowerFrom p n instructions = f.lowerFrom p n instructions := by
  induction instructions generalizing p n with
  | nil => rfl
  | cons i rest ih =>
    unfold lowerFrom
    rw [lowerInstruction_congr h hp]
    refine Traced.bind_congr fun q hq => ?_
    exact ih (hp.step h (lowerInstruction_ok hq).2.2)

end

end StageFrame

/-- A stage is lowered alike behind lists that look the same to its plan. -/
theorem lowerStage_congr {frame : Frame} {plan : Plan} (h : SameFor plan done done') :
    lowerStage frame done' plan = lowerStage frame done plan := by
  have hbase := h.baseIn?_eq
  have hroot : frame.root done' plan = frame.root done plan := by
    unfold Frame.root
    rw [hbase]
  have hwalk : ∀ platform, (stageFrame frame done' plan platform).lowerFrom
      (.start (baseIn? done plan)) 0 plan.stage.instructions =
      (stageFrame frame done plan platform).lowerFrom (.start (baseIn? done plan)) 0
        plan.stage.instructions := by
    intro platform
    unfold stageFrame
    rw [hroot]
    refine StageFrame.lowerFrom_congr (f := stageFrame frame done plan platform) h ?_
    intro id hid
    obtain ⟨l, hl, hid⟩ := Option.bind_eq_some_iff.1 hid
    obtain ⟨b, hb, hfind⟩ := Option.bind_eq_some_iff.1 hl
    exact h.key id (Or.inr ⟨b, mem_uses_of_base hb, l, hfind, hid⟩)
  have hlowered : ∀ platform p, (stageFrame frame done' plan platform).lowered p =
      (stageFrame frame done plan platform).lowered p := by
    intro platform p
    unfold stageFrame StageFrame.lowered
    rw [hroot, hbase]
  unfold lowerStage
  rw [← hbase]
  refine Traced.bind_congr fun _ _ => Traced.bind_congr fun _ _ => ?_
  refine Traced.bind_congr fun platform _ => ?_
  show (stageFrame frame done' plan platform).lowerFrom _ 0 _ >>= _ =
    (stageFrame frame done plan platform).lowerFrom _ 0 _ >>= _
  rw [hwalk]
  refine Traced.bind_congr fun p _ => ?_
  show pure ((stageFrame frame done' plan platform).lowered p) = _
  rw [hlowered]
  rfl

/-! ### Two runs -/

/-- The key of an operation is found in the stage that the operation names. -/
theorem keyOf?_flatMap (hnodup : (done.map (·.graph.index)).Nodup)
    (hstage : ∀ l ∈ done, ∀ o ∈ l.operations, o.id.stage = l.graph.index) (id : OperationId) :
    keyOf? (done.flatMap Lowered.operations) id =
      (find? done id.stage).bind fun l => keyOf? l.operations id := by
  induction done with
  | nil => rfl
  | cons l rest ih =>
    rw [List.map_cons, List.nodup_cons] at hnodup
    have ih := ih hnodup.2 fun l' hl' => hstage l' (List.mem_cons_of_mem l hl')
    rw [List.flatMap_cons, keyOf?_append_eq_or, ih]
    by_cases hl : l.graph.index = id.stage
    · have hrest : find? rest id.stage = none := by
        rw [find?, List.find?_eq_none]
        intro l' hl' heq
        refine hnodup.1 (List.mem_map.2 ⟨l', hl', ?_⟩)
        rw [hl]
        simpa using heq
      simp [find?, hl, show rest.find? _ = none from hrest]
    · have hnone : keyOf? l.operations id = none := by
        rw [← Option.not_isSome_iff_eq_none, keyOf?_isSome_iff, List.mem_map]
        rintro ⟨o, ho, rfl⟩
        exact hl (hstage l List.mem_cons_self o ho).symm
      simp [find?, hl, hnone]

namespace Started

variable {d : Document} {job : Job} {r : Resolution} {plans : List Plan} {order : List Nat}
  {done : List Lowered}

section

variable (s : Started d job r plans order done) (hd : d.Numbered)

include s hd

theorem find?_eq_none {n : Nat} (hn : n ∉ order) : find? done n = none := by
  rw [find?, List.find?_eq_none]
  intro l hl heq
  apply hn
  rw [← s.index_eq hd, List.mem_map]
  exact ⟨l, hl, by simpa using heq⟩

/-- What is lowered later hides no stage. -/
theorem find?_append {n : Nat} (hn : n ∈ order) (more : List Lowered) :
    find? (done ++ more) n = find? done n := by
  obtain ⟨l, -, -, hl⟩ := s.find?_of_mem hd hn
  rw [hl, find?, List.find?_append, show done.find? _ = some l from hl, Option.some_or]

theorem keyOf?_eq (id : OperationId) :
    keyOf? (done.flatMap Lowered.operations) id =
      (find? done id.stage).bind fun l => keyOf? l.operations id :=
  keyOf?_flatMap (s.index_nodup hd) (fun _ hl _ ho => s.stage_eq hd hl ho) id

/-- The operation that ends a stage belongs to a stage of the order. -/
theorem terminal_stage_mem {n : Nat} {l : Lowered} (hl : find? done n = some l) {id : OperationId}
    (hid : l.graph.terminal = some id) : id.stage ∈ order := by
  have hmem := s.built.terminal_mem (List.mem_of_find?_eq_some hl) hid
  obtain ⟨o, ho, rfl⟩ := List.mem_map.1 hmem
  obtain ⟨l', hl', ho⟩ := List.mem_flatMap.1 ho
  rw [← s.index_eq hd, List.mem_map]
  exact ⟨l', hl', (s.stage_eq hd hl' ho).symm⟩

/-- Two runs in which the stages that a plan uses are found alike look the same to the plan. -/
theorem sameFor {d' : Document} {job' : Job} {r' : Resolution} {plans' : List Plan}
    {order' : List Nat} (s' : Started d' job' r' plans' order' done') (hd' : d'.Numbered)
    (hsame : ∀ m ∈ order, m ∈ order' → find? done m = find? done' m) {plan : Plan}
    (huses : ∀ m ∈ plan.uses, m ∈ order) (huses' : ∀ m ∈ plan.uses, m ∈ order')
    (hfresh : plan.stage.index ∉ order) (hfresh' : plan.stage.index ∉ order') :
    SameFor plan done done' where
  stage := fun m hm => hsame m (huses m hm) (huses' m hm)
  key := by
    intro id hid
    rw [s.keyOf?_eq hd, s'.keyOf?_eq hd']
    rcases hid with hown | ⟨m, hm, l, hl, hid⟩
    · rw [hown, s.find?_eq_none hd hfresh, s'.find?_eq_none hd' hfresh']
    · have hl' : find? done' m = some l := by rw [← hsame m (huses m hm) (huses' m hm), hl]
      rw [hsame id.stage (s.terminal_stage_mem hd hl hid) (s'.terminal_stage_mem hd' hl' hid)]

/-- The place of a stage in a run: the run before it and the plan by which it is lowered. -/
theorem exists_before {n : Nat} (hn : n ∈ order) :
    ∃ earlier before plan l, Started d job r plans earlier before ∧
      earlier ++ [n] <+: order ∧ n ∉ earlier ∧ (∀ m ∈ earlier, find? before m = find? done m) ∧
      plans[n]? = some plan ∧ (∀ m ∈ plan.uses, m ∈ earlier) ∧
      (lowerStage (job.frame d) before plan).result = .ok l ∧ find? done n = some l := by
  obtain ⟨l, hl, rfl, hfind⟩ := s.find?_of_mem hd hn
  obtain ⟨before, after, hsplit⟩ := List.append_of_mem hl
  obtain ⟨earlier, plan, s₀, hplan, huses, hstep⟩ := s.lowered hd before l after hsplit
  have horder : order = earlier ++ (l :: after).map (·.graph.index) := by
    rw [← s.index_eq hd, ← s₀.index_eq hd, hsplit, List.map_append]
  have hnodup := s.nodup
  rw [horder, List.nodup_append] at hnodup
  refine ⟨earlier, before, plan, l, s₀, ?_, ?_, ?_, hplan, huses, hstep, hfind⟩
  · rw [horder, List.map_cons]
    exact ⟨after.map (·.graph.index), by simp⟩
  · intro hmem
    exact hnodup.2.2 _ hmem _ (by simp) rfl
  · intro m hm
    rw [hsplit, s₀.find?_append hd hm]

/-- Runs over the same plans lower a stage to the same, whatever else they lower and in whichever
order. -/
theorem find?_eq {d' : Document} {job' : Job} {r' : Resolution} {plans' : List Plan}
    {order' : List Nat} (s' : Started d' job' r' plans' order' done') (hd' : d'.Numbered)
    (hframe : job.frame d = job'.frame d')
    (hplans : ∀ n ∈ order, n ∈ order' → plans[n]? = plans'[n]?) {n : Nat} (hn : n ∈ order)
    (hn' : n ∈ order') : find? done n = find? done' n := by
  -- By induction on the first run: what a stage uses stands before it in both runs.
  induction hlen : order.length using Nat.strong_induction_on generalizing order done n with
  | h len ih =>
    obtain ⟨earlier, before, plan, l, s₀, hpre, hfresh, hfind, hplan, huses, hstep, hl⟩ :=
      s.exists_before hd hn
    obtain ⟨earlier', before', plan', l', s₀', hpre', hfresh', hfind', hplan', huses', hstep',
      hl'⟩ := s'.exists_before hd' hn'
    obtain rfl : plan = plan' := by
      rw [hplans n hn hn', hplan'] at hplan
      exact (Option.some.inj hplan).symm
    have hindex := index_of_plans hd s.plans_eq hplan
    have hlt : earlier.length < len := by
      have := hpre.length_le
      rw [List.length_append, List.length_singleton] at this
      omega
    have hsame : SameFor plan before before' := by
      refine s₀.sameFor hd s₀' hd' ?_ huses huses' (hindex ▸ hfresh) (hindex ▸ hfresh')
      intro m hm hm'
      rw [hfind' m hm']
      exact ih _ hlt s₀ (fun k hk => hplans k (hpre.subset (by simp [hk]))) hm
        (hpre'.subset (by simp [hm'])) rfl
    rw [← hframe, lowerStage_congr hsame, hstep] at hstep'
    rw [hl, hl', Except.ok.inj hstep']

end

end Started

/-- What a graph holds of a stage does not depend on the target: a stage that the graphs of two
targets both keep is the same in both, with the same operations. -/
theorem stage_independent_of_target {d : Document} {buildArgs : Table String}
    {platform : Option Platform} {r : Resolution} {target₁ target₂ : Option String} {g₁ g₂ : Graph}
    (hd : d.Numbered) (h₁ : (d.lower ⟨buildArgs, target₁, platform⟩ r).result = .ok g₁)
    (h₂ : (d.lower ⟨buildArgs, target₂, platform⟩ r).result = .ok g₂) {s₁ s₂ : StageGraph}
    (hs₁ : s₁ ∈ g₁.stages) (hs₂ : s₂ ∈ g₂.stages) (hindex : s₁.index = s₂.index) :
    s₁ = s₂ ∧ g₁.stageOperations s₁.index = g₂.stageOperations s₂.index := by
  obtain ⟨plans₁, order₁, done₁, run₁⟩ := lower_ok h₁
  obtain ⟨plans₂, order₂, done₂, run₂⟩ := lower_ok h₂
  obtain ⟨l₁, hl₁, rfl⟩ := run₁.mem_stages.1 hs₁
  obtain ⟨l₂, hl₂, rfl⟩ := run₂.mem_stages.1 hs₂
  have hplans : plans₁ = plans₂ := Except.ok.inj (run₁.plans_eq.symm.trans run₂.plans_eq)
  have hfind := run₁.started.find?_eq hd run₂.started hd rfl (fun _ _ _ => by rw [hplans])
    ((run₁.mem_order_iff hd).2 ⟨l₁, hl₁, rfl⟩) ((run₂.mem_order_iff hd).2 ⟨l₂, hl₂, hindex.symm⟩)
  obtain rfl : l₁ = l₂ := by
    rw [run₁.started.find?_index hd hl₁, hindex, run₂.started.find?_index hd hl₂] at hfind
    exact Option.some.inj hfind
  rw [run₁.stageOperations_eq hd hl₁, run₂.stageOperations_eq hd hl₂]
  exact ⟨rfl, rfl⟩

/-- Two targets for which the first two stages are lowered in another order and together with other
stages. -/
theorem stage_independent_of_target_reordered : ∃ d g₁ g₂ s, Document.parse
      ("FROM a AS x\nUSER b\nFROM c AS y\nUSER d\nFROM y AS p\nFROM x AS q\nFROM q AS r\n" ++
        "COPY --from=p e f\nFROM a\nCOPY --from=x e f\nCOPY --from=y g h\n") = .ok d ∧
    (d.lower ⟨[], some "r", none⟩ d.check.resolution).result = .ok g₁ ∧
    (d.lower ⟨[], none, none⟩ d.check.resolution).result = .ok g₂ ∧
    g₁.operations.map (·.id.render) = ["s1.0", "s0.0", "s4.0"] ∧
    g₂.operations.map (·.id.render) = ["s0.0", "s1.0", "s5.0", "s5.1"] ∧
    s ∈ g₁.stages ∧ s ∈ g₂.stages ∧ s.index = 1 ∧ g₁.stageOperations 1 = g₂.stageOperations 1 := by
  obtain ⟨d, d', g₁, g₂, hd, hd', hg₁, hg₂, hids₁, hids₂, hstages₁, hstages₂⟩ := exists_lowered₂
    ("FROM a AS x\nUSER b\nFROM c AS y\nUSER d\nFROM y AS p\nFROM x AS q\nFROM q AS r\n" ++
      "COPY --from=p e f\nFROM a\nCOPY --from=x e f\nCOPY --from=y g h\n")
    ("FROM a AS x\nUSER b\nFROM c AS y\nUSER d\nFROM y AS p\nFROM x AS q\nFROM q AS r\n" ++
      "COPY --from=p e f\nFROM a\nCOPY --from=x e f\nCOPY --from=y g h\n")
    ⟨[], some "r", none⟩ ⟨[], none, none⟩ (fun d => d.check.resolution)
    (fun _ _ g₁ g₂ => g₁.operations.map (·.id.render) = ["s1.0", "s0.0", "s4.0"] ∧
      g₂.operations.map (·.id.render) = ["s0.0", "s1.0", "s5.0", "s5.1"] ∧
      1 ∈ g₁.stages.map StageGraph.index ∧ 1 ∈ g₂.stages.map StageGraph.index) (by decide +kernel)
  obtain rfl : d = d' := Except.ok.inj (hd.symm.trans hd')
  obtain ⟨s₁, hs₁, hindex₁⟩ := List.mem_map.1 hstages₁
  obtain ⟨s₂, hs₂, hindex₂⟩ := List.mem_map.1 hstages₂
  obtain ⟨rfl, hoperations⟩ := stage_independent_of_target
    (Document.numbered_of_parse hd) hg₁ hg₂ hs₁ hs₂ (hindex₁.trans hindex₂.symm)
  rw [hindex₁] at hoperations
  exact ⟨d, g₁, g₂, s₁, hd, hg₁, hg₂, hids₁, hids₂, hs₁, hs₂, hindex₁, hoperations⟩

end Dockerfile.Lower
