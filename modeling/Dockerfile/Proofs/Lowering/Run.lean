import Dockerfile.Proofs.Lowering.Stages

/-!
# Runs

A lowering that succeeds leaves the data of a `Run`: the plans, the order of the stages and the
lowered stages behind the graph (`lower_ok`). A lowering that fails, fails at one of its parts
(`build_error`). A run that is not over yet is a `Started` one. In both, the stages are lowered in
their order, and whatever a stage uses is lowered before it.
-/

namespace Dockerfile.Lower

variable {d : Document} {job : Job} {r : Resolution} {plans : List Plan} {plan : Plan}
  {order : List Nat} {done : List Lowered} {l : Lowered} {n m : Nat}

/-! ### Runs that are started -/

/-- Stages of a document that are lowered in an order, each behind those it uses. -/
structure Started (d : Document) (job : Job) (r : Resolution) (plans : List Plan)
    (order : List Nat) (done : List Lowered) : Prop where
  plans_eq : (job.planner d r).plans = .ok plans
  nodup : order.Nodup
  after : EachAfter (fun before a => ∀ b, (dependencies plans).Uses a b → b ∈ before) order
  built : Built (job.frame d) plans order done

/-- The last operation of a stage or of its base is made. -/
theorem Built.terminal_mem {frame : Frame} (h : Built frame plans order done) (hl : l ∈ done)
    {id : OperationId} (hid : l.graph.terminal = some id) :
    id ∈ (done.flatMap Lowered.operations).map Operation.id := by
  induction h generalizing l with
  | nil => simp at hl
  | @concat order done n plan l' _ _ step ih =>
    have hmono : ∀ {id : OperationId}, id ∈ (done.flatMap Lowered.operations).map Operation.id →
        id ∈ ((done ++ [l']).flatMap Lowered.operations).map Operation.id := by
      intro id hid
      rw [List.flatMap_append, List.map_append]
      exact List.mem_append_left _ hid
    rcases List.mem_append.1 hl with hl | hl
    · exact hmono (ih hl hid)
    · rw [List.mem_singleton.1 hl, (loweredAfter step).terminal, Option.or_eq_some_iff] at hid
      rcases hid with hid | ⟨-, hid⟩
      · obtain ⟨o, ho, rfl⟩ := Option.map_eq_some_iff.1 hid
        rw [List.flatMap_append, List.map_append]
        refine List.mem_append_right _ (List.mem_map_of_mem ?_)
        simpa using List.mem_of_getLast? ho
      · obtain ⟨b, hb, hid⟩ := Option.bind_eq_some_iff.1 hid
        obtain ⟨m, -, hm⟩ := Option.bind_eq_some_iff.1 hb
        exact hmono (ih (List.mem_of_find?_eq_some hm) hid)

namespace Started

section

variable (s : Started d job r plans order done)

include s

theorem index_eq (hd : d.Numbered) : done.map (·.graph.index) = order := by
  obtain ⟨hplans, -, -, hb⟩ := s
  induction hb with
  | nil => rfl
  | concat _ hplan step ih =>
    rw [List.map_append, ih, List.map_singleton, (loweredAfter step).index,
      index_of_plans hd hplans hplan]

theorem index_nodup (hd : d.Numbered) : (done.map (·.graph.index)).Nodup := by
  rw [s.index_eq hd]
  exact s.nodup

/-- The order of a run that is started can be cut off. -/
theorem cut {earlier : List Nat} {before : List Lowered}
    (hb : Built (job.frame d) plans earlier before) (hpre : earlier <+: order) :
    Started d job r plans earlier before := by
  obtain ⟨rest, rfl⟩ := hpre
  exact ⟨s.plans_eq, s.nodup.sublist (List.sublist_append_left _ _), s.after.left, hb⟩

/-- A stage of a run is lowered by its plan, and all that the plan uses is lowered before. -/
theorem lowered (hd : d.Numbered) :
    EachAfter (fun before l => ∃ earlier plan, Started d job r plans earlier before ∧
      plans[l.graph.index]? = some plan ∧ (∀ m ∈ plan.uses, m ∈ earlier) ∧
      (lowerStage (job.frame d) before plan).result = .ok l) done := by
  refine s.built.lowered.imp fun before l _ h => ?_
  obtain ⟨earlier, n, plan, hbuilt, hpre, hplan, hl⟩ := h
  have hindex : l.graph.index = n := by
    rw [(loweredAfter hl).index, index_of_plans hd s.plans_eq hplan]
  have hcut := s.cut hbuilt ((List.prefix_append _ _).trans hpre)
  refine ⟨earlier, plan, hcut, by rwa [hindex], ?_, hl⟩
  intro m hm
  obtain ⟨rest, hrest⟩ := hpre
  rw [List.append_assoc] at hrest
  exact s.after earlier n rest hrest.symm m ((uses_dependencies hd s.plans_eq).2 ⟨plan, hplan, hm⟩)

theorem each (hd : d.Numbered) :
    EachAfter (fun before l => ∃ earlier plan, Started d job r plans earlier before ∧
      plans[l.graph.index]? = some plan ∧ (∀ m ∈ plan.uses, m ∈ earlier) ∧
      LoweredAfter plan before l) done := by
  refine (s.lowered hd).imp fun before l _ h => ?_
  obtain ⟨earlier, plan, hs, hplan, huses, hl⟩ := h
  exact ⟨earlier, plan, hs, hplan, huses, loweredAfter hl⟩

theorem stage_eq (hd : d.Numbered) (hl : l ∈ done) {o : Operation} (ho : o ∈ l.operations) :
    o.id.stage = l.graph.index := by
  obtain ⟨before, earlier, plan, -, -, -, hafter⟩ := (s.each hd).mem hl
  rw [hafter.stage o ho, hafter.index]

theorem find?_index (hd : d.Numbered) (hl : l ∈ done) : find? done l.graph.index = some l :=
  find?_eq_some_of_mem (s.index_nodup hd) hl

/-- A stage of the order is found among those that are lowered. -/
theorem find?_of_mem (hd : d.Numbered) (hn : n ∈ order) :
    ∃ l ∈ done, l.graph.index = n ∧ find? done n = some l := by
  rw [← s.index_eq hd] at hn
  obtain ⟨l, hl, rfl⟩ := List.mem_map.1 hn
  exact ⟨l, hl, rfl, s.find?_index hd hl⟩

/-- The base of a stage is lowered before the stage. -/
theorem exists_baseIn? (hd : d.Numbered) (huses : ∀ m ∈ plan.uses, m ∈ order) {b : Nat}
    (hb : plan.base = some b) : ∃ l ∈ done, l.graph.index = b ∧ baseIn? done plan = some l := by
  obtain ⟨l, hl, hindex, hfind⟩ := s.find?_of_mem hd (huses b (mem_uses_of_base hb))
  refine ⟨l, hl, hindex, ?_⟩
  rw [baseIn?, hb]
  exact hfind

end

end Started

/-! ### Stages by their numbers -/

theorem perm_insertByIndex (s : StageGraph) (l : List StageGraph) :
    (insertByIndex s l).Perm (s :: l) := by
  induction l with
  | nil => exact List.Perm.refl _
  | cons t l ih =>
    unfold insertByIndex
    split
    · exact List.Perm.refl _
    · exact (ih.cons t).trans (List.Perm.swap s t l)

theorem perm_sortByIndex (l : List StageGraph) : (sortByIndex l).Perm l := by
  suffices h : ∀ sorted : List StageGraph,
      (l.foldl (fun sorted stage => insertByIndex stage sorted) sorted).Perm (sorted ++ l) from h []
  induction l with
  | nil => simp
  | cons s l ih =>
    intro sorted
    refine (ih _).trans (((perm_insertByIndex s sorted).append_right l).trans ?_)
    exact List.perm_middle.symm

theorem pairwise_insertByIndex {s : StageGraph} {l : List StageGraph}
    (hl : l.Pairwise (·.index < ·.index)) (hs : ∀ t ∈ l, t.index ≠ s.index) :
    (insertByIndex s l).Pairwise (·.index < ·.index) := by
  induction l with
  | nil => simp [insertByIndex]
  | cons t l ih =>
    obtain ⟨ht, hl⟩ := List.pairwise_cons.1 hl
    unfold insertByIndex
    split
    · rename_i hlt
      refine List.pairwise_cons.2 ⟨?_, List.pairwise_cons.2 ⟨ht, hl⟩⟩
      intro u hu
      rcases List.mem_cons.1 hu with rfl | hu
      · exact hlt
      · exact Nat.lt_trans hlt (ht u hu)
    · rename_i hlt
      have hne := hs t List.mem_cons_self
      refine List.pairwise_cons.2 ⟨?_, ih hl fun u hu => hs u (List.mem_cons_of_mem t hu)⟩
      intro u hu
      rcases List.mem_cons.1 ((perm_insertByIndex s l).mem_iff.1 hu) with rfl | hu
      · omega
      · exact ht u hu

theorem pairwise_sortByIndex {l : List StageGraph} (hl : (l.map StageGraph.index).Nodup) :
    (sortByIndex l).Pairwise (·.index < ·.index) := by
  suffices h : ∀ sorted : List StageGraph, sorted.Pairwise (·.index < ·.index) →
      ((sorted ++ l).map StageGraph.index).Nodup →
      (l.foldl (fun sorted stage => insertByIndex stage sorted) sorted).Pairwise
        (·.index < ·.index) from h [] List.Pairwise.nil hl
  clear hl
  induction l with
  | nil => exact fun sorted h _ => h
  | cons s l ih =>
    intro sorted hsorted hnodup
    rw [List.map_append, List.map_cons, List.nodup_append] at hnodup
    obtain ⟨hs, hsl, hdisj⟩ := hnodup
    refine ih _ (pairwise_insertByIndex hsorted ?_) ?_
    · intro t ht
      exact hdisj _ (List.mem_map_of_mem ht) _ List.mem_cons_self
    · have hperm : ((insertByIndex s sorted ++ l).map StageGraph.index).Perm
          (sorted.map StageGraph.index ++ (s :: l).map StageGraph.index) := by
        rw [← List.map_append]
        exact (((perm_insertByIndex s sorted).append_right l).trans List.perm_middle.symm).map _
      rw [hperm.nodup_iff, List.nodup_append]
      exact ⟨hs, hsl, hdisj⟩

/-! ### Whole runs -/

/-- The run behind a graph. -/
structure Run (d : Document) (job : Job) (r : Resolution) (g : Graph) (plans : List Plan)
    (order : List Nat) (done : List Lowered) : Prop where
  target : target d job.target = .ok g.target
  plans_eq : (job.planner d r).plans = .ok plans
  isOrder : (dependencies plans).IsOrder g.target order
  built : Built (job.frame d) plans order done
  operations : g.operations = done.flatMap Lowered.operations
  stages : g.stages = sortByIndex (done.map Lowered.graph)

theorem mapError_eq_ok {ε ε' α : Type} {f : ε → ε'} {x : Except ε α} {a : α}
    (h : x.mapError f = .ok a) : x = .ok a := by
  cases x with
  | error e => cases h
  | ok b =>
    cases h
    rfl

theorem mapError_eq_error {ε ε' α : Type} {f : ε → ε'} {x : Except ε α} {e : ε'}
    (h : x.mapError f = .error e) : ∃ e', x = .error e' ∧ e = f e' := by
  cases x with
  | error e' =>
    cases h
    exact ⟨e', rfl, rfl⟩
  | ok b => cases h

theorem eq_ok_of_toOption {ε α : Type} {x : Except ε α} {a : α} (h : x.toOption = some a) :
    x = .ok a := by
  cases x with
  | error e => cases h
  | ok b =>
    cases h
    rfl

theorem eq_error_of_map {ε α β : Type} {f : α → β} {x : Except ε α} {e : ε}
    (h : x.map f = .error e) : x = .error e := by
  cases x with
  | error e' =>
    cases h
    rfl
  | ok a => cases h

theorem build_ok {g : Graph} (h : (build d job r).result = .ok g) :
    ∃ plans order done, Run d job r g plans order done := by
  unfold build at h
  obtain ⟨goal, htarget, h⟩ := Traced.bind_eq_ok.1 h
  rw [Traced.result_ofExcept] at htarget
  obtain ⟨metas, hmetas, h⟩ := Traced.bind_eq_ok.1 h
  obtain rfl := declareMetas_ok hmetas
  obtain ⟨plans, hplans, h⟩ := Traced.bind_eq_ok.1 h
  rw [Traced.result_ofExcept] at hplans
  obtain ⟨_, -, h⟩ := Traced.bind_eq_ok.1 h
  obtain ⟨order, horder, h⟩ := Traced.bind_eq_ok.1 h
  rw [Traced.result_ofExcept] at horder
  obtain ⟨done, hdone, h⟩ := Traced.bind_eq_ok.1 h
  obtain ⟨_, -, h⟩ := Traced.bind_eq_ok.1 h
  obtain ⟨_, -, h⟩ := Traced.bind_eq_ok.1 h
  cases h
  exact ⟨plans, order, done, {
    target := htarget
    plans_eq := mapError_eq_ok hplans
    isOrder := Dependencies.order_ok (mapError_eq_ok horder)
    built := lowerStages_ok .nil hdone
    operations := rfl
    stages := rfl }⟩

/-- Where a lowering fails: at the target, at a declaration before the first stage, at the plans, at
the order, at the stages or at the platform of the graph. -/
theorem build_error {fault : Fault} (h : (build d job r).result = .error fault) :
    target d job.target = .error fault ∨
      (declareMetas (job.setting d) [] d.metaArgs).result = .error fault ∨
      ∃ goal, target d job.target = .ok goal ∧
        ((∃ n, (job.planner d r).plans = .error n ∧ fault = .unplanned n) ∨
          ∃ plans, (job.planner d r).plans = .ok plans ∧
            ((∃ cycle, (dependencies plans).order goal = .error cycle ∧
                fault = .cycle cycle.member) ∨
              ∃ order, (dependencies plans).order goal = .ok order ∧
                ((lowerStages (job.frame d) plans [] order).result = .error fault ∨
                  ∃ done, Built (job.frame d) plans order done ∧
                    graphPlatform job.platform done goal = .error fault))) := by
  unfold build at h
  rcases Traced.bind_eq_error.1 h with h | ⟨goal, htarget, h⟩
  · rw [Traced.result_ofExcept] at h
    exact Or.inl h
  rw [Traced.result_ofExcept] at htarget
  rcases Traced.bind_eq_error.1 h with h | ⟨metas, hmetas, h⟩
  · exact Or.inr (Or.inl h)
  obtain rfl := declareMetas_ok hmetas
  refine Or.inr (Or.inr ⟨goal, htarget, ?_⟩)
  rcases Traced.bind_eq_error.1 h with h | ⟨plans, hplans, h⟩
  · rw [Traced.result_ofExcept] at h
    exact Or.inl (mapError_eq_error h)
  rw [Traced.result_ofExcept] at hplans
  refine Or.inr ⟨plans, mapError_eq_ok hplans, ?_⟩
  rcases Traced.bind_eq_error.1 h with h | ⟨_, -, h⟩
  · cases h
  rcases Traced.bind_eq_error.1 h with h | ⟨order, horder, h⟩
  · rw [Traced.result_ofExcept] at h
    exact Or.inl (mapError_eq_error h)
  rw [Traced.result_ofExcept] at horder
  refine Or.inr ⟨order, mapError_eq_ok horder, ?_⟩
  rcases Traced.bind_eq_error.1 h with h | ⟨done, hdone, h⟩
  · exact Or.inl h
  rcases Traced.bind_eq_error.1 h with h | ⟨_, -, h⟩
  · cases h
  rcases Traced.bind_eq_error.1 h with h | ⟨_, -, h⟩
  · rw [Traced.result_ofExcept] at h
    exact Or.inr ⟨done, lowerStages_ok .nil hdone, h⟩
  · cases h

theorem build_of_target_error {fault : Fault} (h : target d job.target = .error fault) :
    (build d job r).result = .error fault := by
  refine Traced.bind_eq_error.2 (.inl ?_)
  rw [Traced.result_ofExcept, h]

/-- The graph of a document is built by a run; its warnings are added to it. -/
theorem lower_ok {g : Graph} (h : (d.lower job r).result = .ok g) :
    ∃ plans order done, Run d job r g plans order done := by
  simp only [Document.lower] at h
  cases hb : (build d job r).result with
  | error fault =>
    rw [hb] at h
    cases h
  | ok g' =>
    rw [hb] at h
    cases h
    obtain ⟨plans, order, done, run⟩ := build_ok hb
    exact ⟨plans, order, done, { run with }⟩

theorem lower_eq_error {fault : Fault} (h : (d.lower job r).result = .error fault) :
    (build d job r).result = .error fault := by
  simp only [Document.lower] at h
  cases hb : (build d job r).result with
  | error fault' =>
    rw [hb] at h
    cases h
    rfl
  | ok g =>
    rw [hb] at h
    cases h

/-- A text whose document and graph can be computed, with something that is computed from the
graph. -/
theorem exists_lowered (source : String) (job : Job) (r : Document → Resolution) {α : Type}
    (f : Graph → α) (a : α)
    (h : ((Document.parse source).toOption.bind fun d =>
      (d.lower job (r d)).result.toOption.map f) = some a) :
    ∃ d g, Document.parse source = .ok d ∧ (d.lower job (r d)).result = .ok g ∧ f g = a := by
  obtain ⟨d, hd, h⟩ := Option.bind_eq_some_iff.1 h
  obtain ⟨g, hg, ha⟩ := Option.map_eq_some_iff.1 h
  exact ⟨d, g, eq_ok_of_toOption hd, eq_ok_of_toOption hg, ha⟩

/-- A text whose document and graph can be computed, with something that can be decided of them. -/
theorem exists_lowered_with (source : String) (job : Job) (r : Document → Resolution)
    (P : Document → Graph → Prop) [∀ d g, Decidable (P d g)]
    (h : ((Document.parse source).toOption.bind fun d =>
      (d.lower job (r d)).result.toOption.map fun g => decide (P d g)) = some true) :
    ∃ d g, Document.parse source = .ok d ∧ (d.lower job (r d)).result = .ok g ∧ P d g := by
  obtain ⟨d, hd, h⟩ := Option.bind_eq_some_iff.1 h
  obtain ⟨g, hg, h⟩ := Option.map_eq_some_iff.1 h
  exact ⟨d, g, eq_ok_of_toOption hd, eq_ok_of_toOption hg, of_decide_eq_true h⟩

/-- Two texts whose documents and graphs can be computed, with something that can be decided of
them. -/
theorem exists_lowered₂ (source₁ source₂ : String) (job₁ job₂ : Job) (r : Document → Resolution)
    (P : Document → Document → Graph → Graph → Prop) [∀ d₁ d₂ g₁ g₂, Decidable (P d₁ d₂ g₁ g₂)]
    (h : ((Document.parse source₁).toOption.bind fun d₁ =>
      (Document.parse source₂).toOption.bind fun d₂ =>
      (d₁.lower job₁ (r d₁)).result.toOption.bind fun g₁ =>
      (d₂.lower job₂ (r d₂)).result.toOption.map fun g₂ => decide (P d₁ d₂ g₁ g₂)) = some true) :
    ∃ d₁ d₂ g₁ g₂, Document.parse source₁ = .ok d₁ ∧ Document.parse source₂ = .ok d₂ ∧
      (d₁.lower job₁ (r d₁)).result = .ok g₁ ∧ (d₂.lower job₂ (r d₂)).result = .ok g₂ ∧
      P d₁ d₂ g₁ g₂ := by
  obtain ⟨d₁, hd₁, h⟩ := Option.bind_eq_some_iff.1 h
  obtain ⟨d₂, hd₂, h⟩ := Option.bind_eq_some_iff.1 h
  obtain ⟨g₁, hg₁, h⟩ := Option.bind_eq_some_iff.1 h
  obtain ⟨g₂, hg₂, h⟩ := Option.map_eq_some_iff.1 h
  exact ⟨d₁, d₂, g₁, g₂, eq_ok_of_toOption hd₁, eq_ok_of_toOption hd₂, eq_ok_of_toOption hg₁,
    eq_ok_of_toOption hg₂, of_decide_eq_true h⟩

namespace Run

variable {g : Graph}

section

variable (run : Run d job r g plans order done)

include run

theorem started : Started d job r plans order done :=
  ⟨run.plans_eq, run.isOrder.nodup, run.isOrder.after, run.built⟩

/-- A lowered stage is lowered by its plan behind other stages. -/
theorem exists_loweredAfter (hd : d.Numbered) (hl : l ∈ done) :
    ∃ plan before, plans[l.graph.index]? = some plan ∧
      LoweredAfter plan before l := by
  obtain ⟨before, earlier, plan, -, hplan, -, hafter⟩ := (run.started.each hd).mem hl
  exact ⟨plan, before, hplan, hafter⟩

theorem stage_eq (hd : d.Numbered) (hl : l ∈ done) {o : Operation} (ho : o ∈ l.operations) :
    o.id.stage = l.graph.index :=
  run.started.stage_eq hd hl ho

/-- An operation of the graph is one of a lowered stage. -/
theorem exists_of_mem_operations {o : Operation} (ho : o ∈ g.operations) :
    ∃ l ∈ done, o ∈ l.operations := by
  rw [run.operations] at ho
  exact List.mem_flatMap.1 ho

theorem mem_stages {s : StageGraph} : s ∈ g.stages ↔ ∃ l ∈ done, l.graph = s := by
  rw [run.stages, (perm_sortByIndex _).mem_iff, List.mem_map]

theorem pairwise_stages (hd : d.Numbered) : g.stages.Pairwise (·.index < ·.index) := by
  rw [run.stages]
  refine pairwise_sortByIndex ?_
  rw [List.map_map]
  exact run.started.index_nodup hd

/-- A lowered stage is found in the graph by its number. -/
theorem stage?_eq (hd : d.Numbered) (hl : l ∈ done) : g.stage? l.graph.index = some l.graph := by
  refine find?_eq_some_of_mem (f := StageGraph.index) ?_ (run.mem_stages.2 ⟨l, hl, rfl⟩)
  rw [List.Nodup, List.pairwise_map]
  exact (run.pairwise_stages hd).imp Nat.ne_of_lt

theorem mem_order_iff (hd : d.Numbered) : n ∈ order ↔ ∃ l ∈ done, l.graph.index = n := by
  rw [← run.started.index_eq hd, List.mem_map]

/-- The operations of a lowered stage are those of the graph that carry its number. -/
theorem stageOperations_eq (hd : d.Numbered) (hl : l ∈ done) :
    g.stageOperations l.graph.index = l.operations := by
  obtain ⟨before, after, hsplit⟩ := List.append_of_mem hl
  have hother : ∀ l' ∈ before ++ after, l'.graph.index ≠ l.graph.index := by
    have hnodup := run.started.index_nodup hd
    rw [hsplit, List.perm_middle.map _ |>.nodup_iff, List.map_cons, List.nodup_cons] at hnodup
    intro l' hl' heq
    exact hnodup.1 (heq ▸ List.mem_map_of_mem hl')
  have hnil : ∀ part : List Lowered, part ⊆ before ++ after →
      (part.flatMap Lowered.operations).filter (·.id.stage = l.graph.index) = [] := by
    intro part hpart
    rw [List.filter_eq_nil_iff]
    intro o ho
    obtain ⟨l', hl', ho⟩ := List.mem_flatMap.1 ho
    have hmem : l' ∈ done := by
      rw [hsplit]
      rcases List.mem_append.1 (hpart hl') with h | h <;> simp [h]
    rw [run.stage_eq hd hmem ho]
    simpa using hother l' (hpart hl')
  unfold Graph.stageOperations
  rw [run.operations, hsplit, List.flatMap_append, List.flatMap_cons, List.filter_append,
    List.filter_append, hnil before (List.subset_append_left _ _),
    hnil after (List.subset_append_right _ _), List.append_nil, List.nil_append,
    List.filter_eq_self]
  intro o ho
  simpa using run.stage_eq hd hl ho

/-- The base of a lowered stage is lowered before it and stands before it. -/
theorem exists_base (hd : d.Numbered) (hl : l ∈ done) {b : Nat} (hb : l.graph.baseStage = some b) :
    ∃ plan before base, LoweredAfter plan before l ∧ baseIn? before plan = some base ∧
      base ∈ done ∧ base.graph.index = b ∧ b < l.graph.index := by
  obtain ⟨before, after, hsplit⟩ := List.append_of_mem hl
  obtain ⟨earlier, plan, hs, hplan, huses, hafter⟩ := run.started.each hd before l after hsplit
  rw [hafter.baseStage] at hb
  obtain ⟨base, hbase, hindex, hfound⟩ := hs.exists_baseIn? hd huses hb
  have hmem : base ∈ done := by
    rw [hsplit]
    exact List.mem_append_left _ hbase
  exact ⟨plan, before, base, hafter, hfound, hmem, hindex, base_of_plans run.plans_eq hplan hb⟩

/-- A stage is lowered behind other stages, and its base among them is the stage of the graph with
the number of the base. -/
theorem exists_lowerStage (hd : d.Numbered) (hl : l ∈ done) :
    ∃ plan before, (lowerStage (job.frame d) before plan).result = .ok l ∧
      (baseIn? before plan).map Lowered.graph = l.graph.baseStage.bind g.stage? := by
  obtain ⟨before, after, hsplit⟩ := List.append_of_mem hl
  obtain ⟨earlier, plan, hs, -, huses, hlower⟩ := run.started.lowered hd before l after hsplit
  refine ⟨plan, before, hlower, ?_⟩
  rw [(loweredAfter hlower).baseStage]
  cases hb : plan.base with
  | none =>
    rw [baseIn?, hb]
    rfl
  | some b =>
    obtain ⟨base, hbase, rfl, hfound⟩ := hs.exists_baseIn? hd huses hb
    have hmem : base ∈ done := by
      rw [hsplit]
      exact List.mem_append_left _ hbase
    rw [hfound, Option.bind_some, run.stage?_eq hd hmem]
    rfl

theorem base_eq (hd : d.Numbered) (hl : l ∈ done) :
    ∃ plan before, LoweredAfter plan before l ∧
      (baseIn? before plan).map Lowered.graph = l.graph.baseStage.bind g.stage? := by
  obtain ⟨plan, before, hlower, hbase⟩ := run.exists_lowerStage hd hl
  exact ⟨plan, before, loweredAfter hlower, hbase⟩

end

end Run

end Dockerfile.Lower
