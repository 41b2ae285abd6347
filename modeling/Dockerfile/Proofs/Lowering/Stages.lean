import Dockerfile.Proofs.Lowering.Plans

/-!
# Lowered stages

What a lowered stage looks like. `OperationAfter` says how an operation of a stage relates to those
before it: what it builds on and what its key is computed from. The walk over a stage keeps
`WalkInv`, which makes every lowered stage a `LoweredAfter` of the stages before it. The stages of a
whole run are `Built` in order, and each of them is found where a later one looks for it.
-/

namespace Dockerfile

/-! ### Outlines -/

/-- The name, the kind and the place of an operation. -/
def Operation.outline (o : Operation) : OperationId × Kind × Position := (o.id, o.kind, o.position)

/-- The outline of the operation of an instruction. An `ARG` has none. -/
def Instruction.outline? (i : Instruction) (stage position : Nat) :
    Option (OperationId × Kind × Position) :=
  if i.kind = .arg then none else some (⟨stage, position⟩, i.kind, i.position)

/-- The outlines of the operations of a stage: one for each instruction that is no `ARG`. -/
def Stage.outline (s : Stage) : List (OperationId × Kind × Position) :=
  s.instructions.zipIdx.filterMap fun (i, position) => i.outline? s.index position

namespace Lower

/-- An instruction that is neither a `FROM` nor an `ARG` comes to an operation. -/
theorem Surroundings.task?_eq_none_iff {s : Surroundings} {body : Body} (h : body.kind ≠ .base) :
    s.task? body = none ↔ body.kind = .arg := by
  cases body <;> simp_all [Surroundings.task?, Surroundings.change?, Body.kind]

/-! ### Sources -/

theorem exists_of_sourceOf {done : List Lowered} {reference : Option Reference} {id : OperationId}
    (h : (sourceOf done reference).2 = some id) : ∃ m l, reference = some (.stage m) ∧
      find? done m = some l ∧ l.graph.terminal = some id := by
  unfold sourceOf at h
  split at h
  · cases h
  · cases h
  · rename_i m
    split at h
    · cases h
    · rename_i l hl
      split at h
      · cases h
      · rename_i terminal hterminal
        cases h
        exact ⟨m, l, rfl, hl, hterminal⟩

/-- An operation of another stage that an instruction builds on ends a stage that the plan uses. -/
theorem StageFrame.exists_of_mem_links {f : StageFrame} {p : Progress} {n : Nat} {i : Instruction}
    {id : OperationId} (h : id ∈ (f.surroundings p n).links i.body) :
    ∃ m ∈ f.plan.uses, ∃ l, find? f.done m = some l ∧ l.graph.terminal = some id := by
  have hsource : ∀ slot, ((f.surroundings p n).source slot).2 = some id →
      ∃ m ∈ f.plan.uses, ∃ l, find? f.done m = some l ∧ l.graph.terminal = some id := by
    intro slot hslot
    obtain ⟨m, l, hm, hl, hterminal⟩ := exists_of_sourceOf hslot
    exact ⟨m, mem_uses_of_reference? hm, l, hl, hterminal⟩
  unfold Surroundings.links at h
  split at h
  · obtain ⟨slot, -, hslot⟩ := List.mem_filterMap.1 h
    exact hsource slot hslot
  · exact hsource 0 (Option.mem_toList.1 h)
  · simp at h

/-! ### Walks -/

/-- How an operation of a stage relates to the stages `done` before the stage and to the operations
`before` it in the stage, which starts from an image with a platform and perhaps behind an operation
of its base. -/
structure OperationAfter (done : List Lowered) (root : String) (platform : Option String)
    (base : Option OperationId) (before : List Operation) (o : Operation) : Prop where
  inputs_nodup : o.inputs.Nodup
  /-- The first input is the operation before it, of the stage or of its base. -/
  head : ∀ id, (before.getLast?.map Operation.id).or base = some id → o.inputs.head? = some id
  /-- The key is computed from the keys of the inputs, which are all made before. -/
  keyed : ∃ keys, lookUpKeys (done.flatMap Lowered.operations ++ before) o.inputs = .ok keys ∧
    o.key = contentKey (payload o.kind o.task keys
      (if before.isEmpty then some (root, platform) else none))

namespace StageFrame

variable {f : StageFrame} {start p q : Progress} {instructions : List Instruction}
  {i : Instruction}

theorem operationAfter {task : Task} {keys : List String} {base : Option OperationId}
    (hprev : p.previous = (p.operations.getLast?.map Operation.id).or base)
    (hkeys : lookUpKeys (f.made p) (f.inputs p instructions.length i) = .ok keys) :
    OperationAfter f.done f.root f.platform base p.operations
      (f.operation p instructions.length i task keys) where
  inputs_nodup := by
    refine nodup_addNew ?_
    cases p.previous <;> simp
  head := by
    intro id hid
    rw [← hprev] at hid
    have hpre := prefix_addNew p.previous.toList
      ((f.surroundings p instructions.length).links i.body)
    rw [hid, Option.toList_some] at hpre
    obtain ⟨rest, hrest⟩ := hpre
    show (f.inputs p instructions.length i).head? = some id
    rw [inputs, hid, Option.toList_some, ← hrest]
    rfl
  keyed := ⟨keys, hkeys, rfl⟩

/-- What holds of the walk over the first instructions of a stage. -/
structure WalkInv (f : StageFrame) (start : Progress) (instructions : List Instruction)
    (p : Progress) : Prop where
  previous : p.previous = (p.operations.getLast?.map Operation.id).or start.previous
  stage : ∀ o ∈ p.operations, o.id.stage = f.plan.stage.index
  position_lt : ∀ o ∈ p.operations, o.id.position < instructions.length
  nodup : (p.operations.map Operation.id).Nodup
  each : EachAfter (OperationAfter f.done f.root f.platform start.previous) p.operations
  outline : (∀ i ∈ instructions, i.kind ≠ .base) →
    p.operations.map Operation.outline = instructions.zipIdx.filterMap fun (i, position) =>
      i.outline? f.plan.stage.index position

theorem WalkInv.initial (h : start.operations = []) : f.WalkInv start [] start where
  previous := by simp [h]
  stage := by simp [h]
  position_lt := by simp [h]
  nodup := by simp [h]
  each := by
    rw [h]
    exact eachAfter_nil
  outline := by simp [h]

theorem WalkInv.step (w : f.WalkInv start instructions p)
    (h : f.Step p instructions.length i q) : f.WalkInv start (instructions ++ [i]) q := by
  have hlen : (instructions ++ [i]).length = instructions.length + 1 := by simp
  have hzip : (instructions ++ [i]).zipIdx = instructions.zipIdx ++ [(i, instructions.length)] := by
    simp [List.zipIdx_append]
  cases h with
  | pass htask =>
    refine { w with
      position_lt := fun o ho => ?_
      outline := fun hbase => ?_ }
    · have := w.position_lt o ho
      omega
    · have hi : i.kind ≠ .base := hbase i (by simp)
      have harg : i.kind = .arg := (Surroundings.task?_eq_none_iff hi).1 htask
      rw [hzip, List.filterMap_append, ← w.outline fun j hj => hbase j (by simp [hj])]
      simp [Instruction.outline?, harg]
  | make task keys htask hkeys =>
    have hid : (f.operation p instructions.length i task keys).id =
        ⟨f.plan.stage.index, instructions.length⟩ := rfl
    exact {
      previous := by simp [behind]
      stage := by
        intro o ho
        rcases List.mem_append.1 ho with ho | ho
        · exact w.stage o ho
        · rw [List.mem_singleton.1 ho, hid]
      position_lt := by
        intro o ho
        rcases List.mem_append.1 ho with ho | ho
        · have := w.position_lt o ho
          omega
        · rw [List.mem_singleton.1 ho, hid]
          simp
      nodup := by
        show ((p.operations ++ [_]).map Operation.id).Nodup
        rw [List.map_append, List.nodup_append]
        refine ⟨w.nodup, by simp, ?_⟩
        rintro a ha b hb rfl
        obtain ⟨o, ho, rfl⟩ := List.mem_map.1 ha
        have hpos : o.id = ⟨f.plan.stage.index, instructions.length⟩ :=
          (List.mem_singleton.1 hb).trans hid
        have := w.position_lt o ho
        rw [hpos] at this
        exact Nat.lt_irrefl _ this
      each := eachAfter_concat.2 ⟨w.each, operationAfter w.previous hkeys⟩
      outline := by
        intro hbase
        have hi : i.kind ≠ .base := hbase i (by simp)
        have harg : i.kind ≠ .arg := by
          intro harg
          rw [(Surroundings.task?_eq_none_iff hi).2 harg] at htask
          cases htask
        rw [hzip, List.filterMap_append, ← w.outline fun j hj => hbase j (by simp [hj])]
        simp [behind, Instruction.outline?, harg, Operation.outline, operation] }

theorem Walked.inv (h : f.Walked start instructions p) (hstart : start.operations = []) :
    f.WalkInv start instructions p := by
  induction h with
  | nil => exact .initial hstart
  | concat _ step ih => exact ih.step (lowerInstruction_ok step).2.2

end StageFrame

/-! ### Stages -/

/-- How a lowered stage relates to its plan and to the stages before it. -/
structure LoweredAfter (plan : Plan) (done : List Lowered) (l : Lowered) : Prop where
  index : l.graph.index = plan.stage.index
  baseStage : l.graph.baseStage = plan.base
  listed : l.graph.operations = l.operations.map Operation.id
  /-- A stage goes back to the image of its base. -/
  root : l.root = (baseIn? done plan).elim l.graph.baseImage Lowered.root
  terminal : l.graph.terminal =
    (l.operations.getLast?.map Operation.id).or ((baseIn? done plan).bind (·.graph.terminal))
  stage : ∀ o ∈ l.operations, o.id.stage = plan.stage.index
  nodup : (l.operations.map Operation.id).Nodup
  each : EachAfter (OperationAfter done l.root l.graph.platform
    ((baseIn? done plan).bind (·.graph.terminal))) l.operations
  outline : (∀ i ∈ plan.stage.instructions, i.kind ≠ .base) →
    l.operations.map Operation.outline = plan.stage.outline

section Stages

variable {frame : Frame} {plans : List Plan} {plan : Plan} {order : List Nat}
  {done : List Lowered} {l : Lowered} {n : Nat}

theorem loweredAfter (h : (lowerStage frame done plan).result = .ok l) :
    LoweredAfter plan done l := by
  obtain ⟨platform, p, -, hw, rfl⟩ := lowerStage_ok h
  have w := hw.inv rfl
  exact {
    index := rfl
    baseStage := rfl
    listed := rfl
    root := by
      rcases hbase : baseIn? done plan with _ | b <;>
        simp [Frame.root, StageFrame.lowered, stageFrame, hbase]
    terminal := w.previous
    stage := w.stage
    nodup := w.nodup
    each := w.each
    outline := w.outline }

/-- Every stage of a run is lowered by its plan behind the stages before it, which are a run. -/
theorem Built.lowered (h : Built frame plans order done) :
    EachAfter (fun before l => ∃ earlier n plan, Built frame plans earlier before ∧
      earlier ++ [n] <+: order ∧ plans[n]? = some plan ∧
      (lowerStage frame before plan).result = .ok l) done := by
  induction h with
  | nil => exact eachAfter_nil
  | @concat order done n plan l before hplan step ih =>
    refine eachAfter_concat.2 ⟨?_, order, n, plan, before, List.prefix_rfl, hplan, step⟩
    refine ih.imp fun pre l' _ h => ?_
    obtain ⟨earlier, k, plan', hbuilt, hpre, hrest⟩ := h
    exact ⟨earlier, k, plan', hbuilt, hpre.trans (List.prefix_append order [n]), hrest⟩

end Stages

end Lower

end Dockerfile
