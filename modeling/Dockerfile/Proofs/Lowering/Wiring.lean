import Dockerfile.Proofs.Lowering.Run
import Dockerfile.Proofs.Text

/-!
# The wiring of a graph

How the operations of a graph are tied together, whatever the document, the request and the
resolution are (`lower_wired`): names are unique, inputs are made before the operations that build
on them, and every operation of a stage builds first on the one before it, the first one on the
last operation of the stage's base.
-/

namespace Dockerfile

/-- The operations of a graph are tied together as the stages say. -/
structure Graph.Wired (g : Graph) : Prop where
  ids_nodup : (g.operations.map fun o => o.id.render).Nodup
  inputs_nodup : ∀ o ∈ g.operations, (o.inputs.map OperationId.render).Nodup
  /-- Every input stands strictly earlier. -/
  inputs_earlier : ∀ before o after, g.operations = before ++ o :: after →
    ∀ id ∈ o.inputs, id ∈ before.map Operation.id
  /-- Two operations that follow each other in a stage. -/
  chained : ∀ n before o next after, g.stageOperations n = before ++ o :: next :: after →
    next.inputs.head? = some o.id
  /-- The first operation of a stage with a base. -/
  based : ∀ s ∈ g.stages, ∀ b, s.baseStage = some b → ∃ base, g.stage? b = some base ∧
    ∀ id, base.terminal = some id → ∀ o, (g.stageOperations s.index).head? = some o →
      o.inputs.head? = some id

theorem Graph.Wired.nodup {g : Graph} (hg : g.Wired) : (g.operations.map Operation.id).Nodup := by
  have h := hg.ids_nodup
  rw [← Function.comp_def OperationId.render Operation.id, ← List.map_map] at h
  exact h.of_map

/-- What holds of an operation whenever it holds of its inputs holds of all operations. -/
theorem Graph.Wired.induct {g : Graph} (hg : g.Wired) {P : Operation → Prop}
    (step : ∀ o ∈ g.operations, (∀ p ∈ g.operations, p.id ∈ o.inputs → P p) → P o) {o : Operation}
    (ho : o ∈ g.operations) : P o := by
  obtain ⟨before, after, hops⟩ := List.append_of_mem ho
  -- By induction on the place of the operation: its inputs stand before it.
  induction hn : before.length using Nat.strong_induction_on generalizing before o after with
  | h n ih =>
    refine step o ho fun p hp hinput => ?_
    obtain ⟨q, hq, hid⟩ := List.mem_map.1 (hg.inputs_earlier before o after hops p.id hinput)
    obtain rfl : q = p := List.inj_on_of_nodup_map hg.nodup (by simp [hops, hq]) hp hid
    obtain ⟨before', after', rfl⟩ := List.append_of_mem hq
    have hlt : before'.length < n := by
      rw [← hn, List.length_append, List.length_cons]
      omega
    refine ih before'.length hlt hp before' (after' ++ o :: after) ?_ rfl
    rw [hops, List.append_assoc, List.cons_append]

namespace Lower

variable {d : Document} {job : Job} {r : Resolution} {g : Graph} {plans : List Plan}
  {order : List Nat} {done : List Lowered} {l : Lowered}

namespace Run

section

variable (run : Run d job r g plans order done) (hd : d.Numbered)

include run hd

/-- Each operation of a graph builds on earlier ones, each of them once. -/
theorem eachAfter_operations :
    EachAfter (fun before o => o.inputs.Nodup ∧ ∀ id ∈ o.inputs, id ∈ before.map Operation.id)
      g.operations := by
  rw [run.operations]
  refine EachAfter.flatMap ((run.started.each hd).imp fun before l _ h => ?_)
  obtain ⟨earlier, plan, -, -, -, hl⟩ := h
  refine hl.each.imp fun pre o _ ho => ⟨ho.inputs_nodup, fun id hid => ?_⟩
  obtain ⟨keys, hkeys, -⟩ := ho.keyed
  exact mem_of_lookUpKeys hkeys hid

theorem ids_nodup : (g.operations.map Operation.id).Nodup := by
  rw [run.operations, List.map_flatMap, List.nodup_flatMap]
  constructor
  · intro l hl
    obtain ⟨plan, before, -, hafter⟩ := run.exists_loweredAfter hd hl
    exact hafter.nodup
  · refine (List.pairwise_map.1 (run.started.index_nodup hd)).imp_of_mem fun hl hl' hne => ?_
    rw [Function.onFun_apply, List.disjoint_left]
    intro id hid hid'
    obtain ⟨o, ho, rfl⟩ := List.mem_map.1 hid
    obtain ⟨o', ho', hoo'⟩ := List.mem_map.1 hid'
    apply hne
    rw [← run.stage_eq hd hl ho, ← hoo', run.stage_eq hd hl' ho']

theorem wired : g.Wired where
  ids_nodup := by
    have h := (run.ids_nodup hd).map (f := OperationId.render) fun _ _ h => render_injective h
    rwa [List.map_map] at h
  inputs_nodup := by
    intro o ho
    obtain ⟨before, hnodup, -⟩ := (run.eachAfter_operations hd).mem ho
    exact hnodup.map fun _ _ h => render_injective h
  inputs_earlier := fun before o after h => (run.eachAfter_operations hd before o after h).2
  chained := by
    intro n before o next after h
    have ho : o ∈ g.stageOperations n := by
      rw [h]
      simp
    obtain ⟨ho, hn⟩ := List.mem_filter.1 ho
    obtain ⟨l, hl, ho⟩ := run.exists_of_mem_operations ho
    obtain rfl : l.graph.index = n := by
      rw [← run.stage_eq hd hl ho]
      simpa using hn
    rw [run.stageOperations_eq hd hl] at h
    obtain ⟨plan, earlier, -, hafter⟩ := run.exists_loweredAfter hd hl
    refine (hafter.each (before ++ [o]) next after (by rw [h]; simp)).head o.id ?_
    simp
  based := by
    intro s hs b hb
    obtain ⟨l, hl, rfl⟩ := run.mem_stages.1 hs
    obtain ⟨plan, before, base, hafter, hbase, hmem, rfl, -⟩ := run.exists_base hd hl hb
    refine ⟨base.graph, run.stage?_eq hd hmem, ?_⟩
    intro id hid o ho
    rw [run.stageOperations_eq hd hl] at ho
    obtain ⟨rest, hrest⟩ := List.head?_eq_some_iff.1 ho
    refine (hafter.each [] o rest hrest).head id ?_
    simp [hbase, hid]

end

end Run

/-- The graph of every document that was read, for every request and every resolution: names and
inputs without repetition, inputs before the operations that build on them, and first the operation
that stands before in the stage or ends its base. -/
theorem lower_wired (hd : d.Parsed) (h : (d.lower job r).result = .ok g) : g.Wired := by
  obtain ⟨plans, order, done, run⟩ := lower_ok h
  exact run.wired hd.numbered

/-- A stage without operations between two others, a stage that is mounted twice, and a copy from
the end of the stage's own base. -/
theorem lower_wired_mounts :
    ∃ d g, Document.parse ("FROM a AS x\nRUN b\nFROM x AS y\nFROM y\nCOPY --from=y d e\n" ++
        "RUN --mount=type=bind,from=x,target=/m --mount=type=bind,from=0,target=/n c\n") = .ok d ∧
      (d.lower ⟨[], none, none⟩ .empty).result = .ok g ∧
      g.operations.map (fun o => (o.id.render, o.inputs.map OperationId.render)) =
        [("s0.0", []), ("s2.0", ["s0.0"]), ("s2.1", ["s2.0", "s0.0"])] ∧ g.Wired := by
  obtain ⟨d, g, hd, hg, hinputs⟩ := exists_lowered
    ("FROM a AS x\nRUN b\nFROM x AS y\nFROM y\nCOPY --from=y d e\n" ++
      "RUN --mount=type=bind,from=x,target=/m --mount=type=bind,from=0,target=/n c\n")
    ⟨[], none, none⟩ (fun _ => .empty)
    (fun g => g.operations.map fun o => (o.id.render, o.inputs.map OperationId.render))
    [("s0.0", []), ("s2.0", ["s0.0"]), ("s2.1", ["s2.0", "s0.0"])] (by decide +kernel)
  exact ⟨d, g, hd, hg, hinputs, lower_wired (Or.inl ⟨_, hd⟩) hg⟩

end Lower

end Dockerfile
