import Dockerfile.Proofs.Dot.Reader
import Dockerfile.Proofs.Lowering.Wiring
import Mathlib.Data.List.Forall2

/-!
# Drawings of graphs

The drawing of a graph that a document lowers to shows the graph (`Shows`): one cluster for each
stage with one node for each of its operations, and one edge for each input of an operation and for
each operation that starts from an image. The name of an operation starts with that of its stage and
a point, so `s1.` is not the start of `s10.3` and the edges from other stages are the dashed ones
(`namesStage_render`). The text of the drawing is read as the drawing (`render_shows`).
-/

namespace Dockerfile

open Drawing

/-- The edges to an operation: from the image that it starts from, and from each of its inputs, which
are dashed from other stages. -/
def Operation.arrows (o : Operation) : List Edge :=
  (o.baseImage.toList.map fun _ => ⟨baseNode o.id.stage, o.id.render, false⟩) ++
    o.inputs.map fun input => ⟨input.render, o.id.render, input.stage ≠ o.id.stage⟩

namespace Drawing

/-- A drawing shows a graph. -/
structure Shows (d : Drawing) (g : Graph) : Prop where
  /-- A cluster has one node for each operation of its stage, and the end of the stage stands out. -/
  clusters : List.Forall₂ (fun (c : Cluster) (s : StageGraph) => c.index = s.index ∧
    c.nodes.map Node.id = (g.stageOperations s.index).map (fun o => o.id.render) ∧
    ∀ n ∈ c.nodes, n.terminal = true ↔ s.terminal.map OperationId.render = some n.id)
    d.clusters g.stages
  clusters_nodup : (d.clusters.map Cluster.index).Nodup
  /-- Every operation has its node. -/
  nodes : (d.clusters.flatMap fun c => c.nodes.map Node.id).Perm
    (g.operations.map fun o => o.id.render)
  nodes_nodup : (d.clusters.flatMap fun c => c.nodes.map Node.id).Nodup
  edges : d.edges.Perm (g.operations.flatMap Operation.arrows)
  edges_nodup : (d.edges.map fun e => (e.source, e.target)).Nodup
  inputs : ∀ o ∈ g.operations, ∀ input ∈ o.inputs, ∃ p ∈ g.operations, p.id = input

/-! ### Names -/

/-- The name of an operation starts with a stage and a point if and only if that is its stage. -/
theorem namesStage_render (index : Nat) (id : OperationId) :
    namesStage index id.render = decide (id.stage = index) := by
  have hfront : (s!"s{index}.").toList = 's' :: (Nat.toDigits 10 index ++ ['.']) := by
    simp [ToString.toString, Nat.toList_repr]
  have hpoint (rest : List Char) : Stops Char.isDigit ('.' :: rest) := by
    rintro c ⟨⟩
    decide
  rw [Bool.eq_iff_iff, decide_eq_true_eq, namesStage, List.isPrefixOf_iff_prefix, hfront,
    toList_render, List.cons_prefix_cons]
  constructor
  · rintro ⟨-, rest, hrest⟩
    rw [List.append_assoc, List.cons_append, List.nil_append] at hrest
    exact (toDigits_append_inj (hpoint _) (hpoint _) hrest).1.symm
  · rintro rfl
    exact ⟨rfl, Nat.toDigits 10 id.position, by simp⟩

example : namesStage 1 "s10.3" = false := by decide +kernel

theorem baseNode_ne_render (index : Nat) (id : OperationId) : baseNode index ≠ id.render := by
  intro h
  have hhead := congrArg (fun name : String => name.toList.head?) h
  simp [baseNode, toList_render, ToString.toString] at hhead

/-! ### Stages -/

theorem edgesTo_eq_arrows {s : StageGraph} {o : Operation} (h : o.id.stage = s.index) :
    edgesTo s o = o.arrows := by
  have hbase : (if o.baseImage.isSome then [⟨baseNode s.index, o.id.render, false⟩] else []) =
      o.baseImage.toList.map fun _ => (⟨baseNode o.id.stage, o.id.render, false⟩ : Edge) := by
    rw [h]
    cases o.baseImage <;> rfl
  unfold edgesTo Operation.arrows
  rw [hbase]
  refine congrArg _ (List.map_congr_left fun input _ => ?_)
  rw [namesStage_render, h, decide_not]

theorem terminal_node_iff (s : StageGraph) (o : Operation) :
    (node s o).terminal = true ↔ s.terminal.map OperationId.render = some (node s o).id := by
  have hinj : Function.Injective OperationId.render := fun _ _ => render_injective
  show decide (s.terminal = some o.id) = true ↔ s.terminal.map OperationId.render = some o.id.render
  rw [decide_eq_true_eq, ← (Option.map_injective hinj).eq_iff]
  rfl

/-- The ends of the edges of an operation are distinct. -/
theorem nodup_ends_arrows {o : Operation} (h : (o.inputs.map OperationId.render).Nodup) :
    (o.arrows.map fun e => (e.source, e.target)).Nodup := by
  have hends : o.arrows.map (fun e => (e.source, e.target)) =
      (o.baseImage.toList.map fun _ => baseNode o.id.stage).map (·, o.id.render) ++
        (o.inputs.map OperationId.render).map (·, o.id.render) := by
    simp [Operation.arrows, Function.comp_def]
  have hinj : Function.Injective fun source : String => (source, o.id.render) := by
    intro a b hab
    exact congrArg Prod.fst hab
  rw [hends, ← List.map_append]
  refine List.Nodup.map hinj (List.nodup_append.2 ⟨?_, h, ?_⟩)
  · cases o.baseImage <;> simp
  · intro a ha b hb
    obtain ⟨_, -, rfl⟩ := List.mem_map.1 ha
    obtain ⟨input, -, rfl⟩ := List.mem_map.1 hb
    exact baseNode_ne_render _ _

theorem target_of_mem_arrows {o : Operation} {e : Edge} (h : e ∈ o.arrows) :
    e.target = o.id.render := by
  rcases List.mem_append.1 h with h | h
  · obtain ⟨_, -, rfl⟩ := List.mem_map.1 h
    rfl
  · obtain ⟨_, -, rfl⟩ := List.mem_map.1 h
    rfl

/-! ### Graphs -/

theorem plain_ofGraph (g : Graph) : (ofGraph g).Plain where
  nodes := by
    intro c hc n hn
    obtain ⟨s, -, rfl⟩ := List.mem_map.1 hc
    obtain ⟨o, -, rfl⟩ := List.mem_map.1 hn
    exact isPlain_render o.id
  sources := by
    intro e he
    obtain ⟨s, -, he⟩ := List.mem_flatMap.1 he
    obtain ⟨o, -, he⟩ := List.mem_flatMap.1 he
    rcases List.mem_append.1 he with he | he
    · split at he
      · rw [List.mem_singleton.1 he]
        exact isPlain_baseNode s.index
      · cases he
    · obtain ⟨input, -, rfl⟩ := List.mem_map.1 he
      exact isPlain_render input
  targets := by
    intro e he
    obtain ⟨s, -, he⟩ := List.mem_flatMap.1 he
    obtain ⟨o, ho, he⟩ := List.mem_flatMap.1 he
    have hstage : o.id.stage = s.index := of_decide_eq_true (List.mem_filter.1 ho).2
    rw [edgesTo_eq_arrows hstage] at he
    rw [target_of_mem_arrows he]
    exact isPlain_render o.id

theorem map_id_nodes (g : Graph) (s : StageGraph) :
    (cluster g s).nodes.map Node.id = (g.stageOperations s.index).map fun o => o.id.render := by
  show ((g.stageOperations s.index).map (node s)).map Node.id = _
  rw [List.map_map]
  rfl

theorem nodes_ofGraph (g : Graph) : (ofGraph g).clusters.flatMap (fun c => c.nodes.map Node.id) =
    (g.stages.flatMap fun s => g.stageOperations s.index).map fun o => o.id.render := by
  show (g.stages.map (cluster g)).flatMap _ = _
  rw [List.map_flatMap, List.flatMap_map]
  exact List.flatMap_congr fun s _ => map_id_nodes g s

theorem edges_ofGraph (g : Graph) : (ofGraph g).edges =
    (g.stages.flatMap fun s => g.stageOperations s.index).flatMap Operation.arrows := by
  rw [List.flatMap_assoc]
  refine List.flatMap_congr fun s _ => List.flatMap_congr fun o ho => edgesTo_eq_arrows ?_
  exact of_decide_eq_true (List.mem_filter.1 ho).2

/-- No two edges to operations have the same ends. -/
theorem nodup_ends {g : Graph} (h : g.Wired) :
    ((g.operations.flatMap Operation.arrows).map fun e => (e.source, e.target)).Nodup := by
  rw [List.map_flatMap, List.nodup_flatMap]
  refine ⟨fun o ho => nodup_ends_arrows (h.inputs_nodup o ho), ?_⟩
  have hids := h.ids_nodup
  rw [List.Nodup, List.pairwise_map] at hids
  refine hids.imp fun {o p} hne => ?_
  intro ends ho hp
  obtain ⟨e, he, rfl⟩ := List.mem_map.1 ho
  obtain ⟨e', he', hsame⟩ := List.mem_map.1 hp
  refine hne ?_
  rw [← target_of_mem_arrows he, ← target_of_mem_arrows he']
  exact (congrArg Prod.snd hsame).symm

end Drawing

namespace Lower

variable {d : Document} {job : Job} {r : Resolution} {g : Graph} {plans : List Plan}
  {order : List Nat} {done : List Lowered}

section

variable (run : Run d job r g plans order done) (hd : d.Numbered)

include run hd

/-- The stages of a graph share out its operations. -/
theorem Run.perm_stageOperations :
    (g.stages.flatMap fun s => g.stageOperations s.index).Perm g.operations := by
  have hsame : (done.map Lowered.graph).flatMap (fun s => g.stageOperations s.index) =
      done.flatMap Lowered.operations := by
    rw [List.flatMap_map]
    exact List.flatMap_congr fun l hl => run.stageOperations_eq hd hl
  rw [run.operations, ← hsame, run.stages]
  exact (perm_sortByIndex _).flatMap_right _

theorem Run.perm_nodes :
    ((ofGraph g).clusters.flatMap fun c => c.nodes.map Node.id).Perm
      (g.operations.map fun o => o.id.render) := by
  rw [nodes_ofGraph]
  exact (run.perm_stageOperations hd).map _

theorem Run.perm_edges : (ofGraph g).edges.Perm (g.operations.flatMap Operation.arrows) := by
  rw [edges_ofGraph]
  exact (run.perm_stageOperations hd).flatMap_right _

theorem Run.shows_ofGraph :
    (ofGraph g).Shows g where
  clusters := by
    show List.Forall₂ _ (g.stages.map (cluster g)) g.stages
    rw [List.forall₂_map_left_iff, List.forall₂_same]
    intro s _
    refine ⟨rfl, map_id_nodes g s, fun n hn => ?_⟩
    obtain ⟨o, -, rfl⟩ := List.mem_map.1 hn
    exact terminal_node_iff s o
  clusters_nodup := by
    show ((g.stages.map (cluster g)).map Cluster.index).Nodup
    rw [List.map_map, List.Nodup, List.pairwise_map]
    exact (run.pairwise_stages hd).imp Nat.ne_of_lt
  nodes := run.perm_nodes hd
  nodes_nodup := (run.perm_nodes hd).nodup_iff.2 (run.wired hd).ids_nodup
  edges := run.perm_edges hd
  edges_nodup := ((run.perm_edges hd).map _).nodup_iff.2 (nodup_ends (run.wired hd))
  inputs := by
    intro o ho input hinput
    obtain ⟨before, after, hsplit⟩ := List.append_of_mem ho
    obtain ⟨p, hp, hid⟩ :=
      List.mem_map.1 ((run.wired hd).inputs_earlier before o after hsplit input hinput)
    refine ⟨p, ?_, hid⟩
    rw [hsplit]
    exact List.mem_append_left _ hp

end

/-- The text of the drawing of a graph is read as a drawing that shows the graph: a cluster for each
stage with a node for each of its operations, of which only the end of the stage is highlighted, and
an edge for each input and each image that an operation starts from, dashed for the inputs of other
stages. -/
theorem render_shows (hd : d.Parsed) (h : (d.lower job r).result = .ok g) :
    ∃ drawing : Drawing, Dot.read (ofGraph g).render = some drawing.items ∧ drawing.Shows g := by
  obtain ⟨plans, order, done, run⟩ := lower_ok h
  exact ⟨ofGraph g, read_render (plain_ofGraph g), run.shows_ofGraph hd.numbered⟩

/-- A stage starts from one whose name starts like its own, by way of a stage without operations: the
end that the other two share is highlighted once. -/
theorem render_shows_tenth : ∃ d g, Document.parse
      ("FROM a\nFROM b AS x\nUSER u\nFROM c\nFROM c\nFROM c\nFROM c\nFROM c\nFROM c\n" ++
        "FROM x AS y\nFROM c\nFROM y\nUSER v\n") = .ok d ∧
    (d.lower ⟨[], none, none⟩ .empty).result = .ok g ∧
    ((ofGraph g).clusters.map fun c => (c.index, (c.nodes.filter Node.terminal).map Node.id)) =
      [(1, ["s1.0"]), (8, []), (10, ["s10.0"])] ∧
    (ofGraph g).edges = [⟨"base1", "s1.0", false⟩, ⟨"s1.0", "s10.0", true⟩] ∧
    ∃ drawing : Drawing, Dot.read (ofGraph g).render = some drawing.items ∧ drawing.Shows g := by
  obtain ⟨d, g, hd, hg, hclusters, hedges⟩ := exists_lowered_with
    ("FROM a\nFROM b AS x\nUSER u\nFROM c\nFROM c\nFROM c\nFROM c\nFROM c\nFROM c\n" ++
      "FROM x AS y\nFROM c\nFROM y\nUSER v\n") ⟨[], none, none⟩ (fun _ => .empty)
    (fun _ g =>
      ((ofGraph g).clusters.map fun c => (c.index, (c.nodes.filter Node.terminal).map Node.id)) =
        [(1, ["s1.0"]), (8, []), (10, ["s10.0"])] ∧
      (ofGraph g).edges = [⟨"base1", "s1.0", false⟩, ⟨"s1.0", "s10.0", true⟩]) (by decide +kernel)
  exact ⟨d, g, hd, hg, hclusters, hedges, render_shows (.inl ⟨_, hd⟩) hg⟩

end Lower

end Dockerfile
