import Dockerfile.Proofs.Lowering.Platforms

/-!
# What operations read

The stages that an operation takes files from stand in its task. Its inputs are the operation before
it and the operations that end these stages, each once (`Graph.Reading`). A stage without operations
leaves only the image that it goes back to, and a stage that adds no operation to its base ends with
an operation of another stage; neither brings its own platform into the key. What a key does hold of
the stages that are read is said by `key_binds_sources`, and that it does not hold the platform of
an empty stage by `key_ignores_platform_of_empty`.
-/

namespace Dockerfile

open Lower

/-- Where a task takes files from, in order. -/
def Task.sources : Task → List Source
  | .exec e => e.mounts.map MountPoint.origin
  | .file ⟨.copy origin, _, _, _, _, _, _⟩ => [origin]
  | .file ⟨.add _, _, _, _, _, _, _⟩ => []
  | .config _ => []

/-- The stages that a task takes files from, in order. -/
def Task.stages (t : Task) : List Nat := t.sources.filterMap Source.stage

theorem Task.Same.sources_eq {t t' : Task} (h : t.Same t') : t.sources = t'.sources := by
  cases t with
  | config c =>
    cases t' with
    | config c' => rfl
    | exec | file => cases h
  | exec e => rw [show Task.exec e = t' from h]
  | file f => rw [show Task.file f = t' from h]

namespace Lower

/-! ### Instructions -/

/-- A task takes files from the sources of some slots, whose operations are the links. -/
theorem Surroundings.exists_slots {s : Surroundings} {body : Body} {task : Task}
    (h : s.task? body = some task) : ∃ slots : List Nat,
      task.sources = slots.map (fun slot => (s.source slot).1) ∧
      s.links body = slots.filterMap fun slot => (s.source slot).2 := by
  cases body with
  | run r =>
    cases h
    refine ⟨List.range r.mounts.length, ?_, rfl⟩
    rw [List.range_eq_range', ← List.zipIdx_map_snd 0 r.mounts, List.map_map, Task.sources,
      Surroundings.exec, List.map_map]
    rfl
  | copy c =>
    cases h
    refine ⟨[0], rfl, ?_⟩
    rw [List.filterMap_cons, List.filterMap_nil]
    cases hsource : (s.source 0).2 <;> simp [Surroundings.links, hsource]
  | add a =>
    cases h
    exact ⟨[], rfl, rfl⟩
  | _ =>
    simp only [Surroundings.task?, Option.map_eq_some_iff] at h
    obtain ⟨c, -, rfl⟩ := h
    exact ⟨[], rfl, rfl⟩

theorem sourceOf_terminal (done : List Lowered) (reference : Option Reference) :
    (sourceOf done reference).2 = (sourceOf done reference).1.stage.bind fun n =>
      (find? done n).bind (·.graph.terminal) := by
  unfold sourceOf
  split
  · rfl
  · rfl
  · rename_i n
    split
    · rename_i hfind
      simp [hfind]
    · rename_i l hfind
      split
      · rename_i hterminal
        simp [hfind, hterminal]
      · rename_i id hterminal
        simp [hfind, hterminal]

theorem stage_of_sourceOf {done : List Lowered} {reference : Option Reference} {n : Nat}
    (h : (sourceOf done reference).1.stage = some n) :
    reference = some (.stage n) ∧ ∀ l, find? done n = some l →
      (sourceOf done reference).1.image =
        if l.graph.terminal = none then some l.root else none := by
  unfold sourceOf at h ⊢
  split at h
  · cases h
  · cases h
  · rename_i m
    obtain rfl : m = n := by
      split at h
      · exact Option.some.inj h
      · split at h <;> exact Option.some.inj h
    refine ⟨rfl, fun l hl => ?_⟩
    simp only [hl]
    cases l.graph.terminal <;> simp

/-- How an operation of a stage reads the stages `done` before it, behind the operations `before` it
in the stage and perhaps behind an operation of its base. -/
structure ReadAfter (plan : Plan) (done : List Lowered) (base : Option OperationId)
    (before : List Operation) (o : Operation) : Prop where
  uses : ∀ source ∈ o.task.sources, ∀ n, source.stage = some n → n ∈ plan.uses ∧
    ∀ l, find? done n = some l →
      source.image = if l.graph.terminal = none then some l.root else none
  inputs : o.inputs = addNew ((before.getLast?.map Operation.id).or base).toList
    (o.task.stages.filterMap fun n => (find? done n).bind (·.graph.terminal))

namespace StageFrame

variable {f : StageFrame} {start p : Progress} {n : Nat} {i : Instruction} {task : Task}
  {instructions : List Instruction}

theorem readAfter {keys : List String} {base : Option OperationId}
    (hprev : p.previous = (p.operations.getLast?.map Operation.id).or base)
    (htask : (f.surroundings p n).task? i.body = some task) :
    ReadAfter f.plan f.done base p.operations (f.operation p n i task keys) := by
  obtain ⟨slots, hsources, hlinks⟩ := Surroundings.exists_slots htask
  constructor
  · intro source hsource m hm
    have hsource : source ∈ task.sources := hsource
    rw [hsources] at hsource
    obtain ⟨slot, -, rfl⟩ := List.mem_map.1 hsource
    obtain ⟨hreference, himage⟩ := stage_of_sourceOf hm
    exact ⟨mem_uses_of_reference? hreference, himage⟩
  · show addNew p.previous.toList ((f.surroundings p n).links i.body) =
      addNew _ (task.stages.filterMap _)
    rw [hprev, hlinks, Task.stages, hsources, List.filterMap_map, List.filterMap_filterMap]
    congr 2
    funext slot
    exact sourceOf_terminal f.done _

theorem Walked.reads (h : f.Walked start instructions p) (hstart : start.operations = []) :
    EachAfter (ReadAfter f.plan f.done start.previous) p.operations := by
  induction h with
  | nil =>
    rw [hstart]
    exact eachAfter_nil
  | concat before step ih =>
    have hprev := (before.inv hstart).previous
    cases (lowerInstruction_ok step).2.2 with
    | pass => exact ih
    | make task keys htask => exact eachAfter_concat.2 ⟨ih, readAfter hprev htask⟩

end StageFrame

theorem reads_of_lowerStage {frame : Frame} {done : List Lowered} {plan : Plan} {l : Lowered}
    (h : (lowerStage frame done plan).result = .ok l) :
    EachAfter (ReadAfter plan done ((baseIn? done plan).bind (·.graph.terminal))) l.operations := by
  obtain ⟨platform, p, -, hw, rfl⟩ := lowerStage_ok h
  exact hw.reads rfl

end Lower

/-! ### Graphs -/

namespace Graph

/-- The operation that ends a stage. -/
def terminalOf (g : Graph) (n : Nat) : Option OperationId := (g.stage? n).bind StageGraph.terminal

/-- The operation that stands before another one in its stage, or ends the base of the stage. -/
def previous? (g : Graph) (o : Operation) : Option OperationId :=
  (((g.stageOperations o.id.stage).takeWhile (·.id ≠ o.id)).getLast?.map Operation.id).or
    ((g.stage? o.id.stage).bind fun s => s.baseStage.bind g.terminalOf)

/-- What the operations of a graph read. -/
structure Reading (g : Graph) : Prop where
  /-- A stage that is read stands in the graph, and the image that it goes back to is read if it
  ends with no operation. -/
  image : ∀ o ∈ g.operations, ∀ source ∈ o.task.sources, ∀ n, source.stage = some n →
    ∃ s root, g.stage? n = some s ∧ g.rootOf n = some root ∧
      source.image = if s.terminal = none then some root else none
  /-- An operation builds on the one before it and on the ends of the stages that it reads. -/
  inputs : ∀ o ∈ g.operations,
    o.inputs = addNew (g.previous? o).toList (o.task.stages.filterMap g.terminalOf)
  /-- A stage with operations ends with one of them. -/
  own : ∀ s ∈ g.stages, s.operations ≠ [] →
    ∃ o ∈ g.operations, o.id.stage = s.index ∧ s.terminal = some o.id

end Graph

namespace Lower.Run

variable {d : Document} {job : Job} {r : Resolution} {g : Graph} {plans : List Plan}
  {order : List Nat} {done : List Lowered} {l : Lowered} {o : Operation}

section

variable (run : Run d job r g plans order done) (hd : d.Numbered)

include run hd

/-- The plan by which an operation is made, and where the stages that it uses stand. -/
theorem exists_readAfter (hl : l ∈ done) {before after : List Operation}
    (hops : l.operations = before ++ o :: after) :
    ∃ plan earlier, l.graph.baseStage = plan.base ∧
      ReadAfter plan earlier ((baseIn? earlier plan).bind (·.graph.terminal)) before o ∧
      ∀ n ∈ plan.uses, ∃ l', find? earlier n = some l' ∧ g.stage? n = some l'.graph ∧
        g.rootOf n = some l'.root := by
  obtain ⟨earlier, later, hsplit⟩ := List.append_of_mem hl
  obtain ⟨order', plan, s₀, hplan, huses, hstep⟩ := run.started.lowered hd earlier l later hsplit
  refine ⟨plan, earlier, (loweredAfter hstep).baseStage,
    reads_of_lowerStage hstep before o after hops, fun n hn => ?_⟩
  obtain ⟨l', hl', rfl, hfind⟩ := s₀.find?_of_mem hd (huses n hn)
  have hmem : l' ∈ done := by
    rw [hsplit]
    exact List.mem_append_left _ hl'
  exact ⟨l', hfind, run.stage?_eq hd hmem, run.rootOf_eq hd hmem⟩

theorem previous?_eq (hl : l ∈ done) {before after : List Operation}
    (hops : l.operations = before ++ o :: after) :
    g.previous? o = (before.getLast?.map Operation.id).or
      (l.graph.baseStage.bind g.terminalOf) := by
  obtain ⟨plan, _, -, hafter⟩ := run.exists_loweredAfter hd hl
  have hnodup := hafter.nodup
  have ho : o ∈ l.operations := by simp [hops]
  have hbefore : ∀ p ∈ before, decide (p.id ≠ o.id) = true := by
    intro p hp
    rw [hops, List.map_append, List.nodup_append] at hnodup
    simpa using hnodup.2.2 p.id (List.mem_map_of_mem hp) o.id (by simp)
  unfold Graph.previous?
  rw [run.stage_eq hd hl ho, run.stageOperations_eq hd hl, run.stage?_eq hd hl, hops,
    List.takeWhile_append_of_pos hbefore, List.takeWhile_cons_of_neg (by simp), List.append_nil]
  rfl

theorem reading : g.Reading where
  image := by
    intro o ho source hsource n hn
    obtain ⟨l, hl, ho⟩ := run.exists_of_mem_operations ho
    obtain ⟨before, after, hops⟩ := List.append_of_mem ho
    obtain ⟨plan, earlier, -, hread, hstages⟩ := run.exists_readAfter hd hl hops
    obtain ⟨huse, himage⟩ := hread.uses source hsource n hn
    obtain ⟨l', hfind, hstage, hroot⟩ := hstages n huse
    exact ⟨l'.graph, l'.root, hstage, hroot, himage l' hfind⟩
  inputs := by
    intro o ho
    obtain ⟨l, hl, ho⟩ := run.exists_of_mem_operations ho
    obtain ⟨before, after, hops⟩ := List.append_of_mem ho
    obtain ⟨plan, earlier, hbase, hread, hstages⟩ := run.exists_readAfter hd hl hops
    have hterminal : ∀ n ∈ plan.uses,
        (find? earlier n).bind (·.graph.terminal) = g.terminalOf n := by
      intro n hn
      obtain ⟨l', hfind, hstage, -⟩ := hstages n hn
      rw [hfind, Graph.terminalOf, hstage]
      rfl
    have hprevious : (baseIn? earlier plan).bind (·.graph.terminal) =
        l.graph.baseStage.bind g.terminalOf := by
      rw [hbase, baseIn?]
      cases hb : plan.base with
      | none => rfl
      | some b => exact hterminal b (mem_uses_of_base hb)
    have hreads : o.task.stages.filterMap (fun n => (find? earlier n).bind (·.graph.terminal)) =
        o.task.stages.filterMap g.terminalOf := by
      refine List.filterMap_congr fun n hn => hterminal n ?_
      obtain ⟨source, hsource, hstage⟩ := List.mem_filterMap.1 hn
      exact (hread.uses source hsource n hstage).1
    rw [hread.inputs, hreads, hprevious, run.previous?_eq hd hl hops]
  own := by
    intro s hs hne
    obtain ⟨l, hl, rfl⟩ := run.mem_stages.1 hs
    obtain ⟨plan, before, -, hafter⟩ := run.exists_loweredAfter hd hl
    rw [hafter.listed, ne_eq, List.map_eq_nil_iff] at hne
    obtain ⟨others, o, hops⟩ := l.operations.eq_nil_or_concat.resolve_left hne
    have ho : o ∈ l.operations := by simp [hops]
    refine ⟨o, ?_, run.stage_eq hd hl ho, ?_⟩
    · rw [run.operations]
      exact List.mem_flatMap.2 ⟨l, hl, ho⟩
    · rw [hafter.terminal, hops]
      simp

end

end Lower.Run

/-! ### Reading by key -/

section Alignment

variable {α β γ : Type} {R : α → β → Prop}

theorem rel_getLast? {l : List α} {l' : List β} (h : List.Forall₂ R l l') {a : α} {b : β}
    (ha : l.getLast? = some a) (hb : l'.getLast? = some b) : R a b := by
  obtain ⟨front, rfl⟩ := List.getLast?_eq_some_iff.1 ha
  obtain ⟨front', rfl⟩ := List.getLast?_eq_some_iff.1 hb
  have hreverse := List.forall₂_reverse_iff.2 h
  rw [List.reverse_concat, List.reverse_concat, List.forall₂_cons] at hreverse
  exact hreverse.1

theorem length_filterMap_eq {f : γ → Option α} {f' : γ → Option β} {l : List γ}
    (hnone : ∀ c ∈ l, f c = none ↔ f' c = none) :
    (l.filterMap f).length = (l.filterMap f').length := by
  induction l with
  | nil => rfl
  | cons c l ih =>
    have ih := ih fun c' hc' => hnone c' (List.mem_cons_of_mem c hc')
    have hc := hnone c List.mem_cons_self
    cases hf : f c <;> cases hf' : f' c <;> simp_all

theorem rel_of_filterMap {f : γ → Option α} {f' : γ → Option β} {l : List γ}
    (hnone : ∀ c ∈ l, f c = none ↔ f' c = none)
    (h : List.Forall₂ R (l.filterMap f) (l.filterMap f')) {c : γ} (hc : c ∈ l) {a : α} {b : β}
    (ha : f c = some a) (hb : f' c = some b) : R a b := by
  induction l with
  | nil => cases hc
  | cons c' l ih =>
    have hrest : ∀ c ∈ l, f c = none ↔ f' c = none := fun c hc =>
      hnone c (List.mem_cons_of_mem c' hc)
    have hfirst := hnone c' List.mem_cons_self
    cases hf : f c' with
    | none =>
      rw [List.filterMap_cons_none hf, List.filterMap_cons_none (hfirst.1 hf)] at h
      have hne : c ≠ c' := by
        rintro rfl
        rw [hf] at ha
        cases ha
      exact ih hrest h (List.mem_of_ne_of_mem hne hc)
    | some x =>
      obtain ⟨y, hf'⟩ := Option.ne_none_iff_exists'.1 (mt hfirst.2 (by simp [hf]))
      rw [List.filterMap_cons_some hf, List.filterMap_cons_some hf', List.forall₂_cons] at h
      rcases List.mem_cons.1 hc with rfl | hc
      · rw [hf, Option.some.injEq] at ha
        rw [hf', Option.some.injEq] at hb
        rw [← ha, ← hb]
        exact h.1
      · exact ih hrest h.2 hc

end Alignment

namespace Graph

variable {g g₁ g₂ : Graph} {o₁ o₂ : Operation} {n : Nat}

/-- No two of the stages that an operation reads end with one operation, and none of them with the
operation before it. -/
def ReadsApart (g : Graph) (o : Operation) : Prop :=
  ((g.previous? o).toList ++ (addNew [] o.task.stages).filterMap g.terminalOf).Nodup

theorem Reading.inputs_of_readsApart (hg : g.Reading) {o : Operation} (ho : o ∈ g.operations)
    (h : g.ReadsApart o) :
    o.inputs = (g.previous? o).toList ++ (addNew [] o.task.stages).filterMap g.terminalOf := by
  rw [hg.inputs o ho]
  exact addNew_filterMap h

/-- A stage that is read ends with no operation in both graphs or in none. -/
theorem null_iff_of_alike (hr₁ : g₁.Reading) (hr₂ : g₂.Reading) (ho₁ : o₁ ∈ g₁.operations)
    (ho₂ : o₂ ∈ g₂.operations) (h : Alike g₁ g₂ o₁ o₂) (hn : n ∈ o₁.task.stages) :
    ∃ s₁ s₂, g₁.stage? n = some s₁ ∧ g₂.stage? n = some s₂ ∧
      (s₁.terminal = none ↔ s₂.terminal = none) ∧
      (s₁.terminal = none → g₁.rootOf n = g₂.rootOf n) := by
  obtain ⟨source, hsource, hstage⟩ := List.mem_filterMap.1 hn
  obtain ⟨s₁, root₁, hs₁, hroot₁, himage₁⟩ := hr₁.image o₁ ho₁ source hsource n hstage
  rw [h.task.sources_eq] at hsource
  obtain ⟨s₂, root₂, hs₂, hroot₂, himage₂⟩ := hr₂.image o₂ ho₂ source hsource n hstage
  refine ⟨s₁, s₂, hs₁, hs₂, ?_⟩
  rw [himage₁] at himage₂
  by_cases h₁ : s₁.terminal = none <;> by_cases h₂ : s₂.terminal = none <;> simp_all

/-- The ends of a stage that is read have one key, if they can be told apart among the inputs. -/
theorem exists_terminal_key (hr₁ : g₁.Reading) (hr₂ : g₂.Reading) (ho₁ : o₁ ∈ g₁.operations)
    (ho₂ : o₂ ∈ g₂.operations) (h : Alike g₁ g₂ o₁ o₂) (hn : n ∈ o₁.task.stages)
    (hapart : (∀ m ∈ o₁.task.stages, m = n) ∨ g₁.ReadsApart o₁ ∧ g₂.ReadsApart o₂)
    {t₁ t₂ : OperationId} (ht₁ : g₁.terminalOf n = some t₁) (ht₂ : g₂.terminalOf n = some t₂) :
    ∃ key, g₁.key? t₁ = some key ∧ g₂.key? t₂ = some key := by
  have hstages : o₁.task.stages = o₂.task.stages := by
    rw [Task.stages, Task.stages, h.task.sources_eq]
  have hinputs := h.inputs
  rcases hapart with hsingle | ⟨hapart₁, hapart₂⟩
  · -- The only stage that is read comes last among the inputs.
    have hlast : ∀ {g : Graph} {o : Operation}, g.Reading → o ∈ g.operations →
        o.task.stages = o₁.task.stages → ∀ {t : OperationId}, g.terminalOf n = some t →
        o.inputs.getLast? = some t := by
      intro g o hg ho hsame t ht
      rw [hg.inputs o ho, hsame]
      refine getLast?_addNew ?_ ?_
      · intro t' ht'
        obtain ⟨m, hm, hmt⟩ := List.mem_filterMap.1 ht'
        rw [hsingle m hm, ht] at hmt
        exact (Option.some.inj hmt).symm
      · exact List.ne_nil_of_mem (List.mem_filterMap.2 ⟨n, hn, ht⟩)
    exact rel_getLast? hinputs (hlast hr₁ ho₁ rfl ht₁) (hlast hr₂ ho₂ hstages.symm ht₂)
  · have hnone : ∀ m ∈ addNew [] o₁.task.stages,
        g₁.terminalOf m = none ↔ g₂.terminalOf m = none := by
      intro m hm
      have hm : m ∈ o₁.task.stages := by simpa [mem_addNew] using hm
      obtain ⟨s₁, s₂, hs₁, hs₂, hnull, -⟩ := null_iff_of_alike hr₁ hr₂ ho₁ ho₂ h hm
      rw [terminalOf, terminalOf, hs₁, hs₂]
      exact hnull
    rw [hr₁.inputs_of_readsApart ho₁ hapart₁, hr₂.inputs_of_readsApart ho₂ hapart₂,
      ← hstages] at hinputs
    have hlength : (g₁.previous? o₁).toList.length = (g₂.previous? o₂).toList.length := by
      have htotal := hinputs.length_eq
      rw [List.length_append, List.length_append, length_filterMap_eq hnone] at htotal
      omega
    have hends := List.forall₂_drop (g₁.previous? o₁).toList.length hinputs
    rw [List.drop_left, hlength, List.drop_left] at hends
    exact rel_of_filterMap hnone hends (by simpa [mem_addNew] using hn) ht₁ ht₂

/-! ### What keys follow from -/

/-- An operation without its key, with what it starts from. -/
def unkeyedOf (g : Graph) (o : Operation) : Operation × Option (String × Option String) :=
  ({ o with key := "" }, g.start? o)

/-- The operations without their keys. -/
def unkeyed (g : Graph) : List (Operation × Option (String × Option String)) :=
  g.operations.map g.unkeyedOf

theorem eq_of_unkeyed (hw₁ : g₁.Wired) (hw₂ : g₂.Wired) (hg₁ : g₁.Keyed) (hg₂ : g₂.Keyed)
    (h : g₁.unkeyed = g₂.unkeyed) (ho₁ : o₁ ∈ g₁.operations) :
    ∀ o₂ ∈ g₂.operations, g₁.unkeyedOf o₁ = g₂.unkeyedOf o₂ → o₁ = o₂ := by
  -- By induction on the inputs, which have one key each in both graphs.
  refine hw₁.induct (P := fun o₁ => ∀ o₂ ∈ g₂.operations, g₁.unkeyedOf o₁ = g₂.unkeyedOf o₂ →
    o₁ = o₂) (fun o₁ ho₁ ih o₂ ho₂ hsame => ?_) ho₁
  obtain ⟨id, kind, inputs, key₁, position, image, task⟩ := o₁
  obtain ⟨id₂, kind₂, inputs₂, key₂, position₂, image₂, task₂⟩ := o₂
  simp only [unkeyedOf, Prod.mk.injEq, Operation.mk.injEq, true_and] at hsame
  obtain ⟨⟨rfl, rfl, rfl, rfl, rfl, rfl⟩, hstart⟩ := hsame
  have hkeys : ∀ i ∈ inputs, g₁.key? i = g₂.key? i := by
    intro i hi
    obtain ⟨before, after, hops⟩ := List.append_of_mem ho₁
    obtain ⟨p₁, hp₁, rfl⟩ := List.mem_map.1 (hw₁.inputs_earlier before _ after hops i hi)
    have hp₁ : p₁ ∈ g₁.operations := by simp [hops, hp₁]
    have hmem : g₁.unkeyedOf p₁ ∈ g₂.unkeyed := by
      rw [← h]
      exact List.mem_map_of_mem hp₁
    obtain ⟨p₂, hp₂, hsame⟩ := List.mem_map.1 hmem
    obtain rfl := ih p₁ hp₁ hi p₂ hp₂ hsame.symm
    rw [key?_id hw₁ hp₁, key?_id hw₂ hp₂]
  have hkey : key₁ = key₂ := by
    refine key_eq_of_canonical_eq hg₁ hg₂ ho₁ ho₂ ?_
    rw [payloadOf, payloadOf, hstart, List.filterMap_congr hkeys]
  rw [hkey]

/-- The keys of a graph follow from the rest of it. -/
theorem operations_eq_of_unkeyed (hw₁ : g₁.Wired) (hw₂ : g₂.Wired) (hg₁ : g₁.Keyed)
    (hg₂ : g₂.Keyed) (h : g₁.unkeyed = g₂.unkeyed) :
    g₁.operations = g₂.operations ∧ g₁.payloadTexts = g₂.payloadTexts := by
  have hops : g₁.operations = g₂.operations := by
    refine List.ext_getElem (by simpa [unkeyed] using congrArg List.length h) fun i hi₁ hi₂ => ?_
    refine eq_of_unkeyed hw₁ hw₂ hg₁ hg₂ h (List.getElem_mem hi₁) _ (List.getElem_mem hi₂) ?_
    have hi := congrArg (·[i]?) h
    simpa [unkeyed, hi₁, hi₂] using hi
  have hkey : g₁.key? = g₂.key? := by
    funext id
    rw [key?, key?, hops]
  have hpayload : ∀ o ∈ g₁.operations, g₁.payloadOf o = g₂.payloadOf o := by
    intro o ho
    rw [unkeyed, unkeyed, ← hops, List.map_inj_left] at h
    rw [payloadOf, payloadOf, (Prod.mk.inj (h o ho)).2, hkey]
  refine ⟨hops, Set.ext fun text => ?_⟩
  rw [payloadTexts, payloadTexts, ← hops]
  refine exists_congr fun o => and_congr_right fun ho => ?_
  rw [hpayload o ho]

end Graph

/-- What the key of an operation holds of the stages that it reads, so far as no two payloads have
one digest: their numbers, whether they end with an operation, and the images that they go back to if
not. The platform of a stage with operations of its own is held too, if it is the only stage that is
read, as for a `COPY`, or if the stages that are read can be told apart by where they end. -/
theorem Lower.key_binds_sources {d₁ d₂ : Document} {job₁ job₂ : Job} {r₁ r₂ : Resolution}
    {g₁ g₂ : Graph} (hd₁ : d₁.Numbered) (hd₂ : d₂.Numbered)
    (h₁ : (d₁.lower job₁ r₁).result = .ok g₁) (h₂ : (d₂.lower job₂ r₂).result = .ok g₂)
    (hsha : (g₁.payloadTexts ∪ g₂.payloadTexts).InjOn Sha256.ofText) {o₁ o₂ : Operation}
    (ho₁ : o₁ ∈ g₁.operations) (ho₂ : o₂ ∈ g₂.operations) (hkey : o₁.key = o₂.key) :
    o₁.task.sources = o₂.task.sources ∧ ∀ n ∈ o₁.task.stages, ∃ s₁ s₂,
      g₁.stage? n = some s₁ ∧ g₂.stage? n = some s₂ ∧
      (s₁.terminal = none ↔ s₂.terminal = none) ∧
      (s₁.terminal = none → g₁.rootOf n = g₂.rootOf n) ∧
      (s₁.operations ≠ [] → s₂.operations ≠ [] →
        ((∀ m ∈ o₁.task.stages, m = n) ∨ g₁.ReadsApart o₁ ∧ g₂.ReadsApart o₂) →
        s₁.platform = s₂.platform ∧ g₁.rootOf n = g₂.rootOf n) := by
  obtain ⟨plans₁, order₁, done₁, run₁⟩ := lower_ok h₁
  obtain ⟨plans₂, order₂, done₂, run₂⟩ := lower_ok h₂
  have hw₁ := run₁.wired hd₁
  have hw₂ := run₂.wired hd₂
  have hg₁ := run₁.keyed hd₁
  have hg₂ := run₂.keyed hd₂
  have hr₁ := run₁.reading hd₁
  have hr₂ := run₂.reading hd₂
  have halike := Graph.alike_of_key_eq hg₁ hg₂ hsha ho₁ ho₂ hkey
  refine ⟨halike.task.sources_eq, fun n hn => ?_⟩
  obtain ⟨s₁, s₂, hs₁, hs₂, hnull, hroot⟩ := Graph.null_iff_of_alike hr₁ hr₂ ho₁ ho₂ halike hn
  refine ⟨s₁, s₂, hs₁, hs₂, hnull, hroot, fun hops₁ hops₂ hapart => ?_⟩
  obtain ⟨t₁, ht₁, hstage₁, hend₁⟩ := hr₁.own s₁ (List.mem_of_find?_eq_some hs₁) hops₁
  obtain ⟨t₂, ht₂, hstage₂, hend₂⟩ := hr₂.own s₂ (List.mem_of_find?_eq_some hs₂) hops₂
  obtain ⟨key, hkey₁, hkey₂⟩ := Graph.exists_terminal_key hr₁ hr₂ ho₁ ho₂ halike hn hapart
    (by rw [Graph.terminalOf, hs₁]; exact hend₁) (by rw [Graph.terminalOf, hs₂]; exact hend₂)
  rw [Graph.key?_id hw₁ ht₁] at hkey₁
  rw [Graph.key?_id hw₂ ht₂] at hkey₂
  obtain ⟨⟨image, platform⟩, hstart₁, hstart₂⟩ := Graph.exists_startOf hw₁ hw₂ hg₁ hg₂ hsha ht₁ ht₂
    (Option.some.inj (hkey₁.trans hkey₂.symm))
  rw [hstage₁, Graph.index_of_stage? hs₁] at hstart₁
  rw [hstage₂, Graph.index_of_stage? hs₂] at hstart₂
  obtain ⟨hplatform₁, hroot₁⟩ := Graph.start_of_startOf hs₁ hstart₁
  obtain ⟨hplatform₂, hroot₂⟩ := Graph.start_of_startOf hs₂ hstart₂
  exact ⟨hplatform₁.trans hplatform₂.symm, hroot₁.trans hroot₂.symm⟩

/-- A stage for one platform that is read under its name and under its number. -/
theorem Lower.key_binds_sources_renamed : ∃ d₁ d₂ g₁ g₂ o₁ o₂ s₁ s₂,
    Document.parse ("FROM --platform=linux/arm64 scratch AS x\nUSER u\n" ++
      "FROM scratch\nCOPY --from=x c d\n") = .ok d₁ ∧
    Document.parse ("FROM --platform=linux/arm64 scratch AS y\nUSER u\n" ++
      "FROM scratch\nCOPY --from=0 c d\n") = .ok d₂ ∧
    (d₁.lower ⟨[], none, none⟩ .empty).result = .ok g₁ ∧
    (d₂.lower ⟨[], none, none⟩ .empty).result = .ok g₂ ∧
    (g₁.payloadTexts ∪ g₂.payloadTexts).InjOn Sha256.ofText ∧
    o₁ ∈ g₁.operations ∧ o₂ ∈ g₂.operations ∧ o₁.key = o₂.key ∧ o₁.task.stages = [0] ∧
    g₁.stage? 0 = some s₁ ∧ g₂.stage? 0 = some s₂ ∧ s₁.operations = [⟨0, 0⟩] ∧
    s₂.operations = [⟨0, 0⟩] ∧ s₁.platform = s₂.platform ∧ g₁.rootOf 0 = g₂.rootOf 0 := by
  obtain ⟨d₁, d₂, g₁, g₂, hd₁, hd₂, hg₁, hg₂, hnodup, hunkeyed, hstages⟩ :=
    @exists_lowered₂ ("FROM --platform=linux/arm64 scratch AS x\nUSER u\n" ++
        "FROM scratch\nCOPY --from=x c d\n")
      ("FROM --platform=linux/arm64 scratch AS y\nUSER u\n" ++
        "FROM scratch\nCOPY --from=0 c d\n") ⟨[], none, none⟩ ⟨[], none, none⟩ (fun _ => .empty)
      (fun _ _ g₁ g₂ => (g₁.operations.map Operation.key).Nodup ∧
        [g₁, g₂].map Graph.unkeyed = List.replicate 2
          [(⟨⟨0, 0⟩, .user, [], "", ⟨2, 1⟩, some "scratch", .config (.user "u")⟩,
              some ("scratch", some "linux/arm64")),
            (⟨⟨1, 0⟩, .copy, [⟨0, 0⟩], "", ⟨4, 1⟩, some "scratch",
              .file ⟨.copy ⟨some 0, none⟩, ["c"], "/d", none, none, false, none⟩⟩,
              some ("scratch", none))] ∧
        [g₁, g₂].map (fun g => (g.stage? 0).map StageGraph.operations) =
          List.replicate 2 (some [⟨0, 0⟩])) (fun _ _ _ _ => inferInstance) (by decide +kernel)
  have hn₁ : d₁.Numbered := Document.numbered_of_parse hd₁
  have hn₂ : d₂.Numbered := Document.numbered_of_parse hd₂
  obtain ⟨_, _, _, run₁⟩ := lower_ok hg₁
  obtain ⟨_, _, _, run₂⟩ := lower_ok hg₂
  simp only [List.map_cons, List.map_nil, List.replicate_succ, List.replicate_zero,
    List.cons.injEq, and_true, Option.map_eq_some_iff] at hunkeyed hstages
  obtain ⟨hunkeyed₁, hunkeyed₂⟩ := hunkeyed
  obtain ⟨⟨s₁, hs₁, hops₁⟩, s₂, hs₂, hops₂⟩ := hstages
  obtain ⟨hsame, htexts⟩ := Graph.operations_eq_of_unkeyed (run₁.wired hn₁) (run₂.wired hn₂)
    (run₁.keyed hn₁) (run₂.keyed hn₂) (hunkeyed₁.trans hunkeyed₂.symm)
  have hsha : (g₁.payloadTexts ∪ g₂.payloadTexts).InjOn Sha256.ofText := by
    rw [← htexts, Set.union_self]
    exact (run₁.keyed hn₁).injOn_of_nodup hnodup
  obtain ⟨a, rest, hops, -, hrest⟩ := List.map_eq_cons_iff.1 hunkeyed₁
  obtain ⟨o, rfl, ho⟩ := List.map_eq_singleton_iff.1 hrest
  have hreads : o.task.stages = [0] := by
    rw [(Operation.mk.inj (Prod.mk.inj ho).1).2.2.2.2.2.2]
    rfl
  have hmem₁ : o ∈ g₁.operations := by simp [hops]
  have hmem₂ : o ∈ g₂.operations := hsame ▸ hmem₁
  obtain ⟨-, h⟩ := key_binds_sources hn₁ hn₂ hg₁ hg₂ hsha hmem₁ hmem₂ rfl
  obtain ⟨s₁', s₂', hs₁', hs₂', -, -, hplatform⟩ := h 0 (by simp [hreads])
  obtain rfl := Option.some.inj (hs₁.symm.trans hs₁')
  obtain rfl := Option.some.inj (hs₂.symm.trans hs₂')
  exact ⟨d₁, d₂, g₁, g₂, o, o, s₁, s₂, hd₁, hd₂, hg₁, hg₂, hsha, hmem₁, hmem₂, rfl, hreads, hs₁,
    hs₂, hops₁, hops₂, hplatform (by simp [hops₁]) (by simp [hops₂]) (Or.inl (by simp [hreads]))⟩

/-- The platform of a stage without operations is not held. -/
theorem Lower.key_ignores_platform_of_empty : ∃ d₁ d₂ g₁ g₂ o s₁ s₂,
    Document.parse
      "FROM --platform=linux/amd64 alpine AS a\nFROM busybox\nCOPY --from=a /x /y\n" = .ok d₁ ∧
    Document.parse
      "FROM --platform=linux/arm64 alpine AS a\nFROM busybox\nCOPY --from=a /x /y\n" = .ok d₂ ∧
    (d₁.lower ⟨[], none, none⟩ .empty).result = .ok g₁ ∧
    (d₂.lower ⟨[], none, none⟩ .empty).result = .ok g₂ ∧
    (g₁.payloadTexts ∪ g₂.payloadTexts).InjOn Sha256.ofText ∧
    g₁.operations = [o] ∧ g₂.operations = [o] ∧ o.task.stages = [0] ∧
    g₁.stage? 0 = some s₁ ∧ g₂.stage? 0 = some s₂ ∧ s₁.terminal = none ∧ s₂.terminal = none ∧
    s₁.platform = some "linux/amd64" ∧ s₂.platform = some "linux/arm64" := by
  obtain ⟨d₁, d₂, g₁, g₂, hd₁, hd₂, hg₁, hg₂, hunkeyed, hs₁, hs₂⟩ := @exists_lowered₂
    "FROM --platform=linux/amd64 alpine AS a\nFROM busybox\nCOPY --from=a /x /y\n"
    "FROM --platform=linux/arm64 alpine AS a\nFROM busybox\nCOPY --from=a /x /y\n"
    ⟨[], none, none⟩ ⟨[], none, none⟩ (fun _ => .empty)
    (fun _ _ g₁ g₂ => [g₁, g₂].map Graph.unkeyed = List.replicate 2
        [(⟨⟨1, 0⟩, .copy, [], "", ⟨3, 1⟩, some "docker.io/library/busybox:latest",
          .file ⟨.copy ⟨some 0, some "docker.io/library/alpine:latest"⟩, ["/x"], "/y", none, none,
            false, none⟩⟩, some ("docker.io/library/busybox:latest", none))] ∧
      (g₁.stage? 0).map (fun s => (s.terminal, s.platform)) = some (none, some "linux/amd64") ∧
      (g₂.stage? 0).map (fun s => (s.terminal, s.platform)) = some (none, some "linux/arm64"))
    (fun _ _ _ _ => inferInstance) (by decide +kernel)
  have hn₁ : d₁.Numbered := Document.numbered_of_parse hd₁
  have hn₂ : d₂.Numbered := Document.numbered_of_parse hd₂
  obtain ⟨_, _, _, run₁⟩ := lower_ok hg₁
  obtain ⟨_, _, _, run₂⟩ := lower_ok hg₂
  simp only [List.map_cons, List.map_nil, List.replicate_succ, List.replicate_zero,
    List.cons.injEq, and_true] at hunkeyed
  obtain ⟨hunkeyed₁, hunkeyed₂⟩ := hunkeyed
  obtain ⟨hsame, htexts⟩ := Graph.operations_eq_of_unkeyed (run₁.wired hn₁) (run₂.wired hn₂)
    (run₁.keyed hn₁) (run₂.keyed hn₂) (hunkeyed₁.trans hunkeyed₂.symm)
  obtain ⟨o, hops, ho⟩ := List.map_eq_singleton_iff.1 hunkeyed₁
  have hsha : (g₁.payloadTexts ∪ g₂.payloadTexts).InjOn Sha256.ofText := by
    rw [← htexts, Set.union_self]
    exact (run₁.keyed hn₁).injOn_of_nodup (by simp [hops])
  have hreads : o.task.stages = [0] := by
    rw [(Operation.mk.inj (Prod.mk.inj ho).1).2.2.2.2.2.2]
    rfl
  obtain ⟨s₁, hs₁, hdata₁⟩ := Option.map_eq_some_iff.1 hs₁
  obtain ⟨s₂, hs₂, hdata₂⟩ := Option.map_eq_some_iff.1 hs₂
  obtain ⟨hend₁, hplatform₁⟩ := Prod.mk.inj hdata₁
  obtain ⟨hend₂, hplatform₂⟩ := Prod.mk.inj hdata₂
  exact ⟨d₁, d₂, g₁, g₂, o, s₁, s₂, hd₁, hd₂, hg₁, hg₂, hsha, hops, hsame ▸ hops, hreads, hs₁, hs₂,
    hend₁, hend₂, hplatform₁, hplatform₂⟩

end Dockerfile
