import Dockerfile.Proofs.Lowering.Payload
import Dockerfile.Proofs.Lowering.Wiring
import Mathlib.Data.List.Forall2
import Mathlib.Data.Set.Function

/-!
# Content keys

A content key is the digest of a payload that can be read off the graph: `Graph.payloadOf` holds
what an operation does, the keys of its inputs and, for the first operation of a stage, the image
and the platform that the stage starts from. So far as no two of these payloads have one digest,
two operations with one key are `Graph.Alike`.
-/

namespace Dockerfile

open Lower

namespace Graph

/-! ### What a key is computed from -/

/-- The key of an operation. -/
def key? (g : Graph) (id : OperationId) : Option String := keyOf? g.operations id

/-- The image that a stage goes back to through its bases, each of which stands before it. -/
def rootOf (g : Graph) (n : Nat) : Option String :=
  match g.stage? n with
  | none => none
  | some s =>
    match s.baseStage with
    | none => some s.baseImage
    | some b => if b < n then g.rootOf b else none
termination_by n

/-- Is an operation the first one of its stage? -/
def IsFirst (g : Graph) (o : Operation) : Prop :=
  (g.stageOperations o.id.stage).head?.map Operation.id = some o.id

instance (g : Graph) (o : Operation) : Decidable (g.IsFirst o) :=
  inferInstanceAs (Decidable (_ = _))

/-- The image and the platform that the first operation of a stage starts from. -/
def start? (g : Graph) (o : Operation) : Option (String × Option String) :=
  if g.IsFirst o then
    (g.stage? o.id.stage).bind fun s => (g.rootOf s.index).map fun image => (image, s.platform)
  else none

/-- The payload of an operation. -/
def payloadOf (g : Graph) (o : Operation) : Json :=
  payload o.kind o.task (o.inputs.filterMap g.key?) (g.start? o)

/-- The texts whose digests are the keys of a graph. -/
def payloadTexts (g : Graph) : Set String :=
  {text | ∃ o ∈ g.operations, (g.payloadOf o).canonical = text}

/-- The keys of a graph are the digests of its payloads. -/
structure Keyed (g : Graph) : Prop where
  /-- All inputs have keys. -/
  inputs : ∀ o ∈ g.operations, o.inputs.map g.key? = (o.inputs.filterMap g.key?).map some
  key : ∀ o ∈ g.operations, o.key = contentKey (g.payloadOf o)
  start : ∀ o ∈ g.operations, g.IsFirst o → (g.start? o).isSome

end Graph

namespace Lower.Run

variable {d : Document} {job : Job} {r : Resolution} {g : Graph} {plans : List Plan}
  {order : List Nat} {done : List Lowered} {l : Lowered}

section

variable (run : Run d job r g plans order done) (hd : d.Numbered)

include run hd

theorem rootOf_eq (hl : l ∈ done) : g.rootOf l.graph.index = some l.root := by
  induction hn : l.graph.index using Nat.strong_induction_on generalizing l with
  | h n ih =>
    subst hn
    unfold Graph.rootOf
    rw [run.stage?_eq hd hl]
    cases hb : l.graph.baseStage with
    | none =>
      obtain ⟨plan, before, hafter, hbase⟩ := run.base_eq hd hl
      rw [hb, Option.bind_none, Option.map_eq_none_iff] at hbase
      simp [hafter.root, hbase, hb]
    | some b =>
      obtain ⟨plan, before, base, hafter, hbase, hmem, rfl, hlt⟩ := run.exists_base hd hl hb
      simp [hb, hlt, ih _ hlt hmem rfl, hafter.root, hbase]

theorem isFirst_iff (hl : l ∈ done) {before after : List Operation} {o : Operation}
    (ho : l.operations = before ++ o :: after) : g.IsFirst o ↔ before = [] := by
  obtain ⟨plan, _, -, hafter⟩ := run.exists_loweredAfter hd hl
  have hnodup := hafter.nodup
  unfold Graph.IsFirst
  rw [run.stage_eq hd hl (o := o) (by simp [ho]), run.stageOperations_eq hd hl, ho]
  cases before with
  | nil => simp
  | cons first before =>
    rw [ho, List.cons_append, List.map_cons, List.nodup_cons] at hnodup
    have hne : first.id ≠ o.id := by
      intro hid
      exact hnodup.1 (by simp [hid])
    simp [hne]

/-- The first operation of a stage starts from the image that the stage goes back to. -/
theorem start?_eq (hl : l ∈ done) {before after : List Operation} {o : Operation}
    (ho : l.operations = before ++ o :: after) :
    g.start? o = if before.isEmpty then some (l.root, l.graph.platform) else none := by
  have hfirst := run.isFirst_iff hd hl ho
  unfold Graph.start?
  cases before with
  | nil =>
    rw [if_pos (hfirst.2 rfl), run.stage_eq hd hl (o := o) (by simp [ho]), run.stage?_eq hd hl,
      Option.bind_some, run.rootOf_eq hd hl]
    rfl
  | cons first before => rw [if_neg (by simp [hfirst])]; rfl

/-- The keys of the inputs of an operation, and its own key. -/
theorem keyed_operation {o : Operation} (ho : o ∈ g.operations) :
    o.inputs.map g.key? = (o.inputs.filterMap g.key?).map some ∧
      o.key = contentKey (g.payloadOf o) := by
  obtain ⟨l, hl, ho⟩ := run.exists_of_mem_operations ho
  obtain ⟨earlier, later, hdone⟩ := List.append_of_mem hl
  obtain ⟨before, after, hops⟩ := List.append_of_mem ho
  obtain ⟨_, plan, -, -, -, hafter⟩ := run.started.each hd earlier l later hdone
  obtain ⟨keys, hkeys, hkey⟩ := (hafter.each before o after hops).keyed
  -- What is made before the operation stands at the front of the graph.
  have hfront : g.operations = (earlier.flatMap Lowered.operations ++ before) ++
      (o :: after ++ later.flatMap Lowered.operations) := by
    rw [run.operations, hdone, List.flatMap_append, List.flatMap_cons, hops]
    simp
  have hmap : o.inputs.map g.key? = keys.map some := by
    rw [← keyOf?_of_lookUpKeys hkeys]
    refine List.map_congr_left fun id hid => ?_
    rw [Graph.key?, hfront, keyOf?_append (mem_of_lookUpKeys hkeys hid)]
  have hinputs : o.inputs.filterMap g.key? = keys := by
    calc o.inputs.filterMap g.key? = (o.inputs.map g.key?).filterMap id := by
          rw [List.filterMap_map, Function.id_comp]
      _ = keys := by rw [hmap, List.filterMap_map, Function.id_comp, List.filterMap_some]
  rw [Graph.payloadOf, hinputs, run.start?_eq hd hl hops]
  exact ⟨hmap, hkey⟩

theorem keyed : g.Keyed where
  inputs := fun _ ho => (run.keyed_operation hd ho).1
  key := fun _ ho => (run.keyed_operation hd ho).2
  start := by
    intro o ho hfirst
    obtain ⟨l, hl, ho⟩ := run.exists_of_mem_operations ho
    obtain ⟨before, after, hops⟩ := List.append_of_mem ho
    rw [run.start?_eq hd hl hops, (run.isFirst_iff hd hl hops).1 hfirst]
    rfl

end

end Lower.Run

/-! ### Operations with one key -/

namespace Graph

variable {g₁ g₂ : Graph} {o₁ o₂ : Operation}

/-- Two operations are made by the same instruction, do the same, build on operations with the same
keys, and start from the same if they are the first ones of their stages. -/
structure Alike (g₁ g₂ : Graph) (o₁ o₂ : Operation) : Prop where
  kind : o₁.kind = o₂.kind
  task : o₁.task.Same o₂.task
  inputs : List.Forall₂ (fun i j => ∃ key, g₁.key? i = some key ∧ g₂.key? j = some key)
    o₁.inputs o₂.inputs
  first : g₁.IsFirst o₁ ↔ g₂.IsFirst o₂
  start : g₁.IsFirst o₁ → ∃ image platform,
    g₁.start? o₁ = some (image, platform) ∧ g₂.start? o₂ = some (image, platform)

theorem Alike.start?_eq (h : Alike g₁ g₂ o₁ o₂) : g₁.start? o₁ = g₂.start? o₂ := by
  by_cases hfirst : g₁.IsFirst o₁
  · obtain ⟨image, platform, h₁, h₂⟩ := h.start hfirst
    rw [h₁, h₂]
  · rw [Graph.start?, if_neg hfirst, Graph.start?, if_neg (mt h.first.2 hfirst)]

theorem contentKey_inj {texts : Set String} (hsha : texts.InjOn Sha256.ofText) {p q : Json}
    (hp : p.canonical ∈ texts) (hq : q.canonical ∈ texts) (h : contentKey p = contentKey q) :
    p.canonical = q.canonical := by
  refine hsha hp hq ?_
  unfold contentKey at h
  exact String.append_right_inj _ |>.1 h

/-- No two payloads have one digest if operations with one key have one payload. -/
theorem Keyed.injOn_payloadTexts {g : Graph} (hg : g.Keyed)
    (h : ∀ o ∈ g.operations, ∀ p ∈ g.operations, o.key = p.key →
      (g.payloadOf o).canonical = (g.payloadOf p).canonical) :
    g.payloadTexts.InjOn Sha256.ofText := by
  rintro _ ⟨o, ho, rfl⟩ _ ⟨p, hp, rfl⟩ hsha
  refine h o ho p hp ?_
  rw [hg.key o ho, hg.key p hp, contentKey, contentKey, hsha]

theorem Keyed.injOn_of_nodup {g : Graph} (hg : g.Keyed)
    (h : (g.operations.map Operation.key).Nodup) : g.payloadTexts.InjOn Sha256.ofText := by
  refine hg.injOn_payloadTexts fun o ho p hp hkey => ?_
  rw [List.inj_on_of_nodup_map h ho hp hkey]

theorem key_eq_of_canonical_eq (hg₁ : g₁.Keyed) (hg₂ : g₂.Keyed) (ho₁ : o₁ ∈ g₁.operations)
    (ho₂ : o₂ ∈ g₂.operations)
    (h : (g₁.payloadOf o₁).canonical = (g₂.payloadOf o₂).canonical) : o₁.key = o₂.key := by
  rw [hg₁.key o₁ ho₁, hg₂.key o₂ ho₂, contentKey, contentKey, h]

theorem isFirst_iff_isSome {g : Graph} {o : Operation} (hg : g.Keyed) (ho : o ∈ g.operations) :
    g.IsFirst o ↔ (g.start? o).isSome := by
  constructor
  · exact hg.start o ho
  · intro h
    by_contra hfirst
    rw [start?, if_neg hfirst] at h
    cases h

theorem forall₂_key? {ids₁ ids₂ : List OperationId} {keys : List String}
    (h₁ : ids₁.map g₁.key? = keys.map some) (h₂ : ids₂.map g₂.key? = keys.map some) :
    List.Forall₂ (fun i j => ∃ key, g₁.key? i = some key ∧ g₂.key? j = some key) ids₁ ids₂ := by
  induction keys generalizing ids₁ ids₂ with
  | nil =>
    rw [List.map_eq_nil_iff.1 h₁, List.map_eq_nil_iff.1 h₂]
    exact .nil
  | cons key keys ih =>
    obtain ⟨i, ids₁, rfl, hi, h₁⟩ := List.map_eq_cons_iff.1 h₁
    obtain ⟨j, ids₂, rfl, hj, h₂⟩ := List.map_eq_cons_iff.1 h₂
    exact .cons ⟨key, hi, hj⟩ (ih h₁ h₂)

theorem alike_of_key_eq (hg₁ : g₁.Keyed) (hg₂ : g₂.Keyed)
    (hsha : (g₁.payloadTexts ∪ g₂.payloadTexts).InjOn Sha256.ofText) (ho₁ : o₁ ∈ g₁.operations)
    (ho₂ : o₂ ∈ g₂.operations) (hkey : o₁.key = o₂.key) : Alike g₁ g₂ o₁ o₂ := by
  rw [hg₁.key o₁ ho₁, hg₂.key o₂ ho₂] at hkey
  have htext := contentKey_inj hsha (Or.inl ⟨o₁, ho₁, rfl⟩) (Or.inr ⟨o₂, ho₂, rfl⟩) hkey
  obtain ⟨hkind, htask, hinputs, hstart⟩ := payload_inj htext
  exact {
    kind := hkind
    task := htask
    inputs := by
      refine forall₂_key? (hg₁.inputs o₁ ho₁) ?_
      rw [hinputs]
      exact hg₂.inputs o₂ ho₂
    first := by rw [isFirst_iff_isSome hg₁ ho₁, isFirst_iff_isSome hg₂ ho₂, hstart]
    start := by
      intro hfirst
      obtain ⟨⟨image, platform⟩, hsome⟩ := Option.isSome_iff_exists.1 (hg₁.start o₁ ho₁ hfirst)
      exact ⟨image, platform, hsome, hstart ▸ hsome⟩ }

end Graph

end Dockerfile
