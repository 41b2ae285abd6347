import Dockerfile.Proofs.Lowering.Upstream
import Dockerfile.Proofs.Platform

/-!
# Platforms and keys

The key of the first operation of a stage holds the image and the platform that the stage starts
from, and every other one holds the key of the operation before it, so that operations with one key
stand in stages that start from the same (`Graph.exists_startOf`). A stage whose `FROM` names a
platform starts from that platform or from the requested one. So stages with platforms that disagree
have no key in common, unless they start from one image and a platform is requested that says nothing
where they differ (`pinned_keys_disjoint`).
-/

namespace Dockerfile

open Lower

namespace Graph

variable {g g₁ g₂ : Graph} {o o₁ o₂ : Operation}

/-- The image and the platform that a stage starts from. -/
def startOf (g : Graph) (n : Nat) : Option (String × Option String) :=
  (g.stage? n).bind fun s => (g.rootOf s.index).map fun image => (image, s.platform)

theorem start?_of_isFirst (h : g.IsFirst o) : g.start? o = g.startOf o.id.stage := if_pos h

/-- An operation that is not the first one of its stage builds first on one of the stage. -/
theorem Wired.exists_previous (hg : g.Wired) (ho : o ∈ g.operations) (h : ¬g.IsFirst o) :
    ∃ p ∈ g.operations, p.id.stage = o.id.stage ∧ o.inputs.head? = some p.id := by
  have hmem : o ∈ g.stageOperations o.id.stage := List.mem_filter.2 ⟨ho, by simp⟩
  obtain ⟨before, after, hops⟩ := List.append_of_mem hmem
  rcases before.eq_nil_or_concat with rfl | ⟨before, p, rfl⟩
  · exact absurd (by rw [IsFirst, hops]; rfl) h
  · have hp : p ∈ g.stageOperations o.id.stage := by simp [hops]
    obtain ⟨hp, hstage⟩ := List.mem_filter.1 hp
    refine ⟨p, hp, by simpa using hstage, ?_⟩
    exact hg.chained o.id.stage before p o after (by rw [hops]; simp)

/-- Operations with one key stand in stages that start from the same. -/
theorem exists_startOf (hw₁ : g₁.Wired) (hw₂ : g₂.Wired) (hg₁ : g₁.Keyed) (hg₂ : g₂.Keyed)
    (hsha : (g₁.payloadTexts ∪ g₂.payloadTexts).InjOn Sha256.ofText) (ho₁ : o₁ ∈ g₁.operations)
    (ho₂ : o₂ ∈ g₂.operations) (hkey : o₁.key = o₂.key) :
    ∃ start, g₁.startOf o₁.id.stage = some start ∧ g₂.startOf o₂.id.stage = some start := by
  refine hw₁.induct (P := fun o₁ => ∀ o₂ ∈ g₂.operations, o₁.key = o₂.key → ∃ start,
    g₁.startOf o₁.id.stage = some start ∧ g₂.startOf o₂.id.stage = some start) ?_ ho₁ o₂ ho₂ hkey
  intro o₁ ho₁ ih o₂ ho₂ hkey
  have halike := alike_of_key_eq hg₁ hg₂ hsha ho₁ ho₂ hkey
  by_cases hfirst : g₁.IsFirst o₁
  · obtain ⟨image, platform, h₁, h₂⟩ := halike.start hfirst
    rw [start?_of_isFirst hfirst] at h₁
    rw [start?_of_isFirst (halike.first.1 hfirst)] at h₂
    exact ⟨_, h₁, h₂⟩
  · obtain ⟨p₁, hp₁, hstage₁, hhead₁⟩ := hw₁.exists_previous ho₁ hfirst
    obtain ⟨p₂, hp₂, hstage₂, hhead₂⟩ := hw₂.exists_previous ho₂ (mt halike.first.2 hfirst)
    obtain ⟨rest₁, hinputs₁⟩ := List.head?_eq_some_iff.1 hhead₁
    obtain ⟨rest₂, hinputs₂⟩ := List.head?_eq_some_iff.1 hhead₂
    have hinputs := halike.inputs
    rw [hinputs₁, hinputs₂, List.forall₂_cons] at hinputs
    obtain ⟨⟨key, hkey₁, hkey₂⟩, -⟩ := hinputs
    rw [key?_id hw₁ hp₁] at hkey₁
    rw [key?_id hw₂ hp₂] at hkey₂
    rw [← hstage₁, ← hstage₂]
    exact ih p₁ hp₁ (by simp [hinputs₁]) p₂ hp₂ (Option.some.inj (hkey₁.trans hkey₂.symm))

theorem index_of_stage? {n : Nat} {s : StageGraph} (hs : g.stage? n = some s) : s.index = n := by
  simpa using List.find?_some hs

theorem start_of_startOf {n : Nat} {s : StageGraph} {image : String} {platform : Option String}
    (hs : g.stage? n = some s) (h : g.startOf n = some (image, platform)) :
    s.platform = platform ∧ g.rootOf n = some image := by
  rw [startOf, hs, Option.bind_some, index_of_stage? hs, Option.map_eq_some_iff] at h
  obtain ⟨root, hroot, h⟩ := h
  obtain ⟨rfl, rfl⟩ := Prod.mk.inj h
  exact ⟨rfl, hroot⟩

end Graph

namespace Lower

/-- The platform that the `FROM` of a stage names, if it names one. -/
def Job.pinned? (job : Job) (d : Document) (n : Nat) : Option Platform :=
  d.stages[n]?.bind fun s => (s.base.platform.map (job.frame d).value).bind fun text =>
    (Platform.parse text).toOption

theorem stagePlatform_of_parse {requested : Option Platform} {text : String}
    {base : Option Lowered} {place : Place} {platform : Option String} {p : Platform}
    (hparse : Platform.parse text = .ok p)
    (h : stagePlatform requested (some text) base place = .ok platform) :
    platform = some (requested.getD p).render ∧ ∀ q ∈ requested, p.agrees q = true := by
  have hfull := Platform.text_ne_empty_of_parse hparse
  simp only [stagePlatform, Option.filter_some, hfull, Bool.not_false, if_true, Option.bind_some,
    hparse, Except.toOption] at h
  cases requested with
  | none =>
    cases h
    exact ⟨rfl, by simp⟩
  | some q =>
    dsimp only at h
    split at h
    · rename_i hagrees
      cases h
      refine ⟨rfl, fun q' hq' => ?_⟩
      rw [← Option.some.inj hq']
      exact hagrees
    · cases h

section Runs

variable {d : Document} {job : Job} {r : Resolution} {g : Graph} {plans : List Plan}
  {order : List Nat} {done : List Lowered} {l : Lowered} {p : Platform}

/-- A stage whose `FROM` names a platform is for that platform, or for the requested one. -/
theorem Run.platform_of_pinned (run : Run d job r g plans order done) (hd : d.Numbered)
    (hl : l ∈ done) (h : job.pinned? d l.graph.index = some p) :
    (∃ text, Platform.parse text = .ok p) ∧
      l.graph.platform = some (job.platform.getD p).render ∧
      ∀ q ∈ job.platform, p.agrees q = true := by
  obtain ⟨before, earlier, plan, -, hplan, -, hstep⟩ := (run.started.lowered hd).mem hl
  obtain ⟨platform, progress, hplatform, -, rfl⟩ := lowerStage_ok hstep
  rw [Job.pinned?, stage_of_plans run.plans_eq hplan, Option.bind_some,
    Option.bind_eq_some_iff] at h
  obtain ⟨text, htext, hparse⟩ := h
  rw [htext] at hplatform
  have hparse := eq_ok_of_toOption hparse
  exact ⟨⟨text, hparse⟩, stagePlatform_of_parse hparse hplatform⟩

/-- Stages whose `FROM` names platforms that disagree have no key in common, unless they start from
one image and a platform is requested that says nothing of the parts in which they differ, which then
is the platform of both. -/
theorem pinned_keys_disjoint (hd : d.Numbered) (h : (d.lower job r).result = .ok g)
    (hsha : g.payloadTexts.InjOn Sha256.ofText) {s₁ s₂ : StageGraph} (hs₁ : s₁ ∈ g.stages)
    (hs₂ : s₂ ∈ g.stages) {p₁ p₂ : Platform} (hp₁ : job.pinned? d s₁.index = some p₁)
    (hp₂ : job.pinned? d s₂.index = some p₂) (hdisagree : p₁.agrees p₂ = false) :
    (∀ o₁ ∈ g.stageOperations s₁.index, ∀ o₂ ∈ g.stageOperations s₂.index, o₁.key ≠ o₂.key) ∨
      ∃ image q, g.rootOf s₁.index = some image ∧ g.rootOf s₂.index = some image ∧
        job.platform = some q ∧ q.LeavesOpen p₁ p₂ ∧ s₁.platform = some q.render ∧
        s₂.platform = some q.render := by
  obtain ⟨plans, order, done, run⟩ := lower_ok h
  obtain ⟨l₁, hl₁, rfl⟩ := run.mem_stages.1 hs₁
  obtain ⟨l₂, hl₂, rfl⟩ := run.mem_stages.1 hs₂
  obtain ⟨⟨text₁, hparse₁⟩, hplatform₁, hagrees₁⟩ := run.platform_of_pinned hd hl₁ hp₁
  obtain ⟨⟨text₂, hparse₂⟩, hplatform₂, hagrees₂⟩ := run.platform_of_pinned hd hl₂ hp₂
  refine or_iff_not_imp_left.2 fun hshared => ?_
  push Not at hshared
  obtain ⟨o₁, ho₁, o₂, ho₂, hkey⟩ := hshared
  -- A key in common tells that the stages start from one image, for one platform.
  obtain ⟨ho₁, hstage₁⟩ := List.mem_filter.1 ho₁
  obtain ⟨ho₂, hstage₂⟩ := List.mem_filter.1 ho₂
  obtain ⟨⟨image, platform⟩, hstart₁, hstart₂⟩ := Graph.exists_startOf (run.wired hd)
    (run.wired hd) (run.keyed hd) (run.keyed hd) (by rwa [Set.union_self]) ho₁ ho₂ hkey
  rw [of_decide_eq_true hstage₁] at hstart₁
  rw [of_decide_eq_true hstage₂] at hstart₂
  obtain ⟨hown₁, hroot₁⟩ := Graph.start_of_startOf (run.stage?_eq hd hl₁) hstart₁
  obtain ⟨hown₂, hroot₂⟩ := Graph.start_of_startOf (run.stage?_eq hd hl₂) hstart₂
  cases hrequest : job.platform with
  | some q =>
    rw [hrequest] at hplatform₁ hplatform₂ hagrees₁ hagrees₂
    exact ⟨image, q, hroot₁, hroot₂, rfl,
      Platform.leavesOpen_of_agrees (hagrees₁ q rfl) (hagrees₂ q rfl), hplatform₁, hplatform₂⟩
  | none =>
    rw [hrequest] at hplatform₁ hplatform₂
    have hrender : some p₁.render = some p₂.render := by
      calc some p₁.render = l₁.graph.platform := hplatform₁.symm
        _ = platform := hown₁
        _ = l₂.graph.platform := hown₂.symm
        _ = some p₂.render := hplatform₂
    rw [Platform.eq_of_render_eq hparse₁ hparse₂ (Option.some.inj hrender),
      Platform.agrees_self] at hdisagree
    cases hdisagree

/-- Stages for two architectures that start from two images, with a request for a system. -/
theorem pinned_keys_disjoint_requested : ∃ d g s₁ s₂, Document.parse
      ("FROM --platform=linux/amd64 a AS x\nUSER u\n" ++
        "FROM --platform=linux/arm64 b\nUSER u\nCOPY --from=x c d\n") = .ok d ∧
    (d.lower ⟨[], none, some ⟨"linux", none, none⟩⟩ .empty).result = .ok g ∧
    g.payloadTexts.InjOn Sha256.ofText ∧ s₁ ∈ g.stages ∧ s₂ ∈ g.stages ∧
    Job.pinned? ⟨[], none, some ⟨"linux", none, none⟩⟩ d s₁.index =
      some ⟨"linux", some "amd64", none⟩ ∧
    Job.pinned? ⟨[], none, some ⟨"linux", none, none⟩⟩ d s₂.index =
      some ⟨"linux", some "arm64", none⟩ ∧
    g.operations.map Operation.id = [⟨s₁.index, 0⟩, ⟨s₂.index, 0⟩, ⟨s₂.index, 1⟩] ∧
    ∀ o₁ ∈ g.stageOperations s₁.index, ∀ o₂ ∈ g.stageOperations s₂.index, o₁.key ≠ o₂.key := by
  obtain ⟨d, g, hd, hg, hnodup, hstages, hp₁, hp₂, hids, hroota, hrootb⟩ := exists_lowered_with
    ("FROM --platform=linux/amd64 a AS x\nUSER u\n" ++
      "FROM --platform=linux/arm64 b\nUSER u\nCOPY --from=x c d\n")
    ⟨[], none, some ⟨"linux", none, none⟩⟩ (fun _ => .empty)
    (fun d g => (g.operations.map Operation.key).Nodup ∧ g.stages.map StageGraph.index = [0, 1] ∧
      Job.pinned? ⟨[], none, some ⟨"linux", none, none⟩⟩ d 0 =
        some ⟨"linux", some "amd64", none⟩ ∧
      Job.pinned? ⟨[], none, some ⟨"linux", none, none⟩⟩ d 1 =
        some ⟨"linux", some "arm64", none⟩ ∧
      g.operations.map Operation.id = [⟨0, 0⟩, ⟨1, 0⟩, ⟨1, 1⟩] ∧
      g.rootOf 0 = some "docker.io/library/a:latest" ∧
      g.rootOf 1 = some "docker.io/library/b:latest") (by decide +kernel)
  have hn : d.Numbered := Document.numbered_of_parse hd
  obtain ⟨_, _, _, run⟩ := lower_ok hg
  have hsha : g.payloadTexts.InjOn Sha256.ofText :=
    (run.keyed hn).injOn_of_nodup hnodup
  obtain ⟨s₁, rest, hs, hindex₁, hrest⟩ := List.map_eq_cons_iff.1 hstages
  obtain ⟨s₂, rfl, hindex₂⟩ := List.map_eq_singleton_iff.1 hrest
  have hs₁ : s₁ ∈ g.stages := by simp [hs]
  have hs₂ : s₂ ∈ g.stages := by simp [hs]
  rw [← hindex₁] at hp₁
  rw [← hindex₂] at hp₂
  refine ⟨d, g, s₁, s₂, hd, hg, hsha, hs₁, hs₂, hp₁, hp₂, by rw [hids, hindex₁, hindex₂], ?_⟩
  rcases pinned_keys_disjoint hn hg hsha hs₁ hs₂ hp₁ hp₂ (by decide) with
    h | ⟨image, -, hroot₁, hroot₂, -⟩
  · exact h
  · rw [hindex₁, hroota] at hroot₁
    rw [hindex₂, hrootb] at hroot₂
    exact absurd (hroot₁.trans hroot₂.symm) (by decide)

/-- A request for a system leaves the architecture open: stages for two architectures then share the
key of their first operation. -/
theorem pinned_keys_shared : ∃ d g o₁ o₂, Document.parse
      ("FROM --platform=linux/amd64 scratch AS x\nUSER u\n" ++
        "FROM --platform=linux/arm64 scratch\nUSER u\nCOPY --from=x c d\n") = .ok d ∧
    (d.lower ⟨[], none, some ⟨"linux", none, none⟩⟩ .empty).result = .ok g ∧
    g.payloadTexts.InjOn Sha256.ofText ∧ g.stages.map StageGraph.index = [0, 1] ∧
    Job.pinned? ⟨[], none, some ⟨"linux", none, none⟩⟩ d 0 = some ⟨"linux", some "amd64", none⟩ ∧
    Job.pinned? ⟨[], none, some ⟨"linux", none, none⟩⟩ d 1 = some ⟨"linux", some "arm64", none⟩ ∧
    Platform.agrees ⟨"linux", some "amd64", none⟩ ⟨"linux", some "arm64", none⟩ = false ∧
    o₁ ∈ g.stageOperations 0 ∧ o₂ ∈ g.stageOperations 1 ∧ o₁.key = o₂.key := by
  obtain ⟨d, g, hd, hg, hids, htexts, hnodup, hstages, hp₁, hp₂⟩ := exists_lowered_with
    ("FROM --platform=linux/amd64 scratch AS x\nUSER u\n" ++
      "FROM --platform=linux/arm64 scratch\nUSER u\nCOPY --from=x c d\n")
    ⟨[], none, some ⟨"linux", none, none⟩⟩ (fun _ => .empty)
    (fun d g => g.operations.map Operation.id = [⟨0, 0⟩, ⟨1, 0⟩, ⟨1, 1⟩] ∧
      ¬((g.operations.take 2).map fun o => (g.payloadOf o).canonical).Nodup ∧
      ((g.operations.drop 1).map Operation.key).Nodup ∧ g.stages.map StageGraph.index = [0, 1] ∧
      Job.pinned? ⟨[], none, some ⟨"linux", none, none⟩⟩ d 0 =
        some ⟨"linux", some "amd64", none⟩ ∧
      Job.pinned? ⟨[], none, some ⟨"linux", none, none⟩⟩ d 1 =
        some ⟨"linux", some "arm64", none⟩) (by decide +kernel)
  have hn : d.Numbered := Document.numbered_of_parse hd
  obtain ⟨_, _, _, run⟩ := lower_ok hg
  have hkeyed := run.keyed hn
  obtain ⟨a, rest, hops, ha, hrest⟩ := List.map_eq_cons_iff.1 hids
  obtain ⟨b, rest, rfl, hb, hrest⟩ := List.map_eq_cons_iff.1 hrest
  obtain ⟨c, rfl, hc⟩ := List.map_eq_singleton_iff.1 hrest
  have htext : (g.payloadOf a).canonical = (g.payloadOf b).canonical := by
    simpa [hops] using htexts
  have hkey : a.key = b.key :=
    Graph.key_eq_of_canonical_eq hkeyed hkeyed (by simp [hops]) (by simp [hops]) htext
  have hdiffer : b.key ≠ c.key := by simpa [hops] using hnodup
  refine ⟨d, g, a, b, hd, hg, hkeyed.injOn_payloadTexts ?_, hstages, hp₁, hp₂, by decide, ?_, ?_,
    hkey⟩
  · rw [hops]
    intro o ho p hp h
    simp only [List.mem_cons, List.not_mem_nil, or_false] at ho hp
    rcases ho with rfl | rfl | rfl
    · rcases hp with rfl | rfl | rfl
      exacts [rfl, htext, absurd (hkey.symm.trans h) hdiffer]
    · rcases hp with rfl | rfl | rfl
      exacts [htext.symm, rfl, absurd h hdiffer]
    · rcases hp with rfl | rfl | rfl
      exacts [absurd (hkey.symm.trans h.symm) hdiffer, absurd h.symm hdiffer, rfl]
  · simp [Graph.stageOperations, hops, ha]
  · simp [Graph.stageOperations, hops, ha, hb, hc]

end Runs

end Lower

end Dockerfile
