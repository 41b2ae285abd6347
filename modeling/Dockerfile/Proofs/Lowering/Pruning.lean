import Dockerfile.Proofs.Lowering.Kept
import Dockerfile.Proofs.Lowering.Locality

/-!
# Stages that are not needed

A stage that the target does not need has no part in a lowering but its number and its name. Two
documents that agree outside their stages (`Document.SameOutline`) and on the stages that the target
needs have the same plans for these stages (`plans_congr`), hence the same needs, the same order and
the same lowered stages, so that they come to the same, be it a graph or a fault
(`lower_ignores_pruned`).
-/

namespace Dockerfile

/-- The same preamble, the same escape character and the same names of stages. -/
structure Document.SameOutline (d d' : Document) : Prop where
  preamble : d'.preamble = d.preamble
  escape : d'.escape = d.escape
  names : d'.stages.map Stage.name = d.stages.map Stage.name

namespace Lower

/-- The stages that the target of a job needs; none if there is no such target. -/
def Job.needed (job : Job) (d : Document) (r : Resolution) : List Nat :=
  match Lower.target d job.target, (job.planner d r).plans with
  | .ok goal, .ok plans => (dependencies plans).closure goal
  | _, _ => []

theorem Traced.ofExcept_ok_bind {α β : Type} (a : α) (f : α → Traced β) :
    Traced.ofExcept (.ok a) >>= f = f a := rfl

/-! ### Targets -/

theorem target_congr {d d' : Document} (h : d'.stages.map Stage.label = d.stages.map Stage.label)
    (name : Option String) : target d' name = target d name := by
  cases name with
  | none =>
    have hlast : d'.stages.getLast?.map Stage.label = d.stages.getLast?.map Stage.label := by
      rw [← List.getLast?_map, h, List.getLast?_map]
    unfold target
    cases hs : d.stages.getLast? with
    | none =>
      rw [hs, Option.map_none, Option.map_eq_none_iff] at hlast
      rw [hlast]
    | some s =>
      rw [hs, Option.map_some, Option.map_eq_some_iff] at hlast
      obtain ⟨s', hs', hlabel⟩ := hlast
      rw [hs']
      exact congrArg Except.ok (congrArg Prod.fst hlabel)
  | some reference =>
    have hlength : d'.stages.length = d.stages.length := by
      rw [← List.length_map Stage.label, h, List.length_map]
    have hempty : d'.stages.isEmpty = d.stages.isEmpty := by
      rw [← List.isEmpty_map (f := Stage.label), h, List.isEmpty_map]
    have hnames : d'.stages.filterMap Stage.name = d.stages.filterMap Stage.name := by
      have := congrArg (List.filterMap Prod.snd) h
      rwa [List.filterMap_map, List.filterMap_map] at this
    have hnamed := map_label_find? h reference
    unfold target Document.stageNamed?
    dsimp only
    rw [hlength, hempty, hnames]
    cases hs : d.stages.find? (·.isNamed reference) with
    | none =>
      rw [hs, Option.map_none, Option.map_eq_none_iff] at hnamed
      rw [hnamed]
    | some s =>
      rw [hs, Option.map_some, Option.map_eq_some_iff] at hnamed
      obtain ⟨s', hs', hlabel⟩ := hnamed
      rw [hs']
      dsimp only
      rw [show s'.index = s.index from congrArg Prod.fst hlabel]

/-! ### Plans -/

namespace Planner

variable {p : Planner} {d' : Document}

section

variable {s : Stage}
  (h : ∀ reference, d'.resolve? reference s.index = p.document.resolve? reference s.index)

include h

theorem base?_congr : { p with document := d' }.base? s = p.base? s := by
  unfold base?
  dsimp only
  rw [h]
  rfl

theorem references_congr (scope : Scope) (first : Nat) (instructions : List Instruction) :
    { p with document := d' }.references s scope first instructions =
      p.references s scope first instructions := by
  have hreference : ∀ position slot text, { p with document := d' }.reference s position slot text =
      p.reference s position slot text := by
    intro position slot text
    unfold reference
    dsimp only
    rw [h]
  induction instructions generalizing scope first with
  | nil => rfl
  | cons i rest ih =>
    unfold references
    rw [ih]
    simp only [hreference]

theorem planFrom_congr (env : Table String) :
    { p with document := d' }.planFrom s env = p.planFrom s env := by
  unfold planFrom
  rw [base?_congr h, references_congr h]
  rfl

end

end Planner

section Outline

variable {d d' : Document} {job : Job} {r : Resolution} {plans plans' : List Plan} {plan : Plan}
  {n : Nat}

theorem setting_congr (h : d'.escape = d.escape) : job.setting d' = job.setting d := by
  unfold Job.setting
  rw [h]

theorem metaArgs_congr (h : d'.preamble = d.preamble) : d'.metaArgs = d.metaArgs := by
  unfold Document.metaArgs
  rw [h]

theorem metas_congr (hescape : d'.escape = d.escape) (hpreamble : d'.preamble = d.preamble) :
    job.metas d' = job.metas d := by
  unfold Job.metas
  rw [setting_congr hescape, metaArgs_congr hpreamble]

theorem planner_eq (hescape : d'.escape = d.escape) (hpreamble : d'.preamble = d.preamble) :
    job.planner d' r = ⟨d', job.setting d, job.metas d, r⟩ := by
  unfold Job.planner
  rw [setting_congr hescape, metas_congr hescape hpreamble]

theorem planFrom_eq (hd : d.Numbered) (hd' : d'.Numbered) (h : d.SameOutline d') (s : Stage)
    (env : Table String) :
    (job.planner d' r).planFrom s env = (job.planner d r).planFrom s env := by
  rw [planner_eq h.escape h.preamble]
  have hresolve := Document.resolve?_congr (hd.map_label_eq hd' h.names)
  exact Planner.planFrom_congr (p := job.planner d r) (fun reference => hresolve reference s.index)
    env

/-- A plan starts from the variables that the plan of its base leaves. -/
theorem plan_eq (h : (job.planner d r).plans = .ok plans) (hn : plans[n]? = some plan) :
    plan = (job.planner d r).planFrom plan.stage
      ((plan.base.bind (plans[·]?)).elim [] Plan.env) := by
  rcases planned_of_plans h hn with ⟨hbase, hplan⟩ | ⟨b, earlier, hbase, hearlier, hplan⟩
  · have hnone : plan.base = none := by
      rw [hplan]
      exact hbase
    rw [hnone]
    exact hplan
  · have hsome : plan.base = some b := by
      rw [hplan]
      exact hbase
    have hb : plans[b]? = some earlier := by
      rwa [List.getElem?_take_of_lt (base_of_plans h hn hsome)] at hearlier
    rw [hsome, Option.bind_some, hb]
    exact hplan

/-- Documents plan a stage alike if it and what it needs are in both and are planned alike in the
same variables. -/
theorem plans_congr {job' : Job} (hd : d.Numbered) (hplans : (job.planner d r).plans = .ok plans)
    (hplans' : (job'.planner d' r).plans = .ok plans')
    (hneeds : ∀ m, (dependencies plans).Needs n m → d'.stages[m]? = d.stages[m]?)
    (hfrom : ∀ m s env, (dependencies plans).Needs n m → d.stages[m]? = some s →
      (job'.planner d' r).planFrom s env = (job.planner d r).planFrom s env) :
    plans'[n]? = plans[n]? := by
  -- By induction on the number: the base of a stage is needed and stands before it.
  induction n using Nat.strong_induction_on with
  | h n ih =>
    have hstage := hneeds n Relation.ReflTransGen.refl
    cases hplan : plans[n]? with
    | none =>
      rw [List.getElem?_eq_none_iff] at hplan ⊢
      rw [length_plans hplans, ← List.getElem?_eq_none_iff, ← hstage,
        List.getElem?_eq_none_iff] at hplan
      rwa [length_plans hplans']
    | some plan =>
      have hs := stage_of_plans hplans hplan
      obtain ⟨plan', hplan', hsame⟩ := exists_plan hplans' (hstage.trans hs)
      have heq := plan_eq hplans hplan
      have heq' := plan_eq hplans' hplan'
      rw [hsame, hfrom n _ _ Relation.ReflTransGen.refl hs] at heq'
      have hbase : plan'.base = plan.base := by
        rw [heq', heq]
        rfl
      have hearlier : plan.base.bind (plans'[·]?) = plan.base.bind (plans[·]?) := by
        cases hb : plan.base with
        | none => rfl
        | some b =>
          have huse : (dependencies plans).Uses n b :=
            (uses_dependencies hd hplans).2 ⟨plan, hplan, mem_uses_of_base hb⟩
          exact ih b (base_of_plans hplans hplan hb)
            (fun m hm => hneeds m (Relation.ReflTransGen.head huse hm))
            fun m s env hm => hfrom m s env (Relation.ReflTransGen.head huse hm)
      rw [hbase, hearlier, ← heq] at heq'
      rw [hplan', heq']

/-! ### Stages -/

theorem lowerStages_congr {frame : Frame} {done : List Lowered} {order : List Nat}
    (h : ∀ n ∈ order, plans'[n]? = plans[n]?) :
    lowerStages frame plans' done order = lowerStages frame plans done order := by
  induction order generalizing done with
  | nil => rfl
  | cons n rest ih =>
    unfold lowerStages
    rw [h n List.mem_cons_self]
    cases plans[n]? with
    | none => rfl
    | some plan =>
      exact Traced.bind_congr fun _ _ => ih fun m hm => h m (List.mem_cons_of_mem n hm)

theorem filter_eq_nil_of_getElem? {α : Type} {p : α → Bool} {l : List α}
    (h : ∀ n : Nat, l[n]?.filter p = none) : l.filter p = [] := by
  rw [List.filter_eq_nil_iff]
  intro a ha
  obtain ⟨n, hn⟩ := List.mem_iff_getElem?.1 ha
  have hnone := h n
  rw [hn] at hnone
  simpa using hnone

theorem filter_eq_of_getElem? {α : Type} {p : α → Bool} {l l' : List α}
    (h : ∀ n : Nat, l'[n]?.filter p = l[n]?.filter p) : l'.filter p = l.filter p := by
  induction l generalizing l' with
  | nil => exact filter_eq_nil_of_getElem? h
  | cons a l ih =>
    cases l' with
    | nil => exact (filter_eq_nil_of_getElem? fun n => (h n).symm).symm
    | cons a' l' =>
      have hcons : ∀ b m, (b :: m).filter p = (Option.filter p (some b)).toList ++ m.filter p := by
        intro b m
        by_cases hb : p b <;> simp [Option.filter, hb]
      have hhead : Option.filter p (some a') = Option.filter p (some a) := h 0
      rw [hcons, hcons, hhead, ih fun n => h (n + 1)]

theorem unusedArgs_congr (hd : d.Numbered) (hd' : d'.Numbered) (h : d.SameOutline d')
    {buildArgs : Table String} {order : List Nat}
    (hkept : ∀ n ∈ order, d'.stages[n]? = d.stages[n]?) :
    unusedArgs d' buildArgs order = unusedArgs d buildArgs order := by
  have hstages : d'.stages.filter (fun s => order.contains s.index) =
      d.stages.filter fun s => order.contains s.index := by
    refine filter_eq_of_getElem? fun n => ?_
    by_cases hn : n ∈ order
    · rw [hkept n hn]
    · have hnone : ∀ d : Document, d.Numbered →
          d.stages[n]?.filter (fun s => order.contains s.index) = none := by
        intro d hd
        rw [Option.filter_eq_none_iff]
        intro s hs
        rw [hd n s hs]
        simpa using hn
      rw [hnone d hd, hnone d' hd']
  unfold unusedArgs
  rw [h.preamble, hstages]

/-! ### Whole lowerings -/

theorem build_congr (hd : d.Numbered) (hd' : d'.Numbered) (h : d.SameOutline d') (hr : r.Backward)
    (hkept : ∀ n ∈ job.needed d r, d'.stages[n]? = d.stages[n]?) :
    build d' job r = build d job r := by
  have hlabels := hd.map_label_eq hd' h.names
  obtain ⟨plans, hplans⟩ : ∃ plans, (job.planner d r).plans = .ok plans := exists_plans hd hr
  obtain ⟨plans', hplans'⟩ : ∃ plans', (job.planner d' r).plans = .ok plans' := exists_plans hd' hr
  unfold build
  rw [setting_congr h.escape, metaArgs_congr h.preamble, target_congr hlabels]
  refine Traced.bind_congr fun goal hgoal => Traced.bind_congr fun metas hmetas => ?_
  rw [Traced.result_ofExcept] at hgoal
  obtain rfl : metas = job.metas d := declareMetas_ok hmetas
  have hneeded : ∀ n, (dependencies plans).Needs goal n → d'.stages[n]? = d.stages[n]? := by
    intro n hn
    apply hkept
    rw [Job.needed, hgoal, hplans]
    exact Dependencies.mem_closure.2 hn
  have hsame : ∀ n, (dependencies plans).Needs goal n → plans'[n]? = plans[n]? := fun n hn =>
    plans_congr hd hplans hplans' (fun m hm => hneeded m (hn.trans hm))
      fun _ s env _ _ => planFrom_eq hd hd' h s env
  have huses : ∀ n, (dependencies plans).Needs goal n →
      (dependencies plans').uses n = (dependencies plans).uses n := by
    intro n hn
    rw [uses_eq hd' hplans', uses_eq hd hplans, hsame n hn]
  have hlength : plans'.length = plans.length := by
    rw [length_plans hplans, length_plans hplans', ← List.length_map Stage.label, hlabels,
      List.length_map]
  rw [planner_eq h.escape h.preamble] at hplans'
  unfold Job.planner at hplans
  dsimp only
  rw [hplans, hplans']
  refine (Traced.ofExcept_ok_bind plans' _).trans (.trans ?_ (Traced.ofExcept_ok_bind plans _).symm)
  rw [Dependencies.closure_congr huses, Dependencies.order_congr huses, hlength]
  refine Traced.bind_congr fun _ _ => Traced.bind_congr fun order horder => ?_
  rw [Traced.result_ofExcept] at horder
  have hmem := (Dependencies.order_ok (mapError_eq_ok horder)).mem_iff
  rw [lowerStages_congr fun n hn => hsame n ((hmem n).1 hn),
    unusedArgs_congr hd hd' h fun n hn => hneeded n ((hmem n).1 hn)]

/-- What the target of a job does not need cannot change its outcome, neither the graph nor the
fault nor what is told on the way: so it is for documents with the same preamble, escape character
and names of stages that agree on the stages that the first one needs. -/
theorem lower_ignores_pruned (hd : d.Numbered) (hd' : d'.Numbered) (h : d.SameOutline d')
    (hkept : ∀ n ∈ job.needed d .empty, d'.stages[n]? = d.stages[n]?) :
    d'.lower job .empty = d.lower job .empty := by
  unfold Document.lower
  rw [build_congr hd hd' h Resolution.backward_empty hkept]

/-- A stage for another platform than the requested one, and in its place a stage with a required
variable that is not set and the declaration of an argument that is supplied. -/
theorem lower_ignores_pruned_conflict : ∃ d d' g, Document.parse ("FROM a AS x\nUSER u\n" ++
      "FROM --platform=linux/arm64 a AS y\nENV w=1\nUSER v\nFROM x\nUSER w\n") = .ok d ∧
    Document.parse ("FROM a AS x\nUSER u\n" ++
      "FROM x AS y\nARG w\nUSER ${v:?}\nFROM x\nUSER w\n") = .ok d' ∧
    d'.stages[1]? ≠ d.stages[1]? ∧
    Job.needed ⟨[("w", "1")], none, some ⟨"linux", some "amd64", none⟩⟩ d .empty = [0, 2] ∧
    (d.lower ⟨[("w", "1")], none, some ⟨"linux", some "amd64", none⟩⟩ .empty).result = .ok g ∧
    d'.lower ⟨[("w", "1")], none, some ⟨"linux", some "amd64", none⟩⟩ .empty =
      d.lower ⟨[("w", "1")], none, some ⟨"linux", some "amd64", none⟩⟩ .empty := by
  obtain ⟨d, d', g, _, hd, hd', hg, -, ⟨hpreamble, hescape, hnames⟩, hdiffer, hneeded, hkept⟩ :=
    exists_lowered₂
      ("FROM a AS x\nUSER u\n" ++
        "FROM --platform=linux/arm64 a AS y\nENV w=1\nUSER v\nFROM x\nUSER w\n")
      ("FROM a AS x\nUSER u\n" ++ "FROM x AS y\nARG w\nUSER ${v:?}\nFROM x\nUSER w\n")
      ⟨[("w", "1")], none, some ⟨"linux", some "amd64", none⟩⟩
      ⟨[("w", "1")], none, some ⟨"linux", some "amd64", none⟩⟩ (fun _ => .empty)
      (fun d d' _ _ => (d'.preamble = d.preamble ∧ d'.escape = d.escape ∧
        d'.stages.map Stage.name = d.stages.map Stage.name) ∧ d'.stages[1]? ≠ d.stages[1]? ∧
        Job.needed ⟨[("w", "1")], none, some ⟨"linux", some "amd64", none⟩⟩ d .empty = [0, 2] ∧
        ∀ n ∈ [0, 2], d'.stages[n]? = d.stages[n]?)
      (by decide +kernel)
  refine ⟨d, d', g, hd, hd', hdiffer, hneeded, hg, ?_⟩
  exact lower_ignores_pruned (Document.numbered_of_parse hd)
    (Document.numbered_of_parse hd') ⟨hpreamble, hescape, hnames⟩ (hneeded ▸ hkept)

end Outline

end Lower

end Dockerfile
