import Dockerfile.Proofs.Lowering.Pruning

/-!
# The scopes of planning and lowering

A stage is walked twice. The walk that plans it is silent: a required variable without a value
counts as empty there. The walk that lowers it is strict, keeps a whole configuration and stops at
such a variable. `Scope.strictWalk` says what a strict walk makes of the variables, and where a
lowering goes through, the silent walk, the strict walk and the configuration agree at every
position of every stage (`planning_sees_lowering`).
-/

namespace Dockerfile.Lower

/-! ### Strict walks -/

/-- The text of a phrase whose required variables must have a value. -/
def Phrase.strict (escape : Char) (lookup : Template.Lookup) (p : Phrase) :
    Except Template.Unset String :=
  (p.expand escape lookup).result.map String.ofList

namespace Scope

/-- The value of a declared argument. -/
def strictArg (s : Scope) (setting : Setting) (metas : Metas) (d : Declaration) :
    Except Template.Unset (Option String) :=
  match (setting.buildArgs.get? d.name).or (setting.platformArgs.get? d.name), d.default with
  | some value, _ => .ok (some value)
  | none, some text => some <$> (Phrase.word text).strict setting.escape s.lookup
  | none, none => .ok (metas.get? d.name).join

/-- The scope behind the declaration of an argument. -/
def strictDeclare (s : Scope) (setting : Setting) (metas : Metas) (d : Declaration) :
    Except Template.Unset Scope := do
  return { s with args := s.args.set d.name (← s.strictArg setting metas d) }

/-- The scope behind an instruction, unless a required variable has no value. -/
def strictAfter (s : Scope) (setting : Setting) (metas : Metas) :
    Body → Except Template.Unset Scope
  | .env bindings => do
    let values ← bindings.mapM fun v =>
      (v.name, ·) <$> (Phrase.word v.value).strict setting.escape s.lookup
    return { s with env := s.env.update (Table.ofList values) }
  | .arg declarations => declarations.foldlM (fun s d => s.strictDeclare setting metas d) s
  | _ => return s

/-- The scope behind some instructions, unless a required variable has no value. -/
def strictWalk (s : Scope) (setting : Setting) (metas : Metas) (instructions : List Instruction) :
    Except Template.Unset Scope :=
  instructions.foldlM (fun s i => s.strictAfter setting metas i.body) s

end Scope

theorem exists_of_report_ok {place : Place} {expansions : List Template.Expansion}
    (h : (report place expansions).result = .ok ()) {e : Template.Expansion}
    (he : e ∈ expansions) : ∃ cs, e.result = .ok cs := by
  induction expansions with
  | nil => cases he
  | cons first rest ih =>
    unfold report at h
    split at h
    · cases h
    · rename_i cs hfirst
      rcases List.mem_cons.1 he with rfl | he
      · exact ⟨cs, hfirst⟩
      · exact ih h he

theorem report_of_ok {place : Place} {expansions : List Template.Expansion}
    (h : ∀ e ∈ expansions, ∃ cs, e.result = .ok cs) :
    (report place expansions).result = .ok () := by
  induction expansions with
  | nil => rfl
  | cons first rest ih =>
    obtain ⟨cs, hcs⟩ := h first List.mem_cons_self
    rw [report, hcs]
    exact ih fun e he => h e (List.mem_cons_of_mem first he)

theorem Phrase.strict_eq {escape : Char} {lookup : Template.Lookup} {p : Phrase} {cs : List Char}
    (h : (p.expand escape lookup).result = .ok cs) :
    p.strict escape lookup = .ok (p.value escape lookup) := by
  rw [strict, value, Template.value_of_expand h, h]
  rfl

namespace Scope

variable {s : Scope} {setting : Setting} {metas : Metas} {place : Place}

theorem strictDeclare_eq {d : Declaration}
    (h : ∀ e ∈ (argPhrases setting d).map (Phrase.expand setting.escape s.lookup),
      ∃ cs, e.result = .ok cs) :
    s.strictDeclare setting metas d = .ok (s.declare setting metas d) := by
  unfold strictDeclare declare strictArg argValue
  cases hbuild : setting.buildArgs.get? d.name with
  | some value => rfl
  | none =>
    cases hplatform : setting.platformArgs.get? d.name with
    | some value => rfl
    | none =>
      cases hdefault : d.default with
      | none => rfl
      | some text =>
        obtain ⟨cs, hcs⟩ := h ((Phrase.word text).expand setting.escape s.lookup) (by
          simp [argPhrases, Table.has, hbuild, hplatform, hdefault, Phrase.optional])
        simp only [Option.or, Phrase.strict_eq hcs]
        rfl

theorem strictAfter_arg {declarations : List Declaration}
    (h : ∀ e ∈ argExpansions setting metas s declarations, ∃ cs, e.result = .ok cs) :
    s.strictAfter setting metas (.arg declarations) =
      .ok (s.after setting metas (.arg declarations)) := by
  simp only [strictAfter, after]
  induction declarations generalizing s with
  | nil => rfl
  | cons d rest ih =>
    rw [List.foldlM_cons, strictDeclare_eq fun e he => h e (List.mem_append_left _ he)]
    exact ih fun e he => h e (List.mem_append_right _ he)

theorem strictAfter_env {bindings : List Binding}
    (h : ∀ v ∈ bindings, ∃ cs,
      ((Phrase.word v.value).expand setting.escape s.lookup).result = .ok cs) :
    s.strictAfter setting metas (.env bindings) = .ok (s.after setting metas (.env bindings)) := by
  have hvalues : (bindings.mapM fun v =>
      (v.name, ·) <$> (Phrase.word v.value).strict setting.escape s.lookup) =
      .ok (bindings.map fun v => (v.name, s.word setting v.value)) := by
    induction bindings with
    | nil => rfl
    | cons v rest ih =>
      obtain ⟨cs, hcs⟩ := h v List.mem_cons_self
      rw [List.mapM_cons, ih fun w hw => h w (List.mem_cons_of_mem v hw), Phrase.strict_eq hcs]
      rfl
  show (_ >>= _ : Except _ _) = _
  rw [hvalues]
  rfl

/-- Where the expansions of an instruction go through, the strict scope behind it is the silent
one. -/
theorem strictAfter_eq {body : Body}
    (h : (report place (s.expansions setting metas body)).result = .ok ()) :
    s.strictAfter setting metas body = .ok (s.after setting metas body) := by
  cases body with
  | env bindings =>
    refine strictAfter_env fun v hv => exists_of_report_ok h ?_
    exact List.mem_map_of_mem (List.mem_map.2 ⟨v, hv, rfl⟩)
  | arg declarations => exact strictAfter_arg fun e he => exists_of_report_ok h he
  | _ => rfl

theorem env_after_arg (declarations : List Declaration) :
    (s.after setting metas (.arg declarations)).env = s.env := by
  show (declarations.foldl _ s).env = s.env
  induction declarations generalizing s with
  | nil => rfl
  | cons d rest ih => exact ih

end Scope

/-! ### Walks -/

namespace StageFrame

variable {f : StageFrame} {start p q : Progress} {n : Nat} {i : Instruction}
  {instructions : List Instruction}

/-- The configuration keeps the variables of the scope. -/
theorem scope_of_step (h : f.Step p n i q) :
    q.scope = p.scope.after f.frame.setting f.frame.metas i.body := by
  obtain ⟨position, body⟩ := i
  cases h with
  | pass htask =>
    show Scope.mk p.config.env (p.scope.after f.frame.setting f.frame.metas body).args = _
    cases body with
    | arg declarations =>
      rw [← show (p.scope.after f.frame.setting f.frame.metas (.arg declarations)).env =
        p.config.env from Scope.env_after_arg declarations]
    | base base => rfl
    | _ => cases htask
  | make task keys htask hkeys =>
    show Scope.mk (configAfter p.config task).env
      (p.scope.after f.frame.setting f.frame.metas body).args = _
    cases body <;> cases htask <;> rfl

/-- The walk that lowers a stage has the scope of a silent walk. -/
theorem Walked.scope_eq (h : f.Walked start instructions p) : p.scope =
    instructions.foldl (fun s i => s.after f.frame.setting f.frame.metas i.body) start.scope := by
  induction h with
  | nil => rfl
  | concat before step ih =>
    rw [List.foldl_append, ← ih]
    exact scope_of_step (lowerInstruction_ok step).2.2

/-- The walk that lowers a stage has the scope of a strict walk. -/
theorem Walked.strictWalk_eq (h : f.Walked start instructions p) :
    start.scope.strictWalk f.frame.setting f.frame.metas instructions = .ok p.scope := by
  induction h with
  | nil => rfl
  | @concat instructions p q i before step ih =>
    obtain ⟨hreport, -, hstep⟩ := lowerInstruction_ok step
    have hone : p.scope.strictWalk f.frame.setting f.frame.metas [i] = .ok q.scope := by
      rw [Scope.strictWalk, List.foldlM_cons, Scope.strictAfter_eq hreport, scope_of_step hstep]
      rfl
    unfold Scope.strictWalk at ih ⊢
    rw [List.foldlM_append, ih]
    exact hone

end StageFrame

/-! ### Stages -/

/-- The variables that the plan of a stage starts from: those that the plan of its base leaves. -/
def Plan.inherited (plan : Plan) (plans : List Plan) : Table String :=
  (plan.base.bind (plans[·]?)).elim [] Plan.env

namespace Started

variable {d : Document} {job : Job} {r : Resolution} {plans : List Plan} {plan : Plan}
  {order : List Nat} {done : List Lowered} {l : Lowered}

section

variable (s : Started d job r plans order done) (hd : d.Numbered)

include s hd

theorem exists_plan (hl : l ∈ done) : ∃ plan, plans[l.graph.index]? = some plan := by
  obtain ⟨before, earlier, plan, -, hplan, -⟩ := (s.each hd).mem hl
  exact ⟨plan, hplan⟩

/-- A stage starts where its plan starts, if earlier stages end where their plans end. -/
theorem scope_start
    (henv : ∀ l ∈ done, ∀ plan, plans[l.graph.index]? = some plan → l.graph.config.env = plan.env)
    (huses : ∀ m ∈ plan.uses, m ∈ order) :
    (Progress.start (baseIn? done plan)).scope = ⟨plan.inherited plans, []⟩ := by
  cases hb : plan.base with
  | none => simp [Progress.start, Progress.scope, Plan.inherited, baseIn?, hb, Config.initial]
  | some b =>
    obtain ⟨l, hl, rfl, hbase⟩ := s.exists_baseIn? hd huses hb
    obtain ⟨earlier, hearlier⟩ := s.exists_plan hd hl
    simp [Progress.start, Progress.scope, Plan.inherited, hb, hbase, hearlier,
      henv l hl earlier hearlier]

/-- A lowered stage leaves the variables that its plan leaves. -/
theorem env_eq (hl : l ∈ done) (hplan : plans[l.graph.index]? = some plan) :
    l.graph.config.env = plan.env := by
  -- By induction on what is lowered: the base of a stage is lowered before it.
  induction hlen : done.length using Nat.strong_induction_on generalizing order done l plan with
  | h len ih =>
    obtain ⟨before, after, hsplit⟩ := List.append_of_mem hl
    obtain ⟨earlier, plan', s₀, hplan', huses, hstep⟩ := s.lowered hd before l after hsplit
    obtain rfl : plan = plan' := Option.some.inj (hplan.symm.trans hplan')
    have hlt : before.length < len := by
      rw [← hlen, hsplit, List.length_append, List.length_cons]
      omega
    have hstart : (Progress.start (baseIn? before plan)).scope = ⟨plan.inherited plans, []⟩ :=
      s₀.scope_start hd (fun k hk other hother => ih before.length hlt s₀ hk hother rfl) huses
    obtain ⟨platform, p, -, hw, rfl⟩ := lowerStage_ok hstep
    have hscope := hw.scope_eq
    rw [hstart] at hscope
    have heq := plan_eq s.plans_eq hplan
    calc
      p.config.env = p.scope.env := rfl
      _ = ((job.planner d r).planFrom plan.stage (plan.inherited plans)).env := by rw [hscope]; rfl
      _ = plan.env := (congrArg Plan.env heq).symm

end

end Started

/-! ### Whole runs -/

/-- The walk that lowers stage `n` of a graph, behind the instructions before a position. -/
inductive WalkAt (d : Document) (job : Job) (r : Resolution) (g : Graph) (n position : Nat)
    (p : Progress) : Prop
  | intro (plans : List Plan) (order : List Nat) (done before after : List Lowered) (l : Lowered)
    (plan : Plan) (platform : Option String) (run : Run d job r g plans order done)
    (split : done = before ++ l :: after) (index : l.graph.index = n)
    (planned : plans[n]? = some plan)
    (onPlatform : stagePlatform (job.frame d).platform
      (plan.stage.base.platform.map (job.frame d).value) (baseIn? before plan)
      (basePlace plan.stage) = .ok platform)
    (walked : ((stageFrame (job.frame d) before plan platform).lowerFrom
      (.start (baseIn? before plan)) 0 (plan.stage.instructions.take position)).result = .ok p)

/-- The silent walk that plans a stage from the variables of its base, and the walk that lowers the
stage, agree. -/
structure SameScopes (p : Planner) (plan : Plan) (inherited : Table String) (s : StageGraph)
    (walk : Nat → Progress → Prop) : Prop where
  planned : plan = p.planFrom plan.stage inherited
  /-- The walk that lowers the stage gets to every position. -/
  reached : ∀ position ≤ plan.stage.instructions.length, ∃ q, walk position q
  lookup : ∀ position q, walk position q → q.scope.lookup =
    (p.scopeAfter ⟨inherited, []⟩ (plan.stage.instructions.take position)).lookup
  /-- No required variable that the silent walk takes for empty lacks a value. -/
  strict : ∀ position q, walk position q →
    Scope.strictWalk ⟨inherited, []⟩ p.setting p.metas (plan.stage.instructions.take position) =
      .ok q.scope
  /-- A reference is settled by the text that it has where the stage is lowered. -/
  references : ∀ position q i slot text, walk position q →
    plan.stage.instructions[position]? = some i → (slot, text) ∈ Planner.origins i.body →
      ((position, slot), p.reference plan.stage position slot (q.scope.word p.setting text)) ∈
        plan.references
  env : s.config.env = plan.env
  image : (Phrase.word plan.stage.base.image).strict p.setting.escape
    (p.setting.globalLookup p.metas) = .ok (p.image plan.stage)
  baseStage : s.baseStage = p.base? plan.stage
  baseImage : s.baseImage = if s.baseStage.isSome then p.image plan.stage
    else Image.normalize (p.image plan.stage)

namespace WalkAt

variable {d : Document} {job : Job} {r : Resolution} {g : Graph} {n position : Nat} {p : Progress}
  {plans : List Plan} {plan : Plan}

section

variable (h : WalkAt d job r g n position p) (hd : d.Numbered)
  (hplans : (job.planner d r).plans = .ok plans)

include h hd hplans

/-- The walk that lowers a stage starts from what the plan of the stage starts from. -/
theorem exists_walked (hplan : plans[n]? = some plan) :
    ∃ f : StageFrame, f.frame = job.frame d ∧ ∃ start : Progress,
      start.scope = ⟨plan.inherited plans, []⟩ ∧
      f.Walked start (plan.stage.instructions.take position) p := by
  obtain ⟨plans', order, done, before, after, l, plan', platform, run, hsplit, rfl, hplan', -,
    hwalk⟩ := h
  obtain rfl : plans' = plans := Except.ok.inj (run.plans_eq.symm.trans hplans)
  obtain rfl : plan' = plan := Option.some.inj (hplan'.symm.trans hplan)
  obtain ⟨earlier, plan'', s, hplan'', huses, -⟩ := run.started.lowered hd before l after hsplit
  obtain rfl : plan'' = plan' := Option.some.inj (hplan''.symm.trans hplan')
  refine ⟨_, rfl, _, ?_, StageFrame.lowerFrom_ok .nil hwalk⟩
  exact s.scope_start hd (fun k hk other hother => s.env_eq hd hk hother) huses

theorem scope_eq (hplan : plans[n]? = some plan) :
    p.scope = (job.planner d r).scopeAfter ⟨plan.inherited plans, []⟩
      (plan.stage.instructions.take position) := by
  obtain ⟨f, hf, start, hstart, hw⟩ := h.exists_walked hd hplans hplan
  rw [hw.scope_eq, hstart, hf]
  rfl

theorem strictWalk_eq (hplan : plans[n]? = some plan) :
    Scope.strictWalk ⟨plan.inherited plans, []⟩ (job.setting d) (job.metas d)
      (plan.stage.instructions.take position) = .ok p.scope := by
  obtain ⟨f, hf, start, hstart, hw⟩ := h.exists_walked hd hplans hplan
  have hstrict := hw.strictWalk_eq
  rw [hstart, hf] at hstrict
  exact hstrict

end

end WalkAt

/-- Where a lowering goes through, every stage of the graph is planned with the variables that it is
lowered with: the silent walk of its plan and the walk that lowers it look up the same values at
every position, end with the same variables in the same order, and choose the base of the stage by
the same image. -/
theorem planning_sees_lowering {d : Document} {job : Job} {r : Resolution} {g : Graph}
    {s : StageGraph} (hd : d.Parsed) (h : (d.lower job r).result = .ok g) (hs : s ∈ g.stages) :
    ∃ plans plan, (job.planner d r).plans = .ok plans ∧ plans[s.index]? = some plan ∧
      d.stages[s.index]? = some plan.stage ∧
      SameScopes (job.planner d r) plan (plan.inherited plans) s (WalkAt d job r g s.index) := by
  obtain ⟨plans, order, done, run⟩ := lower_ok h
  have hn := hd.numbered
  obtain ⟨l, hl, rfl⟩ := run.mem_stages.1 hs
  obtain ⟨before, after, hsplit⟩ := List.append_of_mem hl
  obtain ⟨earlier, plan, hstarted, hplan, huses, hlower⟩ :=
    run.started.lowered hn before l after hsplit
  obtain ⟨hreport, platform, q, hplatform, hwalk, heq⟩ := lowerStage_eq_ok.1 hlower
  have hplanned : plan = (job.planner d r).planFrom plan.stage (plan.inherited plans) :=
    plan_eq run.plans_eq hplan
  have hbase : plan.base = (job.planner d r).base? plan.stage := congrArg Plan.base hplanned
  have hstage : l.graph.baseStage = plan.base := (loweredAfter hlower).baseStage
  refine ⟨plans, plan, run.plans_eq, hplan, stage_of_plans run.plans_eq hplan, {
    planned := hplanned
    reached := fun position _ => ?_
    lookup := fun position p hp => by rw [hp.scope_eq hn run.plans_eq hplan]
    strict := fun position p hp => hp.strictWalk_eq hn run.plans_eq hplan
    references := fun position p i slot text hp hi ho => ?_
    env := run.started.env_eq hn hl hplan
    image := ?_
    baseStage := hstage.trans hbase
    baseImage := ?_ }⟩
  · rw [← List.take_append_drop position plan.stage.instructions] at hwalk
    obtain ⟨p, hp, -⟩ := StageFrame.lowerFrom_append_ok hwalk
    exact ⟨p, plans, order, done, before, after, l, plan, platform, run, hsplit, rfl, hplan,
      hplatform, hp⟩
  · rw [congrArg Plan.references hplanned]
    refine Planner.mem_references.2 ⟨position, i, slot, text, hi, ho, ?_⟩
    rw [hp.scope_eq hn run.plans_eq hplan, Nat.zero_add]
  · obtain ⟨cs, hcs⟩ := exists_of_report_ok hreport
      (List.mem_map_of_mem (List.mem_cons_self (l := (basePhrases plan.stage.base).tail)))
    exact Phrase.strict_eq hcs
  · have hvalue : (job.frame d).value plan.stage.base.image =
        (job.planner d r).image plan.stage := rfl
    have hroot : l.graph.baseImage = if (baseIn? before plan).isSome
        then (job.frame d).value plan.stage.base.image else (job.frame d).root before plan := by
      rw [heq]
      rfl
    rw [hroot, hvalue, hstage, Frame.root]
    cases hb : plan.base with
    | none => simp [baseIn?, hb, hvalue]
    | some b =>
      obtain ⟨base, -, -, hfound⟩ := hstarted.exists_baseIn? hn huses hb
      simp [hfound]

/-- A stage that redeclares a variable of its base, which an argument names. -/
theorem planning_sees_lowering_inherited : ∃ d g s, Document.parse
      ("ARG X=one\nFROM a AS one\nENV A=1 B=2\nFROM ${X:?none}\nARG A=8\n" ++
        "ARG C=${B:?none}\nENV B=$A D=$C\nRUN $D\n") = .ok d ∧
    (d.lower ⟨[], none, none⟩ .empty).result = .ok g ∧ s ∈ g.stages ∧
    s.config.env = [("A", "1"), ("B", "1"), ("D", "2")] ∧
    ∃ plans plan, (Job.planner ⟨[], none, none⟩ d .empty).plans = .ok plans ∧
      plans[s.index]? = some plan ∧ d.stages[s.index]? = some plan.stage ∧
      SameScopes (Job.planner ⟨[], none, none⟩ d .empty) plan (plan.inherited plans) s
        (WalkAt d ⟨[], none, none⟩ .empty g s.index) := by
  obtain ⟨d, g, hd, hg, s, hs, henv⟩ := exists_lowered_with
    ("ARG X=one\nFROM a AS one\nENV A=1 B=2\nFROM ${X:?none}\nARG A=8\n" ++
      "ARG C=${B:?none}\nENV B=$A D=$C\nRUN $D\n") ⟨[], none, none⟩ (fun _ => .empty)
    (fun _ g => ∃ s ∈ g.stages, s.config.env = [("A", "1"), ("B", "1"), ("D", "2")])
    (by decide +kernel)
  exact ⟨d, g, s, hd, hg, hs, henv, planning_sees_lowering (.inl ⟨_, hd⟩) hg hs⟩

end Dockerfile.Lower
