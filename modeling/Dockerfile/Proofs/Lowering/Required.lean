import Dockerfile.Proofs.Lowering.Faults
import Dockerfile.Proofs.Lowering.Variables
import Dockerfile.Proofs.Template

/-!
# Required variables

`Planner.Expands` says which texts are expanded at which places of a document, each with the
variables of its place. A lowering goes through only if all references to required variables that
these expansions get to are met, and where one of them is not met the document is refused
(`lower_enforces_required`). The stage or image that a `COPY` or a mount takes files from is settled
by the silent walk that plans the stage and is not among these texts: a required variable without a
value is empty there (`origin_not_enforced`).
-/

namespace Dockerfile.Lower

/-! ### Texts with their variables -/

/-- A text that is expanded, and the variables that it is expanded with. -/
structure Occurrence where
  lookup : Template.Lookup
  phrase : Phrase

namespace Occurrence

/-- The strict expansion of the text. -/
def expansion (escape : Char) (o : Occurrence) : Template.Expansion :=
  o.phrase.expand escape o.lookup

/-- The references to required variables that the expansion of the text gets to. -/
def demands (escape : Char) (o : Occurrence) : List Template.Demand :=
  (o.phrase.template escape).demands o.lookup

/-- The required variables of a text have values. -/
structure Enforced (escape : Char) (o : Occurrence) : Prop where
  met : ∀ demand ∈ o.demands escape, demand.isMet o.lookup
  /-- That is so for every reference that is written outside single quotes. -/
  written : ∀ before name modifier word after quote orEmpty,
    o.phrase.text.toList = before ++ '$' :: '\x7b' :: (name ++ (modifier ++ word) ++
      '\x7d' :: after) →
    Template.quoteAfter escape .none before = some quote → quote ≠ .single →
    name.all Template.isNameChar → Template.IsRequirement modifier orEmpty →
    Template.splitBrace? 0 (name ++ (modifier ++ word) ++ ['\x7d']) =
      some (name ++ (modifier ++ word), []) →
    Template.isAbsent orEmpty (o.lookup (String.ofList name)) = false

variable {escape : Char} {o : Occurrence}

theorem enforced (hescape : Template.IsEscape escape)
    (h : ∀ demand ∈ o.demands escape, demand.isMet o.lookup) : o.Enforced escape where
  met := h
  written := by
    intro before name modifier word after quote orEmpty htext hbefore hquote hname hmodifier hclosed
    have hmem := Template.mem_demands_read o.phrase.mode hescape hbefore hquote hname hmodifier
      hclosed after o.lookup
    rw [← htext] at hmem
    simpa [Template.Demand.isMet] using h _ hmem

theorem result_expansion (escape : Char) (o : Occurrence) : (o.expansion escape).result =
    Template.enforce o.lookup (o.demands escape) ((o.phrase.template escape).value o.lookup) :=
  Template.result_expand o.lookup _

end Occurrence

/-- The texts of declarations before the first stage. -/
def Setting.metaOccurrences (s : Setting) (metas : Metas) : List Declaration → List Occurrence
  | [] => []
  | d :: rest =>
    (s.metaPhrases d).map (Occurrence.mk (s.globalLookup metas)) ++
      s.metaOccurrences (s.declareMeta metas d) rest

theorem Setting.map_metaOccurrences (s : Setting) (metas : Metas) (ds : List Declaration) :
    (s.metaOccurrences metas ds).map (·.expansion s.escape) = s.metaExpansions metas ds := by
  induction ds generalizing metas with
  | nil => rfl
  | cons d rest ih =>
    rw [metaOccurrences, List.map_append, List.map_map, ih]
    rfl

/-- The texts of a `FROM`. -/
def Setting.baseOccurrences (s : Setting) (metas : Metas) (base : Base) : List Occurrence :=
  (basePhrases base).map (Occurrence.mk (s.globalLookup metas))

namespace Scope

/-- The texts of the declarations of arguments, each in a scope of its own. -/
def argOccurrences (setting : Setting) (metas : Metas) (s : Scope) :
    List Declaration → List Occurrence
  | [] => []
  | d :: rest =>
    (argPhrases setting d).map (Occurrence.mk s.lookup) ++
      argOccurrences setting metas (s.declare setting metas d) rest

/-- The texts of an instruction. -/
def occurrences (s : Scope) (setting : Setting) (metas : Metas) : Body → List Occurrence
  | .arg declarations => argOccurrences setting metas s declarations
  | body => (phrases body).map (Occurrence.mk s.lookup)

theorem map_argOccurrences (s : Scope) (setting : Setting) (metas : Metas)
    (ds : List Declaration) : (argOccurrences setting metas s ds).map
      (·.expansion setting.escape) = argExpansions setting metas s ds := by
  induction ds generalizing s with
  | nil => rfl
  | cons d rest ih =>
    rw [argOccurrences, List.map_append, List.map_map, ih]
    rfl

theorem map_occurrences (s : Scope) (setting : Setting) (metas : Metas) (body : Body) :
    (s.occurrences setting metas body).map (·.expansion setting.escape) =
      s.expansions setting metas body := by
  cases body with
  | arg declarations => exact map_argOccurrences s setting metas declarations
  | _ => exact List.map_map

end Scope

/-! ### Reports -/

variable {place : Place} {os : List Occurrence}

theorem met_of_report {escape : Char}
    (h : (report place (os.map (·.expansion escape))).result = .ok ()) {o : Occurrence}
    (ho : o ∈ os) : ∀ demand ∈ o.demands escape, demand.isMet o.lookup := by
  obtain ⟨cs, hcs⟩ := exists_of_report_ok h (List.mem_map_of_mem ho)
  rw [o.result_expansion] at hcs
  exact Template.enforce_eq_ok hcs

/-- A report that fails tells of a demand that is not met. -/
theorem unmet_of_report {escape : Char} {fault : Fault}
    (h : (report place (os.map (·.expansion escape))).result = .error fault) :
    ∃ o ∈ os, ∃ demand ∈ o.demands escape, demand.isMet o.lookup = false ∧
      fault = .required demand.unset place := by
  induction os with
  | nil => cases h
  | cons o rest ih =>
    rw [List.map_cons] at h
    unfold report at h
    split at h
    · rename_i unset hunset
      cases h
      rw [o.result_expansion] at hunset
      obtain ⟨demand, hdemand, hunmet, rfl⟩ := Template.enforce_eq_error hunset
      exact ⟨o, List.mem_cons_self, demand, hdemand, hunmet, rfl⟩
    · obtain ⟨o', ho', hrest⟩ := ih h
      exact ⟨o', List.mem_cons_of_mem o ho', hrest⟩

/-! ### Documents -/

/-- The texts that are expanded at a place, before the first stage or in one of some stages. -/
inductive Planner.Expands (p : Planner) (stages : List Nat) : Place → List Occurrence → Prop where
  /-- The declarations of an `ARG` before the first stage, with what is declared before it. -/
  | preamble {k : Nat} {position : Position} {declarations : List Declaration}
    (hk : p.document.metaArgs[k]? = some (position, declarations)) :
    Expands p stages ⟨none, .arg, position⟩
      (p.setting.metaOccurrences (p.setting.metasAfter [] (p.document.metaArgs.take k))
        declarations)
  /-- The `FROM` of a stage. -/
  | base {n : Nat} {s : Stage} (hn : n ∈ stages) (hs : p.document.stages[n]? = some s) :
    Expands p stages (basePlace s) (p.setting.baseOccurrences p.metas s.base)
  /-- An instruction of a stage, in the scope of its position. -/
  | instruction {n position : Nat} {s : Stage} {i : Instruction} {scope : Scope} (hn : n ∈ stages)
    (hs : p.document.stages[n]? = some s) (hi : s.instructions[position]? = some i)
    (hscope : p.ScopeAt s position scope) :
    Expands p stages ⟨some (s.index, s.name), i.kind, i.position⟩
      (scope.occurrences p.setting p.metas i.body)

section Preamble

variable {s : Setting} {metas : Metas} {args : List (Position × List Declaration)}

theorem report_of_declareMetas {all : Metas} (h : (declareMetas s metas args).result = .ok all)
    {k : Nat} {position : Position} {declarations : List Declaration}
    (hk : args[k]? = some (position, declarations)) :
    (report ⟨none, .arg, position⟩
      (s.metaExpansions (s.metasAfter metas (args.take k)) declarations)).result = .ok () := by
  induction args generalizing metas k with
  | nil => cases hk
  | cons arg rest ih =>
    obtain ⟨_, hreport, h⟩ := Traced.bind_eq_ok.1 h
    cases k with
    | zero =>
      cases hk
      exact hreport
    | succ k => exact ih h hk

theorem exists_of_declareMetas_error {fault : Fault}
    (h : (declareMetas s metas args).result = .error fault) :
    ∃ k position declarations, args[k]? = some (position, declarations) ∧
      (report ⟨none, .arg, position⟩
        (s.metaExpansions (s.metasAfter metas (args.take k)) declarations)).result =
        .error fault := by
  induction args generalizing metas with
  | nil => cases h
  | cons arg rest ih =>
    rcases Traced.bind_eq_error.1 h with h | ⟨_, -, h⟩
    · exact ⟨0, arg.1, arg.2, rfl, h⟩
    · obtain ⟨k, position, declarations, hk, hreport⟩ := ih h
      exact ⟨k + 1, position, declarations, hk, hreport⟩

end Preamble

variable {d : Document} {job : Job} {r : Resolution} {g : Graph} {plans : List Plan} {plan : Plan}
  {order : List Nat} {done : List Lowered} {n : Nat} {fault : Fault}

theorem exists_declareMetas (h : (d.lower job r).result = .ok g) :
    ∃ all, (declareMetas (job.setting d) [] d.metaArgs).result = .ok all := by
  simp only [Document.lower] at h
  cases hbuild : (build d job r).result with
  | error fault =>
    rw [hbuild] at h
    cases h
  | ok g' =>
    unfold build at hbuild
    obtain ⟨goal, -, hbuild⟩ := Traced.bind_eq_ok.1 hbuild
    obtain ⟨all, hall, -⟩ := Traced.bind_eq_ok.1 hbuild
    exact ⟨all, hall⟩

/-- A walk over the first instructions of a stage is in the scope of its position. -/
theorem Started.scopeAt (s : Started d job r plans order done) (hd : d.Numbered)
    (hplan : plans[n]? = some plan) (huses : ∀ m ∈ plan.uses, m ∈ order) {platform : Option String}
    {front back : List Instruction} {p : Progress}
    (hsplit : plan.stage.instructions = front ++ back)
    (hw : (stageFrame (job.frame d) done plan platform).Walked (.start (baseIn? done plan)) front
      p) :
    (job.planner d r).ScopeAt plan.stage front.length p.scope := by
  have hstart : (Progress.start (baseIn? done plan)).scope = ⟨plan.inherited plans, []⟩ :=
    s.scope_start hd (fun k hk other hother => s.env_eq hd hk hother) huses
  refine ⟨plan.inherited plans, inherits_inherited s.plans_eq hplan, ?_⟩
  rw [hw.scope_eq, hstart, hsplit, List.take_left]
  rfl

theorem Planner.ScopeAt.unique {p : Planner} {s : Stage} {position : Nat} {scope scope' : Scope}
    (h : p.ScopeAt s position scope) (h' : p.ScopeAt s position scope') : scope = scope' := by
  obtain ⟨env, henv, rfl⟩ := h
  obtain ⟨env', henv', rfl⟩ := h'
  rw [henv.unique henv']

/-- All texts that are expanded for a graph are expanded without a fault. -/
theorem report_of_lower (hd : d.Numbered) (h : (d.lower job r).result = .ok g)
    (hos : (job.planner d r).Expands (g.stages.map StageGraph.index) place os) :
    (report place (os.map (·.expansion d.escape))).result = .ok () := by
  obtain ⟨plans, order, done, run⟩ := lower_ok h
  have hlowered : ∀ n ∈ g.stages.map StageGraph.index, ∃ earlier before plan l,
      Started d job r plans earlier before ∧ plans[n]? = some plan ∧
      (∀ m ∈ plan.uses, m ∈ earlier) ∧ (lowerStage (job.frame d) before plan).result = .ok l := by
    intro n hn
    obtain ⟨graph, hgraph, rfl⟩ := List.mem_map.1 hn
    obtain ⟨l, hl, rfl⟩ := run.mem_stages.1 hgraph
    obtain ⟨before, after, hsplit⟩ := List.append_of_mem hl
    obtain ⟨earlier, plan, hs, hplan, huses, hlower⟩ := run.started.lowered hd before l after hsplit
    exact ⟨earlier, before, plan, l, hs, hplan, huses, hlower⟩
  cases hos with
  | preamble hk =>
    obtain ⟨all, hall⟩ := exists_declareMetas h
    have hreport := report_of_declareMetas hall hk
    rw [← Setting.map_metaOccurrences] at hreport
    exact hreport
  | base hn hs =>
    obtain ⟨earlier, before, plan, l, -, hplan, -, hlower⟩ := hlowered _ hn
    obtain rfl := Option.some.inj ((stage_of_plans run.plans_eq hplan).symm.trans hs)
    rw [Setting.baseOccurrences, List.map_map]
    exact (lowerStage_eq_ok.1 hlower).1
  | @instruction n position s i scope hn hs hi hscope =>
    obtain ⟨earlier, before, plan, l, hstarted, hplan, huses, hlower⟩ := hlowered _ hn
    obtain rfl := Option.some.inj ((stage_of_plans run.plans_eq hplan).symm.trans hs)
    obtain ⟨-, platform, q, -, hwalk, -⟩ := lowerStage_eq_ok.1 hlower
    have hsplit := List.take_append_drop position plan.stage.instructions
    rw [← hsplit] at hwalk
    obtain ⟨p, hfront, hback⟩ := StageFrame.lowerFrom_append_ok hwalk
    obtain ⟨hlt, rfl⟩ := List.getElem?_eq_some_iff.1 hi
    rw [List.drop_eq_getElem_cons hlt] at hback
    obtain ⟨p', hstep, -⟩ := Traced.bind_eq_ok.1 hback
    have hp := hstarted.scopeAt hd hplan huses hsplit.symm (StageFrame.lowerFrom_ok .nil hfront)
    rw [List.length_take_of_le hlt.le] at hp
    rw [hscope.unique hp]
    have hreport := (StageFrame.lowerInstruction_ok hstep).1
    rw [← Scope.map_occurrences] at hreport
    exact hreport

/-- A lowering that stops at a required variable does so at a place of the preamble or of a stage
that the target needs. -/
theorem exists_report_of_build_error (hd : d.Numbered) (hr : r.Backward) {goal : Nat}
    (hgoal : target d job.target = .ok goal) {unset : Template.Unset}
    (h : (build d job r).result = .error (.required unset place)) :
    ∃ os, (job.planner d r).Expands (job.needed d r) place os ∧
      (report place (os.map (·.expansion d.escape))).result = .error (.required unset place) := by
  -- A report fails with its own place, so it is enough to find one that fails.
  have hplace : ∀ at' os, (job.planner d r).Expands (job.needed d r) at' os →
      (report at' (os.map (·.expansion d.escape))).result = .error (.required unset place) →
      ∃ os, (job.planner d r).Expands (job.needed d r) place os ∧
        (report place (os.map (·.expansion d.escape))).result = .error (.required unset place) := by
    intro at' os hos hreport
    obtain ⟨unset', hfault⟩ := report_error hreport
    cases hfault
    exact ⟨os, hos, hreport⟩
  rcases exists_of_build_error hd hr hgoal h with
    h | ⟨plans, before, n, done, plan, hneeds, -, hs, hplan, huses, h⟩
  · obtain ⟨k, position, declarations, hk, hreport⟩ := exists_of_declareMetas_error h
    rw [← Setting.map_metaOccurrences] at hreport
    exact hplace _ _ (.preamble hk) hreport
  have hn : n ∈ job.needed d r := by
    rw [Job.needed, hgoal, hs.plans_eq]
    exact Dependencies.mem_closure.2 hneeds
  have hstage := stage_of_plans hs.plans_eq hplan
  rcases lowerStage_error h with h | h | h
  · refine hplace _ _ (.base hn hstage) ?_
    rw [Setting.baseOccurrences, List.map_map]
    exact h
  · obtain ⟨own, platform, -, -, -, hfault⟩ := stagePlatform_error h
    cases hfault
  · obtain ⟨platform, front, i, back, p, hsplit, hw, hi⟩ := h
    have hget : plan.stage.instructions[front.length]? = some i := by simp [hsplit]
    have hreport := report_of_lowerInstruction_error hs hd huses hw hi
    rw [← Scope.map_occurrences] at hreport
    exact hplace _ _ (.instruction hn hstage hget (hs.scopeAt hd hplan huses hsplit hw)) hreport

theorem Planner.Expands.mono {p : Planner} {stages more : List Nat} (h : p.Expands stages place os)
    (hmore : ∀ n ∈ stages, n ∈ more) : p.Expands more place os := by
  cases h with
  | preamble hk => exact .preamble hk
  | base hn hs => exact .base (hmore _ hn) hs
  | instruction hn hs hi hscope => exact .instruction (hmore _ hn) hs hi hscope

/-- A graph keeps the stages that its target needs. -/
theorem mem_needed_iff (hd : d.Numbered) (h : (d.lower job r).result = .ok g) {n : Nat} :
    n ∈ job.needed d r ↔ n ∈ g.stages.map StageGraph.index := by
  obtain ⟨plans, order, done, run⟩ := lower_ok h
  rw [Job.needed, run.target, run.plans_eq, List.mem_map, run.mem_index_iff hd]
  exact Dependencies.mem_closure

/-- Required variables, in the preamble and in all stages that the target needs. If a document comes
to a graph, then everything that is required where a text is expanded has a value. If something that
is required has none, then the document is refused, because of a required variable unless a stage is
for another platform than the one that is asked for. A refusal tells of a reference that is not met,
at its place. -/
theorem lower_enforces_required (hd : d.Parsed) (hr : r.Backward) :
    (∀ g, (d.lower job r).result = .ok g → ∀ place os o,
      (job.planner d r).Expands (g.stages.map StageGraph.index) place os → o ∈ os →
        o.Enforced d.escape) ∧
    (∀ goal place os o, target d job.target = .ok goal →
      (job.planner d r).Expands (job.needed d r) place os → o ∈ os → ¬o.Enforced d.escape →
        ∃ fault, (d.lower job r).result = .error fault ∧ fault.IsStageRefusal job.platform) ∧
    ∀ unset place, (d.lower job r).result = .error (.required unset place) →
      ∃ os o demand, (job.planner d r).Expands (job.needed d r) place os ∧ o ∈ os ∧
        demand ∈ o.demands d.escape ∧ demand.isMet o.lookup = false ∧ demand.unset = unset := by
  have hmet : ∀ g, (d.lower job r).result = .ok g → ∀ place os o,
      (job.planner d r).Expands (g.stages.map StageGraph.index) place os → o ∈ os →
        o.Enforced d.escape := fun g hg place os o hos ho =>
    Occurrence.enforced hd.isEscape (met_of_report (report_of_lower hd.numbered hg hos) ho)
  refine ⟨hmet, ?_, ?_⟩
  · intro goal place os o hgoal hos ho hunmet
    cases h : (d.lower job r).result with
    | ok g =>
      have hkept := hos.mono fun n hn => (mem_needed_iff hd.numbered h).1 hn
      exact absurd (hmet g h place os o hkept ho) hunmet
    | error fault =>
      exact ⟨fault, rfl, isStageRefusal_of_build hd.numbered hr hgoal (lower_eq_error h)⟩
  · intro unset place h
    have hbuild := lower_eq_error h
    cases hgoal : target d job.target with
    | error fault =>
      obtain rfl := Except.error.inj (hbuild.symm.trans (build_of_target_error hgoal))
      rcases target_error hgoal with hother | ⟨reference, names, hother⟩ <;> cases hother
    | ok goal =>
      obtain ⟨os, hos, hreport⟩ := exists_report_of_build_error hd.numbered hr hgoal hbuild
      obtain ⟨o, ho, demand, hdemand, hunmet, hfault⟩ := unmet_of_report hreport
      cases hfault
      exact ⟨os, o, demand, hos, ho, hdemand, hunmet, rfl⟩

/-- A variable that is required in the word of another one: without a value the `USER` of the last
stage is refused, with one the stages are lowered. -/
theorem lower_enforces_required_nested : ∃ d g, Document.parse
      "FROM a AS x\nENV e=1\nFROM x\nARG z\nUSER ${e:+u${z:?no}}\n" = .ok d ∧
    (d.lower ⟨[], none, none⟩ .empty).result =
      .error (.required ⟨"z", "no"⟩ ⟨some (1, none), .user, ⟨5, 1⟩⟩) ∧
    (∃ os o demand, (Job.planner ⟨[], none, none⟩ d .empty).Expands
        (Job.needed ⟨[], none, none⟩ d .empty) ⟨some (1, none), .user, ⟨5, 1⟩⟩ os ∧ o ∈ os ∧
      demand ∈ o.demands d.escape ∧ demand.isMet o.lookup = false ∧
      demand.unset = ⟨"z", "no"⟩) ∧
    (d.lower ⟨[("z", "1")], none, none⟩ .empty).result = .ok g ∧
    g.stages.map (·.config.user) = [none, some "u1"] ∧
    ∀ place os o, (Job.planner ⟨[("z", "1")], none, none⟩ d .empty).Expands
      (g.stages.map StageGraph.index) place os → o ∈ os → o.Enforced d.escape := by
  obtain ⟨d, g, hd, hg, hfault, huser⟩ := exists_lowered_with
    "FROM a AS x\nENV e=1\nFROM x\nARG z\nUSER ${e:+u${z:?no}}\n" ⟨[("z", "1")], none, none⟩
    (fun _ => .empty)
    (fun d g => (d.lower ⟨[], none, none⟩ .empty).result.map (fun _ => ()) =
        .error (.required ⟨"z", "no"⟩ ⟨some (1, none), .user, ⟨5, 1⟩⟩) ∧
      g.stages.map (·.config.user) = [none, some "u1"])
    (by decide +kernel)
  have hparsed : d.Parsed := .inl ⟨_, hd⟩
  have hrefused : (d.lower ⟨[], none, none⟩ .empty).result =
      .error (.required ⟨"z", "no"⟩ ⟨some (1, none), .user, ⟨5, 1⟩⟩) := by
    cases h : (d.lower ⟨[], none, none⟩ .empty).result with
    | ok g =>
      rw [h] at hfault
      cases hfault
    | error fault =>
      rw [h] at hfault
      exact congrArg Except.error (Except.error.inj hfault)
  exact ⟨d, g, hd, hrefused,
    (lower_enforces_required hparsed Resolution.backward_empty).2.2 _ _ hrefused, hg, huser,
    (lower_enforces_required hparsed Resolution.backward_empty).1 g hg⟩

/-- The stage that a `COPY` takes files from is named by a required variable without a value, and
the document is lowered all the same: the files are taken from an image without a name. -/
theorem origin_not_enforced : ∃ d g stage i text scope,
    Document.parse "FROM a\nCOPY --from=${X:?need} b c\n" = .ok d ∧
    (d.lower ⟨[], none, none⟩ .empty).result = .ok g ∧
    g.operations.map Operation.task =
      [.file ⟨.copy ⟨none, some ""⟩, ["b"], "/c", none, none, false, none⟩] ∧
    d.stages[0]? = some stage ∧ stage.instructions[0]? = some i ∧
    (0, text) ∈ Planner.origins i.body ∧
    (Job.planner ⟨[], none, none⟩ d .empty).ScopeAt stage 0 scope ∧
    ¬(Occurrence.mk scope.lookup (.word text)).Enforced d.escape := by
  obtain ⟨d, g, hd, hg, htask, stage, hstage, i, hi, horigin, hbase, hescape⟩ := exists_lowered_with
    "FROM a\nCOPY --from=${X:?need} b c\n" ⟨[], none, none⟩ (fun _ => .empty)
    (fun d g => g.operations.map Operation.task =
        [.file ⟨.copy ⟨none, some ""⟩, ["b"], "/c", none, none, false, none⟩] ∧
      ∃ stage ∈ d.stages[0]?, ∃ i ∈ stage.instructions[0]?,
        (0, "${X:?need}") ∈ Planner.origins i.body ∧
        (Job.planner ⟨[], none, none⟩ d .empty).base? stage = none ∧ d.escape = '\\')
    (by decide +kernel)
  refine ⟨d, g, stage, i, _, ⟨[], []⟩, hd, hg, htask, hstage, hi, horigin,
    ⟨[], .image hbase, rfl⟩, ?_⟩
  intro henforced
  have hunmet : ⟨"X", true, "need"⟩ ∈
      (Occurrence.mk (Scope.lookup ⟨[], []⟩) (.word "${X:?need}")).demands d.escape := by
    rw [hescape]
    decide +kernel
  exact absurd (henforced.met _ hunmet) (by decide)

end Dockerfile.Lower
