import Dockerfile.Proofs.Lowering.Pruning
import Mathlib.Data.String.Basic

/-!
# Arguments that nothing declares

A supplied argument has a say only where an `ARG` declares it. Two settings that differ in the
supplied value of one name (`Setting.SameBut`) agree on everything that does not declare the name:
on the values before the first stage, on the plan of a stage and on its lowering. So an argument
that neither the preamble nor a needed stage declares, and that is none of those every file knows,
changes nothing but the list of unused arguments (`lower_ignores_undeclared`). Stages that are not
needed may declare it: their plans can change, but nothing reads them.
-/

namespace Dockerfile.Lower

/-- An instruction that does not declare an argument of a name. -/
def Omits (name : String) (body : Body) : Prop :=
  ∀ declarations, body = .arg declarations → ∀ d ∈ declarations, d.name ≠ name

theorem omits_of_not_mem {name : String} {instructions : List Instruction}
    (h : name ∉ declaredIn instructions) : ∀ i ∈ instructions, Omits name i.body := by
  rintro i hi declarations hbody d hd rfl
  refine h (List.mem_flatMap.2 ⟨i, hi, ?_⟩)
  rw [hbody]
  exact List.mem_map_of_mem hd

/-- The second setting differs from the first one at most in what is supplied for a name. -/
structure Setting.SameBut (name : String) (s s' : Setting) : Prop where
  escape : s'.escape = s.escape
  platformArgs : s'.platformArgs = s.platformArgs
  buildArgs : ∀ other, other ≠ name → s'.buildArgs.get? other = s.buildArgs.get? other

namespace Setting.SameBut

variable {name : String} {s s' : Setting} (h : s.SameBut name s')

include h

/-! ### Before the first stage -/

theorem globalLookup_eq (hglobal : name ∉ Platform.globalArgs) (metas : Metas) :
    s'.globalLookup metas = s.globalLookup metas := by
  funext other
  by_cases hother : other = name
  · subst hother
    simp [globalLookup, hglobal]
  · unfold globalLookup
    rw [h.platformArgs, h.buildArgs other hother]

theorem metaPhrases_eq {d : Declaration} (hd : d.name ≠ name) :
    s'.metaPhrases d = s.metaPhrases d := by
  unfold metaPhrases Table.has
  rw [h.buildArgs _ hd]

section

variable (hglobal : name ∉ Platform.globalArgs)

include hglobal

theorem declareMeta_eq {d : Declaration} (hd : d.name ≠ name) (metas : Metas) :
    s'.declareMeta metas d = s.declareMeta metas d := by
  unfold declareMeta metaValue
  rw [h.buildArgs _ hd, h.escape, h.globalLookup_eq hglobal]

theorem foldl_declareMeta_eq {ds : List Declaration} (hds : ∀ d ∈ ds, d.name ≠ name)
    (metas : Metas) :
    ds.foldl s'.declareMeta metas = ds.foldl s.declareMeta metas :=
  List.foldl_ext _ _ metas fun metas d hd => h.declareMeta_eq hglobal (hds d hd) metas

theorem metaExpansions_eq {ds : List Declaration} (hds : ∀ d ∈ ds, d.name ≠ name) (metas : Metas) :
    s'.metaExpansions metas ds = s.metaExpansions metas ds := by
  induction ds generalizing metas with
  | nil => rfl
  | cons d rest ih =>
    have hd := hds d List.mem_cons_self
    unfold metaExpansions
    rw [h.metaPhrases_eq hd, h.escape, h.globalLookup_eq hglobal, h.declareMeta_eq hglobal hd,
      ih fun e he => hds e (List.mem_cons_of_mem d he)]

theorem declareMetas_eq {args : List (Position × List Declaration)}
    (hargs : ∀ arg ∈ args, ∀ d ∈ arg.2, d.name ≠ name) (metas : Metas) :
    declareMetas s' metas args = declareMetas s metas args := by
  induction args generalizing metas with
  | nil => rfl
  | cons arg rest ih =>
    obtain ⟨position, ds⟩ := arg
    have hds := hargs _ List.mem_cons_self
    unfold declareMetas
    rw [h.metaExpansions_eq hglobal hds, h.foldl_declareMeta_eq hglobal hds,
      ih fun e he => hargs e (List.mem_cons_of_mem _ he)]

theorem metasAfter_eq {args : List (Position × List Declaration)}
    (hargs : ∀ arg ∈ args, ∀ d ∈ arg.2, d.name ≠ name) (metas : Metas) :
    s'.metasAfter metas args = s.metasAfter metas args :=
  List.foldl_ext _ _ metas fun metas arg harg =>
    h.foldl_declareMeta_eq hglobal (hargs arg harg) metas

end

/-! ### In a stage -/

theorem word_eq (scope : Scope) : scope.word s' = scope.word s := by
  funext text
  unfold Scope.word Scope.value
  rw [h.escape]

theorem declare_eq {d : Declaration} (hd : d.name ≠ name) (scope : Scope) (metas : Metas) :
    scope.declare s' metas d = scope.declare s metas d := by
  unfold Scope.declare Scope.argValue
  rw [h.buildArgs _ hd, h.platformArgs, h.word_eq]

theorem after_eq {body : Body} (hbody : Omits name body) (scope : Scope) (metas : Metas) :
    scope.after s' metas body = scope.after s metas body := by
  cases body with
  | env bindings =>
    unfold Scope.after Scope.envValues
    rw [h.word_eq]
  | arg ds =>
    exact List.foldl_ext _ _ scope fun scope d hd => h.declare_eq (hbody ds rfl d hd) scope metas
  | _ => rfl

theorem argExpansions_eq {ds : List Declaration} (hds : ∀ d ∈ ds, d.name ≠ name) (scope : Scope)
    (metas : Metas) :
    Scope.argExpansions s' metas scope ds = Scope.argExpansions s metas scope ds := by
  induction ds generalizing scope with
  | nil => rfl
  | cons d rest ih =>
    have hd := hds d List.mem_cons_self
    have hphrases : Scope.argPhrases s' d = Scope.argPhrases s d := by
      unfold Scope.argPhrases Table.has
      rw [h.buildArgs _ hd, h.platformArgs]
    unfold Scope.argExpansions
    rw [hphrases, h.escape, h.declare_eq hd, ih fun e he => hds e (List.mem_cons_of_mem d he)]

theorem expansions_eq {body : Body} (hbody : Omits name body) (scope : Scope) (metas : Metas) :
    scope.expansions s' metas body = scope.expansions s metas body := by
  cases body with
  | arg ds => exact h.argExpansions_eq (hbody ds rfl) scope metas
  | _ =>
    unfold Scope.expansions
    rw [h.escape]

/-- A plan of a stage that does not declare the name. -/
theorem planFrom_eq (hglobal : name ∉ Platform.globalArgs) {d : Document} {metas : Metas}
    {r : Resolution} {stage : Stage} (hstage : ∀ i ∈ stage.instructions, Omits name i.body)
    (env : Table String) : Planner.planFrom ⟨d, s', metas, r⟩ stage env =
      Planner.planFrom ⟨d, s, metas, r⟩ stage env := by
  have himage : Planner.image ⟨d, s', metas, r⟩ stage = Planner.image ⟨d, s, metas, r⟩ stage := by
    unfold Planner.image
    dsimp only
    rw [h.escape, h.globalLookup_eq hglobal]
  have hscope : ∀ scope, Planner.scopeAfter ⟨d, s', metas, r⟩ scope stage.instructions =
      Planner.scopeAfter ⟨d, s, metas, r⟩ scope stage.instructions := fun scope =>
    List.foldl_ext _ _ scope fun scope i hi => h.after_eq (hstage i hi) scope metas
  have hreferences : ∀ instructions : List Instruction, (∀ i ∈ instructions, Omits name i.body) →
      ∀ scope first, Planner.references ⟨d, s', metas, r⟩ stage scope first instructions =
        Planner.references ⟨d, s, metas, r⟩ stage scope first instructions := by
    intro instructions
    induction instructions with
    | nil => exact fun _ _ _ => rfl
    | cons i rest ih =>
      intro hrest scope first
      unfold Planner.references
      dsimp only
      rw [h.word_eq, h.after_eq (hrest i List.mem_cons_self),
        ih fun j hj => hrest j (List.mem_cons_of_mem i hj)]
      rfl
  unfold Planner.planFrom Planner.base?
  rw [himage, hscope, hreferences _ hstage]

omit h in
theorem task?_eq {t : Surroundings} (h : t.setting.SameBut name s') (body : Body) :
    { t with setting := s' }.task? body = t.task? body := by
  have hword : { t with setting := s' }.word = t.word := h.word_eq t.scope
  cases body with
  | run r =>
    have hvalue : ∀ p, t.scope.value s' p = t.scope.value t.setting p := by
      intro p
      unfold Scope.value
      rw [h.escape]
    unfold Surroundings.task? Surroundings.exec
    rw [hword]
    simp only [hvalue]
    rfl
  | copy c =>
    unfold Surroundings.task? Surroundings.copy
    rw [hword]
    rfl
  | add a =>
    unfold Surroundings.task? Surroundings.add
    rw [hword]
    rfl
  | env bindings =>
    unfold Surroundings.task? Surroundings.change? Scope.envValues
    dsimp only
    rw [h.word_eq]
  | expose ports =>
    unfold Surroundings.task? Surroundings.change? Surroundings.port
    rw [hword]
  | workdir text =>
    unfold Surroundings.task? Surroundings.change?
    rw [hword]
    rfl
  | user _ _ | volume _ | label _ | stopsignal _ =>
    unfold Surroundings.task? Surroundings.change?
    rw [hword]
  | _ => rfl

end Setting.SameBut

/-! ### Lowering -/

/-- A stage that is lowered in another setting. -/
def StageFrame.inSetting (f : StageFrame) (s : Setting) : StageFrame :=
  { f with frame := { f.frame with setting := s } }

namespace Setting.SameBut

variable {name : String} {s' : Setting}

theorem lowerInstruction_eq {f : StageFrame} (h : f.frame.setting.SameBut name s') {i : Instruction}
    (hi : Omits name i.body) (p : Progress) (n : Nat) :
    (f.inSetting s').lowerInstruction p n i = f.lowerInstruction p n i := by
  have htask : ((f.inSetting s').surroundings p n).task? i.body =
      (f.surroundings p n).task? i.body := h.task?_eq (t := f.surroundings p n) i.body
  unfold StageFrame.lowerInstruction
  rw [htask]
  dsimp only [StageFrame.inSetting]
  rw [h.expansions_eq hi, h.after_eq hi]
  rfl

theorem lowerFrom_eq {f : StageFrame} (h : f.frame.setting.SameBut name s')
    {instructions : List Instruction} (hall : ∀ i ∈ instructions, Omits name i.body) (p : Progress)
    (n : Nat) : (f.inSetting s').lowerFrom p n instructions = f.lowerFrom p n instructions := by
  induction instructions generalizing p n with
  | nil => rfl
  | cons i rest ih =>
    unfold StageFrame.lowerFrom
    rw [h.lowerInstruction_eq (hall i List.mem_cons_self)]
    exact Traced.bind_congr fun q _ => ih (fun j hj => hall j (List.mem_cons_of_mem i hj)) q (n + 1)

theorem lowerStage_eq {frame : Frame} (h : frame.setting.SameBut name s')
    (hglobal : name ∉ Platform.globalArgs) {plan : Plan}
    (hall : ∀ i ∈ plan.stage.instructions, Omits name i.body) (done : List Lowered) :
    lowerStage { frame with setting := s' } done plan = lowerStage frame done plan := by
  have hvalue : Frame.value { frame with setting := s' } = frame.value := by
    funext text
    unfold Frame.value
    dsimp only
    rw [h.escape, h.globalLookup_eq hglobal]
  have hroot : Frame.root { frame with setting := s' } done plan = frame.root done plan := by
    unfold Frame.root
    rw [hvalue]
  unfold lowerStage
  dsimp only
  rw [h.escape, h.globalLookup_eq hglobal, hvalue, hroot]
  refine Traced.bind_congr fun _ _ => Traced.bind_congr fun _ _ => ?_
  refine Traced.bind_congr fun platform _ => ?_
  show ((stageFrame frame done plan platform).inSetting s').lowerFrom _ 0 _ >>= _ =
    (stageFrame frame done plan platform).lowerFrom _ 0 _ >>= _
  rw [lowerFrom_eq (f := stageFrame frame done plan platform) h hall]
  refine Traced.bind_congr fun p _ => congrArg Traced.ok ?_
  unfold StageFrame.lowered
  dsimp only
  rw [hvalue]

theorem lowerStages_eq {frame : Frame} (h : frame.setting.SameBut name s')
    (hglobal : name ∉ Platform.globalArgs) {plans : List Plan} {order : List Nat}
    (hall : ∀ n ∈ order, ∀ plan, plans[n]? = some plan →
      ∀ i ∈ plan.stage.instructions, Omits name i.body) (done : List Lowered) :
    lowerStages { frame with setting := s' } plans done order =
      lowerStages frame plans done order := by
  induction order generalizing done with
  | nil => rfl
  | cons n rest ih =>
    unfold lowerStages
    cases hplan : plans[n]? with
    | none => rfl
    | some plan =>
      dsimp only
      rw [h.lowerStage_eq hglobal (hall n List.mem_cons_self plan hplan)]
      exact Traced.bind_congr fun l _ => ih (fun m hm => hall m (List.mem_cons_of_mem n hm)) _

end Setting.SameBut

/-! ### What is told -/

/-- Does an event tell something else than unused arguments? -/
def Event.isOther : Event → Bool
  | .unused _ => false
  | _ => true

theorem filterMap_missing?_filter (events : List Event) :
    (events.filter Event.isOther).filterMap Event.missing? = events.filterMap Event.missing? := by
  induction events with
  | nil => rfl
  | cons e rest ih =>
    cases e with
    | unused names => exact ih
    | _ => rw [List.filter_cons_of_pos rfl, List.filterMap_cons, List.filterMap_cons, ih]

/-- Unused arguments have no part in which missing variables are told twice. -/
theorem filter_distinctEvents (events : List Event) :
    (distinctEvents events).filter Event.isOther =
      distinctEvents (events.filter Event.isOther) := by
  suffices h : ∀ earlier,
      (events.foldl (fun done e => if isRepeated done e then done else done ++ [e]) earlier).filter
        Event.isOther =
      (events.filter Event.isOther).foldl
        (fun done e => if isRepeated done e then done else done ++ [e])
        (earlier.filter Event.isOther) from h []
  induction events with
  | nil => exact fun _ => rfl
  | cons e rest ih =>
    intro earlier
    have hrepeated : isRepeated (earlier.filter Event.isOther) e = isRepeated earlier e := by
      unfold isRepeated
      rw [filterMap_missing?_filter]
    rw [List.foldl_cons, ih]
    cases e with
    | unused names =>
      simp [isRepeated, Event.missing?, Event.isOther]
    | _ =>
      rw [List.filter_cons_of_pos rfl, List.foldl_cons, hrepeated]
      split
      · rfl
      · rw [List.filter_append]
        rfl

/-- Two lowerings with the same fault, or with graphs that are related, that tell the same but for
unused arguments. -/
structure Traced.Alike (R : Graph → Graph → Prop) (x y : Traced Graph) : Prop where
  events : y.events.filter Event.isOther = x.events.filter Event.isOther
  result : (∃ fault, x.result = .error fault ∧ y.result = .error fault) ∨
    ∃ g g', x.result = .ok g ∧ y.result = .ok g' ∧ R g g'

theorem Traced.Alike.bind {α : Type} {R : Graph → Graph → Prop} {x : Traced α}
    {f f' : α → Traced Graph} (h : ∀ a, x.result = .ok a → Alike R (f a) (f' a)) :
    Alike R (x >>= f) (x >>= f') := by
  show Alike R (andThen x f) (andThen x f')
  unfold andThen
  cases hx : x.result with
  | error fault => exact ⟨rfl, .inl ⟨fault, rfl, rfl⟩⟩
  | ok a =>
    obtain ⟨hevents, hresult⟩ := h a hx
    refine ⟨?_, hresult⟩
    rw [List.filter_append, List.filter_append, hevents]

theorem Traced.Alike.tellIf_unused {R : Graph → Graph → Prop} {x y : Traced Graph} (h : Alike R x y)
    (condition condition' : Bool) (names names' : List String) :
    Alike R (tellIf condition (.unused names) >>= fun _ => x)
      (tellIf condition' (.unused names') >>= fun _ => y) := by
  have hevents : ∀ (c : Bool) (names : List String) (z : Traced Graph),
      (tellIf c (.unused names) >>= fun _ => z).events.filter Event.isOther =
        z.events.filter Event.isOther := by
    intro c names z
    show ((if c then [Event.unused names] else []) ++ z.events).filter Event.isOther = _
    cases c <;> rfl
  refine ⟨?_, h.result⟩
  rw [hevents, hevents, h.events]

/-! ### One argument more -/

/-- A job with an argument more. -/
def Job.supply (job : Job) (name value : String) : Job :=
  { job with buildArgs := job.buildArgs.set name value }

/-- The second graph is the first one with a name more among its unused arguments, which are in
order. -/
structure ListsUnused (name : String) (g g' : Graph) : Prop where
  same : g' = { g with unusedArgs := g'.unusedArgs }
  perm : g'.unusedArgs.Perm (name :: g.unusedArgs)
  sorted : g'.unusedArgs.Pairwise (· < ·)

section Supplied

variable {d : Document} {job : Job} {r : Resolution} {name : String}

theorem sameBut_supply (d : Document) (job : Job) (name value : String) :
    (job.setting d).SameBut name ((job.supply name value).setting d) where
  escape := rfl
  platformArgs := rfl
  buildArgs := fun other hother => by
    show (job.buildArgs.set name value).get? other = _
    rw [Table.get?_set, if_neg hother]
    rfl

theorem sorted_unusedArgs (d : Document) (buildArgs : Table String) (order : List Nat) :
    (unusedArgs d buildArgs order).Pairwise (· < ·) :=
  Dependencies.pairwise_sortDistinct _

theorem unusedArgs_supply {order : List Nat} (hfresh : name ∉ job.buildArgs.names)
    (hglobal : name ∉ Platform.globalArgs) (hpreamble : name ∉ declaredIn d.preamble)
    (hstages : ∀ s ∈ d.stages, s.index ∈ order → name ∉ declaredIn s.instructions)
    (value : String) : (unusedArgs d (job.supply name value).buildArgs order).Perm
      (name :: unusedArgs d job.buildArgs order) := by
  have hnodup : ∀ buildArgs, (unusedArgs d buildArgs order).Nodup := fun buildArgs =>
    (sorted_unusedArgs d buildArgs order).imp ne_of_lt
  refine (List.perm_ext_iff_of_nodup (hnodup _) (List.nodup_cons.2 ⟨?_, hnodup _⟩)).2 ?_
  · intro h
    exact hfresh (List.mem_of_mem_filter (Dependencies.mem_sortDistinct.1 h))
  · intro other
    have hnames : (job.supply name value).buildArgs.names = job.buildArgs.names ++ [name] := by
      rw [Job.supply, Table.names_set, if_neg hfresh]
    unfold unusedArgs
    rw [hnames, List.mem_cons, Dependencies.mem_sortDistinct, Dependencies.mem_sortDistinct,
      List.filter_append, List.mem_append, or_comm, List.filter_cons_of_pos, List.filter_nil,
      List.mem_singleton]
    simpa [hpreamble, hglobal] using hstages

theorem metaArgs_omit (h : name ∉ declaredIn d.preamble) :
    ∀ arg ∈ d.metaArgs, ∀ e ∈ arg.2, e.name ≠ name := by
  rintro ⟨position, ds⟩ harg
  obtain ⟨i, hi, hbody⟩ := List.mem_filterMap.1 harg
  split at hbody
  · rename_i ds' hds
    obtain ⟨rfl, rfl⟩ := Prod.mk.inj (Option.some.inj hbody)
    exact omits_of_not_mem h i hi ds' hds
  · cases hbody

theorem build_supply (hd : d.Numbered) (hr : r.Backward) (hfresh : name ∉ job.buildArgs.names)
    (hglobal : name ∉ Platform.globalArgs) (hpreamble : name ∉ declaredIn d.preamble)
    (hstages : ∀ n ∈ job.needed d r, ∀ s, d.stages[n]? = some s →
      name ∉ declaredIn s.instructions) (value : String) :
    (build d job r).Alike (ListsUnused name) (build d (job.supply name value) r) := by
  have h := sameBut_supply d job name value
  have hmetaArgs := metaArgs_omit hpreamble
  obtain ⟨plans, hplans⟩ : ∃ plans, (job.planner d r).plans = .ok plans := exists_plans hd hr
  obtain ⟨plans', hplans'⟩ : ∃ plans', ((job.supply name value).planner d r).plans = .ok plans' :=
    exists_plans hd hr
  unfold build
  dsimp only
  rw [h.declareMetas_eq hglobal hmetaArgs]
  refine .bind fun goal hgoal => .bind fun metas hmetas => ?_
  rw [Traced.result_ofExcept] at hgoal
  obtain rfl : metas = job.metas d := declareMetas_ok hmetas
  have hplanner : (job.supply name value).planner d r =
      ⟨d, (job.supply name value).setting d, job.metas d, r⟩ := by
    unfold Job.planner Job.metas
    rw [h.metasAfter_eq hglobal hmetaArgs]
  have hneeded : ∀ n, (dependencies plans).Needs goal n → ∀ s, d.stages[n]? = some s →
      name ∉ declaredIn s.instructions := by
    intro n hn
    apply hstages
    rw [Job.needed, hgoal, hplans]
    exact Dependencies.mem_closure.2 hn
  have hsame : ∀ n, (dependencies plans).Needs goal n → plans'[n]? = plans[n]? := fun n hn =>
    plans_congr hd hplans hplans' (fun _ _ => rfl) fun m s env hm hs => by
      rw [hplanner]
      exact h.planFrom_eq hglobal (omits_of_not_mem (hneeded m (hn.trans hm) s hs)) env
  have huses : ∀ n, (dependencies plans).Needs goal n →
      (dependencies plans').uses n = (dependencies plans).uses n := by
    intro n hn
    rw [uses_eq hd hplans', uses_eq hd hplans, hsame n hn]
  have hlength : plans'.length = plans.length := by
    rw [length_plans hplans, length_plans hplans']
  rw [hplanner] at hplans'
  unfold Job.planner at hplans
  rw [hplans, hplans']
  show Traced.Alike _ (Traced.ofExcept (.ok plans) >>= _) (Traced.ofExcept (.ok plans') >>= _)
  rw [Traced.ofExcept_ok_bind, Traced.ofExcept_ok_bind, Dependencies.closure_congr huses,
    Dependencies.order_congr huses, hlength]
  refine .bind fun _ _ => .bind fun order horder => ?_
  rw [Traced.result_ofExcept] at horder
  have hmem := (Dependencies.order_ok (mapError_eq_ok horder)).mem_iff
  have hlower : lowerStages ⟨(job.supply name value).setting d, job.metas d, job.platform⟩ plans' []
      order = lowerStages (job.frame d) plans [] order := by
    rw [lowerStages_congr fun n hn => hsame n ((hmem n).1 hn)]
    have homits : ∀ n ∈ order, ∀ plan, plans[n]? = some plan →
        ∀ i ∈ plan.stage.instructions, Omits name i.body := fun n hn plan hplan =>
      omits_of_not_mem (hneeded n ((hmem n).1 hn) _ (stage_of_plans hplans hplan))
    have hsetting : (job.frame d).setting.SameBut name ((job.supply name value).setting d) := h
    exact hsetting.lowerStages_eq hglobal homits []
  have hkept : ∀ s ∈ d.stages, s.index ∈ order → name ∉ declaredIn s.instructions := by
    intro s hs hn
    obtain ⟨n, hs⟩ := List.mem_iff_getElem?.1 hs
    exact hneeded n ((hmem n).1 (hd n s hs ▸ hn)) s hs
  have hunused := unusedArgs_supply hfresh hglobal hpreamble hkept value
  show Traced.Alike _ _ (lowerStages ⟨_, _, job.platform⟩ plans' [] order >>= _)
  rw [hlower]
  refine .bind fun done _ => .tellIf_unused (.bind fun platform _ => ?_) _ _ _ _
  exact ⟨rfl, .inr ⟨_, _, rfl, rfl, ⟨rfl, hunused, sorted_unusedArgs _ _ _⟩⟩⟩

theorem lower_result_eq (d : Document) (job : Job) (r : Resolution) :
    (d.lower job r).result = (build d job r).result.map fun g =>
      { g with warnings := (d.lower job r).events.filterMap Event.missing? } := rfl

/-- An argument that nothing declares changes nothing: if a job is supplied with one more argument,
which every file does not know by itself and which neither the preamble nor a stage that the target
needs declares, then it fails with the same fault or it gives the same graph with one name more
among the unused arguments, which are in order. What is told on the way is the same, too, but for
the unused arguments. -/
theorem lower_ignores_undeclared (hd : d.Numbered) (hr : r.Backward)
    (hfresh : name ∉ job.buildArgs.names) (hglobal : name ∉ Platform.globalArgs)
    (hpreamble : name ∉ declaredIn d.preamble)
    (hstages : ∀ n ∈ job.needed d r, ∀ s, d.stages[n]? = some s →
      name ∉ declaredIn s.instructions) (value : String) :
    (∀ fault, (d.lower job r).result = .error fault →
      (d.lower (job.supply name value) r).result = .error fault) ∧
    (∀ g, (d.lower job r).result = .ok g →
      ∃ unused, (d.lower (job.supply name value) r).result = .ok { g with unusedArgs := unused } ∧
        unused.Perm (name :: g.unusedArgs) ∧ unused.Pairwise (· < ·)) ∧
    (d.lower (job.supply name value) r).events.filter Event.isOther =
      (d.lower job r).events.filter Event.isOther := by
  obtain ⟨hevents, hresult⟩ := build_supply hd hr hfresh hglobal hpreamble hstages value
  have htold : (d.lower (job.supply name value) r).events.filter Event.isOther =
      (d.lower job r).events.filter Event.isOther := by
    unfold Document.lower
    dsimp only
    rw [filter_distinctEvents, filter_distinctEvents, hevents]
  have hwarnings := congrArg (List.filterMap Event.missing?) htold
  rw [filterMap_missing?_filter, filterMap_missing?_filter] at hwarnings
  rcases hresult with ⟨fault, hbuild, hbuild'⟩ | ⟨g, g', hbuild, hbuild', hsame, hperm, hsorted⟩
  · have hfault : (d.lower job r).result = .error fault := by rw [lower_result_eq, hbuild]; rfl
    have hfault' : (d.lower (job.supply name value) r).result = .error fault := by
      rw [lower_result_eq, hbuild']
      rfl
    refine ⟨fun other hother => ?_, fun g hg => ?_, htold⟩
    · rw [hfault', ← hother, hfault]
    · rw [hfault] at hg
      cases hg
  · have hok := lower_result_eq d job r
    have hok' := lower_result_eq d (job.supply name value) r
    rw [hbuild] at hok
    rw [hbuild', hwarnings, hsame] at hok'
    refine ⟨fun other hother => ?_, fun g₀ hg₀ => ?_, htold⟩
    · rw [hok] at hother
      cases hother
    · rw [hok] at hg₀
      cases hg₀
      exact ⟨g'.unusedArgs, hok', hperm, hsorted⟩

end Supplied

/-- A supplied argument that is declared only in a stage that is not needed, and that is used
without a declaration in two needed stages. -/
theorem lower_ignores_undeclared_pruned : ∃ d g unused, Document.parse
      ("ARG v=a\nFROM ${v} AS x\nUSER u$w\nFROM x AS y\nARG w\nUSER $w\nFROM x\n" ++
        "ENV z=${w:-$v}\n") = .ok d ∧
    Job.needed ⟨[("x", "0")], none, none⟩ d d.check.resolution = [0, 2] ∧
    "w" ∈ d.stages.flatMap (fun s => declaredIn s.instructions) ∧
    (d.lower ⟨[("x", "0")], none, none⟩ d.check.resolution).result = .ok g ∧
    g.warnings.map Missing.name = ["w", "v"] ∧ g.unusedArgs = ["x"] ∧
    (d.lower ⟨[("x", "0"), ("w", "1")], none, none⟩ d.check.resolution).result =
      .ok { g with unusedArgs := unused } ∧ unused.Perm ["w", "x"] ∧ unused.Pairwise (· < ·) := by
  obtain ⟨d, g, hd, hg, hneeded, hdeclared, hpreamble, hstages, hwarnings, hunused⟩ :=
    exists_lowered_with
      ("ARG v=a\nFROM ${v} AS x\nUSER u$w\nFROM x AS y\nARG w\nUSER $w\nFROM x\n" ++
        "ENV z=${w:-$v}\n")
      ⟨[("x", "0")], none, none⟩ (fun d => d.check.resolution)
      (fun d g => Job.needed ⟨[("x", "0")], none, none⟩ d d.check.resolution = [0, 2] ∧
        "w" ∈ d.stages.flatMap (fun s => declaredIn s.instructions) ∧
        "w" ∉ declaredIn d.preamble ∧
        (∀ n ∈ [0, 2], ∀ s ∈ d.stages[n]?, "w" ∉ declaredIn s.instructions) ∧
        g.warnings.map Missing.name = ["w", "v"] ∧ g.unusedArgs = ["x"])
      (by decide +kernel)
  have hnumbered : d.Numbered := Document.Parsed.numbered (.inl ⟨_, hd⟩)
  have hfresh : "w" ∉ Table.names (Job.buildArgs ⟨[("x", "0")], none, none⟩) := by decide
  obtain ⟨-, hok, -⟩ := lower_ignores_undeclared hnumbered (Resolution.backward_check hnumbered)
    hfresh (by decide) hpreamble (hneeded ▸ hstages) "1"
  obtain ⟨unused, hunused', hperm, hsorted⟩ := hok g hg
  rw [hunused] at hperm
  exact ⟨d, g, unused, hd, hneeded, hdeclared, hg, hwarnings, hunused, hunused', hperm, hsorted⟩

end Dockerfile.Lower
