import Dockerfile.Proofs.Checking.Places
import Dockerfile.Proofs.Lowering.Required

/-!
# Missing variables

The expansion of a text tells every plain reference that it gets to and that has no value. The
warnings of a graph are these, for all texts that are expanded for it (`Planner.Expands`), each
variable once at a place. What the silent walk that plans the stages expands is not told.
-/

namespace Dockerfile

/-! ### Plain references -/

namespace Template

/-- The plain references that an expansion gets to, in order. The word of a modifier is expanded
only where its variable lets it. -/
def reached (lookup : Lookup) : Template → List String
  | .done => []
  | .char _ rest => rest.reached lookup
  | .plain name rest => name :: rest.reached lookup
  | .default name orEmpty word rest =>
    (if isAbsent orEmpty (lookup name) then word.reached lookup else []) ++ rest.reached lookup
  | .alternative name orEmpty word rest =>
    (if isAbsent orEmpty (lookup name) then [] else word.reached lookup) ++ rest.reached lookup
  | .required _ _ _ rest => rest.reached lookup

theorem reached_append (lookup : Lookup) (s t : Template) :
    (s.append t).reached lookup = s.reached lookup ++ t.reached lookup := by
  induction s with
  | done => rfl
  | _ => simp_all [append, reached]

theorem missing_append {first second : Expansion} {cs : List Char} (h : first.result = .ok cs) :
    (first.append second).missing = first.missing ++ second.missing := by
  unfold Expansion.append
  rw [h]

/-- An expansion that does not stop tells the plain references without a value that it gets to. -/
theorem missing_expand {lookup : Lookup} {t : Template} {cs : List Char}
    (h : (t.expand lookup true).result = .ok cs) :
    (t.expand lookup true).missing = (t.reached lookup).filter fun name => (lookup name).isNone := by
  induction t generalizing cs with
  | done => rfl
  | char c rest ih =>
    obtain ⟨a, b, ha, hb, -⟩ := Expansion.append_eq_ok h
    rw [expand, missing_append ha, ih hb]
    rfl
  | plain name rest ih =>
    obtain ⟨a, b, ha, hb, -⟩ := Expansion.append_eq_ok h
    rw [expand, missing_append ha, ih hb, reached, List.filter_cons]
    cases lookup name <;> rfl
  | default name orEmpty word rest ihw ih =>
    obtain ⟨a, b, ha, hb, -⟩ := Expansion.append_eq_ok h
    rw [expand, missing_append ha, ih hb, reached, List.filter_append]
    split
    · rename_i habsent
      rw [if_pos habsent] at ha
      rw [ihw ha]
    · rfl
  | alternative name orEmpty word rest ihw ih =>
    obtain ⟨a, b, ha, hb, -⟩ := Expansion.append_eq_ok h
    rw [expand, missing_append ha, ih hb, reached, List.filter_append]
    split
    · rfl
    · rename_i hpresent
      rw [if_neg hpresent] at ha
      rw [ihw ha]
  | required name orEmpty message rest ih =>
    obtain ⟨a, b, ha, hb, -⟩ := Expansion.append_eq_ok h
    rw [expand, missing_append ha, ih hb, reached]
    split
    · rename_i habsent
      rw [if_pos habsent] at ha
      cases ha
    · rfl

/-- How a plain reference is written behind its dollar sign, before `after`: as a name that ends
there, or as a name in braces. -/
inductive PlainReference (after : List Char) : List Char → List Char → Prop where
  | bare {c : Char} {name : List Char} (hstart : isNameStart c) (hname : name.all isNameChar)
    (hafter : ∀ c' ∈ after.head?, isNameChar c' = false) :
    PlainReference after (c :: name) (c :: name)
  | braced {name : List Char} (hname : name.all isNameChar) :
    PlainReference after ('\x7b' :: (name ++ ['\x7d'])) name

theorem splitBrace?_name {name : List Char} (hname : name.all isNameChar) (after : List Char) :
    splitBrace? 0 (name ++ '\x7d' :: after) = some (name, after) := by
  induction name with
  | nil => rfl
  | cons c name ih =>
    rw [List.all_cons, Bool.and_eq_true] at hname
    have hopen : c ≠ '\x7b' := by
      rintro rfl
      exact absurd hname.1 (by decide)
    have hclose : c ≠ '\x7d' := by
      rintro rfl
      exact absurd hname.1 (by decide)
    rw [List.cons_append, splitBrace?, if_neg hopen, if_neg hclose, ih hname.2]
    rfl

/-- A plain reference that stands outside single quotes is reached, whatever stands before it and
behind it. -/
theorem mem_reached_read (mode : Mode) {escape : Char} (hescape : IsEscape escape) {quote : Quote}
    {before written name after : List Char} (hbefore : quoteAfter escape .none before = some quote)
    (hquote : quote ≠ .single) (hwritten : PlainReference after written name) (lookup : Lookup) :
    String.ofList name ∈
      (read mode escape .none (before ++ '$' :: (written ++ after))).reached lookup := by
  rw [read_append (openQuote_of_quoteAfter mode hescape hbefore) (boundary_dollar _),
    reached_append, List.mem_append]
  refine .inr ?_
  rw [read_cons, mode.front_openDollar hescape hquote]
  dsimp only
  cases hwritten with
  | @bare c name hstart hname hafter =>
    have hall : ∀ c' ∈ c :: name, isNameChar c' :=
      List.forall_mem_cons.2 ⟨isNameChar_of_isNameStart hstart, List.all_eq_true.1 hname⟩
    have htake : after.takeWhile isNameChar = [] := by
      cases after with
      | nil => rfl
      | cons c' after => rw [List.takeWhile_cons, hafter c' rfl]; rfl
    have hreference : reference (c :: name ++ after) =
        .name (c :: name) (after.dropWhile isNameChar) := by
      rw [List.cons_append, reference, if_pos hstart, ← List.cons_append,
        List.takeWhile_append_of_pos hall, List.dropWhile_append_of_pos hall, htake,
        List.append_nil]
    rw [hreference]
    exact List.mem_cons_self
  | braced hname =>
    have hreference : reference ('\x7b' :: (name ++ ['\x7d']) ++ after) = .braces name after := by
      have hstart : isNameStart '\x7b' = false := by decide
      have hsplit := splitBrace?_name hname after
      simp only [List.cons_append, List.append_assoc, List.nil_append, reference, hstart, hsplit]
      rfl
    have hall : ∀ c ∈ name, isNameChar c := List.all_eq_true.1 hname
    rw [hreference]
    dsimp only
    rw [braced, if_pos (List.dropWhile_eq_nil_iff.2 hall), List.takeWhile_eq_self_iff.2 hall]
    exact List.mem_cons_self

end Template

namespace Lower

/-! ### Events -/

namespace Traced

variable {α β : Type}

/-- The missing variables that are told on the way to a result, in order. -/
def missing (x : Traced α) : List Missing := x.events.filterMap Event.missing?

theorem missing_bind {x : Traced α} {f : α → Traced β} {a : α} (h : x.result = .ok a) :
    (x >>= f).missing = x.missing ++ (f a).missing := by
  have hevents : (x >>= f).events = x.events ++ (f a).events := by
    show (andThen x f).events = _
    unfold andThen
    rw [h]
  rw [missing, hevents, List.filterMap_append]
  rfl

theorem missing_ofExcept (x : Except Fault α) : (ofExcept x).missing = [] := by
  cases x <;> rfl

theorem missing_pure (a : α) : (pure a : Traced α).missing = [] := rfl

end Traced

open Traced

/-- What is told of a variable that is missing at a place. -/
def Place.missing (place : Place) (name : String) : Missing :=
  ⟨name, place.stage.map Prod.fst, place.kind, place.position⟩

/-- The expansion of a text gets to a plain reference to a variable without a value. -/
def Occurrence.Misses (escape : Char) (o : Occurrence) (name : String) : Prop :=
  name ∈ (o.phrase.template escape).reached o.lookup ∧ o.lookup name = none

/-- A report tells of the variables that are missing at its place. -/
theorem mem_missing_report {place : Place} {escape : Char} {os : List Occurrence} {m : Missing}
    (h : (report place (os.map (·.expansion escape))).result = .ok ()) :
    m ∈ (report place (os.map (·.expansion escape))).missing ↔
      ∃ o ∈ os, ∃ name, o.Misses escape name ∧ m = place.missing name := by
  induction os with
  | nil => simp [report, Traced.ok, missing]
  | cons o os ih =>
    rw [List.map_cons] at h ⊢
    cases hresult : (o.expansion escape).result with
    | error unset =>
      unfold report at h
      rw [hresult] at h
      cases h
    | ok cs =>
      have hreport : report place (o.expansion escape :: os.map (·.expansion escape)) =
          ⟨(o.expansion escape).missing.map (fun name => Event.missing (place.missing name)) ++
            (report place (os.map (·.expansion escape))).events,
            (report place (os.map (·.expansion escape))).result⟩ := by
        rw [report]
        dsimp only
        rw [hresult]
        rfl
      rw [hreport] at h ⊢
      have hown : (o.expansion escape).missing = _ := Template.missing_expand hresult
      have hmissing : Traced.missing ⟨(o.expansion escape).missing.map
          (fun name => Event.missing (place.missing name)) ++
            (report place (os.map (·.expansion escape))).events,
            (report place (os.map (·.expansion escape))).result⟩ =
          (o.expansion escape).missing.map place.missing ++
            (report place (os.map (·.expansion escape))).missing := by
        rw [missing, List.filterMap_append, List.filterMap_map]
        congr 1
        show List.filterMap (some ∘ place.missing) _ = _
        rw [List.filterMap_eq_map]
      rw [hmissing, List.mem_append, ih h, List.exists_mem_cons_iff, hown]
      refine or_congr ?_ Iff.rfl
      simp only [List.mem_map, List.mem_filter, Option.isNone_iff_eq_none, Occurrence.Misses]
      constructor
      · rintro ⟨name, hname, rfl⟩
        exact ⟨name, hname, rfl⟩
      · rintro ⟨name, hname, rfl⟩
        exact ⟨name, hname, rfl⟩

/-! ### The parts of a lowering -/

theorem mem_missing_declareMetas {s : Setting} {metas all : Metas}
    {args : List (Position × List Declaration)} {m : Missing}
    (h : (declareMetas s metas args).result = .ok all) :
    m ∈ (declareMetas s metas args).missing ↔
      ∃ k position declarations, args[k]? = some (position, declarations) ∧
        m ∈ (report ⟨none, .arg, position⟩
          (s.metaExpansions (s.metasAfter metas (args.take k)) declarations)).missing := by
  induction args generalizing metas with
  | nil => simp [declareMetas, pure, Traced.ok, missing]
  | cons arg rest ih =>
    obtain ⟨_, hreport, h⟩ := Traced.bind_eq_ok.1 h
    rw [declareMetas, missing_bind hreport, List.mem_append, ih h]
    constructor
    · rintro (hm | ⟨k, position, declarations, hk, hm⟩)
      · exact ⟨0, arg.1, arg.2, rfl, hm⟩
      · exact ⟨k + 1, position, declarations, hk, hm⟩
    · rintro ⟨k, position, declarations, hk, hm⟩
      cases k with
      | zero =>
        cases hk
        exact .inl hm
      | succ k => exact .inr ⟨k, position, declarations, hk, hm⟩

namespace StageFrame

variable {f : StageFrame} {p q : Progress} {n : Nat} {i : Instruction} {m : Missing}

theorem missing_lowerInstruction (h : (f.lowerInstruction p n i).result = .ok q) :
    (f.lowerInstruction p n i).missing = (report (f.place i.kind i.position)
      (p.scope.expansions f.frame.setting f.frame.metas i.body)).missing := by
  unfold lowerInstruction at h ⊢
  obtain ⟨_, hreport, h⟩ := Traced.bind_eq_ok.1 h
  obtain ⟨_, hstages, h⟩ := Traced.bind_eq_ok.1 h
  rw [missing_bind hreport, missing_bind hstages, missing_ofExcept, List.nil_append]
  refine (congrArg _ ?_).trans (List.append_nil _)
  split at h
  · rfl
  · obtain ⟨keys, hkeys, h⟩ := Traced.bind_eq_ok.1 h
    dsimp only
    rw [missing_bind hkeys, missing_ofExcept]
    rfl

/-- A walk tells of what is missing at each of its instructions. -/
theorem mem_missing_lowerFrom {instructions : List Instruction}
    (h : (f.lowerFrom p n instructions).result = .ok q) :
    m ∈ (f.lowerFrom p n instructions).missing ↔
      ∃ front i back p', instructions = front ++ i :: back ∧
        (f.lowerFrom p n front).result = .ok p' ∧
        m ∈ (report (f.place i.kind i.position)
          (p'.scope.expansions f.frame.setting f.frame.metas i.body)).missing := by
  induction instructions generalizing p n with
  | nil => simp [lowerFrom, pure, Traced.ok, missing]
  | cons i rest ih =>
    obtain ⟨p₁, hstep, h⟩ := Traced.bind_eq_ok.1 h
    rw [lowerFrom, missing_bind hstep, List.mem_append, missing_lowerInstruction hstep, ih h]
    constructor
    · rintro (hm | ⟨front, j, back, p', rfl, hfront, hm⟩)
      · exact ⟨[], i, rest, p, rfl, rfl, hm⟩
      · exact ⟨i :: front, j, back, p', rfl, Traced.bind_eq_ok.2 ⟨p₁, hstep, hfront⟩, hm⟩
    · rintro ⟨front, j, back, p', hsplit, hfront, hm⟩
      cases front with
      | nil =>
        cases hsplit
        cases hfront
        exact .inl hm
      | cons i' front =>
        cases hsplit
        obtain ⟨p₂, hstep', hfront⟩ := Traced.bind_eq_ok.1 hfront
        obtain rfl := Except.ok.inj (hstep.symm.trans hstep')
        exact .inr ⟨front, j, back, p', rfl, hfront, hm⟩

end StageFrame

section Stages

variable {frame : Frame} {plans : List Plan} {plan : Plan} {done : List Lowered} {l : Lowered}
  {m : Missing}

theorem mem_missing_lowerStage (h : (lowerStage frame done plan).result = .ok l) :
    m ∈ (lowerStage frame done plan).missing ↔
      m ∈ (report (basePlace plan.stage) ((basePhrases plan.stage.base).map
        (Phrase.expand frame.setting.escape (frame.setting.globalLookup frame.metas)))).missing ∨
      ∃ platform, stagePlatform frame.platform (plan.stage.base.platform.map frame.value)
          (baseIn? done plan) (basePlace plan.stage) = .ok platform ∧
        m ∈ ((stageFrame frame done plan platform).lowerFrom (.start (baseIn? done plan)) 0
          plan.stage.instructions).missing := by
  obtain ⟨hreport, platform, p, hplatform, hwalk, -⟩ := lowerStage_eq_ok.1 h
  have hplatform' := (result_ofExcept _).trans hplatform
  have hmissing : (lowerStage frame done plan).missing =
      (report (basePlace plan.stage) ((basePhrases plan.stage.base).map
        (Phrase.expand frame.setting.escape (frame.setting.globalLookup frame.metas)))).missing ++
      ((stageFrame frame done plan platform).lowerFrom (.start (baseIn? done plan)) 0
        plan.stage.instructions).missing := by
    rw [basePlace] at hreport hplatform'
    rw [stageFrame] at hwalk
    unfold lowerStage
    dsimp only
    rw [missing_bind rfl, missing_bind hreport, missing_bind hplatform', missing_bind hwalk,
      missing_ofExcept, missing_pure, List.append_nil, List.nil_append]
    exact List.nil_append _
  rw [hmissing, List.mem_append]
  refine or_congr Iff.rfl ?_
  constructor
  · exact fun hm => ⟨platform, hplatform, hm⟩
  · rintro ⟨platform', hplatform', hm⟩
    obtain rfl := Except.ok.inj (hplatform.symm.trans hplatform')
    exact hm

theorem lowerStages_cons {n : Nat} (hplan : plans[n]? = some plan) (rest : List Nat) :
    lowerStages frame plans done (n :: rest) = (do
      let lowered ← lowerStage frame done plan
      lowerStages frame plans (done ++ [lowered]) rest) := by
  rw [lowerStages, hplan]

/-- Stages tell of what is missing in each of them. -/
theorem mem_missing_lowerStages {order : List Nat} {all : List Lowered}
    (h : (lowerStages frame plans done order).result = .ok all) :
    m ∈ (lowerStages frame plans done order).missing ↔
      ∃ before n after done' plan, order = before ++ n :: after ∧
        (lowerStages frame plans done before).result = .ok done' ∧ plans[n]? = some plan ∧
        m ∈ (lowerStage frame done' plan).missing := by
  induction order generalizing done with
  | nil => simp [lowerStages, pure, Traced.ok, missing]
  | cons n rest ih =>
    unfold lowerStages at h
    split at h
    · cases h
    rename_i plan hplan
    obtain ⟨l, hl, h⟩ := Traced.bind_eq_ok.1 h
    rw [lowerStages_cons hplan, missing_bind hl, List.mem_append, ih h]
    constructor
    · rintro (hm | ⟨before, n', after, done', plan', rfl, hbefore, hplan', hm⟩)
      · exact ⟨[], n, rest, done, plan, rfl, rfl, hplan, hm⟩
      · refine ⟨n :: before, n', after, done', plan', rfl, ?_, hplan', hm⟩
        rw [lowerStages_cons hplan]
        exact Traced.bind_eq_ok.2 ⟨l, hl, hbefore⟩
    · rintro ⟨before, n', after, done', plan', hsplit, hbefore, hplan', hm⟩
      cases before with
      | nil =>
        cases hsplit
        cases hbefore
        obtain rfl := Option.some.inj (hplan.symm.trans hplan')
        exact .inl hm
      | cons n'' before =>
        cases hsplit
        rw [lowerStages_cons hplan] at hbefore
        obtain ⟨l', hl', hbefore⟩ := Traced.bind_eq_ok.1 hbefore
        obtain rfl := Except.ok.inj (hl.symm.trans hl')
        exact .inr ⟨before, n', after, done', plan', rfl, hbefore, hplan', hm⟩

/-- Stages that are lowered are lowered one after the other. -/
theorem lowerStages_append_ok {before after : List Nat} {n : Nat} {all : List Lowered}
    (h : (lowerStages frame plans done (before ++ n :: after)).result = .ok all) :
    ∃ done' plan l, (lowerStages frame plans done before).result = .ok done' ∧
      plans[n]? = some plan ∧ (lowerStage frame done' plan).result = .ok l := by
  induction before generalizing done with
  | nil =>
    rw [List.nil_append] at h
    unfold lowerStages at h
    split at h
    · cases h
    · rename_i plan hplan
      obtain ⟨l, hl, -⟩ := Traced.bind_eq_ok.1 h
      exact ⟨done, plan, l, rfl, hplan, hl⟩
  | cons n' before ih =>
    rw [List.cons_append] at h
    unfold lowerStages at h
    split at h
    · cases h
    · rename_i plan' hplan'
      obtain ⟨l', hl', h⟩ := Traced.bind_eq_ok.1 h
      obtain ⟨done', plan, l, hbefore, hplan, hl⟩ := ih h
      refine ⟨done', plan, l, ?_, hplan, hl⟩
      rw [lowerStages_cons hplan']
      exact Traced.bind_eq_ok.2 ⟨l', hl', hbefore⟩

end Stages

/-! ### Whole lowerings -/

variable {d : Document} {job : Job} {r : Resolution} {g : Graph} {plans : List Plan}
  {order : List Nat} {done : List Lowered} {m : Missing} {place : Place} {os : List Occurrence}

/-- The parts of a lowering that goes through, and what they tell. -/
structure Parts (d : Document) (job : Job) (r : Resolution) (g : Graph) (plans : List Plan)
    (order : List Nat) (done : List Lowered) : Prop extends Run d job r g plans order done where
  metas : (declareMetas (job.setting d) [] d.metaArgs).result = .ok (job.metas d)
  lowered : (lowerStages (job.frame d) plans [] order).result = .ok done
  missing : (build d job r).missing = (declareMetas (job.setting d) [] d.metaArgs).missing ++
    (lowerStages (job.frame d) plans [] order).missing

theorem exists_parts (h : (build d job r).result = .ok g) :
    ∃ plans order done, Parts d job r g plans order done := by
  unfold build at h
  obtain ⟨goal, htarget, h⟩ := Traced.bind_eq_ok.1 h
  obtain ⟨metas, hmetas, h⟩ := Traced.bind_eq_ok.1 h
  obtain rfl := declareMetas_ok hmetas
  obtain ⟨plans, hplans, h⟩ := Traced.bind_eq_ok.1 h
  obtain ⟨_, htold, h⟩ := Traced.bind_eq_ok.1 h
  obtain ⟨order, horder, h⟩ := Traced.bind_eq_ok.1 h
  obtain ⟨done, hdone, h⟩ := Traced.bind_eq_ok.1 h
  obtain ⟨_, hunused, h⟩ := Traced.bind_eq_ok.1 h
  obtain ⟨platform, hplatform, h⟩ := Traced.bind_eq_ok.1 h
  have hquiet : ∀ condition event, Event.missing? event = none →
      (tellIf condition event).missing = [] := by
    intro condition event hevent
    cases condition <;> simp [tellIf, Traced.missing, hevent]
  have hmissing : (build d job r).missing = (declareMetas (job.setting d) [] d.metaArgs).missing ++
      (lowerStages (job.frame d) plans [] order).missing := by
    unfold build
    dsimp only
    rw [missing_bind htarget, missing_bind hmetas, missing_bind hplans, missing_bind htold,
      missing_bind horder, missing_bind hdone, missing_bind hunused, missing_bind hplatform,
      missing_ofExcept, missing_ofExcept, missing_ofExcept, missing_ofExcept, hquiet _ _ rfl,
      hquiet _ _ rfl]
    simp only [List.nil_append]
    exact congrArg _ (List.append_nil _)
  rw [result_ofExcept] at htarget hplans horder
  cases h
  exact ⟨plans, order, done, {
    target := htarget
    plans_eq := mapError_eq_ok hplans
    isOrder := Dependencies.order_ok (mapError_eq_ok horder)
    built := lowerStages_ok .nil hdone
    operations := rfl
    stages := rfl
    metas := hmetas
    lowered := hdone
    missing := hmissing }⟩

namespace Parts

section

variable (parts : Parts d job r g plans order done) (hd : d.Numbered)

include parts hd

/-- A stage of the order is lowered behind the stages before it, which hold all that it uses. -/
theorem split {before after : List Nat} {n : Nat} (hsplit : order = before ++ n :: after) :
    ∃ done' plan l, (lowerStages (job.frame d) plans [] before).result = .ok done' ∧
      plans[n]? = some plan ∧ (lowerStage (job.frame d) done' plan).result = .ok l ∧
      Started d job r plans before done' ∧ ∀ k ∈ plan.uses, k ∈ before := by
  have hlowered := parts.lowered
  rw [hsplit] at hlowered
  obtain ⟨done', plan, l, hbefore, hplan, hl⟩ := lowerStages_append_ok hlowered
  have hstarted := parts.toRun.started
  have hcut := hstarted.cut (lowerStages_ok .nil hbefore) ⟨n :: after, hsplit.symm⟩
  refine ⟨done', plan, l, hbefore, hplan, hl, hcut, fun k hk => ?_⟩
  exact hstarted.after before n after hsplit k
    ((uses_dependencies hd parts.plans_eq).2 ⟨plan, hplan, hk⟩)

theorem mem_order_iff_stages {n : Nat} : n ∈ order ↔ n ∈ g.stages.map StageGraph.index := by
  rw [parts.toRun.mem_order_iff hd, List.mem_map]
  constructor
  · rintro ⟨l, hl, rfl⟩
    exact ⟨l.graph, parts.toRun.mem_stages.2 ⟨l, hl, rfl⟩, rfl⟩
  · rintro ⟨s, hs, rfl⟩
    obtain ⟨l, hl, rfl⟩ := parts.toRun.mem_stages.1 hs
    exact ⟨l, hl, rfl⟩

/-- What a lowering tells is told where a text is expanded. -/
theorem exists_of_mem_missing (h : m ∈ (build d job r).missing) :
    ∃ place os, (job.planner d r).Expands (g.stages.map StageGraph.index) place os ∧
      m ∈ (report place (os.map (·.expansion d.escape))).missing := by
  rw [parts.missing, List.mem_append, mem_missing_declareMetas parts.metas,
    mem_missing_lowerStages parts.lowered] at h
  rcases h with ⟨k, position, declarations, hk, hm⟩ | ⟨before, n, after, done', plan, hsplit, hbefore,
    hplan, hm⟩
  · rw [← Setting.map_metaOccurrences] at hm
    exact ⟨_, _, .preamble hk, hm⟩
  obtain ⟨done'', plan', l, hbefore', hplan', hl, hstarted, huses⟩ := parts.split hd hsplit
  obtain rfl := Except.ok.inj (hbefore.symm.trans hbefore')
  obtain rfl := Option.some.inj (hplan.symm.trans hplan')
  have hn : n ∈ g.stages.map StageGraph.index := by
    rw [← parts.mem_order_iff_stages hd, hsplit]
    exact List.mem_append_right _ List.mem_cons_self
  have hstage := stage_of_plans parts.plans_eq hplan
  rcases (mem_missing_lowerStage hl).1 hm with hm | ⟨platform, hplatform, hm⟩
  · refine ⟨_, _, .base hn hstage, ?_⟩
    rw [Setting.baseOccurrences, List.map_map]
    exact hm
  · obtain ⟨-, platform', q, hplatform', hwalk, -⟩ := lowerStage_eq_ok.1 hl
    obtain rfl := Except.ok.inj (hplatform.symm.trans hplatform')
    obtain ⟨front, i, back, p, hinstructions, hfront, hm⟩ :=
      (StageFrame.mem_missing_lowerFrom hwalk).1 hm
    have hget : plan.stage.instructions[front.length]? = some i := by simp [hinstructions]
    have hscope := hstarted.scopeAt hd hplan huses hinstructions (StageFrame.lowerFrom_ok .nil hfront)
    rw [← Scope.map_occurrences] at hm
    exact ⟨_, _, .instruction hn hstage hget hscope, hm⟩

/-- Where a text is expanded for a graph, its lowering tells what is missing. -/
theorem mem_missing (hos : (job.planner d r).Expands (g.stages.map StageGraph.index) place os)
    (hm : m ∈ (report place (os.map (·.expansion d.escape))).missing) :
    m ∈ (build d job r).missing := by
  rw [parts.missing, List.mem_append, mem_missing_declareMetas parts.metas,
    mem_missing_lowerStages parts.lowered]
  cases hos with
  | preamble hk =>
    refine .inl ⟨_, _, _, hk, ?_⟩
    rw [← Setting.map_metaOccurrences]
    exact hm
  | @base n s hn hs =>
    obtain ⟨before, after, hsplit⟩ := List.append_of_mem ((parts.mem_order_iff_stages hd).2 hn)
    obtain ⟨done', plan, l, hbefore, hplan, hl, -, -⟩ := parts.split hd hsplit
    obtain rfl := Option.some.inj ((stage_of_plans parts.plans_eq hplan).symm.trans hs)
    rw [Setting.baseOccurrences, List.map_map] at hm
    exact .inr ⟨before, n, after, done', plan, hsplit, hbefore, hplan,
      (mem_missing_lowerStage hl).2 (.inl hm)⟩
  | @instruction n position s i scope hn hs hi hscope =>
    obtain ⟨before, after, hsplit⟩ := List.append_of_mem ((parts.mem_order_iff_stages hd).2 hn)
    obtain ⟨done', plan, l, hbefore, hplan, hl, hstarted, huses⟩ := parts.split hd hsplit
    obtain rfl := Option.some.inj ((stage_of_plans parts.plans_eq hplan).symm.trans hs)
    obtain ⟨-, platform, q, hplatform, hwalk, -⟩ := lowerStage_eq_ok.1 hl
    obtain ⟨hlt, hget⟩ := List.getElem?_eq_some_iff.1 hi
    have hinstructions : plan.stage.instructions = plan.stage.instructions.take position ++
        i :: plan.stage.instructions.drop (position + 1) := by
      rw [← hget, ← List.drop_eq_getElem_cons hlt, List.take_append_drop]
    have hwalk' := hwalk
    rw [hinstructions] at hwalk'
    obtain ⟨p, hfront, -⟩ := StageFrame.lowerFrom_append_ok hwalk'
    have hp := hstarted.scopeAt hd hplan huses hinstructions (StageFrame.lowerFrom_ok .nil hfront)
    rw [List.length_take_of_le hlt.le] at hp
    refine .inr ⟨before, n, after, done', plan, hsplit, hbefore, hplan,
      (mem_missing_lowerStage hl).2 (.inr ⟨platform, hplatform,
        (StageFrame.mem_missing_lowerFrom hwalk).2 ⟨_, i, _, p, hinstructions, hfront, ?_⟩⟩)⟩
    rw [hscope.unique hp] at hm
    rw [← Scope.map_occurrences]
    exact hm

end

end Parts

/-! ### Events that are told once -/

/-- What is kept of some events: no missing variable twice at a place, and each of them once. -/
structure Kept (events kept : List Event) : Prop where
  sub : ∀ event ∈ kept, event ∈ events
  cover : ∀ m ∈ events.filterMap Event.missing?, ∃ m' ∈ kept.filterMap Event.missing?,
    m.name = m'.name ∧ m.position = m'.position
  distinct : (kept.filterMap Event.missing?).Pairwise
    fun m m' => ¬(m.name = m'.name ∧ m.position = m'.position)

theorem isRepeated_eq_true {earlier : List Event} {event : Event} : isRepeated earlier event = true ↔
    ∃ m, event.missing? = some m ∧ ∃ m' ∈ earlier.filterMap Event.missing?,
      m.name = m'.name ∧ m.position = m'.position := by
  unfold isRepeated
  cases event.missing? with
  | none => simp
  | some m =>
    rw [Option.any_some, List.any_eq_true]
    simp only [sameMissing, Bool.and_eq_true, decide_eq_true_eq]
    constructor
    · exact fun h => ⟨m, rfl, h⟩
    · rintro ⟨m', heq, h⟩
      cases heq
      exact h

theorem filterMap_missing?_singleton (event : Event) :
    [event].filterMap Event.missing? = event.missing?.toList := by
  cases hevent : event.missing? <;> simp [hevent]

theorem Kept.skip {events kept : List Event} (h : Kept events kept) {event : Event}
    (hrepeated : isRepeated kept event = true) : Kept (events ++ [event]) kept := by
  obtain ⟨m, hevent, m', hm', hsame⟩ := isRepeated_eq_true.1 hrepeated
  refine ⟨fun e he => List.mem_append_left _ (h.sub e he), ?_, h.distinct⟩
  intro n hn
  rw [List.filterMap_append, filterMap_missing?_singleton, List.mem_append, Option.mem_toList,
    hevent] at hn
  rcases hn with hn | hn
  · exact h.cover n hn
  · cases hn
    exact ⟨m', hm', hsame⟩

theorem Kept.concat {events kept : List Event} (h : Kept events kept) {event : Event}
    (hfresh : ¬isRepeated kept event = true) : Kept (events ++ [event]) (kept ++ [event]) where
  sub e he := by
    rcases List.mem_append.1 he with he | he
    · exact List.mem_append_left _ (h.sub e he)
    · exact List.mem_append_right _ he
  cover n hn := by
    rw [List.filterMap_append, List.mem_append] at hn
    rw [List.filterMap_append]
    rcases hn with hn | hn
    · obtain ⟨m', hm', hsame⟩ := h.cover n hn
      exact ⟨m', List.mem_append_left _ hm', hsame⟩
    · exact ⟨n, List.mem_append_right _ hn, rfl, rfl⟩
  distinct := by
    rw [List.filterMap_append, filterMap_missing?_singleton, List.pairwise_append]
    refine ⟨h.distinct, ?_, ?_⟩
    · cases event.missing? with
      | none => exact List.Pairwise.nil
      | some m => exact List.pairwise_singleton _ m
    · intro m hm n hn hsame
      exact hfresh (isRepeated_eq_true.2
        ⟨n, Option.mem_toList.1 hn, m, hm, hsame.1.symm, hsame.2.symm⟩)

theorem kept_distinctEvents (events : List Event) : Kept events (distinctEvents events) := by
  induction events using List.reverseRecOn with
  | nil =>
    refine ⟨fun _ h => h, fun m hm => ?_, List.Pairwise.nil⟩
    cases hm
  | append_singleton events event ih =>
    have hconcat : distinctEvents (events ++ [event]) =
        if isRepeated (distinctEvents events) event then distinctEvents events
        else distinctEvents events ++ [event] := by
      rw [distinctEvents, List.foldl_append]
      rfl
    rw [hconcat]
    split
    · rename_i hrepeated
      exact ih.skip hrepeated
    · rename_i hfresh
      exact ih.concat hfresh

/-- The warnings of a graph are what its lowering tells, each variable once at a place. -/
theorem exists_parts_of_lower (h : (d.lower job r).result = .ok g) :
    (∃ plans order done, Parts d job r g plans order done) ∧
      ∃ kept, Kept (build d job r).events kept ∧ g.warnings = kept.filterMap Event.missing? := by
  simp only [Document.lower] at h
  cases hb : (build d job r).result with
  | error fault =>
    rw [hb] at h
    cases h
  | ok g' =>
    rw [hb] at h
    cases h
    obtain ⟨plans, order, done, parts⟩ := exists_parts hb
    exact ⟨⟨plans, order, done, { parts with }⟩, _, kept_distinctEvents _, rfl⟩

/-! ### Places -/

theorem sublist_metaArgs (d : Document) :
    (d.metaArgs.map Prod.fst).Sublist (d.preamble.map Instruction.position) := by
  unfold Document.metaArgs
  generalize d.preamble = is
  induction is with
  | nil => exact .slnil
  | cons i is ih =>
    rw [List.filterMap_cons]
    split
    · exact ih.cons _
    · rename_i arg harg
      split at harg
      · cases harg
        exact ih.cons_cons _
      · cases harg

section Places

variable (hplaces : (d.all.map Instruction.position).Nodup)

include hplaces

/-- A place of a stage is a place of no other stage. -/
theorem stage_unique {n n' : Nat} {s s' : Stage} (hs : d.stages[n]? = some s)
    (hs' : d.stages[n']? = some s') {x x' : Position}
    (hx : x ∈ s.position :: s.instructions.map Instruction.position)
    (hx' : x' ∈ s'.position :: s'.instructions.map Instruction.position) (h : x = x') :
    n = n' := by
  subst h
  rw [Document.map_position_all] at hplaces
  have hpairwise := (List.nodup_flatMap.1 (List.nodup_append.1 hplaces).2.1).2
  rw [List.pairwise_iff_getElem] at hpairwise
  obtain ⟨hlt, rfl⟩ := List.getElem?_eq_some_iff.1 hs
  obtain ⟨hlt', rfl⟩ := List.getElem?_eq_some_iff.1 hs'
  rcases Nat.lt_trichotomy n n' with h | h | h
  · exact (hpairwise n n' hlt hlt' h hx hx').elim
  · exact h
  · exact (hpairwise n' n hlt' hlt h hx' hx).elim

/-- A place before the first stage is a place of no stage. -/
theorem metaArg_ne {k n : Nat} {s : Stage} {x x' : Position} {ds : List Declaration}
    (hk : d.metaArgs[k]? = some (x, ds)) (hs : d.stages[n]? = some s)
    (hx' : x' ∈ s.position :: s.instructions.map Instruction.position) : x ≠ x' := by
  have hx : x ∈ d.preamble.map Instruction.position :=
    (sublist_metaArgs d).mem (List.mem_map_of_mem (List.mem_of_getElem? hk))
  rw [Document.map_position_all] at hplaces
  exact (List.nodup_append.1 hplaces).2.2 x hx x'
    (List.mem_flatMap.2 ⟨s, List.mem_of_getElem? hs, hx'⟩)

theorem metaArg_unique {k k' : Nat} {x x' : Position} {ds ds' : List Declaration}
    (hk : d.metaArgs[k]? = some (x, ds)) (hk' : d.metaArgs[k']? = some (x', ds')) (h : x = x') :
    k = k' := by
  rw [Document.map_position_all] at hplaces
  have hnodup := (List.nodup_append.1 hplaces).1.sublist (sublist_metaArgs d)
  refine (List.getElem?_inj ?_ hnodup).1 ?_
  · rw [List.length_map]
    exact (List.getElem?_eq_some_iff.1 hk).1
  · rw [List.getElem?_map, List.getElem?_map, hk, hk', Option.map_some, Option.map_some, h]

theorem instruction_unique {p p' : Nat} {s : Stage} {i i' : Instruction} (hs : s ∈ d.stages)
    (hi : s.instructions[p]? = some i) (hi' : s.instructions[p']? = some i')
    (h : i.position = i'.position) : p = p' := by
  have hnodup := (List.nodup_cons.1 (Document.nodup_position_stage hplaces hs)).2
  refine (List.getElem?_inj ?_ hnodup).1 ?_
  · rw [List.length_map]
    exact (List.getElem?_eq_some_iff.1 hi).1
  · rw [List.getElem?_map, List.getElem?_map, hi, hi', Option.map_some, Option.map_some, h]

theorem base_ne {n n' p : Nat} {s s' : Stage} {i : Instruction} (hs : d.stages[n]? = some s)
    (hs' : d.stages[n']? = some s') (hi : s'.instructions[p]? = some i) :
    s.position ≠ i.position := by
  intro h
  have hmem : i.position ∈ s'.instructions.map Instruction.position :=
    List.mem_map_of_mem (List.mem_of_getElem? hi)
  obtain rfl := stage_unique hplaces hs hs' List.mem_cons_self (List.mem_cons_of_mem _ hmem) h
  cases hs.symm.trans hs'
  have hnot := (List.nodup_cons.1
    (Document.nodup_position_stage hplaces (List.mem_of_getElem? hs))).1
  exact hnot (h ▸ hmem)

/-- The texts that are expanded at a place are those of one instruction. -/
theorem Planner.Expands.unique {stages : List Nat} {place' : Place} {os' : List Occurrence}
    (h : (job.planner d r).Expands stages place os)
    (h' : (job.planner d r).Expands stages place' os') (heq : place.position = place'.position) :
    place = place' ∧ os = os' := by
  have hmem : ∀ {s : Stage} {p : Nat} {i : Instruction}, s.instructions[p]? = some i →
      i.position ∈ s.position :: s.instructions.map Instruction.position := fun hi =>
    List.mem_cons_of_mem _ (List.mem_map_of_mem (List.mem_of_getElem? hi))
  cases h with
  | preamble hk =>
    cases h' with
    | preamble hk' =>
      obtain rfl := metaArg_unique hplaces hk hk' heq
      cases hk.symm.trans hk'
      exact ⟨rfl, rfl⟩
    | base _ hs' => exact (metaArg_ne hplaces hk hs' List.mem_cons_self heq).elim
    | instruction _ hs' hi' _ => exact (metaArg_ne hplaces hk hs' (hmem hi') heq).elim
  | base _ hs =>
    cases h' with
    | preamble hk' => exact (metaArg_ne hplaces hk' hs List.mem_cons_self heq.symm).elim
    | base _ hs' =>
      obtain rfl := stage_unique hplaces hs hs' List.mem_cons_self List.mem_cons_self heq
      cases hs.symm.trans hs'
      exact ⟨rfl, rfl⟩
    | instruction _ hs' hi' _ => exact (base_ne hplaces hs hs' hi' heq).elim
  | instruction _ hs hi hscope =>
    cases h' with
    | preamble hk' => exact (metaArg_ne hplaces hk' hs (hmem hi) heq.symm).elim
    | base _ hs' => exact (base_ne hplaces hs' hs hi heq.symm).elim
    | instruction _ hs' hi' hscope' =>
      obtain rfl := stage_unique hplaces hs hs' (hmem hi) (hmem hi') heq
      cases hs.symm.trans hs'
      obtain rfl := instruction_unique hplaces (List.mem_of_getElem? hs) hi hi' heq
      cases hi.symm.trans hi'
      rw [hscope.unique hscope']
      exact ⟨rfl, rfl⟩

end Places

/-! ### Warnings -/

/-- The warnings of a graph tell of all variables that are missing where a text is expanded for it,
once at each place. -/
structure Warned (p : Planner) (g : Graph) : Prop where
  /-- Every instruction of a stage of the graph has its scope, in which its texts are expanded. -/
  covered : ∀ n ∈ g.stages.map StageGraph.index, ∀ (s : Stage) (position : Nat) (i : Instruction),
    p.document.stages[n]? = some s → s.instructions[position]? = some i →
      ∃ os, p.Expands (g.stages.map StageGraph.index) ⟨some (s.index, s.name), i.kind, i.position⟩ os
  told_iff : ∀ place os, p.Expands (g.stages.map StageGraph.index) place os → ∀ name,
    (∃ m ∈ g.warnings, m.name = name ∧ m.position = place.position) ↔
      ∃ o ∈ os, o.Misses p.document.escape name
  /-- A plain reference to a variable without a value is told where it is written outside single
  quotes. -/
  written : ∀ place os, p.Expands (g.stages.map StageGraph.index) place os → ∀ o ∈ os,
    ∀ before written name after quote,
      o.phrase.text.toList = before ++ '$' :: (written ++ after) →
      Template.quoteAfter p.document.escape .none before = some quote → quote ≠ .single →
      Template.PlainReference after written name → o.lookup (String.ofList name) = none →
        ∃ m ∈ g.warnings, m.name = String.ofList name ∧ m.position = place.position
  /-- A warning carries the stage and the kind of its instruction. -/
  placed : ∀ m ∈ g.warnings, ∃ place os, p.Expands (g.stages.map StageGraph.index) place os ∧
    m = place.missing m.name
  distinct : g.warnings.Pairwise fun m m' => ¬(m.name = m'.name ∧ m.position = m'.position)

/-- Every warning tells of a variable that is missing where a text is expanded. -/
theorem exists_misses (hd : d.Numbered) (h : (d.lower job r).result = .ok g) (hm : m ∈ g.warnings) :
    ∃ place os, (job.planner d r).Expands (g.stages.map StageGraph.index) place os ∧
      ∃ o ∈ os, ∃ name, o.Misses d.escape name ∧ m = place.missing name := by
  obtain ⟨⟨plans, order, done, parts⟩, kept, hkept, hwarnings⟩ := exists_parts_of_lower h
  rw [hwarnings] at hm
  obtain ⟨event, hevent, hm⟩ := List.mem_filterMap.1 hm
  have htold : m ∈ (build d job r).missing :=
    List.mem_filterMap.2 ⟨event, hkept.sub event hevent, hm⟩
  obtain ⟨place, os, hos, hreport⟩ := parts.exists_of_mem_missing hd htold
  exact ⟨place, os, hos, (mem_missing_report (report_of_lower hd h hos)).1 hreport⟩

/-- A variable that is missing where a text is expanded is told at its place. -/
theorem exists_warning (hd : d.Numbered) (h : (d.lower job r).result = .ok g)
    (hos : (job.planner d r).Expands (g.stages.map StageGraph.index) place os) {o : Occurrence}
    (ho : o ∈ os) {name : String} (hname : o.Misses d.escape name) :
    ∃ m ∈ g.warnings, m.name = name ∧ m.position = place.position := by
  obtain ⟨⟨plans, order, done, parts⟩, kept, hkept, hwarnings⟩ := exists_parts_of_lower h
  have hreport : place.missing name ∈ (report place (os.map (·.expansion d.escape))).missing :=
    (mem_missing_report (report_of_lower hd h hos)).2 ⟨o, ho, name, hname, rfl⟩
  obtain ⟨m, hm, hsame⟩ := hkept.cover _ (parts.mem_missing hd hos hreport)
  rw [← hwarnings] at hm
  exact ⟨m, hm, hsame.1.symm, hsame.2.symm⟩

theorem lower_warns_of_missing {source : String} (h : Document.parse source = .ok d)
    (hg : (d.lower job r).result = .ok g) : Warned (job.planner d r) g := by
  have hparsed : d.Parsed := .inl ⟨source, h⟩
  have hd := hparsed.numbered
  obtain ⟨⟨plans, order, done, parts⟩, kept, hkept, hwarnings⟩ := exists_parts_of_lower hg
  refine ⟨?_, ?_, ?_, ?_, hwarnings ▸ hkept.distinct⟩
  · intro n hn s position i hs hi
    obtain ⟨plan, hplan, rfl⟩ := exists_plan parts.plans_eq hs
    obtain ⟨env, henv, -⟩ := exists_inherits parts.plans_eq hplan
    exact ⟨_, .instruction hn hs hi ⟨env, henv, rfl⟩⟩
  · intro place os hos name
    constructor
    · rintro ⟨m, hm, rfl, hposition⟩
      obtain ⟨place', os', hos', o, ho, name, hname, rfl⟩ := exists_misses hd hg hm
      obtain ⟨-, rfl⟩ := hos'.unique (Document.nodup_position_of_parse h) hos hposition
      exact ⟨o, ho, hname⟩
    · rintro ⟨o, ho, hname⟩
      exact exists_warning hd hg hos ho hname
  · intro place os hos o ho before written name after quote htext hbefore hquote hwritten hnone
    refine exists_warning hd hg hos ho ⟨?_, hnone⟩
    rw [Phrase.template, htext]
    exact Template.mem_reached_read o.phrase.mode hparsed.isEscape hbefore hquote hwritten o.lookup
  · intro m hm
    obtain ⟨place, os, hos, o, -, name, -, rfl⟩ := exists_misses hd hg hm
    exact ⟨place, os, hos, rfl⟩

theorem lower_warns_of_missing_mixed : ∃ d g,
    Document.parse ("ARG V=$P\nFROM a AS x\nENV E=1\nRUN $E $N $N ${M:-$K} ${E:-$L} '$Q'\n" ++
      "FROM z\nUSER $N\nFROM x\nARG U\nUSER $U\n") = .ok d ∧
    (d.lower ⟨[], none, none⟩ .empty).result = .ok g ∧
    Warned (Job.planner ⟨[], none, none⟩ d .empty) g ∧
    g.warnings = [⟨"P", none, .arg, ⟨1, 1⟩⟩, ⟨"N", some 0, .run, ⟨4, 1⟩⟩,
      ⟨"K", some 0, .run, ⟨4, 1⟩⟩, ⟨"U", some 2, .user, ⟨9, 1⟩⟩] := by
  obtain ⟨d, g, hd, hg, hwarnings⟩ := exists_lowered
    ("ARG V=$P\nFROM a AS x\nENV E=1\nRUN $E $N $N ${M:-$K} ${E:-$L} '$Q'\n" ++
      "FROM z\nUSER $N\nFROM x\nARG U\nUSER $U\n")
    ⟨[], none, none⟩ (fun _ => .empty) Graph.warnings
    [⟨"P", none, .arg, ⟨1, 1⟩⟩, ⟨"N", some 0, .run, ⟨4, 1⟩⟩, ⟨"K", some 0, .run, ⟨4, 1⟩⟩,
      ⟨"U", some 2, .user, ⟨9, 1⟩⟩] (by decide +kernel)
  exact ⟨d, g, hd, hg, lower_warns_of_missing hd hg, hwarnings⟩

end Lower

end Dockerfile
