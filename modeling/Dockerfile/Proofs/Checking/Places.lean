import Mathlib.Data.List.Nodup
import Dockerfile.Proofs.Lexing.Starts

/-!
# Findings by their places

A check tells all its findings in one list, each with its place. Of those that tell of a reference
(to a stage, an image or a variable) the ones at the place of a `FROM` or of an instruction of a
stage are the issues of that instruction alone (`referencesAt_base`, `referencesAt_instruction`):
every instruction stands at a place of its own, and the trigger of an `ONBUILD` is checked without
variables and stages. `filter_isReference_issues` says which issues these are.
-/

namespace Dockerfile

namespace Check

/-- Does an issue tell of a reference, to a stage, to an image or to a variable? -/
def Issue.isReference : Issue → Bool
  | .baseIndex _ | .laterBase _ _ | .image _ _ | .unknownOrigin _ _ | .undeclared _
  | .globalOnly _ | .usedBefore _ => true
  | _ => false

/-! ### The issues of an instruction -/

/-- The texts of an instruction whose variables are checked. -/
def checkedTexts : Body → List (Option String)
  | .run r =>
    [r.network, r.security] ++ (if r.command.isExec then [] else [some r.command.raw]) ++
      r.mounts.flatMap fun m => [m.source, m.target, m.origin] ++ m.options.map fun o => some o.value
  | .copy c => c.sources.map some ++ [some c.destination, c.origin, c.chown, c.chmod]
  | .add a => a.sources.map some ++ [some a.destination, a.chown, a.chmod, a.checksum]
  | .env bindings => bindings.map fun v => some v.value
  | .arg declarations => declarations.map Declaration.default
  | .workdir path => [some path]
  | .user user group => [some user, group]
  | .expose ports => ports.map some
  | .volume paths => paths.map some
  | .label labels => labels.flatMap fun l => [some l.name, some l.value]
  | .stopsignal signal => [some signal]
  | _ => []

/-- How the references of an instruction to stages are called. -/
def originName : Body → String
  | .copy _ => "COPY --from"
  | _ => "--mount from"

section Issues

variable (c : Context)

theorem filter_references (texts : List (Option String)) :
    (c.references texts).filter Issue.isReference = c.references texts := by
  refine List.filter_eq_self.2 fun issue hissue => ?_
  unfold Context.references at hissue
  cases hscope : c.scope with
  | none =>
    rw [hscope] at hissue
    cases hissue
  | some scope =>
    rw [hscope] at hissue
    obtain ⟨name, -, rfl⟩ := List.mem_map.1 hissue
    unfold Scope.issue
    split
    · rfl
    · split <;> rfl

theorem filter_origin (what text : String) :
    (c.origin what text).filter Issue.isReference = c.origin what text := by
  unfold Context.origin
  split
  · rfl
  · split <;> rfl

theorem filter_form {issue : String → Issue} (hissue : ∀ text, (issue text).isReference = false)
    (text : Option String) (accept : String → Bool) :
    (c.form text accept issue).filter Issue.isReference = [] := by
  unfold Context.form
  split
  · split
    · rfl
    · simp [hissue]
  · rfl

theorem filter_commandIssues (kind : Kind) (command : Command) :
    (commandIssues kind command).filter Issue.isReference = [] := by
  unfold commandIssues
  split <;> rfl

theorem filter_ownershipIssues (chown chmod : Option String) :
    (ownershipIssues c chown chmod).filter Issue.isReference = [] := by
  rw [ownershipIssues, List.filter_append, filter_form c fun _ => rfl, filter_form c fun _ => rfl]
  rfl

theorem filter_checksumIssues (checksum : Option String) :
    (checksum.elim [] (checksumIssues c)).filter Issue.isReference = [] := by
  cases checksum with
  | none => rfl
  | some text =>
    simp only [Option.elim_some, checksumIssues]
    split
    · rfl
    · split
      · split <;> rfl
      · rfl

theorem filter_healthcheckIssues (h : Healthcheck) :
    (healthcheckIssues c h).filter Issue.isReference = [] := by
  unfold healthcheckIssues
  split
  · split <;> rfl
  · rename_i command _
    rw [List.filter_append, List.filter_append, List.filter_append, filter_commandIssues]
    have hempty : (if command.isExec && command.args.isEmpty then [Issue.healthcheckEmpty]
        else []).filter Issue.isReference = [] := by
      split <;> rfl
    have hretries : (if h.retries.any (· < 0) then [Issue.negativeRetries]
        else []).filter Issue.isReference = [] := by
      split <;> rfl
    rw [hempty, hretries]
    refine List.filter_eq_nil_iff.2 fun issue hissue => ?_
    obtain ⟨⟨option, value⟩, -, hissue⟩ := List.mem_flatMap.1 hissue
    dsimp only at hissue
    split at hissue
    · split at hissue
      · cases hissue
      · rw [List.mem_singleton.1 hissue]
        exact Bool.false_ne_true
    · cases hissue

theorem filter_mountIssues (r : Run) :
    (r.mounts.flatMap (mountIssues c)).filter Issue.isReference =
      (origins (.run r)).flatMap fun origin => c.origin "--mount from" origin.2 := by
  show _ = (r.mounts.zipIdx.filterMap _).flatMap _
  generalize 0 = first
  induction r.mounts generalizing first with
  | nil => rfl
  | cons m mounts ih =>
    have hproblem : (mountIssue? m).toList.filter Issue.isReference = [] := by
      unfold mountIssue?
      repeat' split
      all_goals rfl
    rw [List.flatMap_cons, List.filter_append, mountIssues, List.filter_append, hproblem,
      List.nil_append, List.zipIdx_cons, List.filterMap_cons, ih (first + 1)]
    dsimp only
    cases m.origin with
    | none => rfl
    | some text =>
      by_cases hempty : text.isEmpty
      · simp [hempty]
      · simp [hempty, filter_origin]

/-- The issues of an instruction that tell of references: those of the variables of its texts, and
those of its references to stages. -/
theorem filter_isReference_issues (body : Body) :
    (issues c body).filter Issue.isReference = c.references (checkedTexts body) ++
      (origins body).flatMap fun origin => c.origin (originName body) origin.2 := by
  have hnone : c.references [] = [] := by
    unfold Context.references
    cases c.scope <;> rfl
  cases body with
  | run r =>
    simp only [issues, runIssues, List.filter_append, filter_references, filter_commandIssues,
      filter_mountIssues, List.append_nil]
    rw [filter_form c fun _ => rfl, filter_form c fun _ => rfl, List.append_nil, List.append_nil]
    rfl
  | copy i =>
    simp only [issues, copyIssues, List.filter_append, filter_references, filter_ownershipIssues,
      List.append_nil]
    cases horigin : i.origin with
    | none => simp [checkedTexts, origins, horigin]
    | some text => simp [checkedTexts, origins, horigin, filter_origin, originName]
  | add i =>
    simp only [issues, addIssues, List.filter_append, filter_references, filter_ownershipIssues,
      filter_checksumIssues, List.append_nil]
    simp [checkedTexts, origins]
  | env bindings =>
    have hnames : (((bindings.map Binding.name).filter fun name => !isName name).map
        Issue.variableName).filter Issue.isReference = [] := by
      simp [List.filter_map, Function.comp_def, Issue.isReference]
    rw [issues, List.filter_append, filter_references, hnames]
    simp [checkedTexts, origins]
  | arg declarations =>
    have hnames : (((declarations.map Declaration.name).filter fun name => !isName name).map
        Issue.argumentName).filter Issue.isReference = [] := by
      simp [List.filter_map, Function.comp_def, Issue.isReference]
    rw [issues, List.filter_append, filter_references, hnames]
    simp [checkedTexts, origins]
  | workdir path =>
    have hrelative : (if isRelative (c.unquote path) then
        [Issue.relativeWorkdir (c.unquote path)] else []).filter Issue.isReference = [] := by
      split <;> rfl
    rw [issues, workdirIssues, List.filter_append, filter_references, hrelative]
    simp [checkedTexts, origins]
  | user user group =>
    rw [issues, filter_references]
    simp [checkedTexts, origins]
  | expose ports =>
    have hports : (ports.flatMap fun port => c.form (some port) isPort .port).filter
        Issue.isReference = [] := by
      rw [List.filter_flatMap]
      refine List.flatMap_eq_nil_iff.2 fun port _ => ?_
      exact filter_form c (fun _ => rfl) (some port) isPort
    rw [issues, List.filter_append, filter_references, hports]
    simp [checkedTexts, origins]
  | volume paths =>
    have hrelative : (((paths.map c.unquote).filter isRelative).map Issue.relativeVolume).filter
        Issue.isReference = [] := by
      simp [List.filter_map, Function.comp_def, Issue.isReference]
    rw [issues, volumeIssues, List.filter_append, filter_references, hrelative]
    simp [checkedTexts, origins]
  | label labels =>
    rw [issues, filter_references]
    simp [checkedTexts, origins]
  | stopsignal signal =>
    rw [issues, List.filter_append, filter_references, filter_form c fun _ => rfl]
    simp [checkedTexts, origins]
  | healthcheck h =>
    rw [issues, filter_healthcheckIssues]
    simp [checkedTexts, origins, hnone]
  | entrypoint | cmd =>
    rw [issues, filter_commandIssues]
    simp [checkedTexts, origins, hnone]
  | shell command =>
    have hshell : (shellIssues command).filter Issue.isReference = [] := by
      unfold shellIssues
      split <;> rfl
    rw [issues, hshell]
    simp [checkedTexts, origins, hnone]
  | base | onbuild => simp [issues, checkedTexts, origins, hnone]
  | maintainer name => simp [issues, checkedTexts, origins, hnone, Issue.isReference]

/-- Without a scope, as in a trigger, an instruction has no issues of references. -/
theorem filter_isReference_trigger (body : Body) :
    (issues { c with scope := none } body).filter Issue.isReference = [] := by
  rw [filter_isReference_issues]
  simp [Context.references, Context.origin]

end Issues

/-! ### Findings at a place -/

/-- The issues of references that some findings tell at a place. -/
def referencesAt (x : Position) (fs : List Finding) : List Issue :=
  (fs.filter fun f => decide (f.position = x) && f.issue.isReference).map Finding.issue

theorem referencesAt_append (x : Position) (fs gs : List Finding) :
    referencesAt x (fs ++ gs) = referencesAt x fs ++ referencesAt x gs := by
  rw [referencesAt, List.filter_append, List.map_append]
  rfl

theorem referencesAt_map (x y : Position) (is : List Issue) :
    referencesAt x (is.map (Finding.mk · y)) =
      if y = x then is.filter Issue.isReference else [] := by
  rw [referencesAt, List.filter_map, List.map_map]
  by_cases h : y = x
  · simp [h, Function.comp_def]
  · simp [h, Function.comp_def]

theorem referencesAt_eq_nil {x : Position} {fs : List Finding}
    (h : ∀ f ∈ fs, f.issue.isReference = false) : referencesAt x fs = [] := by
  rw [referencesAt, List.map_eq_nil_iff, List.filter_eq_nil_iff]
  intro f hf
  simp [h f hf]

/-- An instruction tells its issues at its place; a trigger is of no account. -/
theorem referencesAt_findings (c : Context) (i : Instruction) (x : Position) :
    referencesAt x (findings c i) =
      if i.position = x then (issues c i.body).filter Issue.isReference else [] := by
  obtain ⟨position, body⟩ := i
  cases body with
  | onbuild place trigger expression =>
    have hempty : (if position = x then
        (issues c (.onbuild place trigger expression)).filter Issue.isReference else []) = [] := by
      split <;> rfl
    rw [hempty, findings]
    dsimp only
    split
    · exact referencesAt_eq_nil (by simp [Issue.isReference])
    · rw [referencesAt_map, filter_isReference_trigger]
      split <;> rfl
  | _ => exact referencesAt_map x position _

section Instructions

variable (d : Document) (stage : Stage)

/-- What the instructions behind some others of a stage are checked against. -/
def contextAfter (scope : Scope) (front : List Instruction) : Context :=
  ⟨d.escape, some (scope.afterAll front), fun text => d.resolve? text stage.index⟩

theorem referencesAt_instructionFindings_cons (scope : Scope) (seen : List Kind) (i : Instruction)
    (rest : List Instruction) (x : Position) :
    referencesAt x (instructionFindings d stage scope seen (i :: rest)) =
      (if i.position = x then (issues (contextAfter d stage scope []) i.body).filter
        Issue.isReference else []) ++
      referencesAt x (instructionFindings d stage (scope.after i.body) (i.kind :: seen) rest) := by
  have hduplicate : referencesAt x (if isSingle i.kind && seen.contains i.kind
      then [⟨.duplicateInstruction i.kind stage.displayName, i.position⟩] else []) = [] := by
    refine referencesAt_eq_nil fun f hf => ?_
    split at hf
    · rw [List.mem_singleton.1 hf]
      rfl
    · cases hf
  rw [instructionFindings, referencesAt_append, referencesAt_append, hduplicate,
    referencesAt_findings, List.nil_append]
  rfl

theorem referencesAt_instructionFindings_of_notMem {x : Position} {instructions : List Instruction}
    (h : x ∉ instructions.map Instruction.position) (scope : Scope) (seen : List Kind) :
    referencesAt x (instructionFindings d stage scope seen instructions) = [] := by
  induction instructions generalizing scope seen with
  | nil => rfl
  | cons i rest ih =>
    rw [List.map_cons, List.mem_cons, not_or] at h
    rw [referencesAt_instructionFindings_cons, ih h.2, if_neg (Ne.symm h.1)]
    rfl

theorem referencesAt_instructionFindings {front back : List Instruction} {i : Instruction}
    (hfront : i.position ∉ front.map Instruction.position)
    (hback : i.position ∉ back.map Instruction.position) (scope : Scope) (seen : List Kind) :
    referencesAt i.position (instructionFindings d stage scope seen (front ++ i :: back)) =
      (issues (contextAfter d stage scope front) i.body).filter Issue.isReference := by
  induction front generalizing scope seen with
  | nil =>
    rw [List.nil_append, referencesAt_instructionFindings_cons, if_pos rfl,
      referencesAt_instructionFindings_of_notMem d stage hback, List.append_nil]
  | cons j front ih =>
    rw [List.map_cons, List.mem_cons, not_or] at hfront
    rw [List.cons_append, referencesAt_instructionFindings_cons, if_neg (Ne.symm hfront.1),
      ih hfront.2]
    rfl

end Instructions

theorem referencesAt_preambleFindings {x : Position} {instructions : List Instruction}
    (h : x ∉ instructions.map Instruction.position) (escape : Char) (scope : Scope)
    (reported : Bool) : referencesAt x (preambleFindings escape scope reported instructions) = [] := by
  induction instructions generalizing scope reported with
  | nil => rfl
  | cons i rest ih =>
    rw [List.map_cons, List.mem_cons, not_or] at h
    unfold preambleFindings
    split
    · rw [referencesAt_append, referencesAt_findings, if_neg (Ne.symm h.1), ih h.2]
      rfl
    · rw [referencesAt_append, ih h.2, List.append_nil]
      refine referencesAt_eq_nil fun f hf => ?_
      split at hf
      · cases hf
      · rw [List.mem_singleton.1 hf]
        rfl

theorem isReference_nameFindings {earlier stages : List Stage} {f : Finding}
    (h : f ∈ nameFindings earlier stages) : f.issue.isReference = false := by
  induction stages generalizing earlier with
  | nil => cases h
  | cons s rest ih =>
    rcases List.mem_append.1 h with h | h
    · split at h
      · cases h
      · rcases List.mem_append.1 h with h | h
        · split at h
          · cases h
          · rw [List.mem_singleton.1 h]
            rfl
        · split at h
          · rw [List.mem_singleton.1 h]
            rfl
          · cases h
    · exact ih h

/-! ### Stages -/

/-- The scope at the start of a stage, where it is known which names are known at the end of the
stages before it. -/
def startScope (d : Document) (metas : List String) (settled : List (List String))
    (stage : Stage) : Scope :=
  ⟨metas, true, ((base? d stage).bind (settled[·]?)).getD [], argNames stage⟩

/-- The names that are known at the end of some stages, behind those of the stages before them. -/
def settle (d : Document) (metas : List String) (settled : List (List String)) :
    List Stage → List (List String)
  | [] => settled
  | stage :: rest =>
    settle d metas
      (settled ++ [((startScope d metas settled stage).afterAll stage.instructions).known]) rest

/-- The places of the instructions of some stages. -/
def stagePlaces (stages : List Stage) : List Position :=
  stages.flatMap fun s => s.position :: s.instructions.map Instruction.position

section Stages

variable (d : Document) (metas : List String)

theorem stageFindings_cons (settled : List (List String)) (s : Stage) (rest : List Stage) :
    stageFindings d metas settled (s :: rest) =
      (baseIssues d metas s).map (Finding.mk · s.position) ++
        instructionFindings d s (startScope d metas settled s) [] s.instructions ++
        stageFindings d metas (settle d metas settled [s]) rest := rfl

theorem stageFindings_append (settled : List (List String)) (front back : List Stage) :
    stageFindings d metas settled (front ++ back) = stageFindings d metas settled front ++
      stageFindings d metas (settle d metas settled front) back := by
  induction front generalizing settled with
  | nil => rfl
  | cons s front ih =>
    rw [List.cons_append, stageFindings_cons, stageFindings_cons, ih, ← List.append_assoc]
    rfl

theorem referencesAt_stageFindings_of_notMem {x : Position} {stages : List Stage}
    (h : x ∉ stagePlaces stages) (settled : List (List String)) :
    referencesAt x (stageFindings d metas settled stages) = [] := by
  induction stages generalizing settled with
  | nil => rfl
  | cons s rest ih =>
    rw [stagePlaces, List.flatMap_cons, List.mem_append, not_or, List.mem_cons, not_or] at h
    rw [stageFindings_cons, referencesAt_append, referencesAt_append, ih h.2, referencesAt_map,
      if_neg (Ne.symm h.1.1), referencesAt_instructionFindings_of_notMem d s h.1.2]
    rfl

end Stages

end Check

open Check

namespace Document

variable {d : Document} {k : Nat} {s : Stage}

/-- A text whose document can be computed, with something that holds of all documents that are read
from it and something that can be decided of this one. -/
theorem exists_parsed {source : String} {P Q : Document → Prop} [DecidablePred Q]
    (h : (parse source).toOption.any fun d => decide (Q d))
    (hP : ∀ d, parse source = .ok d → P d) : ∃ d, parse source = .ok d ∧ P d ∧ Q d := by
  cases hparse : parse source with
  | error fault =>
    rw [hparse] at h
    cases h
  | ok d =>
    rw [hparse] at h
    exact ⟨d, rfl, hP d hparse, of_decide_eq_true h⟩

theorem map_position_all (d : Document) : d.all.map Instruction.position =
    d.preamble.map Instruction.position ++ stagePlaces d.stages := by
  simp [all, stagePlaces, List.map_flatMap]

theorem nodup_position_stage (hd : (d.all.map Instruction.position).Nodup) (hs : s ∈ d.stages) :
    (s.position :: s.instructions.map Instruction.position).Nodup := by
  rw [map_position_all] at hd
  exact (List.nodup_flatMap.1 (List.nodup_append.1 hd).2.1).1 s hs

/-- The names that are known at the end of the stages before a stage. -/
def settledBefore (d : Document) (k : Nat) : List (List String) :=
  settle d (metaNames d) [] (d.stages.take k)

section

variable (hd : (d.all.map Instruction.position).Nodup) (hs : d.stages[k]? = some s)

include hd hs

/-- At a place of a stage only that stage tells of references. -/
theorem referencesAt_check {x : Position}
    (hx : x ∈ s.position :: s.instructions.map Instruction.position) :
    referencesAt x d.check.findings =
      referencesAt x ((baseIssues d (metaNames d) s).map (Finding.mk · s.position)) ++
        referencesAt x (instructionFindings d s (startScope d (metaNames d) (d.settledBefore k) s)
          [] s.instructions) := by
  obtain ⟨hlt, hget⟩ := List.getElem?_eq_some_iff.1 hs
  have hsplit : d.stages = d.stages.take k ++ s :: d.stages.drop (k + 1) := by
    rw [← hget, ← List.drop_eq_getElem_cons hlt, List.take_append_drop]
  rw [map_position_all, hsplit, stagePlaces, List.flatMap_append, List.flatMap_cons] at hd
  -- The place is one of this stage, so it is none of the preamble and of the other stages.
  have hpreamble : x ∉ d.preamble.map Instruction.position := fun hmem =>
    (List.nodup_append.1 hd).2.2 x hmem x
      (List.mem_append_right _ (List.mem_append_left _ hx)) rfl
  obtain ⟨-, hown, hfront⟩ := List.nodup_append.1 (List.nodup_append.1 hd).2.1
  have hbefore : x ∉ stagePlaces (d.stages.take k) := fun hmem =>
    hfront x hmem x (List.mem_append_left _ hx) rfl
  have hbehind : x ∉ stagePlaces (d.stages.drop (k + 1)) := fun hmem =>
    (List.nodup_append.1 hown).2.2 x hx x hmem rfl
  have hnone : referencesAt x (if d.stages.isEmpty && d.preamble.all isArg
      then [⟨.noBase, Position.start⟩] else []) = [] := by
    refine referencesAt_eq_nil fun f hf => ?_
    split at hf
    · rw [List.mem_singleton.1 hf]
      rfl
    · cases hf
  have hstages : stageFindings d (metaNames d) [] d.stages =
      stageFindings d (metaNames d) [] (d.stages.take k) ++
        stageFindings d (metaNames d) (d.settledBefore k) (s :: d.stages.drop (k + 1)) := by
    rw [settledBefore, ← stageFindings_append, ← hsplit]
  rw [check]
  dsimp only
  rw [referencesAt_append, referencesAt_append, checkPreamble, referencesAt_append, hnone,
    referencesAt_preambleFindings hpreamble,
    referencesAt_eq_nil fun f hf => isReference_nameFindings hf, hstages, referencesAt_append,
    referencesAt_stageFindings_of_notMem d _ hbefore, stageFindings_cons, referencesAt_append,
    referencesAt_append, referencesAt_stageFindings_of_notMem d _ hbehind]
  simp only [List.nil_append, List.append_nil]

/-- At the place of a `FROM` only its own issues are told. -/
theorem referencesAt_base : referencesAt s.position d.check.findings =
      (baseIssues d (metaNames d) s).filter Issue.isReference := by
  have hown := List.nodup_cons.1 (nodup_position_stage hd (List.mem_of_getElem? hs))
  rw [referencesAt_check hd hs List.mem_cons_self, referencesAt_map, if_pos rfl,
    referencesAt_instructionFindings_of_notMem d s hown.1, List.append_nil]

/-- At the place of an instruction only its own issues are told. -/
theorem referencesAt_instruction {p : Nat} {i : Instruction} (hi : s.instructions[p]? = some i) :
    referencesAt i.position d.check.findings =
      (issues (contextAfter d s (startScope d (metaNames d) (d.settledBefore k) s)
        (s.instructions.take p)) i.body).filter Issue.isReference := by
  obtain ⟨hnot, hown⟩ := List.nodup_cons.1 (nodup_position_stage hd (List.mem_of_getElem? hs))
  have hmem : i.position ∈ s.instructions.map Instruction.position :=
    List.mem_map_of_mem (List.mem_of_getElem? hi)
  obtain ⟨hlt, hget⟩ := List.getElem?_eq_some_iff.1 hi
  have hsplit : s.instructions = s.instructions.take p ++ i :: s.instructions.drop (p + 1) := by
    rw [← hget, ← List.drop_eq_getElem_cons hlt, List.take_append_drop]
  have hbase : s.position ≠ i.position := fun h => hnot (h ▸ hmem)
  rw [hsplit, List.map_append, List.map_cons] at hown
  obtain ⟨-, hback, hfront⟩ := List.nodup_append.1 hown
  have hbefore : i.position ∉ (s.instructions.take p).map Instruction.position := fun hin =>
    hfront _ hin _ List.mem_cons_self rfl
  have htold := referencesAt_instructionFindings d s hbefore (List.nodup_cons.1 hback).1
    (startScope d (metaNames d) (d.settledBefore k) s) []
  rw [← hsplit] at htold
  rw [referencesAt_check hd hs (List.mem_cons_of_mem _ hmem), referencesAt_map, if_neg hbase, htold,
    List.nil_append]

end

end Document

end Dockerfile
