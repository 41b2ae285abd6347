import Dockerfile.Proofs.Lowering.Payload
import Dockerfile.Proofs.Lowering.Run

/-!
# Replaying changes

A graph shows the configuration of a stage twice: as the settings of the stage, and as the changes
of its operations. `replay` puts changes into settings knowing of neither more than the names: the
values of some names are merged, those of others appended, and all others are replaced. The changes
of a stage, replayed on what its base has, give the settings of the stage, and at every command they
give the configuration that the command runs in (`lower_replays`).
-/

namespace Dockerfile

/-! ### Settings -/

namespace Replay

/-- The items of an array. -/
def items : Json → List Json
  | .arr items => items
  | _ => []

/-- The fields of an object. -/
def fields : Json → List (String × Json)
  | .obj fields => fields
  | _ => []

/-- A name with its value, as it stands in the settings. -/
def pair (name : String) (value : Json) : Json := .obj [("key", .str name), ("value", value)]

/-- Is an item the value of a name? -/
def isPairOf (name : String) (item : Json) : Bool :=
  match (fields item).lookup "key" with
  | some (.str other) => other = name
  | _ => false

/-- Sets the value of a name in its place, or at the end. -/
def setPair (name : String) (value : Json) : List Json → List Json
  | [] => [pair name value]
  | item :: rest =>
    if isPairOf name item then pair name value :: rest else item :: setPair name value rest

/-- Are two values the same text? -/
def sameText : Json → Json → Bool
  | .str a, .str b => a = b
  | _, _ => false

/-- Adds an item that is not there. -/
def addItem (done : List Json) (item : Json) : List Json :=
  if done.any (sameText item) then done else done ++ [item]

/-- The value of a setting behind a change of it. -/
def merge (name : String) (old new : Json) : Json :=
  if ["env", "labels"].contains name then
    .arr ((fields new).foldl (fun done field => setPair field.1 field.2 done) (items old))
  else if ["exposed_ports", "volumes"].contains name then
    .arr ((items new).foldl addItem (items old))
  else if name = "onbuild" then .arr (items old ++ items new)
  else new

/-- The settings behind a change of one of them. -/
def put (settings : Table Json) (field : String × Json) : Table Json :=
  settings.set field.1 (merge field.1 ((settings.get? field.1).getD .null) field.2)

end Replay

open Replay

/-- The settings of a configuration by their names. -/
def Config.settings (c : Config) : Table Json := fields c.toJson

/-- The changes that an operation shows. -/
def Operation.changes (o : Operation) : List (String × Json) :=
  match o.task with
  | .config change => change.fields
  | _ => []

/-- The settings behind the changes of some operations. -/
def replay (settings : Table Json) (operations : List Operation) : Table Json :=
  (operations.flatMap Operation.changes).foldl put settings

/-- The configuration that a stage of a graph starts from. -/
def Graph.startOf? (g : Graph) (s : StageGraph) : Option Config :=
  match s.baseStage with
  | none => some .initial
  | some b => (g.stage? b).map StageGraph.config

/-! ### Changes -/

namespace Replay

theorem setPair_pairsJson (t : Table String) (name value : String) :
    setPair name (.str value) (items t.pairsJson) = items (t.set name value).pairsJson := by
  induction t with
  | nil => rfl
  | cons entry rest ih =>
    obtain ⟨other, old⟩ := entry
    show (if decide (other = name) then _ else _ :: setPair _ _ (items (Table.pairsJson rest))) = _
    rw [Table.set, ih]
    by_cases h : other = name
    · simp [h]
      rfl
    · simp [h]
      rfl

theorem merge_table {name : String} (h : name = "env" ∨ name = "labels") (t values : Table String) :
    merge name t.pairsJson values.toJson = (t.update values).pairsJson := by
  have hname : ["env", "labels"].contains name = true := by simpa using h
  rw [merge, if_pos hname]
  show Json.arr (List.foldl _ (items t.pairsJson) (values.map fun e => (e.1, Json.str e.2))) =
    Json.arr (items (t.update values).pairsJson)
  congr 1
  induction values generalizing t with
  | nil => rfl
  | cons entry rest ih =>
    rw [List.map_cons, List.foldl_cons, setPair_pairsJson]
    exact ih (t.set entry.1 entry.2)

theorem any_sameText (done : List String) (item : String) :
    (done.map Json.str).any (sameText (.str item)) = done.contains item := by
  induction done with
  | nil => rfl
  | cons other rest ih =>
    rw [List.map_cons, List.any_cons, ih, List.contains_cons]
    rfl

theorem merge_strings {name : String} (h : name = "exposed_ports" ∨ name = "volumes")
    (done more : List String) :
    merge name (.strings done) (.strings more) = .strings (addNew done more) := by
  have hname : ["exposed_ports", "volumes"].contains name = true := by simpa using h
  have hother : ["env", "labels"].contains name = false := by rcases h with rfl | rfl <;> rfl
  rw [merge, hother, if_neg Bool.false_ne_true, if_pos hname]
  show Json.arr ((more.map Json.str).foldl addItem (done.map Json.str)) = Json.arr _
  congr 1
  induction more generalizing done with
  | nil => rfl
  | cons item rest ih =>
    have hitem : addItem (done.map Json.str) (.str item) =
        (if done.contains item then done else done ++ [item]).map Json.str := by
      rw [addItem, any_sameText]
      split
      · rfl
      · rw [List.map_append]
        rfl
    rw [List.map_cons, List.foldl_cons, hitem, ih]
    rfl

theorem merge_onbuild (done more : List String) :
    merge "onbuild" (.strings done) (.strings more) = .strings (done ++ more) := by
  show Json.arr (done.map Json.str ++ more.map Json.str) = Json.arr ((done ++ more).map Json.str)
  rw [List.map_append]

end Replay

/-- What a change shows is what it does. -/
theorem Config.settings_apply (c : Config) (change : Change) :
    (c.apply change).settings = change.fields.foldl put c.settings := by
  cases change with
  | env values =>
    show _ = Table.set "env" (merge "env" c.env.pairsJson values.toJson) c.settings
    rw [merge_table (.inl rfl)]
    rfl
  | labels values =>
    show _ = Table.set "labels" (merge "labels" c.labels.pairsJson values.toJson) c.settings
    rw [merge_table (.inr rfl)]
    rfl
  | ports items =>
    show _ = Table.set "exposed_ports"
      (merge "exposed_ports" (.strings c.ports) (.strings items)) c.settings
    rw [merge_strings (.inl rfl)]
    rfl
  | volumes paths =>
    show _ = Table.set "volumes" (merge "volumes" (.strings c.volumes) (.strings paths)) c.settings
    rw [merge_strings (.inr rfl)]
    rfl
  | onbuild expression =>
    show _ = Table.set "onbuild"
      (merge "onbuild" (.strings c.onbuild) (.strings [expression])) c.settings
    rw [merge_onbuild]
    rfl
  | entrypoint args dropCmd => cases dropCmd <;> rfl
  | _ => rfl

theorem replay_append (settings : Table Json) (before after : List Operation) :
    replay settings (before ++ after) = replay (replay settings before) after := by
  simp only [replay, List.flatMap_append, List.foldl_append]

theorem replay_singleton (c : Config) (o : Operation) :
    replay c.settings [o] = (Lower.StageFrame.configAfter c o.task).settings := by
  rw [replay, List.flatMap_singleton]
  unfold Operation.changes
  cases o.task with
  | config change => exact (c.settings_apply change).symm
  | _ => rfl

theorem Table.pairsJson_inj {t u : Table String} (h : t.pairsJson = u.pairsJson) : t = u := by
  refine (List.map_inj_right ?_).1 (Json.arr.inj h)
  rintro ⟨n, v⟩ ⟨n', v'⟩ h
  simpa [Binding.toJson] using h

theorem elim_null_inj {α : Type} {f : α → Json} (hf : ∀ a b, f a = f b → a = b)
    (hnull : ∀ a, f a ≠ .null) {a b : Option α} (h : a.elim .null f = b.elim .null f) : a = b := by
  cases a with
  | none => cases b with
    | none => rfl
    | some b => exact absurd h.symm (hnull b)
  | some a => cases b with
    | none => exact absurd h (hnull a)
    | some b => exact congrArg some (hf a b h)

/-- The settings of a configuration determine it. -/
theorem Config.settings_injective {c c' : Config} (h : c.settings = c'.settings) : c = c' := by
  simp only [settings, fields, toJson, List.cons.injEq, Prod.mk.injEq, true_and, and_true,
    Json.str.injEq, Json.ofOption_inj, Json.strings_inj] at h
  obtain ⟨henv, hworkdir, huser, hports, hvolumes, hlabels, hentrypoint, hcmd, hshell, hhealth,
    hsignal, honbuild, hmaintainer⟩ := h
  have hhealth := elim_null_inj
    (fun a b h => HealthTest.eq_of_sorted (congrArg Json.sorted h)) (fun _ h => by cases h) hhealth
  have henv := Table.pairsJson_inj henv
  have hlabels := Table.pairsJson_inj hlabels
  have hentrypoint := elim_null_inj (fun _ _ => Json.strings_inj.1) (fun _ h => by cases h)
    hentrypoint
  have hcmd := elim_null_inj (fun _ _ => Json.strings_inj.1) (fun _ h => by cases h) hcmd
  cases c
  cases c'
  simp_all

/-! ### Commands -/

/-- A command of a `RUN` runs in a configuration. -/
structure Exec.RunsIn (e : Exec) (c : Config) (r : Run) : Prop where
  workdir : e.workdir = c.workdir
  user : e.user = c.user
  env : ∀ entry ∈ c.env, ⟨entry.1, entry.2⟩ ∈ e.env
  shell : r.command.isExec = false → ∃ text, e.args = c.shell ++ [text]

/-- If an operation is a command, it is that of a `RUN` and runs in the configuration to which the
changes of the operations before it lead. -/
def RunsAfter (start : Config) (instructions : List Instruction) (before : List Operation)
    (o : Operation) : Prop :=
  ∀ e, o.task = .exec e → ∃ c i r, replay start.settings before = c.settings ∧
    instructions[o.id.position]? = some i ∧ i.body = .run r ∧ e.RunsIn c r

/-- What the operations of a stage give when their changes are replayed on the configuration that
the stage starts from. -/
structure Replays (start : Config) (instructions : List Instruction) (operations : List Operation)
    (config : Config) : Prop where
  config : ∀ c : Config, replay start.settings operations = c.settings ↔ c = config
  runs : EachAfter (RunsAfter start instructions) operations

theorem RunsAfter.append {start : Config} {instructions : List Instruction}
    {before : List Operation} {o : Operation} (h : RunsAfter start instructions before o)
    (more : List Instruction) : RunsAfter start (instructions ++ more) before o := by
  intro e he
  obtain ⟨c, i, r, hc, hi, hbody, hruns⟩ := h e he
  refine ⟨c, i, r, hc, ?_, hbody, hruns⟩
  rw [List.getElem?_append_left (List.getElem?_eq_some_iff.1 hi).1, hi]

theorem Config.eq_settings_iff {settings : Table Json} {config : Config}
    (h : settings = config.settings) (c : Config) : settings = c.settings ↔ c = config := by
  constructor
  · intro hc
    exact Config.settings_injective (hc.symm.trans h)
  · rintro rfl
    exact h

namespace Lower

theorem Surroundings.exec_runsIn {s : Surroundings} (h : s.scope.env = s.config.env)
    (r : Dockerfile.Run) : (s.exec r).RunsIn s.config r where
  workdir := rfl
  user := rfl
  env := by
    intro entry hentry
    rw [← h] at hentry
    exact List.mem_append_right _ (List.mem_map.2 ⟨entry, hentry, rfl⟩)
  shell := by
    intro hshell
    cases hform : r.command.form with
    | exec args => simp [Command.isExec, hform] at hshell
    | shell misread =>
      refine ⟨s.scope.value s.setting (.command r.command.raw), ?_⟩
      simp only [exec, hform]

theorem Surroundings.of_task?_exec {s : Surroundings} {body : Body} {e : Exec}
    (h : s.task? body = some (.exec e)) : ∃ r, body = .run r ∧ e = s.exec r := by
  cases body with
  | run r =>
    cases h
    exact ⟨r, rfl, rfl⟩
  | _ => cases h

namespace StageFrame

variable {f : StageFrame} {start p q : Progress} {instructions : List Instruction}
  {i : Instruction} {config : Config}

theorem replays_step (w : Replays config instructions p.operations p.config)
    (h : f.Step p instructions.length i q) :
    Replays config (instructions ++ [i]) q.operations q.config := by
  have hruns := w.runs.imp fun _ _ _ ho => ho.append [i]
  cases h with
  | pass htask => exact ⟨w.config, hruns⟩
  | make task keys htask hkeys =>
    have hconfig := (w.config p.config).2 rfl
    refine ⟨Config.eq_settings_iff ?_, eachAfter_concat.2 ⟨hruns, ?_⟩⟩
    · show replay config.settings (p.operations ++ [_]) = _
      rw [replay_append, hconfig, replay_singleton]
      rfl
    · intro e he
      obtain ⟨r, hbody, rfl⟩ := Surroundings.of_task?_exec (htask.trans (congrArg some he))
      refine ⟨p.config, i, r, hconfig, ?_, hbody, Surroundings.exec_runsIn rfl r⟩
      show (instructions ++ [i])[instructions.length]? = some i
      rw [List.getElem?_concat_length]

theorem Walked.replays (h : f.Walked start instructions p) (hstart : start.operations = []) :
    Replays start.config instructions p.operations p.config := by
  induction h with
  | nil =>
    rw [hstart]
    exact ⟨Config.eq_settings_iff rfl, eachAfter_nil⟩
  | concat before step ih => exact replays_step ih (lowerInstruction_ok step).2.2

end StageFrame

/-- The walk over a stage starts from the configuration of the stage of the graph that is its
base. -/
theorem Run.startOf?_eq {d : Document} {job : Job} {r : Resolution} {g : Graph} {plans : List Plan}
    {order earlier : List Nat} {done before : List Lowered} {plan : Plan} {s : StageGraph}
    (run : Run d job r g plans order done) (hd : d.Numbered) (hbefore : before ⊆ done)
    (started : Started d job r plans earlier before) (huses : ∀ m ∈ plan.uses, m ∈ earlier)
    (hs : s.baseStage = plan.base) :
    g.startOf? s = some (Progress.start (baseIn? before plan)).config := by
  unfold Graph.startOf?
  rw [hs]
  cases hb : plan.base with
  | none => simp [Progress.start, baseIn?, hb]
  | some b =>
    obtain ⟨base, hbase, rfl, hfound⟩ := started.exists_baseIn? hd huses hb
    simp [Progress.start, hfound, run.stage?_eq hd (hbefore hbase)]

/-- The changes of a stage of a graph are complete: replayed on the configuration that the stage
starts from, they give the configuration of the stage, and at each command the one that the command
runs in. -/
theorem lower_replays {d : Document} {job : Job} {r : Resolution} {g : Graph} {s : StageGraph}
    (hd : d.Numbered) (h : (d.lower job r).result = .ok g) (hs : s ∈ g.stages) :
    ∃ stage start, d.stages[s.index]? = some stage ∧ g.startOf? s = some start ∧
      Replays start stage.instructions (g.stageOperations s.index) s.config := by
  obtain ⟨plans, order, done, run⟩ := lower_ok h
  obtain ⟨l, hl, rfl⟩ := run.mem_stages.1 hs
  obtain ⟨before, after, hsplit⟩ := List.append_of_mem hl
  obtain ⟨earlier, plan, started, hplan, huses, hlower⟩ :=
    run.started.lowered hd before l after hsplit
  have hbefore : before ⊆ done := by
    rw [hsplit]
    exact List.subset_append_left _ _
  have hstart := run.startOf?_eq hd hbefore started huses (loweredAfter hlower).baseStage
  refine ⟨plan.stage, _, stage_of_plans run.plans_eq hplan, hstart, ?_⟩
  rw [run.stageOperations_eq hd hl]
  obtain ⟨platform, p, -, hw, rfl⟩ := lowerStage_ok hlower
  exact hw.replays rfl

/-- A stage that drops the command of its base and runs a command behind its changes. -/
theorem lower_replays_dropped : ∃ d g s, Document.parse
      ("FROM a AS x\nENV A=1 B=2\nCMD c\nVOLUME v\nFROM x\nSHELL [\"/b\"]\nENV A=3 C=4\n" ++
        "ENTRYPOINT e\nVOLUME w v\nWORKDIR w\nRUN r\n") = .ok d ∧
    (d.lower ⟨[], none, none⟩ .empty).result = .ok g ∧ s ∈ g.stages ∧
    (s.config.env, s.config.cmd, s.config.volumes) =
      ([("A", "3"), ("B", "2"), ("C", "4")], none, ["v", "w"]) ∧
    ∃ stage start, d.stages[s.index]? = some stage ∧ g.startOf? s = some start ∧
      Replays start stage.instructions (g.stageOperations s.index) s.config := by
  obtain ⟨d, g, hd, hg, hstage⟩ := exists_lowered
    ("FROM a AS x\nENV A=1 B=2\nCMD c\nVOLUME v\nFROM x\nSHELL [\"/b\"]\nENV A=3 C=4\n" ++
      "ENTRYPOINT e\nVOLUME w v\nWORKDIR w\nRUN r\n") ⟨[], none, none⟩ (fun _ => .empty)
    (fun g => g.stages.tail.map fun s => (s.config.env, s.config.cmd, s.config.volumes))
    [([("A", "3"), ("B", "2"), ("C", "4")], none, ["v", "w"])] (by decide +kernel)
  obtain ⟨s, hs, hconfig⟩ := List.mem_map.1 (hstage ▸ List.mem_singleton_self _)
  have hmem := List.mem_of_mem_tail hs
  exact ⟨d, g, s, hd, hg, hmem, hconfig,
    lower_replays (Document.Parsed.numbered (.inl ⟨_, hd⟩)) hg hmem⟩

end Lower

end Dockerfile
