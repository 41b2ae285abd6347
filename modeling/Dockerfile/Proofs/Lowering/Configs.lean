import Dockerfile.Proofs.Lowering.Variables
import Dockerfile.Proofs.Paths

/-!
# Sound configurations

A configuration is sound if nothing is named twice in it and its working directory is a normalized
path from the root. The empty configuration is sound, an instruction keeps a sound one sound
whatever its texts expand to, and a stage starts with the configuration of its base: so every stage
of a graph has a sound configuration, and its commands and files have sound places (`lower_sound`).
-/

namespace Dockerfile

open Text

/-- Nothing stands twice in a configuration, and its working directory is a folder. -/
structure Config.Sound (c : Config) : Prop where
  env : (Table.names c.env).Nodup
  labels : (Table.names c.labels).Nodup
  ports : c.ports.Nodup
  volumes : c.volumes.Nodup
  workdir : Path.IsFolder c.workdir.toList

/-- A command has no variable twice and runs in a folder, files are brought to a place below the
root, and a new working directory is a folder. -/
def Task.Sound : Task → Prop
  | .exec e => (e.env.map Binding.name).Nodup ∧ Path.IsFolder e.workdir.toList
  | .file f => f.destination.toList.head? = some '/'
  | .config (.workdir path) => Path.IsFolder path.toList
  | .config _ => True

/-- The text of the place that an instruction brings files to. -/
def Body.destination? : Body → Option String
  | .copy c => some c.destination
  | .add a => some a.destination
  | _ => none

theorem Config.sound_initial : Config.initial.Sound where
  env := List.nodup_nil
  labels := List.nodup_nil
  ports := List.nodup_nil
  volumes := List.nodup_nil
  workdir := Path.isFolder_iff.2 ⟨['/'], [], .inl rfl, List.forall_mem_nil _, rfl⟩

theorem Config.Sound.apply {c : Config} (h : c.Sound) {change : Change}
    (hchange : (Task.config change).Sound) : (c.apply change).Sound := by
  cases change with
  | env values => exact { h with env := Table.nodup_names_update h.env values }
  | workdir path => exact { h with workdir := hchange }
  | ports ports => exact { h with ports := nodup_addNew h.ports }
  | volumes paths => exact { h with volumes := nodup_addNew h.volumes }
  | labels labels => exact { h with labels := Table.nodup_names_update h.labels labels }
  | _ => exact { h with }

namespace Lower

/-! ### Tasks -/

namespace Surroundings

variable {s : Surroundings}

theorem isFolder_path (h : s.config.Sound) (text : String) :
    Path.IsFolder (s.path text).toList := by
  unfold path
  rw [String.toList_ofList]
  exact Path.isFolder_normalize_join h.workdir _

theorem head?_destination (h : s.config.Sound) (text : String) :
    (s.destination text).toList.head? = some '/' := by
  have hpath := (s.isFolder_path h text).rooted
  simp only [destination]
  split
  · assumption
  · split
    · rw [String.toList_append, List.head?_append, hpath]
      rfl
    · exact hpath

/-- A slash at the end of a destination stays, whatever the working directory is. -/
theorem getLast?_destination {text : String} (h : text.toList.getLast? = some '/') :
    (s.destination text).toList.getLast? = some '/' := by
  simp only [destination]
  split
  · exact h
  · split
    · rw [String.toList_append]
      exact List.getLast?_concat
    · rename_i hends
      simpa [h] using hends

theorem nodup_names_commandEnv (h : s.scope.Distinct) :
    (s.commandEnv.map Binding.name).Nodup := by
  rw [List.nodup_iff_count_le_one]
  intro name
  have hfilter := congrArg List.length (s.filter_commandEnv h name)
  have hcount : (s.commandEnv.map Binding.name).count name =
      (s.commandEnv.filter (·.name = name)).length := by
    rw [List.count_eq_countP, List.countP_map, List.countP_eq_length_filter]
    congr 1
  rw [hcount, hfilter]
  cases s.scope.lookup name <;> simp

/-- What an instruction comes to in a sound configuration is sound. -/
theorem sound_of_task? (hconfig : s.config.Sound) (hscope : s.scope.Distinct) {body : Body}
    {task : Task} (h : s.task? body = some task) : task.Sound := by
  cases body with
  | run r =>
    cases h
    exact ⟨nodup_names_commandEnv hscope, hconfig.workdir⟩
  | copy | add =>
    cases h
    exact head?_destination hconfig _
  | workdir text =>
    cases h
    exact isFolder_path hconfig _
  | base | arg => cases h
  | _ =>
    cases h
    trivial

/-- Files come to the text that their instruction names, seen from the working directory. -/
theorem exists_destination_of_task? {body : Body} {file : FileTask}
    (h : s.task? body = some (.file file)) :
    ∃ text, body.destination? = some text ∧ file.destination = s.destination (s.word text) := by
  cases body with
  | copy c =>
    cases h
    exact ⟨c.destination, rfl, rfl⟩
  | add a =>
    cases h
    exact ⟨a.destination, rfl, rfl⟩
  | _ => cases h

end Surroundings

theorem Scope.Distinct.after {s : Scope} (h : s.Distinct) (setting : Setting) (metas : Metas)
    (body : Body) : (s.after setting metas body).Distinct := by
  rw [Scope.after_eq]
  induction body.assignments generalizing s with
  | nil => exact h
  | cons a rest ih => exact ih (h.assign setting metas a)

/-! ### Walks -/

/-- A walk with a sound configuration and no argument twice. -/
structure Progress.Sound (p : Progress) : Prop where
  config : p.config.Sound
  args : (Table.names p.args).Nodup

theorem Progress.Sound.distinct {p : Progress} (h : p.Sound) : p.scope.Distinct :=
  ⟨h.config.env, h.args⟩

namespace StageFrame

variable {f : StageFrame} {start p q : Progress} {n : Nat} {i : Instruction}
  {instructions : List Instruction}

theorem Step.sound (step : f.Step p n i q) (h : p.Sound) : q.Sound := by
  have hargs : (Table.names (f.argsAfter p i)).Nodup :=
    (h.distinct.after f.frame.setting f.frame.metas i.body).args
  cases step with
  | pass => exact ⟨h.config, hargs⟩
  | make task keys htask =>
    refine ⟨?_, hargs⟩
    show (configAfter p.config task).Sound
    cases task with
    | config change =>
      exact h.config.apply (Surroundings.sound_of_task? (s := f.surroundings p n) h.config
        h.distinct htask)
    | exec | file => exact h.config

theorem Walked.sound (walk : f.Walked start instructions p) (h : start.Sound) : p.Sound := by
  induction walk with
  | nil => exact h
  | concat _ step ih => exact (lowerInstruction_ok step).2.2.sound ih

/-- The operations of a walk that starts soundly are sound. -/
theorem Walked.sound_task (walk : f.Walked start instructions p) (h : start.Sound)
    (hstart : start.operations = []) {o : Operation} (ho : o ∈ p.operations) : o.task.Sound := by
  obtain ⟨i, q, -, hq, -, htask⟩ := walk.exists_task hstart ho
  have hsound := hq.sound h
  exact Surroundings.sound_of_task? (s := f.surroundings q o.id.position) hsound.config
    hsound.distinct htask

end StageFrame

/-! ### Stages -/

theorem Progress.sound_start {base : Option Lowered} (h : ∀ b ∈ base, b.graph.config.Sound) :
    (Progress.start base).Sound := by
  refine ⟨?_, List.nodup_nil⟩
  cases base with
  | none => exact Config.sound_initial
  | some b => exact h b rfl

/-- A stage and its operations are sound. -/
structure Lowered.Sound (l : Lowered) : Prop where
  config : l.graph.config.Sound
  tasks : ∀ o ∈ l.operations, o.task.Sound

theorem sound_of_lowerStage {frame : Frame} {done : List Lowered} {plan : Plan} {l : Lowered}
    (hdone : ∀ b ∈ done, b.Sound) (h : (lowerStage frame done plan).result = .ok l) : l.Sound := by
  obtain ⟨platform, p, -, hwalk, rfl⟩ := lowerStage_ok h
  have hstart : (Progress.start (baseIn? done plan)).Sound := by
    refine Progress.sound_start fun b hb => (hdone b ?_).config
    obtain ⟨n, -, hn⟩ := Option.bind_eq_some_iff.1 hb
    exact List.mem_of_find?_eq_some hn
  exact ⟨(hwalk.sound hstart).config, fun o ho => hwalk.sound_task hstart rfl ho⟩

theorem Built.sound {frame : Frame} {plans : List Plan} {order : List Nat} {done : List Lowered}
    (h : Built frame plans order done) : ∀ l ∈ done, l.Sound := by
  induction h with
  | nil => exact List.forall_mem_nil _
  | concat _ _ step ih =>
    exact List.forall_mem_append.2 ⟨ih, List.forall_mem_singleton.2 (sound_of_lowerStage ih step)⟩

/-- The stages of a graph have sound configurations and its operations are sound. Where the text of
a destination, expanded with what its place sees, ends with a slash, the destination does. -/
theorem lower_sound {d : Document} {job : Job} {r : Resolution} {g : Graph} (hd : d.Numbered)
    (h : (d.lower job r).result = .ok g) :
    (∀ s ∈ g.stages, s.config.Sound) ∧ (∀ o ∈ g.operations, o.task.Sound) ∧
      ∀ o ∈ g.operations, ∀ file, o.task = .file file →
        ∃ stage i text look, d.stages[o.id.stage]? = some stage ∧
          stage.instructions[o.id.position]? = some i ∧ i.body.destination? = some text ∧
          (∀ other, (job.planner d r).Sees stage
            (assignments (stage.instructions.take o.id.position)) other ↔ other = look) ∧
          (((Phrase.word text).value d.escape look).toList.getLast? = some '/' →
            file.destination.toList.getLast? = some '/') := by
  obtain ⟨plans, order, done, run⟩ := lower_ok h
  refine ⟨?_, ?_, ?_⟩
  · intro s hs
    obtain ⟨l, hl, rfl⟩ := run.mem_stages.1 hs
    exact (run.built.sound l hl).config
  · intro o ho
    obtain ⟨l, hl, ho⟩ := run.exists_of_mem_operations ho
    exact (run.built.sound l hl).tasks o ho
  · intro o ho file hfile
    obtain ⟨stage, i, s, hstage, hi, -, hscope, hsetting, htask⟩ := run.exists_task hd ho
    rw [hfile] at htask
    obtain ⟨text, htext, hdestination⟩ := s.exists_destination_of_task? htask
    refine ⟨stage, i, text, s.scope.lookup, hstage, hi, htext,
      hscope.sees_iff (job.knowsMetas d r), ?_⟩
    intro hends
    have hword : s.word text = (Phrase.word text).value d.escape s.scope.lookup := by
      show (Phrase.word text).value s.setting.escape s.scope.lookup = _
      rw [hsetting]
      rfl
    rw [hdestination]
    exact s.getLast?_destination (hword ▸ hends)

/-- Two stages whose working directories and destinations go through doubled slashes, folders above
and variables, with names and paths that stand twice. -/
theorem lower_sound_nested : ∃ d g, Document.parse
      ("FROM a AS b\nENV A=1 A=2 D=..//x/\nWORKDIR //srv//./app/../\nENV A=3\nLABEL k=1 k=2\n" ++
        "VOLUME /v /v\nWORKDIR $D\nRUN c\nFROM b\nWORKDIR ../../../q\nCOPY f $D\nADD g ./\n") =
        .ok d ∧
    (d.lower ⟨[], none, none⟩ .empty).result = .ok g ∧
    (g.stages.map fun s => (s.config.env.names, s.config.labels.names, s.config.volumes)) =
      List.replicate 2 (["A", "D"], ["k"], ["/v"]) ∧
    (g.stages.map fun s => s.config.workdir) = ["//x", "//q"] ∧
    (g.operations.filterMap fun o =>
      match o.task with
      | .file f => some f.destination
      | _ => none) = ["//x/", "//q/"] ∧
    (∀ s ∈ g.stages, s.config.Sound) ∧ (∀ o ∈ g.operations, o.task.Sound) ∧
      ∀ o ∈ g.operations, ∀ file, o.task = .file file →
        ∃ stage i text look, d.stages[o.id.stage]? = some stage ∧
          stage.instructions[o.id.position]? = some i ∧ i.body.destination? = some text ∧
          (∀ other, (Job.planner ⟨[], none, none⟩ d .empty).Sees stage
            (assignments (stage.instructions.take o.id.position)) other ↔ other = look) ∧
          (((Phrase.word text).value d.escape look).toList.getLast? = some '/' →
            file.destination.toList.getLast? = some '/') := by
  obtain ⟨d, g, hd, hg, hnames, hworkdirs, hfiles⟩ := exists_lowered_with
    ("FROM a AS b\nENV A=1 A=2 D=..//x/\nWORKDIR //srv//./app/../\nENV A=3\nLABEL k=1 k=2\n" ++
      "VOLUME /v /v\nWORKDIR $D\nRUN c\nFROM b\nWORKDIR ../../../q\nCOPY f $D\nADD g ./\n")
    ⟨[], none, none⟩ (fun _ => .empty)
    (fun _ g =>
      (g.stages.map fun s => (s.config.env.names, s.config.labels.names, s.config.volumes)) =
        List.replicate 2 (["A", "D"], ["k"], ["/v"]) ∧
      (g.stages.map fun s => s.config.workdir) = ["//x", "//q"] ∧
      (g.operations.filterMap fun o =>
        match o.task with
        | .file f => some f.destination
        | _ => none) = ["//x/", "//q/"]) (by decide +kernel)
  exact ⟨d, g, hd, hg, hnames, hworkdirs, hfiles,
    lower_sound (Document.Parsed.numbered (.inl ⟨_, hd⟩)) hg⟩

end Lower

end Dockerfile
