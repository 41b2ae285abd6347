import Dockerfile.Lower
import Dockerfile.Proofs.Json.Canonical

/-!
# Payloads

The canonical text of a payload determines what the payload is made of (`payload_inj`): the kind of
the instruction, what the operation does, the keys of its inputs and what its stage starts from.
Tables are determined as maps, since the order of their names is not part of a canonical text.
-/

namespace Dockerfile

open Json

/-- Do two tables give every name the same value? -/
def Table.Same (t u : Table String) : Prop := ∀ name, t.get? name = u.get? name

/-- Are two changes equal, with tables compared as maps? -/
def Change.Same : Change → Change → Prop
  | .env t, .env u => t.Same u
  | .labels t, .labels u => t.Same u
  | c, c' => c = c'

/-- Are two tasks equal, with tables compared as maps? -/
def Task.Same : Task → Task → Prop
  | .config c, .config c' => c.Same c'
  | t, t' => t = t'

/-! ### Parts of tasks -/

/-- Arrays of values that can be told apart. -/
theorem eq_of_sorted_arr {α : Type} {f : α → Json} {l l' : List α}
    (hf : ∀ a b, sorted (f a) = sorted (f b) → a = b)
    (h : sorted (.arr (l.map f)) = sorted (.arr (l'.map f))) : l = l' := by
  simp only [sorted, sortedItems_eq, List.map_map, Json.arr.injEq] at h
  exact (List.map_inj_right fun a b => hf a b).1 h

theorem Table.lookup_toJson {t : Table String} {fields : List (String × Json)}
    (h : t.toJson = .obj fields) (name : String) :
    (fields.lookup name).map sorted = (t.get? name).map .str := by
  obtain rfl := Json.obj.inj h
  induction t with
  | nil => rfl
  | cons entry rest ih =>
    obtain ⟨other, value⟩ := entry
    simp only [List.map_cons, List.lookup_cons, Table.get?] at ih ⊢
    split
    · rfl
    · exact ih rfl

theorem Table.same_of_sorted {t u : Table String} (h : sorted t.toJson = sorted u.toJson) :
    t.Same u := by
  intro name
  have hname : (t.get? name).map Json.str = (u.get? name).map .str := by
    rw [← lookup_toJson rfl, ← lookup_toJson rfl]
    exact lookup_of_sorted_eq h name
  exact Option.map_injective (fun _ _ h => Json.str.inj h) hname

theorem Binding.eq_of_sorted {b b' : Binding} (h : sorted b.toJson = sorted b'.toJson) :
    b = b' := by
  have hfield := lookup_of_sorted_eq h
  have hname : b.name = b'.name := by simpa [List.lookup_cons, sorted] using hfield "key"
  have hvalue : b.value = b'.value := by simpa [List.lookup_cons, sorted] using hfield "value"
  cases b
  cases b'
  simp_all

theorem MountPoint.eq_of_sorted {m m' : MountPoint} (h : sorted m.toJson = sorted m'.toJson) :
    m = m' := by
  have hfield := lookup_of_sorted_eq h
  have htype : m.type = m'.type := by simpa [List.lookup_cons, sorted] using hfield "type"
  have hsource : m.source = m'.source := by simpa [List.lookup_cons] using hfield "source"
  have htarget : m.target = m'.target := by simpa [List.lookup_cons] using hfield "target"
  have hstage : m.origin.stage = m'.origin.stage := by
    simpa [List.lookup_cons] using hfield "source_stage"
  have himage : m.origin.image = m'.origin.image := by
    simpa [List.lookup_cons] using hfield "source_image"
  have hoptions : m.options = m'.options :=
    eq_of_sorted_arr (fun _ _ => Binding.eq_of_sorted)
      (by simpa [List.lookup_cons] using hfield "options")
  obtain ⟨_, _, _, ⟨_, _⟩, _⟩ := m
  obtain ⟨_, _, _, ⟨_, _⟩, _⟩ := m'
  simp_all

theorem lookup_givenField (name other : String) (value : Option Json) :
    (givenField other value).lookup name = if name = other then value else none := by
  cases value with
  | none => simp [givenField]
  | some value =>
    by_cases hname : name = other
    · simp [givenField, hname]
    · simp [givenField, List.lookup_cons, hname, beq_eq_false_iff_ne.2 hname]

theorem HealthTest.eq_of_sorted {t t' : HealthTest} (h : sorted t.toJson = sorted t'.toJson) :
    t = t' := by
  have hstr : Function.Injective (Option.map (sorted ∘ Json.str)) :=
    Option.map_injective fun _ _ h => Json.str.inj h
  have hint : Function.Injective (Option.map (sorted ∘ Json.int)) :=
    Option.map_injective fun _ _ h => Json.int.inj h
  have hfield := lookup_of_sorted_eq h
  simp only [List.lookup_append, lookup_givenField, Option.map_or] at hfield
  have htest : t.test = t'.test := by simpa [List.lookup_cons] using hfield "test"
  have hinterval : t.interval = t'.interval := hstr (by simpa [List.lookup_cons] using hfield "interval")
  have htimeout : t.timeout = t'.timeout := hstr (by simpa [List.lookup_cons] using hfield "timeout")
  have hperiod : t.startPeriod = t'.startPeriod :=
    hstr (by simpa [List.lookup_cons] using hfield "start_period")
  have hstart : t.startInterval = t'.startInterval :=
    hstr (by simpa [List.lookup_cons] using hfield "start_interval")
  have hretries : t.retries = t'.retries := hint (by simpa [List.lookup_cons] using hfield "retries")
  cases t
  cases t'
  simp_all

/-! ### Tasks -/

theorem Exec.eq_of_sorted {e e' : Exec} (h : sorted (.obj e.fields) = sorted (.obj e'.fields)) :
    e = e' := by
  have hfield := lookup_of_sorted_eq h
  simp only [Exec.fields] at hfield
  have hargs : e.args = e'.args := by simpa [List.lookup_cons] using hfield "args"
  have henv : e.env = e'.env :=
    eq_of_sorted_arr (fun _ _ => Binding.eq_of_sorted) (by simpa [List.lookup_cons] using hfield "env")
  have hworkdir : e.workdir = e'.workdir := by simpa [List.lookup_cons, sorted] using hfield "workdir"
  have huser : e.user = e'.user := by simpa [List.lookup_cons] using hfield "user"
  have hmounts : e.mounts = e'.mounts :=
    eq_of_sorted_arr (fun _ _ => MountPoint.eq_of_sorted)
      (by simpa [List.lookup_cons] using hfield "mounts")
  have hnetwork : e.network = e'.network := by simpa [List.lookup_cons] using hfield "network"
  have hsecurity : e.security = e'.security := by simpa [List.lookup_cons] using hfield "security"
  have hplatform : e.platform = e'.platform := by simpa [List.lookup_cons] using hfield "platform"
  cases e
  cases e'
  simp_all

theorem FileTask.eq_of_sorted {f f' : FileTask}
    (h : sorted (Task.file f).payload = sorted (Task.file f').payload) : f = f' := by
  have hfield := lookup_of_sorted_eq h
  have haction : f.action.name = f'.action.name := by
    simpa [List.lookup_cons, sorted] using hfield "action"
  have hsources : f.sources = f'.sources := by simpa [List.lookup_cons] using hfield "sources"
  have hdestination : f.destination = f'.destination := by
    simpa [List.lookup_cons, sorted] using hfield "destination"
  have hchown : f.chown = f'.chown := by simpa [List.lookup_cons] using hfield "chown"
  have hchmod : f.chmod = f'.chmod := by simpa [List.lookup_cons] using hfield "chmod"
  have hlink : f.link = f'.link := by simpa [List.lookup_cons, sorted] using hfield "link"
  have hplatform : f.platform = f'.platform := by simpa [List.lookup_cons] using hfield "platform"
  obtain ⟨action, _⟩ := f
  obtain ⟨action', _⟩ := f'
  cases action with
  | copy origin =>
    cases action' with
    | copy origin' =>
      have hstage : origin.stage = origin'.stage := by
        simpa [List.lookup_cons] using hfield "source_stage"
      have himage : origin.image = origin'.image := by
        simpa [List.lookup_cons] using hfield "source_image"
      cases origin
      cases origin'
      simp_all
    | add checksum' => simp [FileAction.name] at haction
  | add checksum =>
    cases action' with
    | copy origin' => simp [FileAction.name] at haction
    | add checksum' =>
      have hchecksum : checksum = checksum' := by simpa [List.lookup_cons] using hfield "checksum"
      simp_all

/-- The setting that a change is about. -/
def Change.setting : Change → String
  | .env _ => "env"
  | .workdir _ => "workdir"
  | .user _ => "user"
  | .ports _ => "exposed_ports"
  | .volumes _ => "volumes"
  | .labels _ => "labels"
  | .healthcheck _ => "healthcheck"
  | .entrypoint _ _ => "entrypoint"
  | .cmd _ => "cmd"
  | .shell _ => "shell"
  | .onbuild _ => "onbuild"
  | .stopSignal _ => "stop_signal"
  | .maintainer _ => "maintainer"

theorem lookup_dropCmd (drop : Bool) (name : String) :
    (if drop then [("cmd", Json.null)] else []).lookup name =
      if drop && name = "cmd" then some Json.null else none := by
  cases drop with
  | false => simp
  | true =>
    by_cases hname : name = "cmd"
    · simp [hname]
    · simp [List.lookup_cons, hname, beq_eq_false_iff_ne.2 hname]

theorem Change.same_of_sorted {c c' : Change} (h : sorted c.toJson = sorted c'.toJson) :
    c.Same c' := by
  have hfield := lookup_of_sorted_eq h
  have hmain := hfield c.setting
  -- Changes of two settings differ at the setting of the first one, so one setting is left.
  cases c <;> cases c' <;>
    simp [Change.setting, Change.fields, List.lookup_cons, lookup_dropCmd, sorted] at hmain
  case env.env => exact Table.same_of_sorted hmain
  case labels.labels => exact Table.same_of_sorted hmain
  case healthcheck.healthcheck => exact congrArg Change.healthcheck (HealthTest.eq_of_sorted hmain)
  case entrypoint.entrypoint args drop args' drop' =>
    have hcmd := hfield "cmd"
    have hdrop : drop = drop' := by
      cases drop <;> cases drop' <;> simp [Change.fields, List.lookup_cons] at hcmd ⊢
    show Change.entrypoint args drop = Change.entrypoint args' drop'
    rw [hmain, hdrop]
  case cmd.entrypoint =>
    -- A command that an entry point drops is `null` and no list.
    exact absurd hmain.2 (by simp [strings])
  -- The other settings hold one text or one list of texts.
  all_goals simpa [Change.Same] using hmain

theorem Task.same_of_sorted {t t' : Task} (h : sorted t.payload = sorted t'.payload) :
    t.Same t' := by
  cases t with
  | exec e =>
    cases t' with
    | exec e' => exact congrArg Task.exec (Exec.eq_of_sorted h)
    | file f' =>
      have haction := lookup_of_sorted_eq h "action"
      simp [Exec.fields, List.lookup_cons] at haction
    | config c' =>
      have hchanges := lookup_of_sorted_eq h "changes"
      simp [Exec.fields, List.lookup_cons] at hchanges
  | file f =>
    cases t' with
    | exec e' =>
      have haction := lookup_of_sorted_eq h "action"
      simp [Exec.fields, List.lookup_cons] at haction
    | file f' => exact congrArg Task.file (FileTask.eq_of_sorted h)
    | config c' =>
      have haction := lookup_of_sorted_eq h "action"
      simp [List.lookup_cons] at haction
  | config c =>
    cases t' with
    | exec e' =>
      have hchanges := lookup_of_sorted_eq h "changes"
      simp [Exec.fields, List.lookup_cons] at hchanges
    | file f' =>
      have haction := lookup_of_sorted_eq h "action"
      simp [List.lookup_cons] at haction
    | config c' =>
      have hchanges := lookup_of_sorted_eq h "changes"
      simp only [List.lookup_cons_self, Option.map_some, Option.some.injEq] at hchanges
      exact Change.same_of_sorted hchanges

/-! ### Payloads -/

theorem Kind.ofName?_name (kind : Kind) : Kind.ofName? kind.name = some kind := by
  cases kind <;> rfl

theorem Kind.name_injective {kind kind' : Kind} (h : kind.name = kind'.name) : kind = kind' := by
  have hname := Kind.ofName?_name kind
  rw [h, Kind.ofName?_name] at hname
  exact (Option.some.inj hname).symm

namespace Lower

theorem payload_inj {kind kind' : Kind} {task task' : Task} {keys keys' : List String}
    {root root' : Option (String × Option String)}
    (h : (payload kind task keys root).canonical = (payload kind' task' keys' root').canonical) :
    kind = kind' ∧ task.Same task' ∧ keys = keys' ∧ root = root' := by
  have hfield := lookup_of_sorted_eq (sorted_eq_of_canonical_eq h)
  have hkind : kind.name = kind'.name := by simpa [List.lookup_cons, sorted] using hfield "instruction"
  have hargs : sorted task.payload = sorted task'.payload := by
    simpa [List.lookup_cons] using hfield "args"
  have hinputs : keys = keys' := by simpa [List.lookup_cons] using hfield "inputs"
  have hbase := hfield "base"
  refine ⟨Kind.name_injective hkind, Task.same_of_sorted hargs, hinputs, ?_⟩
  rcases root with _ | ⟨image, platform⟩ <;> rcases root' with _ | ⟨image', platform'⟩
  · rfl
  · simp [List.lookup_cons] at hbase
  · simp [List.lookup_cons] at hbase
  · have hbase : sorted (.obj [("image", .str image), ("platform", .ofOption platform)]) =
        sorted (.obj [("image", .str image'), ("platform", .ofOption platform')]) := by
      simpa [List.lookup_cons] using hbase
    have himage : image = image' := by
      simpa [List.lookup_cons, sorted] using lookup_of_sorted_eq hbase "image"
    have hplatform : platform = platform' := by
      simpa [List.lookup_cons] using lookup_of_sorted_eq hbase "platform"
    rw [himage, hplatform]

end Lower

end Dockerfile
