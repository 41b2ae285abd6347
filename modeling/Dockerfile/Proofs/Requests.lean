import Dockerfile.Proofs.Sequence
import Dockerfile.Proofs.Text
import Dockerfile.Request.Loader

/-!
# Gathered requests

A loader is told sources one after the other. What a source binds, and the targets and platforms
that it names, are said here in the order in which they count (`Source.bindings`, `Source.targets`,
`Source.platforms`). A source that is read without a fault sets just that (`load_eq`), and a run of
such sources leaves each name with the last value that it is bound to, in the order in which the
names are bound first (`later_sources_win`). All of this holds whatever the `Decoders` make of the
texts of documents and of settings files.

A source with a fault sets what stands before the piece that is at fault, a field or an argument, and
nothing else: `Source.FailsAfter` says for each fault what that is (`failed_load_keeps`).
-/

namespace Dockerfile.Request

variable {decoders : Decoders}

/-! ### What a source gives -/

/-- What a document has for some fields, in the order of the fields. Null counts as nothing. -/
def fieldCells (data : Data) (fields : List String) : List Data.Cell :=
  (fields.filterMap data.field?).filter fun cell =>
    match cell with
    | .leaf .null => false
    | _ => true

/-- The text that a name is bound to by a value. Null stands for the empty text. -/
def boundText : Value → String
  | .null => ""
  | value => value.text

/-- The build arguments that some fields of a document bind, in the order of the fields. -/
def fieldBindings (data : Data) (fields : List String) : List (String × String) :=
  (fieldCells data fields).flatMap fun cell =>
    ((data.entries? cell).getD []).map fun entry => (entry.1.text, boundText (data.value entry.2))

/-- The targets that a document names, in the order of their fields. -/
def documentTargets (data : Data) : List String :=
  (fieldCells data ["target", "target_stage", "targetStage"]).map fun cell => (data.value cell).text

/-- The platforms that a document names. -/
def documentPlatforms (data : Data) : List Value :=
  (fieldCells data ["platform"]).map data.value

/-- The name of an argument: what stands before its first equals sign. -/
def argumentName (text : String) : String := String.ofList (text.toList.takeWhile (· != '='))

/-- What an argument binds: its name, to what stands behind the equals sign or, if there is none, to
what the environment has. -/
def argumentBinding? (environment : Table String) (text : String) : Option (String × String) :=
  (((text.toList.dropWhile (· != '=')).tail?.map String.ofList).or
    (environment.get? (argumentName text))).map fun value => (argumentName text, value)

namespace Source

/-- The data of a source that is a document. -/
def data? (decoders : Decoders) (files : Files) : Source → Option Data
  | document _ content => (decoders.document content).toOption
  | documentFile path =>
    (files.text path).toOption.bind fun content => (decoders.document content).toOption
  | _ => none

/-- What a source binds, in order. A name without a value in a settings file is bound to the empty
text. -/
def bindings (decoders : Decoders) (files : Files) (s : Source) : List (String × String) :=
  match s with
  | document _ _ | documentFile _ =>
    (s.data? decoders files).elim [] (fieldBindings · ["build_args", "buildArgs"])
  | settingsFile path =>
    (files.text path).toOption.elim [] fun content =>
      (decoders.settings content).bindings.map fun binding => (binding.1, binding.2.getD "")
  | arguments environment texts => texts.filterMap (argumentBinding? environment)
  | override bindings _ _ => bindings

/-- The targets that a source names, in order. -/
def targets (decoders : Decoders) (files : Files) (s : Source) : List String :=
  match s with
  | override _ target _ => target.toList
  | _ => (s.data? decoders files).elim [] documentTargets

/-- The platforms that a source names, in order. -/
def platforms (decoders : Decoders) (files : Files) (s : Source) : List Value :=
  match s with
  | override _ _ platform => platform.toList.map .str
  | _ => (s.data? decoders files).elim [] documentPlatforms

end Source

/-! ### Documents -/

section Documents

variable {data : Data} {source content : String}

theorem fieldCells_cons (field : String) (fields : List String) :
    fieldCells data (field :: fields) = (given? data field).toList ++ fieldCells data fields := by
  unfold fieldCells given?
  rw [List.filterMap_cons]
  cases h : data.field? field with
  | none => rfl
  | some cell =>
    rw [List.filter_cons]
    split <;> simp_all

theorem filterMap_given? (fields : List String) :
    fields.filterMap (given? data) = fieldCells data fields := by
  induction fields with
  | nil => rfl
  | cons field fields ih =>
    rw [fieldCells_cons, ← ih, List.filterMap_cons]
    cases given? data field <;> rfl

theorem fieldCells_singleton (field : String) :
    fieldCells data [field] = (given? data field).toList := by
  rw [fieldCells_cons]
  exact List.append_nil _

/-- A field of a document has a value that is no map. -/
def NotMap (data : Data) (field : String) : Prop :=
  ∃ cell ∈ fieldCells data [field], data.entries? cell = none

theorem notMap_iff {field : String} :
    NotMap data field ↔ ∃ cell, given? data field = some cell ∧ data.entries? cell = none := by
  simp only [NotMap, fieldCells_singleton, Option.mem_toList]

theorem fieldBindings_cons (field : String) (fields : List String) :
    fieldBindings data (field :: fields) =
      fieldBindings data [field] ++ fieldBindings data fields := by
  unfold fieldBindings
  rw [fieldCells_cons, List.flatMap_append, fieldCells_singleton]

theorem bindings_map (entries : List (Value × Data.Cell)) :
    bindings (entries.map fun entry => (entry.1, data.value entry.2)) =
      entries.map fun entry => (entry.1.text, boundText (data.value entry.2)) := by
  unfold bindings
  rw [List.map_map]
  refine List.map_congr_left fun entry _ => ?_
  cases h : data.value entry.2 <;> simp [boundText, h]

theorem documentArgs_cons_of_notMap {field : String} (h : NotMap data field)
    (fields : List String) :
    documentArgs source data (field :: fields) = ([], some (.fieldNotMap source field)) := by
  obtain ⟨cell, hgiven, hentries⟩ := notMap_iff.1 h
  simp [documentArgs, hgiven, hentries]

theorem documentArgs_cons {field : String} (h : ¬NotMap data field) (fields : List String) :
    documentArgs source data (field :: fields) =
      (fieldBindings data [field] ++ (documentArgs source data fields).1,
        (documentArgs source data fields).2) := by
  cases hgiven : given? data field with
  | none => simp [documentArgs, fieldBindings, fieldCells_singleton, hgiven]
  | some cell =>
    cases hentries : data.entries? cell with
    | none => exact absurd (notMap_iff.2 ⟨cell, hgiven, hentries⟩) h
    | some entries =>
      simp [documentArgs, fieldBindings, fieldCells_singleton, hgiven, hentries, bindings_map]

/-- Fields that are maps, or that are not there, bind in order. -/
theorem documentArgs_append {before : List String} (h : ∀ field ∈ before, ¬NotMap data field)
    (rest : List String) :
    documentArgs source data (before ++ rest) =
      (fieldBindings data before ++ (documentArgs source data rest).1,
        (documentArgs source data rest).2) := by
  induction before with
  | nil => rfl
  | cons field before ih =>
    obtain ⟨hfield, hbefore⟩ := List.forall_mem_cons.1 h
    rw [List.cons_append, documentArgs_cons hfield, ih hbefore, fieldBindings_cons field before,
      List.append_assoc]

/-- What a document without a fault sets. -/
def documentPatch (data : Data) : Patch where
  bindings := fieldBindings data ["build_args", "buildArgs"]
  target := (documentTargets data).getLast?
  platform := (documentPlatforms data).getLast?

theorem ofData_sets (h : (ofData source data).fault = none) :
    (ofData source data).patch = documentPatch data := by
  have htarget : (targetFields.filterMap (given? data)).getLast?.map
      (fun cell => (data.value cell).text) = (documentTargets data).getLast? := by
    rw [filterMap_given?, documentTargets, List.getLast?_map]
    rfl
  have hplatform : (given? data "platform").map data.value =
      (documentPlatforms data).getLast? := by
    rw [documentPlatforms, fieldCells_singleton]
    cases given? data "platform" <;> rfl
  unfold ofData at h ⊢
  split at h
  · cases h
  · rename_i hroot
    rcases forall_or_first (NotMap data) argFields with
      hall | ⟨before, field, after, hfields, hbefore, hfield⟩
    · -- Without a fault every field counts, so nothing stands behind the fields that bind.
      have hargs : documentArgs source data (argFields ++ []) =
          (fieldBindings data argFields ++ [], none) := documentArgs_append hall []
      simp only [List.append_nil] at hargs
      rw [if_neg hroot, hargs]
      dsimp only
      rw [htarget, hplatform]
      rfl
    · rw [hfields, documentArgs_append hbefore, documentArgs_cons_of_notMap hfield] at h
      cases h

theorem ofDocument_sets (h : (ofDocument decoders source content).fault = none) :
    ∃ data, decoders.document content = .ok data ∧
      (ofDocument decoders source content).patch = documentPatch data := by
  unfold ofDocument at h ⊢
  split at h
  · rename_i data hload
    exact ⟨data, hload, ofData_sets h⟩
  · cases h
  · cases h

end Documents

/-! ### Arguments -/

theorem readArgument_eq (text : String) :
    readArgument text =
      if argumentName text = "" then .error (.argument text)
      else .ok (argumentName text, (text.toList.dropWhile (· != '=')).tail?.map String.ofList) := by
  unfold readArgument
  rw [Text.cutString_eq_takeWhile]
  simp only [String.isEmpty_iff]
  rfl

theorem ofArguments_cons_of_nameless {text : String} (h : argumentName text = "")
    (environment : Table String) (texts : List String) :
    ofArguments environment (text :: texts) = { fault := some (.argument text) } := by
  simp [ofArguments, readArgument_eq, h]

theorem ofArguments_cons {text : String} (h : argumentName text ≠ "") (environment : Table String)
    (texts : List String) :
    (ofArguments environment (text :: texts)).fault = (ofArguments environment texts).fault ∧
    (ofArguments environment (text :: texts)).patch =
      { (ofArguments environment texts).patch with
        bindings := [text].filterMap (argumentBinding? environment) ++
          (ofArguments environment texts).patch.bindings } := by
  simp only [ofArguments, readArgument_eq, if_neg h, argumentBinding?, List.filterMap_cons,
    List.filterMap_nil]
  split
  · rename_i value hvalue
    rw [hvalue]
    exact ⟨rfl, rfl⟩
  · rename_i hvalue
    rw [hvalue]
    exact ⟨rfl, rfl⟩

/-- Arguments with names bind in order. -/
theorem ofArguments_append {before : List String} (h : ∀ text ∈ before, argumentName text ≠ "")
    (environment : Table String) (rest : List String) :
    (ofArguments environment (before ++ rest)).fault = (ofArguments environment rest).fault ∧
    (ofArguments environment (before ++ rest)).patch =
      { (ofArguments environment rest).patch with
        bindings := before.filterMap (argumentBinding? environment) ++
          (ofArguments environment rest).patch.bindings } := by
  induction before with
  | nil => exact ⟨rfl, rfl⟩
  | cons text before ih =>
    obtain ⟨htext, hbefore⟩ := List.forall_mem_cons.1 h
    obtain ⟨hfault, hpatch⟩ := ofArguments_cons htext environment (before ++ rest)
    obtain ⟨ihfault, ihpatch⟩ := ih hbefore
    refine ⟨hfault.trans ihfault, ?_⟩
    rw [List.cons_append, hpatch, ihpatch, ← List.append_assoc, ← List.filterMap_append]
    rfl

/-! ### Later sources win -/

theorem update_values (t : Table String) (settings : Settings) :
    t.update settings.values =
      t.update (settings.bindings.map fun binding => (binding.1, binding.2.getD "")) := by
  have hvalues : settings.values =
      Table.ofList (settings.bindings.map fun binding => (binding.1, binding.2.getD "")) :=
    Table.map_update (fun value : Option String => value.getD "") [] settings.bindings
  rw [hvalues, Table.update_ofList]

/-- A source that is read without a fault sets what it binds and the last target and platform that
it names. -/
theorem load_eq {files : Files} {source : Source} (h : (source.read decoders files).fault = none)
    (l : Loader) : (l.load decoders files source).1 = {
      buildArgs := l.buildArgs.update (source.bindings decoders files)
      target := (source.targets decoders files).getLast?.or l.target
      platform := (source.platforms decoders files).getLast?.or l.platform } := by
  unfold Loader.load Loader.apply
  cases source with
  | document source content =>
    obtain ⟨data, hload, hpatch⟩ := ofDocument_sets h
    simp only [Source.read, hpatch, Source.bindings, Source.targets, Source.platforms, Source.data?,
      hload]
    rfl
  | documentFile path =>
    cases htext : files.text path with
    | error reason => simp [Source.read, htext] at h
    | ok content =>
      simp only [Source.read, htext] at h
      obtain ⟨data, hload, hpatch⟩ := ofDocument_sets h
      simp only [Source.read, htext, hpatch, Source.bindings, Source.targets, Source.platforms,
        Source.data?]
      simp only [Except.toOption, Option.bind_some, hload]
      rfl
  | settingsFile path =>
    cases htext : files.text path with
    | error reason => simp [Source.read, htext] at h
    | ok content =>
      simp only [Source.read, htext, ofSettings, update_values]
      simp only [Source.bindings, htext]
      rfl
  | arguments environment texts =>
    rcases forall_or_first (argumentName · = "") texts with
      hall | ⟨before, text, after, htexts, hbefore, htext⟩
    · have hpatch := (ofArguments_append hall environment []).2
      rw [List.append_nil] at hpatch
      simp only [Source.read, hpatch, ofArguments, List.append_nil]
      rfl
    · rw [Source.read, htexts, (ofArguments_append hbefore environment _).1,
        ofArguments_cons_of_nameless htext] at h
      cases h
  | override bindings target platform =>
    cases target <;> cases platform <;> rfl

/-- What a loader holds after some sources, each read from the files as they are then. -/
def Loader.after (l : Loader) (decoders : Decoders) (steps : List (Files × Source)) : Loader :=
  steps.foldl (fun l step => (l.load decoders step.1 step.2).1) l

/-- What a run of sources without a fault sets is what all of them set, one behind the other. -/
theorem after_eq {steps : List (Files × Source)}
    (h : ∀ step ∈ steps, (step.2.read decoders step.1).fault = none) (l : Loader) :
    l.after decoders steps = {
      buildArgs := l.buildArgs.update (steps.flatMap fun step => step.2.bindings decoders step.1)
      target := (steps.flatMap fun step => step.2.targets decoders step.1).getLast?.or l.target
      platform := (steps.flatMap fun step => step.2.platforms decoders step.1).getLast?.or
        l.platform } := by
  induction steps generalizing l with
  | nil => rfl
  | cons step steps ih =>
    obtain ⟨hstep, hsteps⟩ := List.forall_mem_cons.1 h
    change (l.load decoders step.1 step.2).1.after decoders steps = _
    rw [ih hsteps, load_eq hstep]
    simp only [List.flatMap_cons, Table.update_append, List.getLast?_append, Option.or_assoc]

/-- However texts are decoded: after sources without a fault, a build argument has the value of its
last binding, the build arguments stand in the order of their first bindings, and target and platform
are the last ones that were named. -/
theorem later_sources_win (decoders : Decoders) (steps : List (Files × Source))
    (h : ∀ step ∈ steps, (step.2.read decoders step.1).fault = none) :
    let l := Loader.after {} decoders steps
    let bound := steps.flatMap fun step => step.2.bindings decoders step.1
    (∀ name value, l.buildArgs.get? name = some value ↔
      ∃ before after, bound = before ++ (name, value) :: after ∧ name ∉ after.map Prod.fst) ∧
    l.buildArgs.names = (bound.map Prod.fst).eraseDups ∧
    l.target = (steps.flatMap fun step => step.2.targets decoders step.1).getLast? ∧
    l.platform = (steps.flatMap fun step => step.2.platforms decoders step.1).getLast? := by
  intro l bound
  have hl := after_eq h {}
  have hargs : l.buildArgs = Table.ofList bound := congrArg Loader.buildArgs hl
  refine ⟨?_, ?_, ?_, ?_⟩
  · intro name value
    rw [hargs]
    exact Table.get?_ofList_eq_some_iff
  · rw [hargs]
    exact Table.names_ofList bound
  · exact (congrArg Loader.target hl).trans Option.or_none
  · exact (congrArg Loader.platform hl).trans Option.or_none

/-- A document with both fields of build arguments and two targets, a settings file, arguments of
which one is taken from the environment and one is not set there, and an override. -/
theorem later_sources_win_mixed :
    let decoders : Decoders := {
      document := fun _ => .ok ⟨.collection 0, [
        (0, .map [(.str "build_args", .collection 1), (.str "buildArgs", .collection 2),
          (.str "targetStage", .leaf (.str "u")), (.str "target", .leaf (.str "t")),
          (.str "platform", .leaf (.str "linux"))]),
        (1, .map [(.str "A", .leaf (.bool true)), (.int 8, .leaf .null)]),
        (2, .map [(.int 8, .leaf (.list [.int 1]))])]⟩
      settings := fun text => ⟨[("C", some text), ("8", some "four"), ("D", none)], []⟩ }
    let files : Files := fun path => if path = "args.env" then .ok "three" else .error .missing
    let steps : List (Files × Source) := [
      (files, .document "<request>" "build_args: .."), (files, .settingsFile "args.env"),
      (files, .arguments [("HOME", "/h")] ["C=five", "HOME", "UNSET"]),
      (files, .override [("A", "six")] none none)]
    (∀ step ∈ steps, (step.2.read decoders step.1).fault = none) ∧
      (Loader.after {} decoders steps).buildArgs.names = ["A", "8", "C", "D", "HOME"] ∧
      (Loader.after {} decoders steps).buildArgs.get? "8" = some "four" ∧
      (Loader.after {} decoders steps).buildArgs.get? "UNSET" = none ∧
      (Loader.after {} decoders steps).target = some "u" ∧
      (Loader.after {} decoders steps).platform.map Value.text = some "linux" := by
  intro decoders files steps
  obtain ⟨hall, hbound, htargets, hplatforms⟩ :
      (steps.all fun step => (step.2.read decoders step.1).fault.isNone) = true ∧
      (steps.flatMap fun step => step.2.bindings decoders step.1) =
        [("A", "True"), ("8", ""), ("8", "[1]"), ("C", "three"), ("8", "four"), ("D", ""),
          ("C", "five"), ("HOME", "/h"), ("A", "six")] ∧
      (steps.flatMap fun step => step.2.targets decoders step.1) = ["t", "u"] ∧
      (steps.flatMap fun step => step.2.platforms decoders step.1).map Value.text = ["linux"] := by
    decide +kernel
  have hok : ∀ step ∈ steps, (step.2.read decoders step.1).fault = none := fun step hstep =>
    Option.isNone_iff_eq_none.1 (List.all_eq_true.1 hall step hstep)
  obtain ⟨hget, hnames, htarget, hplatform⟩ := later_sources_win decoders steps hok
  rw [hbound] at hget hnames
  refine ⟨hok, hnames, ?_, ?_, ?_, ?_⟩
  · exact (hget "8" "four").2 ⟨[("A", "True"), ("8", ""), ("8", "[1]"), ("C", "three")],
      [("D", ""), ("C", "five"), ("HOME", "/h"), ("A", "six")], rfl, by decide⟩
  · rw [Option.eq_none_iff_forall_ne_some]
    intro value hvalue
    obtain ⟨before, after, hall, -⟩ := (hget "UNSET" value).1 hvalue
    have hmem : "UNSET" ∈ (before ++ ("UNSET", value) :: after).map Prod.fst := by simp
    rw [← hall] at hmem
    exact absurd hmem (by decide)
  · rw [htarget, htargets]
    rfl
  · rw [hplatform, ← List.getLast?_map, hplatforms]
    rfl

/-! ### Sources that fail -/

/-- How a document fails, and what it has bound then: it cannot be decoded, it names a value that
does not exist, it is no map, or one of its fields is no map, and then the fields before that one
are bound. -/
inductive DocumentFails (decoders : Decoders) (source content : String) :
    Fault → List (String × String) → Prop
  | malformed (h : decoders.document content = .error .malformed) :
    DocumentFails decoders source content (.malformed source) []
  | unusable {message : String} (h : decoders.document content = .error (.unusable message)) :
    DocumentFails decoders source content (.unusable message) []
  | notMap {data : Data} (h : decoders.document content = .ok data)
    (hroot : data.entries? data.root = none) (hempty : (data.value data.root).isEmpty = false) :
    DocumentFails decoders source content (.notMap source) []
  | field {data : Data} {before after : List String} {field : String}
    (h : decoders.document content = .ok data)
    (hfields : ["build_args", "buildArgs"] = before ++ field :: after)
    (hbefore : ∀ other ∈ before, ¬NotMap data other) (hfield : NotMap data field) :
    DocumentFails decoders source content (.fieldNotMap source field) (fieldBindings data before)

/-- How a source fails, and what it has bound then: as a document, because there is no file to read,
or at an argument without a name, and then the arguments before that one are bound. -/
inductive Source.FailsAfter (decoders : Decoders) (files : Files) :
    Source → Fault → List (String × String) → Prop
  | document {source content : String} {fault : Fault} {bound : List (String × String)}
    (h : DocumentFails decoders source content fault bound) :
    FailsAfter decoders files (.document source content) fault bound
  | documentFile {path content : String} {fault : Fault} {bound : List (String × String)}
    (htext : files.text path = .ok content)
    (h : DocumentFails decoders path content fault bound) :
    FailsAfter decoders files (.documentFile path) fault bound
  | noDocument {path : String} {reason : FileFault} (htext : files.text path = .error reason) :
    FailsAfter decoders files (.documentFile path) (.unreadableRequest path reason) []
  | noSettings {path : String} {reason : FileFault} (htext : files.text path = .error reason) :
    FailsAfter decoders files (.settingsFile path) (.unreadableSettings path reason) []
  | argument {environment : Table String} {texts before after : List String} {text : String}
    (htexts : texts = before ++ text :: after)
    (hbefore : ∀ other ∈ before, argumentName other ≠ "") (htext : argumentName text = "") :
    FailsAfter decoders files (.arguments environment texts) (.argument text)
      (before.filterMap (argumentBinding? environment))

theorem ofData_fails {source content : String} {data : Data} {fault : Fault}
    (hload : decoders.document content = .ok data) (h : (ofData source data).fault = some fault) :
    ∃ bound, DocumentFails decoders source content fault bound ∧
      (ofData source data).patch = { bindings := bound } := by
  unfold ofData at h ⊢
  split at h
  · rename_i hroot
    rw [if_pos hroot]
    rw [Bool.and_eq_true, Option.isNone_iff_eq_none, Bool.not_eq_true'] at hroot
    cases h
    exact ⟨[], .notMap hload hroot.1 hroot.2, rfl⟩
  · rename_i hroot
    rw [if_neg hroot]
    rcases forall_or_first (NotMap data) argFields with
      hall | ⟨before, field, after, hfields, hbefore, hfield⟩
    · rw [← List.append_nil argFields, documentArgs_append hall] at h
      cases h
    · rw [hfields, documentArgs_append hbefore, documentArgs_cons_of_notMap hfield,
        List.append_nil] at h ⊢
      cases h
      exact ⟨_, .field hload hfields hbefore hfield, rfl⟩

theorem ofDocument_fails {source content : String} {fault : Fault}
    (h : (ofDocument decoders source content).fault = some fault) :
    ∃ bound, DocumentFails decoders source content fault bound ∧
      (ofDocument decoders source content).patch = { bindings := bound } := by
  unfold ofDocument at h ⊢
  cases hload : decoders.document content with
  | ok data =>
    rw [hload] at h
    exact ofData_fails hload h
  | error reason =>
    rw [hload] at h
    cases reason with
    | malformed =>
      cases h
      exact ⟨[], .malformed hload, rfl⟩
    | unusable message =>
      cases h
      exact ⟨[], .unusable hload, rfl⟩

theorem read_fails {files : Files} {source : Source} {fault : Fault}
    (h : (source.read decoders files).fault = some fault) :
    ∃ bound, source.FailsAfter decoders files fault bound ∧
      (source.read decoders files).patch = { bindings := bound } := by
  cases source with
  | document source content =>
    obtain ⟨bound, hfails, hpatch⟩ := ofDocument_fails h
    exact ⟨bound, .document hfails, hpatch⟩
  | documentFile path =>
    cases htext : files.text path with
    | error reason =>
      simp only [Source.read, htext] at h ⊢
      cases h
      exact ⟨[], .noDocument htext, rfl⟩
    | ok content =>
      simp only [Source.read, htext] at h ⊢
      obtain ⟨bound, hfails, hpatch⟩ := ofDocument_fails h
      exact ⟨bound, .documentFile htext hfails, hpatch⟩
  | settingsFile path =>
    cases htext : files.text path with
    | error reason =>
      simp only [Source.read, htext] at h ⊢
      cases h
      exact ⟨[], .noSettings htext, rfl⟩
    | ok content =>
      simp only [Source.read, htext] at h
      cases h
  | arguments environment texts =>
    rcases forall_or_first (argumentName · = "") texts with
      hall | ⟨before, text, after, htexts, hbefore, htext⟩
    · rw [Source.read, ← List.append_nil texts, (ofArguments_append hall environment []).1] at h
      cases h
    · obtain ⟨hfault, hpatch⟩ := ofArguments_append hbefore environment (text :: after)
      rw [ofArguments_cons_of_nameless htext, ← htexts] at hfault hpatch
      obtain rfl : Fault.argument text = fault := Option.some.inj (hfault.symm.trans h)
      exact ⟨_, .argument htexts hbefore htext, by simpa [Source.read] using hpatch⟩
  | override bindings target platform => cases h

/-- However texts are decoded: a source that fails leaves target and platform as they are, and of the
build arguments it sets those that stand before the piece at fault. -/
theorem failed_load_keeps (decoders : Decoders) (l : Loader) (files : Files) (source : Source)
    (fault : Fault) (h : (source.read decoders files).fault = some fault) :
    (l.load decoders files source).1.target = l.target ∧
      (l.load decoders files source).1.platform = l.platform ∧
      ∃ bound, source.FailsAfter decoders files fault bound ∧
        (l.load decoders files source).1.buildArgs = l.buildArgs.update bound := by
  obtain ⟨bound, hfails, hpatch⟩ := read_fails h
  have hload : (l.load decoders files source).1 = l.apply { bindings := bound } :=
    congrArg l.apply hpatch
  rw [hload]
  exact ⟨rfl, rfl, bound, hfails, rfl⟩

/-- Decoders of a document whose second field of build arguments is a list. -/
def secondFieldList : Decoders where
  document _ := .ok ⟨.collection 0, [
    (0, .map [(.str "build_args", .collection 1), (.str "buildArgs", .collection 2),
      (.str "target", .leaf (.str "u"))]),
    (1, .map [(.str "A", .leaf (.str "x"))]), (2, .list [.leaf (.str "y")])]⟩
  settings _ := ⟨[], []⟩

/-- A document that fails at its second field of build arguments. -/
theorem failed_load_keeps_first :
    let files : Files := fun _ => .error .missing
    let l : Loader := { buildArgs := [("B", "old")], target := some "t" }
    let source := Source.document "<request>" "build_args: .."
    (source.read secondFieldList files).fault = some (.fieldNotMap "<request>" "buildArgs") ∧
      (l.load secondFieldList files source).1.target = some "t" ∧
      (l.load secondFieldList files source).1.buildArgs = [("B", "old"), ("A", "x")] ∧
      ∃ bound,
        source.FailsAfter secondFieldList files (.fieldNotMap "<request>" "buildArgs") bound ∧
        (l.load secondFieldList files source).1.buildArgs = l.buildArgs.update bound := by
  intro files l source
  have hfault : (source.read secondFieldList files).fault =
      some (.fieldNotMap "<request>" "buildArgs") := by decide +kernel
  obtain ⟨htarget, -, hbound⟩ := failed_load_keeps secondFieldList l files source _ hfault
  exact ⟨hfault, htarget, by decide +kernel, hbound⟩

/-- A document whose second field of build arguments is no map, and arguments of which the second has
no name, change the build arguments although they fail. -/
theorem failed_load_binds :
    let files : Files := fun _ => .error .missing
    let document := Source.document "<request>" "build_args: .."
    let arguments := Source.arguments [] ["B=1", "=z"]
    let l : Loader := {}
    l.buildArgs = [] ∧
      (document.read secondFieldList files).fault =
        some (.fieldNotMap "<request>" "buildArgs") ∧
      (l.load secondFieldList files document).1.buildArgs = [("A", "x")] ∧
      (arguments.read secondFieldList files).fault = some (.argument "=z") ∧
      (l.load secondFieldList files arguments).1.buildArgs = [("B", "1")] := by
  decide +kernel

end Dockerfile.Request
