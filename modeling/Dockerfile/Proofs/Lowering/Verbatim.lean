import Dockerfile.Proofs.Accepted
import Dockerfile.Proofs.Lowering.Checked
import Dockerfile.Proofs.Lowering.Kept
import Dockerfile.Proofs.Lowering.Protection
import Dockerfile.Proofs.Template.Grammar

/-!
# Checked arguments in a graph

A check looks at arguments without their quotes and escapes, a lowering at their values. The two
differ for a word with a substitution that is not closed or not known, which refers to no variable.
But such a word has a brace, and what is accepted has none. So in the graph of a document without
errors the arguments without variables show what was checked (`lower_shows_checked`).
-/

namespace Dockerfile

/-! ### Words without variables -/

namespace Template

theorem brace_of_reference {cs : List Char}
    (h : reference cs = .unclosed ∨ ∃ body rest, reference cs = .braces body rest) :
    ∃ behind, cs = '\x7b' :: behind := by
  cases cs with
  | nil => simp [reference] at h
  | cons c rest =>
    by_cases hc : c = '\x7b'
    · exact ⟨rest, by rw [hc]⟩
    · unfold reference at h
      simp only [hc, if_false] at h
      split at h
      · simp at h
      · simp at h

theorem brace_mem_unquoteFrom {escape : Char} (hescape : IsEscape escape) {quote : Quote}
    (hquote : quote ≠ .single) (rest : List Char) :
    '\x7b' ∈ unquoteFrom escape quote ('\x7b' :: rest) := by
  have hne : '\x7b' ≠ escape := by rcases hescape with rfl | rfl <;> decide
  have hfront : wordFront escape quote '\x7b' rest = .keep ['\x7b'] quote rest := by
    simp [wordFront, hquote, hne]
  rw [unquoteFrom_cons, hfront]
  exact List.mem_append_left _ List.mem_cons_self

/-- A word without variables and without braces is worth its unquoted text. -/
theorem value_read_plain {escape : Char} (hescape : IsEscape escape) {quote : Quote}
    {cs : List Char} (lookup : Lookup) (hnames : (read .word escape quote cs).names = [])
    (hbrace : '\x7b' ∉ unquoteFrom escape quote cs) :
    (read .word escape quote cs).value lookup = unquoteFrom escape quote cs := by
  fun_induction unquoteFrom escape quote cs with
  | case1 quote =>
    rw [read_nil]
    rfl
  | case2 quote c rest kept quote' rest' hfront _ ih =>
    have hfront' : Mode.front .word escape quote c rest = .keep kept quote' rest' := hfront
    rw [read_cons, hfront'] at hnames ⊢
    dsimp only at hnames ⊢
    rw [names_chars] at hnames
    rw [List.mem_append, not_or] at hbrace
    rw [value_chars, ih hnames hbrace.2]
  | case3 quote c rest' hfront ih =>
    have hfront' : Mode.front .word escape quote c rest' = .dollar rest' := hfront
    have hquote : quote ≠ .single := by
      rintro rfl
      unfold wordFront at hfront
      rw [if_pos rfl] at hfront
      split at hfront <;> cases hfront
    have hclosed : ∀ behind, rest' ≠ '\x7b' :: behind := by
      rintro behind rfl
      exact hbrace (List.mem_cons_of_mem _ (brace_mem_unquoteFrom hescape hquote behind))
    rw [read_cons, hfront'] at hnames ⊢
    dsimp only at hnames ⊢
    cases hr : reference rest' with
    | none =>
      rw [hr] at hnames
      dsimp only at hnames ⊢
      rw [value, ih hnames fun h => hbrace (List.mem_cons_of_mem _ h)]
    | name name behind =>
      rw [hr] at hnames
      cases hnames
    | unclosed =>
      obtain ⟨behind, hopen⟩ := brace_of_reference (.inl hr)
      exact absurd hopen (hclosed behind)
    | braces body rest =>
      obtain ⟨behind, hopen⟩ := brace_of_reference (.inr ⟨body, rest, hr⟩)
      exact absurd hopen (hclosed behind)

end Template


namespace Lower

/-! ### Operations -/

theorem Phrase.value_plain {escape : Char} (hescape : Template.IsEscape escape) {text : String}
    (hvariables : Check.hasVariables escape text = false)
    (hbrace : '\x7b' ∉ (Template.unquote escape text).toList) (lookup : Template.Lookup) :
    (Phrase.word text).value escape lookup = Template.unquote escape text := by
  have hnames : (Template.read .word escape .none text.toList).names = [] := by
    rw [← Template.names_read_text]
    rw [Check.hasVariables, Bool.not_eq_false'] at hvariables
    exact List.isEmpty_iff.1 hvariables
  rw [Template.unquote, String.toList_ofList] at hbrace
  exact congrArg String.ofList (Template.value_read_plain hescape lookup hnames hbrace)

/-- An argument is shown if it is given, and by its unquoted text if it has no variables. -/
def Verbatim (escape : Char) (argument shown : Option String) : Prop :=
  shown.isSome = argument.isSome ∧ ∀ text, argument = some text →
    Check.hasVariables escape text = false → shown = some (Template.unquote escape text)

/-- A port as it is shown: in small letters and with its protocol. -/
def shownPort (text : String) : String :=
  let port := Text.toLower text
  if port.toList.contains '/' then port else port ++ "/tcp"

/-- An operation shows the checked arguments of its instruction. -/
inductive Shows (escape : Char) : Body → Task → Prop where
  | run {r : Dockerfile.Run} {e : Exec} (hnetwork : Verbatim escape r.network e.network)
    (hsecurity : Verbatim escape r.security e.security) : Shows escape (.run r) (.exec e)
  | copy {c : Copy} {f : FileTask} {origin : Source} (haction : f.action = .copy origin)
    (hchown : Verbatim escape c.chown f.chown) (hchmod : Verbatim escape c.chmod f.chmod) :
    Shows escape (.copy c) (.file f)
  | add {a : Add} {f : FileTask} {checksum : Option String} (haction : f.action = .add checksum)
    (hchecksum : Verbatim escape a.checksum checksum)
    (hchown : Verbatim escape a.chown f.chown) (hchmod : Verbatim escape a.chmod f.chmod) :
    Shows escape (.add a) (.file f)
  | expose {ports shown : List String} (hports : List.Forall₂ (fun text port =>
      Check.hasVariables escape text = false →
        port = shownPort (Template.unquote escape text)) ports shown) :
    Shows escape (.expose ports) (.config (.ports shown))
  | stopsignal {signal shown : String}
    (hsignal : Verbatim escape (some signal) (some shown)) :
    Shows escape (.stopsignal signal) (.config (.stopSignal shown))

/-- The instructions with arguments that a check accepts by their form. -/
def formKinds : List Kind := [.run, .copy, .add, .expose, .stopsignal]

section Operations

variable {escape : Char} {s : Surroundings}

theorem verbatim_map (hescape : Template.IsEscape escape)
    (hword : ∀ text, s.word text = (Phrase.word text).value escape s.scope.lookup)
    {argument : Option String} (h : Check.Braceless escape argument) :
    Verbatim escape argument (argument.map s.word) := by
  refine ⟨by simp, ?_⟩
  rintro text rfl hvariables
  rw [Option.map_some, hword, Phrase.value_plain hescape hvariables (h text rfl hvariables)]

/-- An operation whose instruction has no errors shows what was checked. -/
theorem Surroundings.shows (hescape : Template.IsEscape escape)
    (hword : ∀ text, s.word text = (Phrase.word text).value escape s.scope.lookup)
    {body : Body} {task : Task} (h : s.task? body = some task) (hkind : body.kind ∈ formKinds)
    {c : Check.Context} (hc : c.escape = escape) (hissues : Check.Harmless (Check.issues c body)) :
    Shows escape body task := by
  subst hc
  have hshown {argument : Option String} (hargument : Check.Braceless c.escape argument) :=
    verbatim_map hescape hword hargument
  have howner {chown chmod : Option String}
      (h : Check.Harmless (Check.ownershipIssues c chown chmod)) :
      Verbatim c.escape chown (chown.map s.word) ∧ Verbatim c.escape chmod (chmod.map s.word) := by
    obtain ⟨hchown, hchmod⟩ := Check.harmless_append.1 h
    exact ⟨hshown (Check.braceless_of_form (fun _ => rfl)
        (fun _ => Check.brace_notMem_of_isOwner) hchown),
      hshown (Check.braceless_of_form (fun _ => rfl)
        (fun _ => Check.brace_notMem_of_isMode) hchmod)⟩
  cases body with
  | run r =>
    cases h
    obtain ⟨h, -⟩ := Check.harmless_append.1 hissues
    obtain ⟨h, hsecurity⟩ := Check.harmless_append.1 h
    obtain ⟨-, hnetwork⟩ := Check.harmless_append.1 h
    exact .run
      (hshown (Check.braceless_of_form (fun _ => rfl)
        (fun _ => Check.brace_notMem_of_contains (by decide)) hnetwork))
      (hshown (Check.braceless_of_form (fun _ => rfl)
        (fun _ => Check.brace_notMem_of_contains (by decide)) hsecurity))
  | copy i =>
    cases h
    obtain ⟨h, -⟩ := Check.harmless_append.1 hissues
    obtain ⟨-, h⟩ := Check.harmless_append.1 h
    exact .copy rfl (howner h).1 (howner h).2
  | add i =>
    cases h
    obtain ⟨h, hchecksum⟩ := Check.harmless_append.1 hissues
    obtain ⟨-, h⟩ := Check.harmless_append.1 h
    exact .add rfl (hshown (Check.braceless_of_checksumIssues hchecksum)) (howner h).1 (howner h).2
  | expose ports =>
    cases h
    obtain ⟨-, h⟩ := Check.harmless_append.1 hissues
    refine .expose (List.forall₂_map_right_iff.2 (List.forall₂_same.2 ?_))
    intro text htext hvariables
    have hform : Check.Harmless (c.form (some text) Check.isPort .port) := fun issue hissue =>
      h issue (List.mem_flatMap.2 ⟨text, htext, hissue⟩)
    have hbrace := Check.braceless_of_form (fun _ => rfl)
      (fun _ => Check.brace_notMem_of_isPort) hform
    have hvalue : s.word text = Template.unquote c.escape text := by
      rw [hword, Phrase.value_plain hescape hvariables (hbrace text rfl hvariables)]
    rw [← hvalue]
    rfl
  | stopsignal signal =>
    cases h
    obtain ⟨-, h⟩ := Check.harmless_append.1 hissues
    exact .stopsignal (hshown (Check.braceless_of_form (fun _ => rfl)
      (fun _ => Check.brace_notMem_of_isSignal) h))
  | _ => exact absurd hkind (by simp [formKinds, Body.kind])

end Operations

/-! ### Graphs -/

/-- A graph shows what was checked. -/
structure ShowsChecked (d : Document) (g : Graph) : Prop where
  /-- The instructions of the stages that are kept have operations, which show their arguments. -/
  operation : ∀ s ∈ g.stages, ∃ stage, d.stages[s.index]? = some stage ∧
    ∀ n i, stage.instructions[n]? = some i → i.kind ∈ formKinds →
      (∃ o ∈ g.operations, o.id = ⟨s.index, n⟩) ∧
      ∀ o ∈ g.operations, o.id = ⟨s.index, n⟩ → Shows d.escape i.body o.task
  /-- An image without variables is that of its unquoted text, unless the text means a stage. -/
  base : ∀ s ∈ g.stages, ∃ stage, d.stages[s.index]? = some stage ∧
    (Check.hasVariables d.escape stage.base.image = false → s.baseImage =
      if (d.resolve? (Template.unquote d.escape stage.base.image) s.index).isSome
      then Template.unquote d.escape stage.base.image
      else Image.normalize (Template.unquote d.escape stage.base.image))

section Graphs

variable {d : Document} {job : Job} {r : Resolution} {g : Graph} {plans : List Plan}
  {order : List Nat} {done : List Lowered}

theorem Run.shows (run : Run d job r g plans order done) (hd : d.Parsed)
    (hcheck : d.check.errors = []) {o : Operation} (ho : o ∈ g.operations) {stage : Stage}
    {i : Instruction} (hstage : d.stages[o.id.stage]? = some stage)
    (hi : stage.instructions[o.id.position]? = some i) (hkind : i.kind ∈ formKinds) :
    Shows d.escape i.body o.task := by
  obtain ⟨stage', i', s, hstage', hi', -, -, hsetting, htask⟩ := run.exists_task hd.numbered ho
  obtain rfl : stage = stage' := Option.some.inj (hstage.symm.trans hstage')
  obtain rfl : i = i' := Option.some.inj (hi.symm.trans hi')
  have hnot : i.kind ≠ .onbuild := by
    intro honbuild
    rw [honbuild] at hkind
    exact absurd hkind (by decide)
  obtain ⟨c, hc, hissues⟩ := Check.harmless_issues hcheck (List.mem_of_getElem? hstage)
    (List.mem_of_getElem? hi) hnot
  have hword : ∀ text, s.word text = (Phrase.word text).value d.escape s.scope.lookup := by
    intro text
    rw [Surroundings.word, hsetting]
    rfl
  exact Surroundings.shows hd.isEscape hword htask hkind hc hissues

/-- The image of a stage without errors is worth its unquoted text. -/
theorem value_image (hd : d.Parsed) (hcheck : d.check.errors = []) {stage : Stage}
    (hs : stage ∈ d.stages) (hvariables : Check.hasVariables d.escape stage.base.image = false)
    (lookup : Template.Lookup) :
    (Phrase.word stage.base.image).value d.escape lookup =
      Template.unquote d.escape stage.base.image := by
  cases hresolve : d.resolve? (Template.unquote d.escape stage.base.image) stage.index with
  | some n =>
    exact Planner.value_word (p := ⟨d, ⟨d.escape, [], []⟩, [], .empty⟩)
      (Document.namesOk_of_check hcheck) hresolve lookup
  | none =>
    obtain ⟨-, h⟩ := Check.harmless_append.1 (Check.harmless_baseIssues hcheck hs)
    have hbase : Check.base? d stage = none := by
      rw [Check.base?, hvariables, if_neg Bool.false_ne_true, hresolve]
    rw [hvariables, hbase, if_neg (by decide)] at h
    exact Phrase.value_plain hd.isEscape hvariables (Check.braceless_of_imageIssues h) lookup

theorem Run.baseImage_eq (run : Run d job .empty g plans order done) (hd : d.Parsed)
    (hcheck : d.check.errors = []) {s : StageGraph} (hs : s ∈ g.stages) :
    ∃ stage, d.stages[s.index]? = some stage ∧
      (Check.hasVariables d.escape stage.base.image = false → s.baseImage =
        if (d.resolve? (Template.unquote d.escape stage.base.image) s.index).isSome
        then Template.unquote d.escape stage.base.image
        else Image.normalize (Template.unquote d.escape stage.base.image)) := by
  obtain ⟨l, hl, rfl⟩ := run.mem_stages.1 hs
  obtain ⟨before, after, hsplit⟩ := List.append_of_mem hl
  obtain ⟨earlier, plan, hstarted, hplan, huses, hlower⟩ :=
    run.started.lowered hd.numbered before l after hsplit
  have hstage := stage_of_plans run.plans_eq hplan
  refine ⟨plan.stage, hstage, fun hvariables => ?_⟩
  have hvalue : (job.frame d).value plan.stage.base.image =
      Template.unquote d.escape plan.stage.base.image :=
    value_image hd hcheck (List.mem_of_getElem? hstage) hvariables _
  have hindex := (loweredAfter hlower).index
  obtain ⟨env, -, hfrom⟩ := exists_inherits run.plans_eq hplan
  -- The planner resolves the value of the image, which is its unquoted text.
  have hbase : plan.base =
      d.resolve? (Template.unquote d.escape plan.stage.base.image) plan.stage.index := by
    rw [← hvalue]
    exact congrArg Plan.base hfrom
  have hfound : (baseIn? before plan).isSome = plan.base.isSome := by
    cases hb : plan.base with
    | none => simp [baseIn?, hb]
    | some b =>
      obtain ⟨l', -, -, hl'⟩ := hstarted.exists_baseIn? hd.numbered huses hb
      rw [hl']
      rfl
  obtain ⟨platform, p, -, -, rfl⟩ := lowerStage_ok hlower
  have himage : ((stageFrame (job.frame d) before plan platform).lowered p).graph.baseImage =
      if (baseIn? before plan).isSome then (job.frame d).value plan.stage.base.image
      else (job.frame d).root before plan := rfl
  rw [himage, hindex, ← hbase, ← hfound, Frame.root, hvalue]
  cases baseIn? before plan with
  | none | some => rfl

/-- What was checked is what is lowered: in a document without errors, whatever is asked and with the
resolution of the check or without, the arguments without variables are shown by the texts that the
check accepted. -/
theorem lower_shows_checked {source : String} (hparse : Document.parse source = .ok d)
    (hcheck : d.check.errors = []) (hr : r = .empty ∨ r = d.check.resolution)
    (h : (d.lower job r).result = .ok g) : ShowsChecked d g := by
  have hd : d.Parsed := .inl ⟨source, hparse⟩
  have hliteral : r.Literal d := by
    rcases hr with rfl | rfl
    · exact {
        base := fun _ _ _ h => (by cases h)
        origin := fun _ _ _ _ _ _ _ _ _ h => (by cases h) }
    · exact Resolution.literal_check hd.numbered
  rw [lower_literal (Document.namesOk_of_check hcheck) hliteral] at h
  obtain ⟨plans, order, done, run⟩ := lower_ok h
  have hkeeps := run.keeps hd.shaped
  refine ⟨fun s hs => ?_, fun s hs => run.baseImage_eq hd hcheck hs⟩
  obtain ⟨stage, hstage, -, -, -⟩ := hkeeps.outline s hs
  refine ⟨stage, hstage, fun n i hi hkind => ⟨?_, fun o ho hid => ?_⟩⟩
  · have harg : i.kind ≠ .arg := by
      intro harg
      rw [harg] at hkind
      exact absurd hkind (by decide)
    exact hkeeps.exists_operation hs hstage (hd.numbered _ _ hstage) hi harg
  · have ho_stage : d.stages[o.id.stage]? = some stage := by
      rw [hid]
      exact hstage
    have ho_position : stage.instructions[o.id.position]? = some i := by
      rw [hid]
      exact hi
    exact run.shows hd hcheck ho ho_stage ho_position hkind

/-- Quoted and escaped arguments, of which a port and a group are variables. -/
theorem lower_shows_checked_quoted : ∃ d g,
    Document.parse ("FROM 'a'\\b AS x\nEXPOSE 8'0'80 \"53/UDP\" $p\nSTOPSIGNAL SIG'kill'\n" ++
      "FROM \"X\"\nCOPY --chown=u:$v --chmod='0'\\755 e f\nRUN --network=n'one' g\n") = .ok d ∧
    d.check.errors = [] ∧ (d.lower ⟨[], none, none⟩ d.check.resolution).result = .ok g ∧
    g.operations.map Operation.task = [
      .config (.ports ["8080/tcp", "53/udp", "/tcp"]),
      .config (.stopSignal "SIGkill"),
      .file ⟨.copy ⟨none, none⟩, ["e"], "/f", some "u:", some "0755", false, none⟩,
      .exec ⟨["/bin/sh", "-c", "g"], [], "/", none, [], some "none", none, none⟩] ∧
    g.stages.map StageGraph.baseImage = ["docker.io/library/ab:latest", "X"] ∧
    ShowsChecked d g := by
  obtain ⟨d, g, hd, hg, herrors, htasks, himages⟩ := exists_lowered_with
    ("FROM 'a'\\b AS x\nEXPOSE 8'0'80 \"53/UDP\" $p\nSTOPSIGNAL SIG'kill'\n" ++
      "FROM \"X\"\nCOPY --chown=u:$v --chmod='0'\\755 e f\nRUN --network=n'one' g\n")
    ⟨[], none, none⟩ (fun d => d.check.resolution) (fun d g => d.check.errors = [] ∧
      g.operations.map Operation.task = [
        .config (.ports ["8080/tcp", "53/udp", "/tcp"]),
        .config (.stopSignal "SIGkill"),
        .file ⟨.copy ⟨none, none⟩, ["e"], "/f", some "u:", some "0755", false, none⟩,
        .exec ⟨["/bin/sh", "-c", "g"], [], "/", none, [], some "none", none, none⟩] ∧
      g.stages.map StageGraph.baseImage = ["docker.io/library/ab:latest", "X"]) (by decide +kernel)
  exact ⟨d, g, hd, herrors, hg, htasks, himages, lower_shows_checked hd herrors (.inr rfl) hg⟩

end Graphs

end Lower

end Dockerfile
