import Dockerfile.Proofs.Lowering.Variables
import Dockerfile.Proofs.Reading

/-!
# Protected text in a graph

Where a document is read and lowered, the arguments of its instructions stand in its lines
(`Document.ReadIn`), operations and stages have their values (`Rendered`, `BaseRendered`), and a
dollar sign that is protected in the word of an argument is what it is in the value, whatever the
variables are (`Literal`). So single quotes and escapes protect (`quotes_protect`).

There are two exceptions. The names of labels and the parts of mounts are unquoted before they are
lowered, so that variables between single quotes are replaced (`label_name_not_protected`). And an
argument that is cut out of a word within quotes has lost the quotes that were open before it.
-/

namespace Dockerfile.Lower

/-! ### Operations -/

/-- Where the operation of an instruction has the values of its texts. Paths are joined to the
working directory, and ports are in small letters. -/
inductive Surroundings.Renders (s : Surroundings) : Body → Task → Prop where
  | run {r : Dockerfile.Run} {e : Exec} (hnetwork : e.network = r.network.map s.word)
    (hsecurity : e.security = r.security.map s.word)
    (hmounts : e.mounts = r.mounts.zipIdx.map fun m =>
      ⟨m.1.type, m.1.source.map s.word, m.1.target.map s.word, (s.source m.2).1,
        m.1.options.map fun o => ⟨o.name, s.word o.value⟩⟩) :
    Renders s (.run r) (.exec e)
  | copy {c : Copy} {f : FileTask} (haction : f.action = .copy (s.source 0).1)
    (hsources : f.sources = c.sources.map s.word)
    (hdestination : f.destination = s.destination (s.word c.destination))
    (hchown : f.chown = c.chown.map s.word) (hchmod : f.chmod = c.chmod.map s.word) :
    Renders s (.copy c) (.file f)
  | add {a : Add} {f : FileTask} (haction : f.action = .add (a.checksum.map s.word))
    (hsources : f.sources = a.sources.map s.word)
    (hdestination : f.destination = s.destination (s.word a.destination))
    (hchown : f.chown = a.chown.map s.word) (hchmod : f.chmod = a.chmod.map s.word) :
    Renders s (.add a) (.file f)
  | env (bindings : List Binding) : Renders s (.env bindings)
      (.config (.env (Table.ofList (bindings.map fun v => (v.name, s.word v.value)))))
  | workdir (text : String) : Renders s (.workdir text) (.config (.workdir (s.path (s.word text))))
  | user (name : String) (group : Option String) : Renders s (.user name group)
      (.config (.user (s.word name ++ group.elim "" fun g => ":" ++ s.word g)))
  | expose (ports : List String) : Renders s (.expose ports) (.config (.ports (ports.map s.port)))
  | volume (paths : List String) : Renders s (.volume paths) (.config (.volumes (paths.map s.word)))
  | label (labels : List Binding) : Renders s (.label labels)
      (.config (.labels (Table.ofList (labels.map fun l => (s.word l.name, s.word l.value)))))
  | stopsignal (signal : String) : Renders s (.stopsignal signal)
      (.config (.stopSignal (s.word signal)))
  /-- The other instructions have no texts whose variables are replaced. -/
  | other {body : Body} {task : Task} (hnone : body.arguments = []) (hrun : body.kind ≠ .run) :
    Renders s body task

theorem Surroundings.renders {s : Surroundings} {body : Body} {task : Task}
    (h : s.task? body = some task) : s.Renders body task := by
  cases body with
  | base | arg => cases h
  | run r =>
    cases h
    exact .run rfl rfl rfl
  | copy c =>
    cases h
    exact .copy rfl rfl rfl rfl rfl
  | add a =>
    cases h
    exact .add rfl rfl rfl rfl rfl
  | env bindings =>
    cases h
    exact .env bindings
  | workdir text =>
    cases h
    exact .workdir text
  | user name group =>
    cases h
    exact .user name group
  | expose ports =>
    cases h
    exact .expose ports
  | volume paths =>
    cases h
    exact .volume paths
  | label labels =>
    cases h
    exact .label labels
  | stopsignal signal =>
    cases h
    exact .stopsignal signal
  | _ => exact .other rfl (fun h => by cases h)

/-! ### Origins -/

theorem lookup_of_unique {α β : Type} [BEq α] [LawfulBEq α] {entries : List (α × β)} {a : α} {b : β}
    (hmem : (a, b) ∈ entries) (hunique : ∀ b', (a, b') ∈ entries → b' = b) :
    entries.lookup a = some b := by
  induction entries with
  | nil => cases hmem
  | cons entry rest ih =>
    obtain ⟨a', b'⟩ := entry
    rw [List.lookup_cons]
    by_cases ha : a = a'
    · subst ha
      rw [beq_self_eq_true, hunique b' List.mem_cons_self]
    · rw [beq_eq_false_iff_ne.2 ha]
      rcases List.mem_cons.1 hmem with heq | hmem
      · exact absurd (congrArg Prod.fst heq) ha
      · exact ih hmem fun b' hb' => hunique b' (List.mem_cons_of_mem _ hb')

theorem origins_unique {body : Body} {slot : Nat} {text text' : String}
    (h : (slot, text) ∈ Planner.origins body) (h' : (slot, text') ∈ Planner.origins body) :
    text = text' := by
  cases body with
  | copy c =>
    obtain ⟨t, ht, heq⟩ := List.mem_map.1 h
    obtain ⟨t', ht', heq'⟩ := List.mem_map.1 h'
    cases heq
    cases heq'
    rw [Option.mem_toList] at ht ht'
    exact Option.some.inj (ht.symm.trans ht')
  | run r =>
    obtain ⟨⟨m, n⟩, hm, ht⟩ := List.mem_filterMap.1 h
    obtain ⟨⟨m', n'⟩, hm', ht'⟩ := List.mem_filterMap.1 h'
    obtain ⟨t, ht, heq⟩ := Option.map_eq_some_iff.1 ht
    obtain ⟨t', ht', heq'⟩ := Option.map_eq_some_iff.1 ht'
    cases heq
    cases heq'
    rw [List.mem_zipIdx_iff_getElem?] at hm hm'
    obtain rfl := Option.some.inj (hm.symm.trans hm')
    exact Option.some.inj (ht.symm.trans ht')
  | _ => cases h

/-- The plan of a stage has the reference of each origin, in the scope of its position. -/
theorem reference?_of_mem_origins {d : Document} {job : Job} {r : Resolution} {plans : List Plan}
    {plan : Plan} {n position slot : Nat} {i : Instruction} {text : String} {scope : Scope}
    (h : (job.planner d r).plans = .ok plans) (hn : plans[n]? = some plan)
    (hi : plan.stage.instructions[position]? = some i)
    (hscope : (job.planner d r).ScopeAt plan.stage position scope)
    (horigin : (slot, text) ∈ Planner.origins i.body) :
    plan.reference? position slot = some ((job.planner d r).reference plan.stage position slot
      (scope.word (job.setting d) text)) := by
  obtain ⟨env, henv, rfl⟩ := hscope
  obtain ⟨env', henv', hplan⟩ := exists_inherits h hn
  obtain rfl := henv.unique henv'
  unfold Plan.reference?
  rw [congrArg Plan.references hplan]
  -- A slot has one origin, so the reference that is found first is the one of this text.
  refine lookup_of_unique (Planner.mem_references.2 ⟨position, i, slot, text, hi, horigin, ?_⟩) ?_
  · rw [Nat.zero_add]
    rfl
  · intro reference href
    obtain ⟨k, j, slot', text', hj, horigin', heq⟩ := Planner.mem_references.1 href
    rw [Nat.zero_add] at heq
    cases heq
    obtain rfl := Option.some.inj (hi.symm.trans hj)
    rw [origins_unique horigin horigin']
    rfl

/-- The files of an origin come from a stage, or from the image that the value of its text names. -/
def Surroundings.Finds (s : Surroundings) (slot : Nat) (text : String) : Prop :=
  (s.source slot).1 = ⟨none, some (Image.normalize (s.word text))⟩ ∨
    ∃ n image, (s.source slot).1 = ⟨some n, image⟩

theorem finds_sourceOf (done : List Lowered) (p : Planner) (stage : Stage) (position slot : Nat)
    (text : String) :
    (sourceOf done (some (p.reference stage position slot text))).1 =
        ⟨none, some (Image.normalize text)⟩ ∨
      ∃ n image, (sourceOf done (some (p.reference stage position slot text))).1 =
        ⟨some n, image⟩ := by
  have hstage : ∀ m, ∃ n image, (sourceOf done (some (.stage m))).1 = ⟨some n, image⟩ := by
    intro m
    unfold sourceOf
    dsimp only
    split
    · exact ⟨_, _, rfl⟩
    · split
      · exact ⟨_, _, rfl⟩
      · exact ⟨_, _, rfl⟩
  unfold Planner.reference
  split
  · exact .inr (hstage _)
  · split
    · exact .inr (hstage _)
    · exact .inl rfl

/-! ### Arguments -/

/-- Behind some declarations a name has the value of its last declaration. -/
theorem get?_foldl_declare {σ α : Type} (step : σ → Declaration → σ) (table : σ → Table α)
    (value : σ → Declaration → α)
    (hstep : ∀ s e, table (step s e) = (table s).set e.name (value s e)) (s : σ)
    (front back : List Declaration) (d : Declaration) (hback : d.name ∉ back.map Declaration.name) :
    (table ((front ++ d :: back).foldl step s)).get? d.name =
      some (value (front.foldl step s) d) := by
  have hlater : ∀ (ds : List Declaration) (s : σ), d.name ∉ ds.map Declaration.name →
      (table (ds.foldl step s)).get? d.name = (table s).get? d.name := by
    intro ds
    induction ds with
    | nil => exact fun _ _ => rfl
    | cons e ds ih =>
      intro s hne
      rw [List.map_cons, List.mem_cons, not_or] at hne
      rw [List.foldl_cons, ih (step s e) hne.2, hstep, Table.get?_set, if_neg hne.1]
  rw [List.foldl_append, List.foldl_cons, hlater back _ hback, hstep, Table.get?_set, if_pos rfl]

/-- The default of a declaration is the value of its argument, unless there is another one. -/
theorem Scope.get?_after_arg {setting : Setting} {d : Declaration} {text : String}
    (hdefault : d.default = some text) (hbuild : setting.buildArgs.get? d.name = none)
    (hplatform : setting.platformArgs.get? d.name = none) (s : Scope) (metas : Metas)
    (front back : List Declaration) (hback : d.name ∉ back.map Declaration.name) :
    (s.after setting metas (.arg (front ++ d :: back))).args.get? d.name =
      some (some ((s.after setting metas (.arg front)).word setting text)) := by
  have hvalue : (s.after setting metas (.arg front)).argValue setting metas d =
      some ((s.after setting metas (.arg front)).word setting text) := by
    unfold Scope.argValue
    rw [hbuild, hplatform, hdefault]
  rw [← hvalue]
  exact get?_foldl_declare (fun s e => s.declare setting metas e) Scope.args
    (fun s e => s.argValue setting metas e) (fun _ _ => rfl) s front back d hback

theorem Setting.get?_declareMetas {setting : Setting} {d : Declaration} {text : String}
    (hdefault : d.default = some text) (hbuild : setting.buildArgs.get? d.name = none)
    (metas : Metas) (front back : List Declaration)
    (hback : d.name ∉ back.map Declaration.name) :
    ((front ++ d :: back).foldl setting.declareMeta metas).get? d.name =
      some (some ((Phrase.word text).value setting.escape
        (setting.globalLookup (front.foldl setting.declareMeta metas)))) := by
  have hvalue : setting.metaValue (front.foldl setting.declareMeta metas) d =
      some ((Phrase.word text).value setting.escape
        (setting.globalLookup (front.foldl setting.declareMeta metas))) := by
    unfold Setting.metaValue
    rw [hbuild, hdefault]
    rfl
  rw [← hvalue]
  exact get?_foldl_declare setting.declareMeta id setting.metaValue (fun _ _ => rfl) metas front
    back d hback

/-! ### Values -/

/-- A dollar sign between `before` and `after`, and the text behind it, stand in the value of a word
as they are, wherever the expansion gets to them, and what stands around them does not depend on the
text. The value depends on the variables outside the text only. -/
structure Literal (escape : Char) (P : List Char → Prop) (before after : List Char)
    (hole : Template.Hole) : Prop where
  shown : ∀ lookup, ∃ left right, ∀ text, P text →
    ((Phrase.word (String.ofList (before ++ '$' :: (text ++ after)))).value escape lookup).toList =
      left ++ (if hole.isReached lookup then '$' :: text else []) ++ right
  silent : ∀ lookup lookup', (∀ name ∈ hole.mentions, lookup name = lookup' name) →
    ∀ text, P text →
      (Phrase.word (String.ofList (before ++ '$' :: (text ++ after)))).value escape lookup =
        (Phrase.word (String.ofList (before ++ '$' :: (text ++ after)))).value escape lookup'

theorem literal_of_sheltered {escape : Char} (hescape : Template.IsEscape escape)
    {front : List Char} (hfront : Template.Cut escape front) {P : List Char → Prop}
    {before after : List Char} {hole : Template.Hole}
    (h : Template.Sheltered escape front P before after hole) :
    Literal escape P before after hole := by
  have htemplate : ∀ text, P text →
      (Phrase.word (String.ofList (before ++ '$' :: (text ++ after)))).template escape =
        hole.fill ('$' :: text) := by
    intro text htext
    rw [Phrase.template, Phrase.word, String.toList_ofList]
    exact Template.read_sheltered hescape hfront h htext
  constructor
  · intro lookup
    obtain ⟨left, right, hvalue⟩ := hole.value_fill lookup
    refine ⟨left, right, fun text htext => ?_⟩
    rw [Phrase.value, String.toList_ofList, htemplate text htext, hvalue]
  · intro lookup lookup' hagree text htext
    rw [Phrase.value, Phrase.value, htemplate text htext]
    congr 1
    refine Template.value_congr fun name hname => hagree name ?_
    rwa [Template.Hole.mentions_fill] at hname

/-! ### Graphs -/

/-- An operation has the values of the arguments of its instruction. -/
def Rendered (d : Document) (job : Job) (r : Resolution) (o : Operation) : Prop :=
  ∃ (stage : Stage) (i : Instruction) (s : Surroundings),
    d.stages[o.id.stage]? = some stage ∧ stage.instructions[o.id.position]? = some i ∧
    (job.planner d r).ScopeAt stage o.id.position s.scope ∧
    (∀ text, s.word text = (Phrase.word text).value d.escape s.scope.lookup) ∧
    s.Renders i.body o.task ∧
    ∀ slot text, (slot, text) ∈ Planner.origins i.body → s.Finds slot text

/-- A stage has the values of its image and of its platform. -/
def BaseRendered (d : Document) (job : Job) (s : StageGraph) : Prop :=
  ∃ (stage : Stage) (value : String → String), d.stages[s.index]? = some stage ∧
    (∀ text, value text =
      (Phrase.word text).value d.escape ((job.setting d).globalLookup (job.metas d))) ∧
    (s.baseImage = value stage.base.image ∨
      s.baseImage = Image.normalize (value stage.base.image)) ∧
    ∃ base, stagePlatform job.platform (stage.base.platform.map value) base (basePlace stage) =
      .ok s.platform

/-- Single quotes and escapes protect what stands in a text that is read and lowered. -/
structure Protects (source : String) (d : Document) (job : Job) (r : Resolution) (g : Graph) :
    Prop where
  /-- All instructions are read from the lines of the text, in which their arguments stand. -/
  preamble : ∀ i ∈ d.preamble, Document.ReadIn source d.escape i
  stage : ∀ s ∈ d.stages, Document.ReadIn source d.escape ⟨s.position, .base s.base⟩ ∧
    ∀ i ∈ s.instructions, Document.ReadIn source d.escape i
  operation : ∀ o ∈ g.operations, Rendered d job r o
  base : ∀ s ∈ g.stages, BaseRendered d job s
  /-- Behind an `ARG` its argument has the value of the default, unless it has another one. -/
  arg : ∀ stage ∈ d.stages, ∀ n position front declaration back text scope,
    stage.instructions[n]? = some ⟨position, .arg (front ++ declaration :: back)⟩ →
    (job.planner d r).ScopeAt stage (n + 1) scope → declaration.default = some text →
    (job.setting d).buildArgs.get? declaration.name = none →
    (job.setting d).platformArgs.get? declaration.name = none →
    declaration.name ∉ back.map Declaration.name →
    ∃ lookup, scope.args.get? declaration.name =
      some (some ((Phrase.word text).value d.escape lookup))
  metaArg : ∀ n position front declaration back text,
    d.metaArgs[n]? = some (position, front ++ declaration :: back) →
    declaration.default = some text → (job.setting d).buildArgs.get? declaration.name = none →
    declaration.name ∉ back.map Declaration.name →
    ∃ lookup, ((job.setting d).metasAfter [] (d.metaArgs.take (n + 1))).get? declaration.name =
      some (some ((Phrase.word text).value d.escape lookup))
  /-- A dollar sign that is protected in the word that an argument is cut out of is shown as it is,
  in all values that the argument can have. -/
  literal : ∀ front, Template.Cut d.escape front → ∀ P before after hole,
    Template.Sheltered d.escape front P before after hole → Literal d.escape P before after hole

variable {d : Document} {job : Job} {r : Resolution} {g : Graph} {plans : List Plan}
  {order : List Nat} {done : List Lowered}

theorem Run.rendered (run : Run d job r g plans order done) (hd : d.Numbered) {o : Operation}
    (ho : o ∈ g.operations) : Rendered d job r o := by
  obtain ⟨f, i, q, hplan, hframe, hi, -, hscope, htask⟩ := run.exists_frame hd ho
  have hsetting : (f.surroundings q o.id.position).setting = job.setting d :=
    congrArg Frame.setting hframe
  have hword : ∀ text, (f.surroundings q o.id.position).word text =
      q.scope.word (job.setting d) text := by
    intro text
    rw [← hsetting]
    rfl
  refine ⟨f.plan.stage, i, _, stage_of_plans run.plans_eq hplan, hi, hscope, hword,
    Surroundings.renders htask, fun slot text horigin => ?_⟩
  have hreference := reference?_of_mem_origins run.plans_eq hplan hi hscope horigin
  unfold Surroundings.Finds
  rw [hword]
  show (sourceOf f.done (f.plan.reference? o.id.position slot)).1 = _ ∨
    ∃ n image, (sourceOf f.done (f.plan.reference? o.id.position slot)).1 = _
  rw [hreference]
  exact finds_sourceOf f.done _ f.plan.stage o.id.position slot _

theorem Run.baseRendered (run : Run d job r g plans order done) (hd : d.Numbered) {s : StageGraph}
    (hs : s ∈ g.stages) : BaseRendered d job s := by
  obtain ⟨l, hl, rfl⟩ := run.mem_stages.1 hs
  obtain ⟨before, after, hsplit⟩ := List.append_of_mem hl
  obtain ⟨earlier, plan, -, hplan, -, hlower⟩ := run.started.lowered hd before l after hsplit
  obtain ⟨platform, p, hplatform, -, rfl⟩ := lowerStage_ok hlower
  refine ⟨plan.stage, (job.frame d).value, stage_of_plans run.plans_eq hplan, fun _ => rfl, ?_, _,
    hplatform⟩
  have himage : ((stageFrame (job.frame d) before plan platform).lowered p).graph.baseImage =
      if (baseIn? before plan).isSome then (job.frame d).value plan.stage.base.image
      else (job.frame d).root before plan := rfl
  -- The image of a stage that builds on another one is kept as it is named.
  rw [himage, Frame.root]
  cases baseIn? before plan with
  | none => exact .inr rfl
  | some b => exact .inl rfl

theorem Planner.ScopeAt.arg {p : Planner} {stage : Stage} {n : Nat} {position : Position}
    {declarations : List Declaration} {scope : Scope}
    (hn : stage.instructions[n]? = some ⟨position, .arg declarations⟩)
    (h : p.ScopeAt stage (n + 1) scope) :
    ∃ before : Scope, scope = before.after p.setting p.metas (.arg declarations) := by
  obtain ⟨env, -, rfl⟩ := h
  refine ⟨p.scopeAfter ⟨env, []⟩ (stage.instructions.take n), ?_⟩
  unfold scopeAfter
  rw [List.take_add_one, hn, List.foldl_append]
  rfl

/-- Whatever the build arguments and the variables are: the arguments of a text that is read and
lowered keep what is protected in them. -/
theorem quotes_protect {source : String} (hd : Document.parse source = .ok d)
    (h : (d.lower job r).result = .ok g) : Protects source d job r g := by
  have hparsed : d.Parsed := .inl ⟨source, hd⟩
  obtain ⟨plans, order, done, run⟩ := lower_ok h
  obtain ⟨hpreamble, hstages⟩ := Document.readIn_of_parse hd
  exact {
    preamble := hpreamble
    stage := hstages
    operation := fun o ho => run.rendered hparsed.numbered ho
    base := fun s hs => run.baseRendered hparsed.numbered hs
    arg := by
      intro stage _ n position front declaration back text scope hn hscope hdefault hbuild hplatform
        hback
      obtain ⟨before, rfl⟩ := hscope.arg hn
      exact ⟨_, Scope.get?_after_arg hdefault hbuild hplatform before _ front back hback⟩
    metaArg := by
      intro n position front declaration back text hn hdefault hbuild hback
      have hmetas : (job.setting d).metasAfter [] (d.metaArgs.take (n + 1)) =
          (front ++ declaration :: back).foldl (job.setting d).declareMeta
            ((job.setting d).metasAfter [] (d.metaArgs.take n)) := by
        rw [Setting.metasAfter, List.take_add_one, hn, List.foldl_append]
        rfl
      rw [hmetas]
      exact ⟨_, Setting.get?_declareMetas hdefault hbuild _ front back hback⟩
    literal := fun front hfront P before after hole hsheltered =>
      literal_of_sheltered hparsed.isEscape hfront hsheltered }

/-- A variable between single quotes in the word of a modifier, next to one that is replaced. -/
theorem quotes_protect_nested : ∃ d g hole,
    Document.parse "FROM a\nARG x=1\nENV y='$x' z=\\$x\nUSER $\x7bw:-'$x'\x7d:g$x\n" = .ok d ∧
    (d.lower ⟨[], none, none⟩ .empty).result = .ok g ∧
    g.operations.map Operation.task =
      [.config (.env [("y", "$x"), ("z", "$x")]), .config (.user "$x:g1")] ∧
    Template.Sheltered d.escape [] (fun text => '\'' ∉ text ∧ Template.Balanced text)
      ['$', '\x7b', 'w', ':', '-', '\''] ['\'', '\x7d'] hole ∧
    Template.Balanced ['x'] ∧
    Protects "FROM a\nARG x=1\nENV y='$x' z=\\$x\nUSER $\x7bw:-'$x'\x7d:g$x\n" d ⟨[], none, none⟩
      .empty g := by
  obtain ⟨d, g, hd, hg, htask, hescape⟩ := exists_lowered_with
    "FROM a\nARG x=1\nENV y='$x' z=\\$x\nUSER $\x7bw:-'$x'\x7d:g$x\n" ⟨[], none, none⟩
    (fun _ => .empty)
    (fun d g => g.operations.map Operation.task =
      [.config (.env [("y", "$x"), ("z", "$x")]), .config (.user "$x:g1")] ∧ d.escape = '\\')
    (by decide +kernel)
  have hstart : Template.quoteAfter d.escape .none ([] ++ []) = some .none := by
    rw [hescape]
    decide +kernel
  have hopen : Template.quoteAfter d.escape .none ([] ++ ['\'']) = some .single := by
    rw [hescape]
    decide +kernel
  have hnested := @Template.Sheltered.inWord d.escape _ [] [] ['w'] ['\''] ['\''] [] false true
    .none _ hstart nofun (by decide) (.quoted hopen) (by decide)
  exact ⟨d, g, _, hd, hg, htask, hnested,
    Template.balanced_of_not_mem (by decide) (by decide), quotes_protect hd hg⟩

/-- The name of a label is replaced although it stands between single quotes: the quotes are removed
when it is read, so they are gone when it is lowered. -/
theorem label_name_not_protected : ∃ d g hole,
    Document.parse "FROM a\nENV x=1\nLABEL '$x'=2\n" = .ok d ∧
    (d.lower ⟨[], none, none⟩ .empty).result = .ok g ∧
    Template.Sheltered d.escape [] (fun text => '\'' ∉ text) ['\''] ['\'', '=', '2'] hole ∧
    g.operations.map Operation.task =
      [.config (.env [("x", "1")]), .config (.labels [("1", "2")])] := by
  obtain ⟨d, g, hd, hg, htask, hescape⟩ := exists_lowered_with
    "FROM a\nENV x=1\nLABEL '$x'=2\n" ⟨[], none, none⟩ (fun _ => .empty)
    (fun d g => g.operations.map Operation.task =
      [.config (.env [("x", "1")]), .config (.labels [("1", "2")])] ∧ d.escape = '\\')
    (by decide +kernel)
  have hopen : Template.quoteAfter d.escape .none ([] ++ ['\'']) = some .single := by
    rw [hescape]
    decide +kernel
  exact ⟨d, g, _, hd, hg, .quoted hopen, htask⟩

end Dockerfile.Lower
