import Dockerfile.Proofs.Lowering.Scopes

/-!
# The variables that a command sees

Which value a variable has at a point of a stage, said without the walk over the stage
(`Planner.Sees`): the one that the last `ENV` before the point gives it, in the stage or in one that
the stage goes back to; else the one of its last declaration before the point, which must stand in
the stage itself; else none. There is one such value for every name. A command runs with these
variables, each of them once, and its text is expanded with them (`run_sees`).
-/

namespace Dockerfile

/-! ### Assignments -/

/-- The declaration, if it is one of a name. -/
def Declaration.named? (name : String) (d : Declaration) : Option Declaration :=
  if d.name = name then some d else none

/-- A step of a stage that gives values to variables. -/
inductive Assignment where
  /-- The bindings of an `ENV`, which take effect together. -/
  | env (bindings : List Binding)
  /-- One of the declarations of an `ARG`. -/
  | arg (declaration : Declaration)

namespace Assignment

/-- The text that an `ENV` binds to a name. Of two bindings of a name the later one counts. -/
def bound? (name : String) : Assignment → Option String
  | env bindings => (bindings.reverse.find? (·.name = name)).map Binding.value
  | arg _ => none

/-- The declaration of a name. -/
def declared? (name : String) : Assignment → Option Declaration
  | env _ => none
  | arg declaration => declaration.named? name

end Assignment

/-- The assignments of an instruction, in order. -/
def Body.assignments : Body → List Assignment
  | .env bindings => [.env bindings]
  | .arg declarations => declarations.map .arg
  | _ => []

/-- The assignments of some instructions, in order. -/
def assignments (instructions : List Instruction) : List Assignment :=
  instructions.flatMap fun i => i.body.assignments

/-- The declarations before the first stage, in order. -/
def Document.declarations (d : Document) : List Declaration := d.metaArgs.flatMap Prod.snd

namespace Lower

/-! ### Values before the first stage -/

/-- The value that an argument of the platform has in a `FROM` without being declared. -/
def Setting.automatic (s : Setting) (name : String) : Option String :=
  if Platform.globalArgs.contains name then (s.buildArgs.get? name).or (s.platformArgs.get? name)
  else none

mutual

/-- The value of a name behind declarations before the first stage: that of its last declaration,
which is the supplied value or else the default. -/
inductive Setting.MetaValue (s : Setting) : List Declaration → String → Option String → Prop where
  | declared {past before : List Declaration} {name : String} {d : Declaration}
    {look : Template.Lookup} {value : Option String}
    (hlast : LastSome (Declaration.named? name) past before d) (hlook : s.MetaSees before look)
    (hvalue : value = (s.buildArgs.get? name).or
      (d.default.map fun text => (Phrase.word text).value s.escape look)) :
    MetaValue s past name value
  | undeclared {past : List Declaration} {name : String}
    (h : ∀ d ∈ past, d.named? name = none) : MetaValue s past name none

/-- What a text behind declarations before the first stage sees. -/
inductive Setting.MetaSees (s : Setting) : List Declaration → Template.Lookup → Prop where
  | intro {past : List Declaration} {value : String → Option String} {look : Template.Lookup}
    (h : ∀ name, s.MetaValue past name (value name))
    (hlook : look = fun name => (value name).or (s.automatic name)) : MetaSees s past look

end

/-! ### Values in a stage -/

namespace Planner

/-- Does an `ENV` set a name before a point of a stage, in the stage or in one that it goes back
to? -/
inductive EnvSets (p : Planner) : Stage → List Assignment → String → Prop where
  | own {s : Stage} {past : List Assignment} {name text : String} {a : Assignment} (ha : a ∈ past)
    (htext : a.bound? name = some text) : EnvSets p s past name
  | base {s earlier : Stage} {past : List Assignment} {name : String} {b : Nat}
    (hbase : p.base? s = some b) (hearlier : p.document.stages[b]? = some earlier)
    (h : EnvSets p earlier (assignments earlier.instructions) name) : EnvSets p s past name

mutual

/-- The value that the last `ENV` before a point of a stage gives to a name. Its text is expanded
with what is seen before it. -/
inductive EnvValue (p : Planner) : Stage → List Assignment → String → String → Prop where
  | own {s : Stage} {past before : List Assignment} {name text value : String}
    {look : Template.Lookup} (hlast : LastSome (Assignment.bound? name) past before text)
    (hlook : p.Sees s before look)
    (hvalue : value = (Phrase.word text).value p.setting.escape look) : EnvValue p s past name value
  | base {s earlier : Stage} {past : List Assignment} {name value : String} {b : Nat}
    (hown : ∀ a ∈ past, a.bound? name = none) (hbase : p.base? s = some b)
    (hearlier : p.document.stages[b]? = some earlier)
    (h : p.EnvValue earlier (assignments earlier.instructions) name value) :
    EnvValue p s past name value

/-- The value of a name at a point of a stage. -/
inductive Value (p : Planner) : Stage → List Assignment → String → Option String → Prop where
  /-- The one that `ENV` sets comes first. -/
  | env {s : Stage} {past : List Assignment} {name value : String}
    (h : p.EnvValue s past name value) : Value p s past name (some value)
  /-- Then the one of the last declaration in the stage: the supplied value, else that of the
  platform, else the default, else the value from before the first stage. -/
  | arg {s : Stage} {past before : List Assignment} {name : String} {d : Declaration}
    {look : Template.Lookup} {inherited value : Option String} (henv : ¬ p.EnvSets s past name)
    (hlast : LastSome (Assignment.declared? name) past before d) (hlook : p.Sees s before look)
    (hmeta : p.setting.MetaValue p.document.declarations name inherited)
    (hvalue : value = (p.setting.buildArgs.get? name).or ((p.setting.platformArgs.get? name).or
      ((d.default.map fun text => (Phrase.word text).value p.setting.escape look).or inherited))) :
    Value p s past name value
  /-- Nothing else is seen. -/
  | unset {s : Stage} {past : List Assignment} {name : String} (henv : ¬ p.EnvSets s past name)
    (harg : ∀ a ∈ past, a.declared? name = none) : Value p s past name none

/-- What a text at a point of a stage sees. -/
inductive Sees (p : Planner) : Stage → List Assignment → Template.Lookup → Prop where
  | intro {s : Stage} {past : List Assignment} {look : Template.Lookup}
    (h : ∀ name, p.Value s past name (look name)) : Sees p s past look

end

end Planner

/-! ### One value for every name -/

mutual

theorem Setting.MetaValue.unique {s : Setting} {past : List Declaration} {name : String}
    {v v' : Option String} : s.MetaValue past name v → s.MetaValue past name v' → v = v'
  | .declared hlast hlook hvalue, .declared hlast' hlook' hvalue' => by
    obtain ⟨rfl, rfl⟩ := hlast.unique hlast'
    rw [hvalue, hvalue', hlook.unique hlook']
  | .declared hlast _ _, .undeclared h => by
    obtain ⟨d, hd, hsome⟩ := hlast.exists_mem
    rw [h d hd] at hsome
    cases hsome
  | .undeclared h, .declared hlast _ _ => by
    obtain ⟨d, hd, hsome⟩ := hlast.exists_mem
    rw [h d hd] at hsome
    cases hsome
  | .undeclared _, .undeclared _ => rfl

theorem Setting.MetaSees.unique {s : Setting} {past : List Declaration}
    {look look' : Template.Lookup} : s.MetaSees past look → s.MetaSees past look' → look = look'
  | .intro h hlook, .intro h' hlook' => by
    rw [hlook, hlook']
    funext name
    rw [(h name).unique (h' name)]

end

namespace Planner

variable {p : Planner}

theorem EnvValue.sets {s : Stage} {past : List Assignment} {name value : String} :
    p.EnvValue s past name value → p.EnvSets s past name
  | .own hlast _ _ => by
    obtain ⟨a, ha, htext⟩ := hlast.exists_mem
    exact .own ha htext
  | .base _ hbase hearlier h => .base hbase hearlier h.sets

mutual

theorem EnvValue.unique {s : Stage} {past : List Assignment} {name : String} {v v' : String} :
    p.EnvValue s past name v → p.EnvValue s past name v' → v = v'
  | .own hlast hlook hvalue, .own hlast' hlook' hvalue' => by
    obtain ⟨rfl, rfl⟩ := hlast.unique hlast'
    rw [hvalue, hvalue', hlook.unique hlook']
  | .own hlast _ _, .base hown _ _ _ => by
    obtain ⟨a, ha, hsome⟩ := hlast.exists_mem
    rw [hown a ha] at hsome
    cases hsome
  | .base hown _ _ _, .own hlast _ _ => by
    obtain ⟨a, ha, hsome⟩ := hlast.exists_mem
    rw [hown a ha] at hsome
    cases hsome
  | .base _ hbase hearlier h, .base _ hbase' hearlier' h' => by
    obtain rfl := Option.some.inj (hbase.symm.trans hbase')
    obtain rfl := Option.some.inj (hearlier.symm.trans hearlier')
    exact h.unique h'

theorem Value.unique {s : Stage} {past : List Assignment} {name : String} {v v' : Option String} :
    p.Value s past name v → p.Value s past name v' → v = v'
  | .env h, .env h' => congrArg some (h.unique h')
  | .env h, .arg henv _ _ _ _ => absurd h.sets henv
  | .env h, .unset henv _ => absurd h.sets henv
  | .arg henv _ _ _ _, .env h => absurd h.sets henv
  | .arg _ hlast hlook hmeta hvalue, .arg _ hlast' hlook' hmeta' hvalue' => by
    obtain ⟨rfl, rfl⟩ := hlast.unique hlast'
    rw [hvalue, hvalue', hlook.unique hlook', hmeta.unique hmeta']
  | .arg _ hlast _ _ _, .unset _ harg => by
    obtain ⟨a, ha, hsome⟩ := hlast.exists_mem
    rw [harg a ha] at hsome
    cases hsome
  | .unset henv _, .env h => absurd h.sets henv
  | .unset _ harg, .arg _ hlast _ _ _ => by
    obtain ⟨a, ha, hsome⟩ := hlast.exists_mem
    rw [harg a ha] at hsome
    cases hsome
  | .unset _ _, .unset _ _ => rfl

theorem Sees.unique {s : Stage} {past : List Assignment} {look look' : Template.Lookup} :
    p.Sees s past look → p.Sees s past look' → look = look'
  | .intro h, .intro h' => funext fun name => (h name).unique (h' name)

end

end Planner

/-! ### What the walks make of the rules -/

namespace Setting

variable {s : Setting}

theorem globalLookup_eq (metas : Metas) :
    s.globalLookup metas = fun name => ((metas.get? name).join).or (s.automatic name) := by
  funext name
  unfold globalLookup automatic
  cases (metas.get? name).join <;> rfl

/-- What the values of declarations before the first stage say of a name. -/
def MetaEntry (s : Setting) (past : List Declaration) (name : String) :
    Option (Option String) → Prop
  | none => ∀ d ∈ past, d.named? name = none
  | some value => ∃ before d look, LastSome (Declaration.named? name) past before d ∧
    s.MetaSees before look ∧ value = (s.buildArgs.get? name).or
      (d.default.map fun text => (Phrase.word text).value s.escape look)

theorem MetaEntry.value {past : List Declaration} {name : String} {entry : Option (Option String)}
    (h : s.MetaEntry past name entry) : s.MetaValue past name entry.join := by
  cases entry with
  | none => exact .undeclared h
  | some value =>
    obtain ⟨before, d, look, hlast, hlook, hvalue⟩ := h
    exact .declared hlast hlook hvalue

theorem metaEntry_metas (past : List Declaration) (name : String) :
    s.MetaEntry past name ((past.foldl s.declareMeta []).get? name) := by
  induction past using List.reverseRecOn generalizing name with
  | nil => exact fun d hd => nomatch hd
  | append_singleton past d ih =>
    rw [List.foldl_append, List.foldl_cons, List.foldl_nil, declareMeta, Table.get?_set]
    by_cases hname : name = d.name
    · subst hname
      rw [if_pos rfl]
      refine ⟨past, d, _, lastSome_concat (if_pos rfl),
        .intro (fun name => (ih name).value) (globalLookup_eq _), ?_⟩
      unfold metaValue
      cases s.buildArgs.get? d.name <;> rfl
    · have hnone : d.named? name = none := if_neg (Ne.symm hname)
      rw [if_neg hname]
      have hentry := ih name
      revert hentry
      cases (past.foldl s.declareMeta []).get? name with
      | none =>
        intro hentry
        exact List.forall_mem_append.2 ⟨hentry, List.forall_mem_singleton.2 hnone⟩
      | some value =>
        rintro ⟨before, e, look, hlast, hrest⟩
        exact ⟨before, e, look, hlast.concat hnone, hrest⟩

end Setting

/-- The values that are declared before the first stage are those that the rules give. -/
def Planner.KnowsMetas (p : Planner) : Prop :=
  ∀ name, p.setting.MetaValue p.document.declarations name (p.metas.get? name).join

theorem Job.knowsMetas (job : Job) (d : Document) (r : Resolution) :
    (job.planner d r).KnowsMetas := by
  intro name
  have hmetas : job.metas d = d.declarations.foldl (job.setting d).declareMeta [] := by
    unfold Job.metas Setting.metasAfter Document.declarations
    rw [List.foldl_flatMap]
  show (job.setting d).MetaValue d.declarations name (Table.get? (job.metas d) name).join
  rw [hmetas]
  exact (Setting.metaEntry_metas d.declarations name).value

namespace Scope

variable {setting : Setting} {metas : Metas}

/-- The scope behind an assignment. -/
def assign (setting : Setting) (metas : Metas) (s : Scope) : Assignment → Scope
  | .env bindings => s.after setting metas (.env bindings)
  | .arg declaration => s.declare setting metas declaration

theorem after_eq (s : Scope) (body : Body) :
    s.after setting metas body = body.assignments.foldl (assign setting metas) s := by
  cases body with
  | arg declarations =>
    show declarations.foldl _ s = (declarations.map Assignment.arg).foldl _ s
    rw [List.foldl_map]
    rfl
  | _ => rfl

theorem get?_env_assign (s : Scope) (bindings : List Binding) (name : String) :
    (s.assign setting metas (.env bindings)).env.get? name =
      (((Assignment.env bindings).bound? name).map (s.word setting)).or (s.env.get? name) := by
  have hfind : ∀ vs : List Binding,
      Table.get? (vs.map fun v => (v.name, s.word setting v.value)) name =
        ((vs.find? (·.name = name)).map Binding.value).map (s.word setting) := by
    intro vs
    induction vs with
    | nil => rfl
    | cons v vs ih =>
      rw [List.map_cons, Table.get?, List.lookup_cons, List.find?_cons]
      by_cases h : v.name = name
      · simp [h]
      · have h' : (name == v.name) = false := by simpa using Ne.symm h
        simp only [h', h, decide_false]
        exact ih
  show Table.get? (s.env.update (Table.ofList _)) name = _
  rw [Table.get?_update_of_nodup _ (Table.nodup_names_ofList _),
    Table.get?_ofList, ← List.map_reverse, hfind]
  rfl

end Scope

namespace Planner

variable {p : Planner} {s : Stage} {past : List Assignment} {scope : Scope} {name : String}

theorem scopeAfter_eq (scope : Scope) (instructions : List Instruction) :
    p.scopeAfter scope instructions =
      (assignments instructions).foldl (Scope.assign p.setting p.metas) scope := by
  unfold scopeAfter assignments
  rw [List.foldl_flatMap]
  simp only [Scope.after_eq]

/-- What the variables of a scope say of a name. -/
def EnvEntry (p : Planner) (s : Stage) (past : List Assignment) (name : String) :
    Option String → Prop
  | none => ¬ p.EnvSets s past name
  | some value => p.EnvValue s past name value

/-- What the arguments of a scope say of a name. -/
def ArgEntry (p : Planner) (s : Stage) (past : List Assignment) (name : String) :
    Option (Option String) → Prop
  | none => ∀ a ∈ past, a.declared? name = none
  | some value => ∃ before d look, LastSome (Assignment.declared? name) past before d ∧
    p.Sees s before look ∧ value = (p.setting.buildArgs.get? name).or
      ((p.setting.platformArgs.get? name).or ((d.default.map fun text =>
        (Phrase.word text).value p.setting.escape look).or (p.metas.get? name).join))

/-- A scope says what the rules say of a point. -/
structure Follows (p : Planner) (s : Stage) (past : List Assignment) (scope : Scope) : Prop where
  env : ∀ name, p.EnvEntry s past name (scope.env.get? name)
  arg : ∀ name, p.ArgEntry s past name (scope.args.get? name)

theorem EnvEntry.concat {a : Assignment} {entry : Option String}
    (h : p.EnvEntry s past name entry) (ha : a.bound? name = none) :
    p.EnvEntry s (past ++ [a]) name entry := by
  cases entry with
  | none =>
    intro hsets
    cases hsets with
    | own hc htext =>
      rcases List.mem_append.1 hc with hc | hc
      · exact h (.own hc htext)
      · rw [List.mem_singleton.1 hc, ha] at htext
        cases htext
    | base hbase hearlier hsets => exact h (.base hbase hearlier hsets)
  | some value =>
    cases h with
    | own hlast hlook hvalue => exact .own (hlast.concat ha) hlook hvalue
    | base hown hbase hearlier h =>
      exact .base (List.forall_mem_append.2 ⟨hown, List.forall_mem_singleton.2 ha⟩) hbase hearlier h

theorem ArgEntry.concat {a : Assignment} {entry : Option (Option String)}
    (h : p.ArgEntry s past name entry) (ha : a.declared? name = none) :
    p.ArgEntry s (past ++ [a]) name entry := by
  cases entry with
  | none => exact List.forall_mem_append.2 ⟨h, List.forall_mem_singleton.2 ha⟩
  | some value =>
    obtain ⟨before, d, look, hlast, hrest⟩ := h
    exact ⟨before, d, look, hlast.concat ha, hrest⟩

theorem Follows.sees (h : p.Follows s past scope) (hmetas : p.KnowsMetas) :
    p.Sees s past scope.lookup := by
  refine .intro fun name => ?_
  have henv := h.env name
  have harg := h.arg name
  unfold Scope.lookup
  cases he : scope.env.get? name with
  | some value =>
    rw [he] at henv
    exact .env henv
  | none =>
    rw [he] at henv
    cases ha : scope.args.get? name with
    | none =>
      rw [ha] at harg
      exact .unset henv harg
    | some value =>
      rw [ha] at harg
      obtain ⟨before, d, look, hlast, hlook, hvalue⟩ := harg
      exact .arg henv hlast hlook (hmetas name) hvalue

theorem Follows.assign (h : p.Follows s past scope) (hmetas : p.KnowsMetas) (a : Assignment) :
    p.Follows s (past ++ [a]) (scope.assign p.setting p.metas a) := by
  cases a with
  | env bindings =>
    refine ⟨fun name => ?_, fun name => (h.arg name).concat rfl⟩
    rw [Scope.get?_env_assign]
    cases htext : (Assignment.env bindings).bound? name with
    | none => exact (h.env name).concat htext
    | some text => exact .own (lastSome_concat htext) (h.sees hmetas) rfl
  | arg d =>
    refine ⟨fun name => (h.env name).concat rfl, fun name => ?_⟩
    show p.ArgEntry s _ name (Table.get? (scope.args.set d.name _) name)
    rw [Table.get?_set]
    by_cases hname : name = d.name
    · subst hname
      rw [if_pos rfl]
      refine ⟨past, d, _, lastSome_concat (if_pos rfl), h.sees hmetas, ?_⟩
      unfold Scope.argValue
      cases p.setting.buildArgs.get? d.name with
      | some value => rfl
      | none =>
        cases p.setting.platformArgs.get? d.name with
        | some value => rfl
        | none =>
          cases d.default with
          | some | none => rfl
    · rw [if_neg hname]
      exact (h.arg name).concat (if_neg (Ne.symm hname))

theorem Follows.foldl (h : p.Follows s [] scope) (hmetas : p.KnowsMetas)
    (past : List Assignment) :
    p.Follows s past (past.foldl (Scope.assign p.setting p.metas) scope) := by
  induction past using List.reverseRecOn with
  | nil => exact h
  | append_singleton past a ih =>
    rw [List.foldl_append]
    exact ih.assign hmetas a

/-- A stage starts with what the rules give it from the stages that it goes back to. -/
theorem follows_start (hmetas : p.KnowsMetas) {env : Table String} (h : p.Inherits s env) :
    p.Follows s [] ⟨env, []⟩ := by
  induction h with
  | @image s hbase =>
    refine ⟨fun name hsets => ?_, fun name a ha => nomatch ha⟩
    cases hsets with
    | own ha => cases ha
    | base hbase' =>
      rw [hbase] at hbase'
      cases hbase'
  | @stage s earlier b env hbase hearlier henv ih =>
    have hend := ih.foldl hmetas (assignments earlier.instructions)
    rw [← scopeAfter_eq] at hend
    refine ⟨fun name => ?_, fun name a ha => nomatch ha⟩
    have hentry := hend.env name
    revert hentry
    show p.EnvEntry earlier _ name _ → p.EnvEntry s [] name (Table.get? _ name)
    cases (p.scopeAfter ⟨env, []⟩ earlier.instructions).env.get? name with
    | some value => exact fun hvalue => .base (fun a ha => nomatch ha) hbase hearlier hvalue
    | none =>
      intro hnone hsets
      cases hsets with
      | own ha => cases ha
      | base hbase' hearlier' hsets =>
        obtain rfl := Option.some.inj (hbase.symm.trans hbase')
        obtain rfl := Option.some.inj (hearlier.symm.trans hearlier')
        exact hnone hsets

/-- The scope at a position of a stage gives the values that the rules give. -/
theorem ScopeAt.sees_iff (hmetas : p.KnowsMetas) {position : Nat} (h : p.ScopeAt s position scope)
    (look : Template.Lookup) :
    p.Sees s (assignments (s.instructions.take position)) look ↔ look = scope.lookup := by
  obtain ⟨env, henv, rfl⟩ := h
  have hsees := ((follows_start hmetas henv).foldl hmetas
    (assignments (s.instructions.take position))).sees hmetas
  rw [← scopeAfter_eq] at hsees
  constructor
  · intro hlook
    exact hlook.unique hsees
  · rintro rfl
    exact hsees

end Planner

/-! ### Commands -/

/-- No name stands twice in the variables or in the arguments of a scope. -/
structure Scope.Distinct (s : Scope) : Prop where
  env : (Table.names s.env).Nodup
  args : (Table.names s.args).Nodup

theorem Scope.Distinct.assign {s : Scope} (h : s.Distinct) (setting : Setting) (metas : Metas)
    (a : Assignment) : (s.assign setting metas a).Distinct := by
  cases a with
  | env bindings => exact ⟨Table.nodup_names_update h.env _, h.args⟩
  | arg d => exact ⟨h.env, Table.nodup_names_set h.args _ _⟩

theorem Planner.distinct_scopeAfter {p : Planner} {s : Scope} (h : s.Distinct)
    (instructions : List Instruction) : (p.scopeAfter s instructions).Distinct := by
  rw [scopeAfter_eq]
  induction assignments instructions generalizing s with
  | nil => exact h
  | cons a rest ih => exact ih (h.assign p.setting p.metas a)

theorem Planner.Inherits.distinct {p : Planner} {s : Stage} {env : Table String}
    (h : p.Inherits s env) : Scope.Distinct ⟨env, []⟩ := by
  induction h with
  | image => exact ⟨List.nodup_nil, List.nodup_nil⟩
  | stage _ _ _ ih => exact ⟨(distinct_scopeAfter ih _).env, List.nodup_nil⟩

/-- The bindings that are made of the entries of a table: at most one has a given name. -/
theorem filter_bindings {α : Type} {t : Table α} (h : (Table.names t).Nodup)
    (f : String → α → Option String) (name : String) :
    (t.filterMap fun (n, a) => (f n a).map (Binding.mk n)).filter (·.name = name) =
      (((t.get? name).bind (f name)).map (Binding.mk name)).toList := by
  induction t with
  | nil => rfl
  | cons entry rest ih =>
    obtain ⟨n, a⟩ := entry
    simp only [Table.names, List.map_cons, List.nodup_cons] at h
    have hrest := ih h.2
    rw [Table.get?, List.lookup_cons, List.filterMap_cons]
    by_cases hn : n = name
    · subst hn
      have hnone : Table.get? rest n = none := by
        rw [Table.get?, List.lookup_eq_none_iff]
        intro entry hentry
        simpa using fun heq => h.1 (List.mem_map.2 ⟨entry, hentry, heq.symm⟩)
      rw [hnone] at hrest
      cases hf : f n a with
      | none | some => simpa [hf] using hrest
    · have hne : (name == n) = false := by simpa using Ne.symm hn
      cases hf : f n a with
      | none => simpa [hf, hne, Table.get?] using hrest
      | some value => simpa [hf, hne, hn, Table.get?] using hrest

/-- A command runs with the variables that its place sees, each of them once. -/
theorem Surroundings.filter_commandEnv {s : Surroundings} (h : s.scope.Distinct) (name : String) :
    s.commandEnv.filter (·.name = name) = ((s.scope.lookup name).map (Binding.mk name)).toList := by
  have hargs := filter_bindings h.args
    (fun n value => if s.scope.env.has n then none else value) name
  have henv := filter_bindings h.env (fun _ value => some value) name
  have hshown : s.commandEnv =
      (s.scope.args.filterMap fun e =>
        (if s.scope.env.has e.1 then none else e.2).map (Binding.mk e.1)) ++
      s.scope.env.filterMap fun e => (some e.2).map (Binding.mk e.1) := by
    unfold commandEnv
    congr 1
    · congr 1
      funext entry
      obtain ⟨n, value⟩ := entry
      show (if s.scope.env.has n then none else _) = (if s.scope.env.has n then none else _).map _
      split <;> rfl
    · exact (congrFun List.filterMap_eq_map s.scope.env).symm
  rw [hshown, List.filter_append, hargs, henv]
  unfold Scope.lookup Table.has
  cases s.scope.env.get? name with
  | some value => cases s.scope.args.get? name <;> rfl
  | none => cases s.scope.args.get? name <;> simp

namespace StageFrame

variable {f : StageFrame} {start p : Progress} {instructions : List Instruction}

/-- An operation of a stage is what its instruction comes to in the walk up to it. -/
theorem Walked.exists_task (h : f.Walked start instructions p) (hstart : start.operations = [])
    {o : Operation} (ho : o ∈ p.operations) : ∃ i q, instructions[o.id.position]? = some i ∧
      f.Walked start (instructions.take o.id.position) q ∧ o.kind = i.kind ∧
      (f.surroundings q o.id.position).task? i.body = some o.task := by
  induction h with
  | nil =>
    rw [hstart] at ho
    cases ho
  | @concat instructions p q i before step ih =>
    have hearlier (ho : o ∈ p.operations) : ∃ j m, (instructions ++ [i])[o.id.position]? = some j ∧
        f.Walked start ((instructions ++ [i]).take o.id.position) m ∧ o.kind = j.kind ∧
        (f.surroundings m o.id.position).task? j.body = some o.task := by
      obtain ⟨j, m, hj, hm, hrest⟩ := ih ho
      have hlt := (List.getElem?_eq_some_iff.1 hj).1
      refine ⟨j, m, ?_, ?_, hrest⟩
      · rwa [List.getElem?_append_left hlt]
      · rwa [List.take_append_of_le_length (Nat.le_of_lt hlt)]
    cases (lowerInstruction_ok step).2.2 with
    | pass => exact hearlier ho
    | make task keys htask =>
      rcases List.mem_append.1 ho with ho | ho
      · exact hearlier ho
      · rw [List.mem_singleton.1 ho]
        refine ⟨i, p, List.getElem?_concat_length, ?_, rfl, htask⟩
        show f.Walked start ((instructions ++ [i]).take instructions.length) p
        rwa [List.take_left]

end StageFrame

variable {d : Document} {job : Job} {r : Resolution} {plans : List Plan}

/-- A stage starts with the variables that its plan starts from. -/
theorem inherits_inherited {plan : Plan} {n : Nat} (h : (job.planner d r).plans = .ok plans)
    (hn : plans[n]? = some plan) :
    (job.planner d r).Inherits plan.stage (plan.inherited plans) := by
  obtain ⟨env, henv, hplan⟩ := exists_inherits h hn
  have hbase : plan.base = (job.planner d r).base? plan.stage := congrArg Plan.base hplan
  unfold Plan.inherited
  cases hb : plan.base with
  | none => exact .image (hbase.symm.trans hb)
  | some b =>
    obtain ⟨earlier, hearlier⟩ : ∃ earlier, plans[b]? = some earlier :=
      ⟨_, List.getElem?_eq_getElem (Nat.lt_trans (base_of_plans h hn hb)
        (List.getElem?_eq_some_iff.1 hn).1)⟩
    obtain ⟨inherited, hinherited, hfrom⟩ := exists_inherits h hearlier
    rw [Option.bind_some, hearlier, Option.elim_some, congrArg Plan.env hfrom]
    exact .stage (hbase.symm.trans hb) (stage_of_plans h hearlier) hinherited

/-- An operation of a graph is made at its position in the walk over its stage. -/
theorem Run.exists_frame {g : Graph} {order : List Nat} {done : List Lowered}
    (run : Run d job r g plans order done) (hd : d.Numbered) {o : Operation}
    (ho : o ∈ g.operations) :
    ∃ (f : StageFrame) (i : Instruction) (q : Progress), plans[o.id.stage]? = some f.plan ∧
      f.frame = job.frame d ∧ f.plan.stage.instructions[o.id.position]? = some i ∧
      o.kind = i.kind ∧ (job.planner d r).ScopeAt f.plan.stage o.id.position q.scope ∧
      (f.surroundings q o.id.position).task? i.body = some o.task := by
  obtain ⟨l, hl, ho⟩ := run.exists_of_mem_operations ho
  obtain ⟨before, after, hsplit⟩ := List.append_of_mem hl
  obtain ⟨earlier, plan, hstarted, hplan, huses, hlower⟩ :=
    run.started.lowered hd before l after hsplit
  have hstart : (Progress.start (baseIn? before plan)).scope = ⟨plan.inherited plans, []⟩ :=
    hstarted.scope_start hd (fun k hk other hother => hstarted.env_eq hd hk hother) huses
  have hindex := run.stage_eq hd hl ho
  obtain ⟨platform, p, -, hw, rfl⟩ := lowerStage_ok hlower
  obtain ⟨i, q, hi, hq, hkind, htask⟩ := hw.exists_task rfl ho
  refine ⟨stageFrame (job.frame d) before plan platform, i, q, ?_, rfl, hi, hkind, ?_, htask⟩
  · rw [hindex]
    exact hplan
  · refine ⟨plan.inherited plans, inherits_inherited run.plans_eq hplan, ?_⟩
    rw [← hstart]
    exact hq.scope_eq

/-- An operation of a graph is what an instruction of the document comes to in the scope of its
position. -/
theorem Run.exists_task {g : Graph} {order : List Nat} {done : List Lowered}
    (run : Run d job r g plans order done) (hd : d.Numbered) {o : Operation}
    (ho : o ∈ g.operations) :
    ∃ (stage : Stage) (i : Instruction) (s : Surroundings), d.stages[o.id.stage]? = some stage ∧
      stage.instructions[o.id.position]? = some i ∧ o.kind = i.kind ∧
      (job.planner d r).ScopeAt stage o.id.position s.scope ∧ s.setting = job.setting d ∧
      s.task? i.body = some o.task := by
  obtain ⟨f, i, q, hplan, hframe, hi, hkind, hscope, htask⟩ := run.exists_frame hd ho
  exact ⟨f.plan.stage, i, _, stage_of_plans run.plans_eq hplan, hi, hkind, hscope,
    congrArg Frame.setting hframe, htask⟩

/-- The variables of a `RUN`: whatever a lowering comes to, its command has at most one value for a
name, the one that the rules give to the name at the place of the instruction, and its text is
expanded with the same values. -/
theorem run_sees {d : Document} {job : Job} {r : Resolution} {g : Graph} {o : Operation}
    (hd : d.Numbered) (h : (d.lower job r).result = .ok g) (ho : o ∈ g.operations)
    (hkind : o.kind = .run) :
    ∃ stage i run e look, d.stages[o.id.stage]? = some stage ∧
      stage.instructions[o.id.position]? = some i ∧ i.body = .run run ∧ o.task = .exec e ∧
      (∀ other, (job.planner d r).Sees stage (assignments (stage.instructions.take o.id.position))
        other ↔ other = look) ∧
      (∀ name, e.env.filter (·.name = name) = ((look name).map (Binding.mk name)).toList) ∧
      (run.command.isExec = false → ∃ shell,
        e.args = shell ++ [(Phrase.command run.command.raw).value d.escape look]) := by
  obtain ⟨plans, order, done, hrun⟩ := lower_ok h
  obtain ⟨stage, i, s, hstage, hi, hsame, hscope, hsetting, htask⟩ := hrun.exists_task hd ho
  obtain ⟨position, body⟩ := i
  rw [hkind] at hsame
  cases body with
  | run run =>
    obtain ⟨env, henv, hafter⟩ := hscope
    have hdistinct : s.scope.Distinct := by
      rw [hafter]
      exact Planner.distinct_scopeAfter henv.distinct _
    refine ⟨stage, _, run, s.exec run, s.scope.lookup, hstage, hi, rfl,
      (Option.some.inj htask).symm, ?_, s.filter_commandEnv hdistinct, ?_⟩
    · exact Planner.ScopeAt.sees_iff (job.knowsMetas d r) ⟨env, henv, hafter⟩
    · intro hshell
      cases hform : run.command.form with
      | exec args => simp [Command.isExec, hform] at hshell
      | shell misread =>
        refine ⟨s.config.shell, ?_⟩
        simp only [Surroundings.exec, hform, Scope.value, hsetting]
        rfl
  | _ => cases hsame

/-- A stage whose base has variables and an argument of its own, with an argument that is hidden by
a variable, one that is supplied and one that is declared before the first stage. -/
theorem run_sees_redeclared : ∃ d g o, Document.parse
      ("ARG V=1\nARG W=2\nFROM a AS b\nARG W=x\nENV E=$W F=f\nFROM b\nARG V=0 F=g\nARG G=$E\n" ++
        "ARG V\nARG H\nRUN c $V$W$F\n") = .ok d ∧
    (d.lower ⟨[("G", "9")], none, none⟩ .empty).result = .ok g ∧ o ∈ g.operations ∧
    o.id.position = 4 ∧
    ∃ stage i run e look, d.stages[o.id.stage]? = some stage ∧
      stage.instructions[o.id.position]? = some i ∧ i.body = .run run ∧ o.task = .exec e ∧
      (∀ other, (Job.planner ⟨[("G", "9")], none, none⟩ d .empty).Sees stage
        (assignments (stage.instructions.take o.id.position)) other ↔ other = look) ∧
      (∀ name, e.env.filter (·.name = name) = ((look name).map (Binding.mk name)).toList) ∧
      (run.command.isExec = false → ∃ shell,
        e.args = shell ++ [(Phrase.command run.command.raw).value d.escape look]) ∧
      e.env = [⟨"V", "1"⟩, ⟨"G", "9"⟩, ⟨"E", "x"⟩, ⟨"F", "f"⟩] ∧
      e.args = ["/bin/sh", "-c", "c 1f"] := by
  obtain ⟨d, g, hd, hg, o, ho, hkind, hposition, hshown⟩ := exists_lowered_with
    ("ARG V=1\nARG W=2\nFROM a AS b\nARG W=x\nENV E=$W F=f\nFROM b\nARG V=0 F=g\nARG G=$E\n" ++
      "ARG V\nARG H\nRUN c $V$W$F\n") ⟨[("G", "9")], none, none⟩ (fun _ => .empty)
    (fun _ g => ∃ o ∈ g.operations, o.kind = .run ∧ o.id.position = 4 ∧
      (match o.task with
        | .exec e => (e.env, e.args)
        | _ => ([], [])) = ([⟨"V", "1"⟩, ⟨"G", "9"⟩, ⟨"E", "x"⟩, ⟨"F", "f"⟩],
          ["/bin/sh", "-c", "c 1f"])) (by decide +kernel)
  obtain ⟨stage, i, run, e, look, hstage, hi, hbody, htask, hlook, henv, hargs⟩ :=
    run_sees (Document.Parsed.numbered (.inl ⟨_, hd⟩)) hg ho hkind
  rw [htask] at hshown
  exact ⟨d, g, o, hd, hg, ho, hposition, stage, i, run, e, look, hstage, hi, hbody, htask, hlook,
    henv, hargs, congrArg Prod.fst hshown, congrArg Prod.snd hshown⟩

end Lower

end Dockerfile
