import Mathlib.Logic.Relation
import Dockerfile.Proofs.Checking.References

/-!
# Warnings about variables

An instruction of a stage sees the names that an `ARG` or an `ENV` before it declares, and what it
has from the stages it builds on. A check warns once of every other name that the texts of the
instruction refer to, and calls it used too early if an `ARG` of the stage still declares it.

A stage has more from the stages it builds on than their environment: the names of their build
arguments are passed on with it, although their values are not.
-/

namespace Dockerfile

/-! ### Names that become known -/

/-- The names that an `ARG` declares. -/
def Body.args : Body → List String
  | .arg declarations => declarations.map Declaration.name
  | _ => []

/-- The names that an `ENV` sets. -/
def Body.envs : Body → List String
  | .env bindings => bindings.map Binding.name
  | _ => []

/-- The names that can be used behind an instruction. -/
def Body.declares (body : Body) : List String := body.args ++ body.envs

namespace Check.Scope

variable (scope : Scope)

theorem known_after (body : Body) : (scope.after body).known = scope.known ++ body.declares := by
  cases body with
  | arg declarations => exact congrArg (scope.known ++ ·) (List.append_nil _).symm
  | env bindings => rfl
  | _ => exact (List.append_nil _).symm

theorem later_after (body : Body) :
    (scope.after body).later = scope.later.filter fun name => !body.args.contains name := by
  cases body with
  | arg declarations => rfl
  | _ => exact (List.filter_eq_self.2 fun _ _ => rfl).symm

theorem mem_known_afterAll {is : List Instruction} {n : String} :
    n ∈ (scope.afterAll is).known ↔ n ∈ scope.known ∨ ∃ i ∈ is, n ∈ i.body.declares := by
  induction is generalizing scope with
  | nil => simp [afterAll]
  | cons i is ih =>
    have hcons : scope.afterAll (i :: is) = (scope.after i.body).afterAll is := rfl
    rw [hcons, ih, known_after, List.mem_append, or_assoc, List.exists_mem_cons_iff]

theorem mem_later_afterAll {is : List Instruction} {n : String} :
    n ∈ (scope.afterAll is).later ↔ n ∈ scope.later ∧ ∀ i ∈ is, n ∉ i.body.args := by
  induction is generalizing scope with
  | nil => simp [afterAll]
  | cons i is ih =>
    have hcons : scope.afterAll (i :: is) = (scope.after i.body).afterAll is := rfl
    rw [hcons, ih, later_after, List.mem_filter, List.forall_mem_cons, and_assoc]
    simp

end Check.Scope

theorem Check.mem_argNames {s : Stage} {n : String} :
    n ∈ argNames s ↔ ∃ i ∈ s.instructions, n ∈ i.body.args :=
  List.mem_flatMap

/-! ### Warnings of one name -/

open Check

/-- The variable that an issue tells of. -/
def Check.Issue.unknownName? : Issue → Option String
  | .undeclared name | .globalOnly name | .usedBefore name => some name
  | _ => none

/-- The warnings about a variable that a report tells at a place. -/
def Report.warningsAbout (r : Report) (n : String) (x : Position) : List Issue :=
  (r.warnings.filter fun f => decide (f.position = x) && f.issue.unknownName? = some n).map
    Finding.issue

theorem Report.warningsAbout_eq (r : Report) (n : String) (x : Position) : r.warningsAbout n x =
    (referencesAt x r.findings).filter fun i => decide (i.unknownName? = some n) := by
  rw [warningsAbout, warnings, referencesAt, List.filter_map, List.filter_filter,
    List.filter_filter]
  refine congrArg (List.map Finding.issue) (List.filter_congr fun f _ => ?_)
  have hissue : f.issue.unknownName? = some n →
      f.issue.isReference = true ∧ f.isError = false := by
    unfold Finding.isError
    cases f.issue with
    | _ => simp [Issue.unknownName?, Issue.isReference, Issue.severity]
  by_cases hvariable : f.issue.unknownName? = some n
  · simp [hvariable, hissue hvariable]
  · simp [hvariable]

theorem nodup_eraseDups : ∀ names : List String, names.eraseDups.Nodup
  | [] => List.nodup_nil
  | name :: names => by
    rw [List.eraseDups_cons, List.nodup_cons]
    refine ⟨?_, nodup_eraseDups _⟩
    simp [List.mem_eraseDups]
termination_by names => names.length
decreasing_by exact Nat.lt_succ_of_le (List.length_filter_le _ _)

/-- The names that some texts refer to. -/
def namesIn (escape : Char) (texts : List (Option String)) : List String :=
  (texts.filterMap id).flatMap (Template.references escape)

theorem Check.Scope.unknownName?_issue (scope : Scope) (n : String) :
    (scope.issue n).unknownName? = some n := by
  unfold Scope.issue
  split
  · rfl
  · split <;> rfl

/-- There is one issue for each name that some texts refer to and that is not known. -/
theorem Check.Scope.filter_unknownName?_issues (scope : Scope) (escape : Char)
    (texts : List (Option String)) (n : String) :
    (scope.issues escape texts).filter (fun i => decide (i.unknownName? = some n)) =
      if n ∈ namesIn escape texts ∧ n ∉ scope.known then [scope.issue n] else [] := by
  have hcomp : ((fun i : Issue => decide (i.unknownName? = some n)) ∘ scope.issue) =
      fun name => decide (name = n) := by
    funext name
    simp [Scope.unknownName?_issue]
  have hmem : n ∈ ((namesIn escape texts).filter fun name => !scope.known.contains name).eraseDups ↔
      n ∈ namesIn escape texts ∧ n ∉ scope.known := by
    rw [List.mem_eraseDups, List.mem_filter]
    simp
  rw [Scope.issues, List.filter_map, hcomp]
  change (List.filter _ ((namesIn escape texts).filter _).eraseDups).map _ = _
  rw [List.filter_eq, (nodup_eraseDups _).count]
  simp only [hmem]
  split <;> rfl

/-! ### What a stage has from others -/

namespace Document

variable {d : Document} {k : Nat} {s : Stage} {n : String}

/-- Does a stage start from another one, by the text of its `FROM`? -/
def StartsFrom (d : Document) (k j : Nat) : Prop := d.check.resolution.baseOf? k = some j

/-- Is a name known to the instruction at position `p` of a stage: from an `ARG` or an `ENV` before
it, or because it is one of the `names` of an instruction in a stage that this one builds on? -/
def Sees (d : Document) (names : Body → List String) (k p : Nat) (n : String) : Prop :=
  (∃ s q i, d.stages[k]? = some s ∧ q < p ∧ s.instructions[q]? = some i ∧ n ∈ i.body.declares) ∨
    ∃ j s i, Relation.TransGen d.StartsFrom k j ∧ d.stages[j]? = some s ∧ i ∈ s.instructions ∧
      n ∈ names i.body

/-- Is a name known at the end of a stage? -/
def Settles (d : Document) (k : Nat) (n : String) : Prop :=
  ∃ j s i, Relation.ReflTransGen d.StartsFrom k j ∧ d.stages[j]? = some s ∧ i ∈ s.instructions ∧
    n ∈ i.body.declares

theorem settles_iff (hs : d.stages[k]? = some s) : d.Settles k n ↔
    (∃ t, d.StartsFrom k t ∧ d.Settles t n) ∨ ∃ i ∈ s.instructions, n ∈ i.body.declares := by
  constructor
  · rintro ⟨j, s', i, hchain, hs', hi, hn⟩
    rcases Relation.ReflTransGen.cases_head_iff.1 hchain with rfl | ⟨t, hstart, hchain⟩
    · obtain rfl := Option.some.inj (hs.symm.trans hs')
      exact .inr ⟨i, hi, hn⟩
    · exact .inl ⟨t, hstart, j, s', i, hchain, hs', hi, hn⟩
  · rintro (⟨t, hstart, j, s', i, hchain, hs', hi, hn⟩ | ⟨i, hi, hn⟩)
    · exact ⟨j, s', i, .head hstart hchain, hs', hi, hn⟩
    · exact ⟨k, s, i, .refl, hs, hi, hn⟩

theorem Numbered.baseOf?_check (hd : d.Numbered) (hs : d.stages[k]? = some s) :
    d.check.resolution.baseOf? k = base? d s := by
  obtain rfl := hd k s hs
  by_cases hfree : Template.references d.escape s.base.image = []
  · rw [Resolution.baseOf?, (Refers.base hs hfree).get?_check hd, base?,
      hasVariables_eq_false.2 hfree]
    rfl
  · have hvariables : hasVariables d.escape s.base.image = true := by
      rw [← Bool.not_eq_false, hasVariables_eq_false]
      exact hfree
    rw [base?, if_pos hvariables, Resolution.baseOf?, Option.eq_none_iff_forall_ne_some]
    intro t hget
    obtain ⟨text, hrefers, -⟩ := hd.mem_entries_iff.1 (Resolution.mem_entries_of_get? hget)
    cases hrefers with
    | base hs' hfree' =>
      obtain rfl := Option.some.inj (hs.symm.trans hs')
      exact hfree hfree'

theorem settle_append (d : Document) (metas : List String) (settled : List (List String))
    (front back : List Stage) :
    settle d metas settled (front ++ back) = settle d metas (settle d metas settled front) back := by
  induction front generalizing settled with
  | nil => rfl
  | cons s front ih => exact ih _

theorem settledBefore_succ (hs : d.stages[k]? = some s) : d.settledBefore (k + 1) =
    d.settledBefore k ++
      [((startScope d (metaNames d) (d.settledBefore k) s).afterAll s.instructions).known] := by
  rw [settledBefore, List.take_add_one, hs, Option.toList_some, settle_append]
  rfl

/-- What a stage starts with, if the list says of each stage before it what is known at its end. -/
theorem Numbered.mem_known_startScope (hd : d.Numbered) (hs : d.stages[k]? = some s)
    {metas : List String} {settled : List (List String)}
    (hsettled : ∀ j < k, ∃ names, settled[j]? = some names ∧ ∀ n, n ∈ names ↔ d.Settles j n) :
    n ∈ (startScope d metas settled s).known ↔ ∃ t, d.StartsFrom k t ∧ d.Settles t n := by
  have hstart : ∀ t, d.StartsFrom k t ↔ base? d s = some t := by
    intro t
    rw [StartsFrom, hd.baseOf?_check hs]
  simp only [startScope, hstart]
  cases hbase : base? d s with
  | none => simp
  | some t =>
    have hlt : t < k := by
      unfold base? at hbase
      split at hbase
      · cases hbase
      · obtain rfl := hd k s hs
        exact hd.resolve?_lt hbase
    obtain ⟨names, hnames, hmem⟩ := hsettled t hlt
    rw [Option.bind_some, hnames, Option.getD_some, hmem]
    simp

/-- The list says of every stage before a stage what is known at its end. -/
theorem Numbered.mem_settledBefore (hd : d.Numbered) (hk : k ≤ d.stages.length) :
    (d.settledBefore k).length = k ∧
      ∀ j < k, ∃ names, (d.settledBefore k)[j]? = some names ∧ ∀ n, n ∈ names ↔ d.Settles j n := by
  induction k with
  | zero => exact ⟨rfl, fun j hj => absurd hj (Nat.not_lt_zero j)⟩
  | succ k ih =>
    obtain ⟨hlength, hsettled⟩ := ih (Nat.le_of_succ_le hk)
    have hs := List.getElem?_eq_getElem (Nat.lt_of_succ_le hk)
    rw [settledBefore_succ hs]
    refine ⟨by rw [List.length_append, hlength]; rfl, fun j hj => ?_⟩
    rcases Nat.lt_succ_iff_lt_or_eq.1 hj with hlt | rfl
    · obtain ⟨names, hnames, hmem⟩ := hsettled j hlt
      exact ⟨names, by rw [List.getElem?_append_left (by omega), hnames], hmem⟩
    · refine ⟨_, by rw [List.getElem?_append_right (Nat.le_of_eq hlength), hlength, Nat.sub_self]; rfl,
        fun n => ?_⟩
      rw [Scope.mem_known_afterAll, hd.mem_known_startScope hs hsettled, settles_iff hs]

/-- What is known to an instruction of a stage. -/
theorem Numbered.mem_known (hd : d.Numbered) (hs : d.stages[k]? = some s) {p : Nat} :
    n ∈ ((startScope d (metaNames d) (d.settledBefore k) s).afterAll
      (s.instructions.take p)).known ↔ d.Sees Body.declares k p n := by
  have hk := (List.getElem?_eq_some_iff.1 hs).1
  rw [Scope.mem_known_afterAll,
    hd.mem_known_startScope hs (hd.mem_settledBefore (Nat.le_of_lt hk)).2, or_comm]
  refine or_congr ?_ ?_
  · constructor
    · rintro ⟨i, hi, hn⟩
      obtain ⟨q, hq⟩ := List.mem_iff_getElem?.1 hi
      rw [List.getElem?_take] at hq
      split at hq
      · rename_i hlt
        exact ⟨s, q, i, hs, hlt, hq, hn⟩
      · cases hq
    · rintro ⟨s', q, i, hs', hlt, hq, hn⟩
      obtain rfl := Option.some.inj (hs.symm.trans hs')
      exact ⟨i, List.mem_iff_getElem?.2 ⟨q, by rw [List.getElem?_take_of_lt hlt, hq]⟩, hn⟩
  · constructor
    · rintro ⟨t, hstart, j, s', i, hchain, hs', hi, hn⟩
      exact ⟨j, s', i, Relation.TransGen.head'_iff.2 ⟨t, hstart, hchain⟩, hs', hi, hn⟩
    · rintro ⟨j, s', i, hchain, hs', hi, hn⟩
      obtain ⟨t, hstart, hchain⟩ := Relation.TransGen.head'_iff.1 hchain
      exact ⟨t, hstart, j, s', i, hchain, hs', hi, hn⟩

/-! ### Warnings -/

/-- Does an instruction refer to a variable in a text that is checked? -/
def Uses (d : Document) (texts : List (Option String)) (n : String) : Prop :=
  ∃ text, some text ∈ texts ∧ n ∈ Template.references d.escape text

/-- Does an `ARG` of a stage declare a name, at a position or behind it? -/
def DeclaresFrom (s : Stage) (p : Nat) (n : String) : Prop :=
  ∃ q i, p ≤ q ∧ s.instructions[q]? = some i ∧ n ∈ i.body.args

theorem mem_later {scope : Scope} (hlater : scope.later = argNames s) {p : Nat}
    (hknown : n ∉ (scope.afterAll (s.instructions.take p)).known) :
    n ∈ (scope.afterAll (s.instructions.take p)).later ↔ DeclaresFrom s p n := by
  -- An `ARG` before the position would have made the name known.
  have hfront : ∀ i ∈ s.instructions.take p, n ∉ i.body.args := by
    intro i hi hn
    exact hknown (scope.mem_known_afterAll.2 (.inr ⟨i, hi, List.mem_append_left _ hn⟩))
  rw [Scope.mem_later_afterAll, hlater, mem_argNames, and_iff_left hfront]
  constructor
  · rintro ⟨i, hi, hn⟩
    obtain ⟨q, hq⟩ := List.mem_iff_getElem?.1 hi
    refine ⟨q, i, ?_, hq, hn⟩
    by_contra hlt
    refine hfront i (List.mem_iff_getElem?.2 ⟨q, ?_⟩) hn
    rw [List.getElem?_take_of_lt (Nat.lt_of_not_le hlt), hq]
  · rintro ⟨q, i, -, hq, hn⟩
    exact ⟨i, List.mem_of_getElem? hq, hn⟩

theorem kind_issue (scope : Scope) (n : String) :
    (scope.issue n).kind =
      if n ∈ scope.later then "used-before-declaration" else "undeclared-variable" := by
  unfold Scope.issue
  simp only [List.contains_iff_mem]
  split
  · rfl
  · split <;> rfl

theorem uses_iff {texts : List (Option String)} :
    n ∈ namesIn d.escape texts ↔ d.Uses texts n := by
  simp [namesIn, Uses, List.mem_flatMap]

theorem filter_unknownName?_of_isOrigin {is : List Issue} (h : ∀ i ∈ is, i.isOrigin) :
    is.filter (fun i => decide (i.unknownName? = some n)) = [] := by
  refine List.filter_eq_nil_iff.2 fun i hi => ?_
  have horigin := h i hi
  revert horigin
  cases i with
  | _ => simp [Issue.isOrigin, Issue.kind, Issue.unknownName?]

theorem isOrigin_of_mem_origin {c : Context} {what text : String} {i : Issue}
    (h : i ∈ c.origin what text) : i.isOrigin := by
  unfold Context.origin at h
  split at h
  · cases h
  · split at h
    · cases h
    · rw [List.mem_singleton.1 h]
      rfl

theorem warningsAbout_instruction (hd : d.Numbered)
    (hplaces : (d.all.map Instruction.position).Nodup) (hs : d.stages[k]? = some s) {p : Nat}
    {i : Instruction} (hi : s.instructions[p]? = some i) :
    (d.Uses (checkedTexts i.body) n ∧ ¬d.Sees Body.declares k p n →
      ∃ issue, d.check.warningsAbout n i.position = [issue] ∧
        (issue.kind = "used-before-declaration" ↔ DeclaresFrom s p n) ∧
        (issue.kind = "undeclared-variable" ↔ ¬DeclaresFrom s p n)) ∧
    (¬(d.Uses (checkedTexts i.body) n ∧ ¬d.Sees Body.declares k p n) →
      d.check.warningsAbout n i.position = []) := by
  rw [Report.warningsAbout_eq, referencesAt_instruction hplaces hs hi, filter_isReference_issues,
    List.filter_append, Context.references, contextAfter, Option.elim_some,
    Scope.filter_unknownName?_issues, filter_unknownName?_of_isOrigin, List.append_nil, ← uses_iff,
    ← hd.mem_known hs]
  swap
  · intro issue hissue
    obtain ⟨origin, -, hissue⟩ := List.mem_flatMap.1 hissue
    exact isOrigin_of_mem_origin hissue
  refine ⟨fun h => ?_, fun h => if_neg h⟩
  rw [if_pos h]
  refine ⟨_, rfl, ?_⟩
  rw [kind_issue, ← mem_later rfl h.2]
  split <;> simp_all

theorem warningsAbout_base (hplaces : (d.all.map Instruction.position).Nodup)
    (hs : d.stages[k]? = some s) :
    (d.Uses [some s.base.image, s.base.platform] n ∧ n ∉ metaNames d ∧ n ∉ Platform.globalArgs →
      ∃ issue, d.check.warningsAbout n s.position = [issue] ∧
        issue.kind = "undeclared-variable") ∧
    (¬(d.Uses [some s.base.image, s.base.platform] n ∧ n ∉ metaNames d ∧
        n ∉ Platform.globalArgs) → d.check.warningsAbout n s.position = []) := by
  rw [Report.warningsAbout_eq, referencesAt_base hplaces hs, filter_isReference_baseIssues,
    List.filter_append, Scope.filter_unknownName?_issues, filter_unknownName?_of_isOrigin,
    List.append_nil, ← uses_iff, ← not_or, ← List.mem_append]
  swap
  · intro issue hissue
    split at hissue
    · cases hissue
    · exact (of_mem_imageIssues hissue).2
  refine ⟨fun h => ?_, fun h => if_neg h⟩
  rw [if_pos h]
  exact ⟨_, rfl, kind_issue _ _⟩

/-- A check warns of exactly the variables that are used and not known, once at each instruction. -/
structure WarnsOfUnknown (d : Document) : Prop where
  instruction : ∀ (k : Nat) (s : Stage) (p : Nat) (i : Instruction) (n : String),
    d.stages[k]? = some s → s.instructions[p]? = some i →
    (d.Uses (checkedTexts i.body) n ∧ ¬d.Sees Body.declares k p n →
      ∃ issue, d.check.warningsAbout n i.position = [issue] ∧
        (issue.kind = "used-before-declaration" ↔ DeclaresFrom s p n) ∧
        (issue.kind = "undeclared-variable" ↔ ¬DeclaresFrom s p n)) ∧
    (¬(d.Uses (checkedTexts i.body) n ∧ ¬d.Sees Body.declares k p n) →
      d.check.warningsAbout n i.position = [])
  base : ∀ (k : Nat) (s : Stage) (n : String), d.stages[k]? = some s →
    (d.Uses [some s.base.image, s.base.platform] n ∧ n ∉ metaNames d ∧ n ∉ Platform.globalArgs →
      ∃ issue, d.check.warningsAbout n s.position = [issue] ∧
        issue.kind = "undeclared-variable") ∧
    (¬(d.Uses [some s.base.image, s.base.platform] n ∧ n ∉ metaNames d ∧
        n ∉ Platform.globalArgs) → d.check.warningsAbout n s.position = [])

theorem check_warns_of_unknown {source : String} (h : parse source = .ok d) :
    d.WarnsOfUnknown where
  instruction _ _ _ _ _ hs hi :=
    warningsAbout_instruction (Parsed.numbered (.inl ⟨source, h⟩)) (nodup_position_of_parse h) hs hi
  base _ _ _ hs := warningsAbout_base (nodup_position_of_parse h) hs

theorem check_warns_of_unknown_mixed : ∃ d,
    parse ("ARG G\nFROM $G$H AS a\nENV E=1\nFROM a\nRUN $E $G $L $L $N\nARG L=$L\n" ++
      "ONBUILD RUN $N\nRUN $L\n") = .ok d ∧ d.WarnsOfUnknown ∧
    d.check.findings = [⟨.undeclared "H", ⟨2, 1⟩⟩, ⟨.globalOnly "G", ⟨5, 1⟩⟩,
      ⟨.usedBefore "L", ⟨5, 1⟩⟩, ⟨.undeclared "N", ⟨5, 1⟩⟩, ⟨.usedBefore "L", ⟨6, 1⟩⟩] :=
  exists_parsed (by decide +kernel) fun _ hd => check_warns_of_unknown hd

/-- No `ENV` sets the variable, and it is declared only in the stage that this one starts from, where
it is a build argument: nothing is told of it. -/
theorem arg_of_base_is_known : ∃ d s i,
    parse "FROM alpine AS a\nARG X\nFROM a\nRUN echo $X\n" = .ok d ∧ d.stages[1]? = some s ∧
      s.instructions[0]? = some i ∧ d.Uses (checkedTexts i.body) "X" ∧
      ¬d.Sees Body.envs 1 0 "X" ∧ d.check.warningsAbout "X" i.position = [] := by
  have hcomputed : ∃ d, parse "FROM alpine AS a\nARG X\nFROM a\nRUN echo $X\n" = .ok d ∧ True ∧
      (d.stages.all fun s => s.instructions.all fun i => i.body.envs.isEmpty) = true ∧
      ((d.stages[1]?.bind fun s => s.instructions[0]?.map fun i =>
        (namesIn d.escape (checkedTexts i.body), d.check.warningsAbout "X" i.position)) =
          some (["X"], [])) :=
    exists_parsed (by decide +kernel) fun _ _ => trivial
  obtain ⟨d, hd, -, henvs, hcomputed⟩ := hcomputed
  obtain ⟨s, hs, hcomputed⟩ := Option.bind_eq_some_iff.1 hcomputed
  obtain ⟨i, hi, hcomputed⟩ := Option.map_eq_some_iff.1 hcomputed
  obtain ⟨hnames, hwarnings⟩ := Prod.mk.inj hcomputed
  refine ⟨d, s, i, hd, hs, hi, uses_iff.1 (hnames ▸ List.mem_singleton_self "X"), ?_, hwarnings⟩
  rintro (⟨-, q, -, -, hq, -⟩ | ⟨j, s', i', -, hs', hi', hn⟩)
  · exact Nat.not_lt_zero q hq
  · have hnone := List.all_eq_true.1 (List.all_eq_true.1 henvs s' (List.mem_of_getElem? hs')) i' hi'
    rw [List.isEmpty_iff.1 hnone] at hn
    cases hn

end Document

end Dockerfile
