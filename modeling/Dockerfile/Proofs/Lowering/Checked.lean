import Dockerfile.Proofs.Lowering.Run
import Dockerfile.Proofs.Template
import Dockerfile.Proofs.Text

/-!
# Lowering with the references of a check

A check settles a reference by its text without quotes and escapes, before any variable is known. A
lowering replaces the variables first. Where the names of all stages are in order the two agree: a
text with a dollar sign left in it means no stage, and one without has nothing to be replaced. So a
lowering that is given the resolution of a check does what it does on its own
(`lower_check_resolution`).
-/

namespace Dockerfile

/-! ### Texts without a dollar sign -/

namespace Text

theorem isAlphanum_ascii {c : Char} (h : c.isAlphanum) : c.toNat < 128 := by
  delta Char.isAlphanum Char.isAlpha Char.isUpper Char.isLower Char.isDigit at h
  simp only [Bool.or_eq_true, Bool.and_eq_true, decide_eq_true_eq, ge_iff_le,
    UInt32.le_iff_toNat_le] at h
  change (((65 ≤ _ ∧ _ ≤ 90) ∨ (97 ≤ _ ∧ _ ≤ 122)) ∨ (48 ≤ _ ∧ _ ≤ 57)) at h
  change c.val.toNat < 128
  omega

theorem toLower_eq_dollar {c : Char} (hc : c.toNat < 128) (h : c.toLower = '$') : c = '$' := by
  have hall : ∀ n < 128, (Char.ofNat n).toLower = '$' → Char.ofNat n = '$' := by decide
  rw [← Char.ofNat_toNat c] at h ⊢
  exact hall _ hc h

theorem lowerAfter_of_ascii {before cs : List Char} (h : ∀ c ∈ cs, c.toNat < 128) :
    lowerAfter before cs = cs.map Char.toLower := by
  induction cs generalizing before with
  | nil => rfl
  | cons c cs ih =>
    rw [lowerAfter, ih fun d hd => h d (List.mem_cons_of_mem c hd), lowerChar,
      if_pos (h c List.mem_cons_self)]
    rfl

end Text

/-! ### Names of stages -/

theorem Check.of_stageChars {cs : List Char}
    (h : startsAndGoesOn Char.isAlpha (fun c => isWordChar c || c = '.' || c = '-') cs) :
    ∀ c ∈ cs, c.toNat < 128 ∧ c ≠ '$' := by
  intro c hc
  cases cs with
  | nil => cases hc
  | cons first rest =>
    rw [startsAndGoesOn, Bool.and_eq_true, List.all_eq_true] at h
    have hclass : c.isAlphanum ∨ c = '_' ∨ c = '.' ∨ c = '-' := by
      rcases List.mem_cons.1 hc with rfl | hc
      · exact Or.inl (by simp [Char.isAlphanum, h.1])
      · simpa [isWordChar, or_assoc] using h.2 c hc
    rcases hclass with halnum | rfl | rfl | rfl
    · refine ⟨Text.isAlphanum_ascii halnum, ?_⟩
      rintro rfl
      cases halnum
    all_goals decide

theorem Check.of_isStageName {name : String} (h : isStageName name) :
    ∀ c ∈ name.toList, c.toNat < 128 ∧ c ≠ '$' := by
  intro c hc
  unfold isStageName Text.wholeLine at h
  rw [Bool.or_eq_true, Bool.and_eq_true, beq_iff_eq] at h
  rcases h with h | ⟨hlast, h⟩
  · exact of_stageChars h c hc
  · rw [← List.dropLast_append_getLast? _ hlast, List.mem_append, List.mem_singleton] at hc
    rcases hc with hc | rfl
    · exact of_stageChars h c hc
    · decide

namespace Document

variable {d : Document}

/-- Does a check accept the names of all stages? -/
def NamesOk (d : Document) : Prop :=
  ∀ s ∈ d.stages, ∀ name, s.name = some name → Check.isStageName name

/-- A reference to a stage has no dollar sign. -/
theorem NamesOk.dollar_notMem (h : d.NamesOk) {reference : String} {before n : Nat}
    (hn : d.resolve? reference before = some n) : '$' ∉ reference.toList := by
  intro hdollar
  unfold resolve? at hn
  split at hn
  · rename_i index hindex
    unfold Text.decimalIndex? at hindex
    split at hindex
    · rename_i hdigits
      rw [Bool.and_eq_true, List.all_eq_true] at hdigits
      cases hdigits.2 '$' hdollar
    · cases hindex
  · obtain ⟨s, hs, -⟩ := Option.map_eq_some_iff.1 hn
    have hmem : s ∈ d.stages := List.mem_of_mem_take (List.mem_of_find?_eq_some hs)
    have hnamed := List.find?_some hs
    unfold Stage.isNamed at hnamed
    split at hnamed
    · rename_i own hown
      have hok := Check.of_isStageName (h s hmem own hown)
      have hlower : Text.lowerChars own.toList = Text.lowerChars reference.toList :=
        String.ofList_injective (of_decide_eq_true hnamed)
      have hin : '$' ∈ Text.lowerChars own.toList := by
        rw [hlower]
        exact Text.mem_lowerAfter (by decide) (by decide) hdollar
      rw [Text.lowerChars, Text.lowerAfter_of_ascii fun c hc => (hok c hc).1] at hin
      obtain ⟨c, hc, hdown⟩ := List.mem_map.1 hin
      exact (hok c hc).2 (Text.toLower_eq_dollar (hok c hc).1 hdown)
    · cases hnamed

end Document

theorem Check.mem_nameFindings {earlier stages : List Stage} {s : Stage} {name : String}
    (hs : s ∈ stages) (hname : s.name = some name) (hbad : ¬ isStageName name) :
    ⟨.stageName name, s.position⟩ ∈ nameFindings earlier stages := by
  induction stages generalizing earlier with
  | nil => cases hs
  | cons t rest ih =>
    rw [nameFindings, List.mem_append]
    rcases List.mem_cons.1 hs with rfl | hs
    · simp [hname, hbad]
    · exact Or.inr (ih hs)

theorem Document.namesOk_of_check {d : Document} (h : d.check.errors = []) : d.NamesOk := by
  intro s hs name hname
  by_contra hbad
  have hmem : ⟨.stageName name, s.position⟩ ∈ Check.nameFindings [] d.stages :=
    Check.mem_nameFindings hs hname hbad
  have herror : ⟨.stageName name, s.position⟩ ∈ d.check.errors := by
    refine List.mem_filter.2 ⟨?_, rfl⟩
    simp [Document.check, hmem]
  rw [h] at herror
  cases herror

/-! ### Resolutions that say what texts say -/

/-- The entries of a resolution say what the unquoted texts of a document mean. -/
structure Resolution.Literal (r : Resolution) (d : Document) : Prop where
  base : ∀ s ∈ d.stages, ∀ target, r.baseOf? s.index = some target →
    d.resolve? (Template.unquote d.escape s.base.image) s.index = some target
  origin : ∀ s ∈ d.stages, ∀ position i slot text target,
    s.instructions[position]? = some i → (slot, text) ∈ Lower.Planner.origins i.body →
    r.get? ⟨s.index, some position, slot⟩ = some target →
      d.resolve? (Template.unquote d.escape text) s.index = some target

theorem Lower.Planner.originAt_of_mem {body : Body} {slot : Nat} {text : String}
    (h : (slot, text) ∈ origins body) : body.originAt slot = some text := by
  cases body with
  | copy c =>
    obtain ⟨text', htext, heq⟩ := List.mem_map.1 h
    cases heq
    exact (Option.filter_eq_some_iff.1 (Option.mem_toList.1 htext)).1
  | run r =>
    obtain ⟨⟨mount, n⟩, hmount, hentry⟩ := List.mem_filterMap.1 h
    obtain ⟨text', htext, heq⟩ := Option.map_eq_some_iff.1 hentry
    cases heq
    have horigin := (Option.filter_eq_some_iff.1 htext).1
    simp [Body.originAt, List.mk_mem_zipIdx_iff_getElem?.1 hmount, horigin]
  | _ => cases h

theorem Resolution.literal_check {d : Document} (hd : d.Numbered) :
    d.check.resolution.Literal d where
  base := by
    intro s hs target h
    obtain ⟨t, ht, hentry⟩ := List.mem_flatMap.1 (mem_entries_of_get? h)
    rcases Check.of_mem_stageEntries hentry with ⟨hsite, htarget⟩ | ⟨_, _, _, _, hsite, -⟩
    · obtain rfl := hd.eq_of_index hs ht (congrArg Site.stage hsite)
      exact htarget
    · cases congrArg Site.position hsite
  origin := by
    intro s hs position i slot text target hi horigin h
    obtain ⟨t, ht, hentry⟩ := List.mem_flatMap.1 (mem_entries_of_get? h)
    rcases Check.of_mem_stageEntries hentry with
      ⟨hsite, -⟩ | ⟨position', i', slot', text', hsite, hi', htext', htarget⟩
    · cases congrArg Site.position hsite
    · obtain rfl := hd.eq_of_index hs ht (congrArg Site.stage hsite)
      cases hsite
      obtain rfl : i = i' := Option.some.inj (hi.symm.trans hi')
      have htext := Lower.Planner.originAt_of_mem horigin
      obtain rfl : text = text' := Option.some.inj (htext.symm.trans htext')
      exact htarget

/-! ### Plans -/

namespace Lower

namespace Planner

variable {p : Planner} {s : Stage} {i : Instruction} {position slot : Nat} {text : String}

/-- A text that means a stage without its quotes means it with its variables replaced. -/
theorem value_word (hnames : p.document.NamesOk) {escape : Char} {n before : Nat}
    (h : p.document.resolve? (Template.unquote escape text) before = some n)
    (lookup : Template.Lookup) :
    (Phrase.word text).value escape lookup = Template.unquote escape text := by
  have hdollar := hnames.dollar_notMem h
  rw [Template.unquote, String.toList_ofList] at hdollar
  exact congrArg String.ofList (Template.value_read_word lookup hdollar)

section Literal

variable (hnames : p.document.NamesOk) (hescape : p.setting.escape = p.document.escape)
  (hr : p.resolution.Literal p.document) (hs : s ∈ p.document.stages)

include hnames hescape hr hs

theorem base?_literal : p.base? s = { p with resolution := .empty }.base? s := by
  unfold base?
  cases hb : p.resolution.baseOf? s.index with
  | none => rfl
  | some target =>
    have htarget := hr.base s hs target hb
    show some target = p.document.resolve? (p.image s) s.index
    rw [image, hescape, value_word hnames htarget, htarget]

theorem reference_literal (hi : s.instructions[position]? = some i)
    (ho : (slot, text) ∈ origins i.body) (scope : Scope) :
    p.reference s position slot (scope.word p.setting text) =
      { p with resolution := .empty }.reference s position slot (scope.word p.setting text) := by
  unfold reference
  cases hget : p.resolution.get? ⟨s.index, some position, slot⟩ with
  | none => rfl
  | some target =>
    have htarget := hr.origin s hs position i slot text target hi ho hget
    have hword : scope.word p.setting text = Template.unquote p.document.escape text := by
      rw [Scope.word, Scope.value, hescape, value_word hnames htarget]
    dsimp only
    rw [hword, htarget]
    rfl

theorem references_literal {instructions : List Instruction}
    (hdrop : s.instructions.drop position = instructions) (scope : Scope) :
    p.references s scope position instructions =
      { p with resolution := .empty }.references s scope position instructions := by
  induction instructions generalizing position scope with
  | nil => rfl
  | cons i rest ih =>
    have hi : s.instructions[position]? = some i := by
      rw [← List.head?_drop, hdrop]
      rfl
    have hrest : s.instructions.drop (position + 1) = rest := by
      rw [← List.tail_drop, hdrop]
      rfl
    unfold references
    rw [ih hrest]
    congr 1
    refine List.map_congr_left fun origin ho => ?_
    obtain ⟨slot, text⟩ := origin
    exact congrArg (Prod.mk (position, slot)) (reference_literal hnames hescape hr hs hi ho scope)

/-- A resolution that says what texts say is of no consequence for a stage. -/
theorem planFrom_literal (env : Table String) :
    p.planFrom s env = { p with resolution := .empty }.planFrom s env := by
  unfold planFrom
  rw [base?_literal hnames hescape hr hs,
    references_literal hnames hescape hr hs (List.drop_zero (l := s.instructions))]
  rfl

end Literal

theorem planStages_congr {p' : Planner} {stages : List Stage}
    (h : ∀ s ∈ stages, ∀ env, p'.planFrom s env = p.planFrom s env) (plans : List Plan) :
    p'.planStages plans stages = p.planStages plans stages := by
  induction stages generalizing plans with
  | nil => rfl
  | cons s rest ih =>
    have hs := h s List.mem_cons_self
    have hbase : p'.base? s = p.base? s := congrArg Plan.base (hs [])
    have hrest := ih fun t ht => h t (List.mem_cons_of_mem s ht)
    unfold planStages
    simp only [hbase, hs, hrest]

theorem plans_literal (hnames : p.document.NamesOk)
    (hescape : p.setting.escape = p.document.escape) (hr : p.resolution.Literal p.document) :
    p.plans = { p with resolution := .empty }.plans :=
  planStages_congr (fun _ hs env => planFrom_literal hnames hescape hr hs env) []

end Planner

/-- A lowering is not changed by a resolution that says what texts say. -/
theorem lower_literal {d : Document} {r : Resolution} (hnames : d.NamesOk) (hr : r.Literal d)
    (job : Job) : d.lower job r = d.lower job .empty := by
  have hplans (metas : Metas) : (Planner.mk d (job.setting d) metas r).plans =
      (Planner.mk d (job.setting d) metas .empty).plans :=
    Planner.plans_literal (p := ⟨d, job.setting d, metas, r⟩) hnames rfl hr
  have hbuild : build d job r = build d job .empty := by
    unfold build
    simp only [hplans]
  unfold Document.lower
  rw [hbuild]

/-- A document whose check finds no errors is lowered in the same way, to the same graph or the same
fault, with the resolution of the check and without. -/
theorem lower_check_resolution {d : Document} (hd : d.Parsed) (h : d.check.errors = [])
    (buildArgs : Table String) (target platform : Option String) :
    d.lowerFor (some d.check) none buildArgs target platform =
      d.lowerFor none none buildArgs target platform := by
  have haccepted : (some d.check).filter (fun r => !r.ok) = none := by
    simp [Option.filter, Report.ok, h]
  have hlower (platform : Option Platform) :=
    lower_literal (Document.namesOk_of_check h) (Resolution.literal_check hd.numbered)
      ⟨buildArgs, target, platform⟩
  unfold Document.lowerFor
  rw [haccepted]
  cases readPlatform platform with
  | error fault => rfl
  | ok platform => exact hlower platform

/-- References by a quoted name, by an escaped number and by a variable. -/
theorem lower_check_resolution_quoted : ∃ d g, Document.parse
      ("FROM a AS Base\nRUN b\nFROM 'baSE' AS c\nARG S=0\nCOPY --from=\\0 e f\n" ++
        "COPY --from=$S e f\n") = .ok d ∧
    d.check.errors = [] ∧
    d.check.resolution.entries = [(⟨1, none, 0⟩, 0), (⟨1, some 1, 0⟩, 0)] ∧
    (d.lowerFor none none [] none (some "linux/arm64")).result = .ok g ∧
    (d.lowerFor (some d.check) none [] none (some "linux/arm64")).result = .ok g := by
  obtain ⟨d, g, hd, hg, herrors, hentries⟩ := exists_lowered_with
    ("FROM a AS Base\nRUN b\nFROM 'baSE' AS c\nARG S=0\nCOPY --from=\\0 e f\n" ++
      "COPY --from=$S e f\n") ⟨[], none, some ⟨"linux", some "arm64", none⟩⟩ (fun _ => .empty)
    (fun d _ => d.check.errors = [] ∧
      d.check.resolution.entries = [(⟨1, none, 0⟩, 0), (⟨1, some 1, 0⟩, 0)]) (by decide +kernel)
  refine ⟨d, g, hd, herrors, hentries, hg, ?_⟩
  rw [lower_check_resolution (.inl ⟨_, hd⟩) herrors]
  exact hg

end Lower

end Dockerfile
