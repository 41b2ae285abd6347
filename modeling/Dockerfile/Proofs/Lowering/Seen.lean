import Dockerfile.Proofs.Checking.Variables
import Dockerfile.Proofs.Lowering.Required
import Dockerfile.Proofs.Template.Lookups

/-!
# Lookups that a check sees

A check reads the references of the texts of an instruction, and a lowering looks variables up when
it expands these texts. What it looks up is known at the instruction, or the check warns of it
there, unless it is hidden: it stands in the word of a `+` substitution, which counts when its
variable has a value and which the check does not go into (`lookups_seen`).
-/

namespace Dockerfile

namespace Lower

/-! ### Texts that are checked -/

variable {setting : Setting} {metas : Metas} {o : Occurrence} {body : Body} {p : Phrase} {s : Scope}

theorem some_text_of_mem_optional {text : Option String} (h : p ∈ Phrase.optional text) :
    some p.text = text := by
  cases text with
  | none => cases h
  | some text =>
    rw [List.mem_singleton.1 h]
    rfl

/-- The text of a declaration, unless its value is supplied. -/
theorem some_text_of_mem_ite {supplied : Bool} {text : Option String}
    (h : p ∈ if supplied then [] else Phrase.optional text) : some p.text = text := by
  split at h
  · cases h
  · exact some_text_of_mem_optional h

theorem mem_checkedTexts_of_phrase (h : p ∈ Scope.phrases body) :
    some p.text ∈ Check.checkedTexts body := by
  cases body <;> simp [Scope.phrases, Check.checkedTexts] at h ⊢ <;>
    grind [some_text_of_mem_optional, Phrase.word, Phrase.command]

theorem mem_default_of_argOccurrence {ds : List Declaration}
    (h : o ∈ s.argOccurrences setting metas ds) :
    some o.phrase.text ∈ ds.map Declaration.default := by
  induction ds generalizing s with
  | nil => cases h
  | cons d rest ih =>
    rcases List.mem_append.1 h with h | h
    · obtain ⟨p, hp, rfl⟩ := List.mem_map.1 h
      rw [List.map_cons, some_text_of_mem_ite hp]
      exact List.mem_cons_self
    · exact List.mem_cons_of_mem _ (ih h)

theorem mem_default_of_metaOccurrence {ds : List Declaration}
    (h : o ∈ setting.metaOccurrences metas ds) :
    some o.phrase.text ∈ ds.map Declaration.default := by
  induction ds generalizing metas with
  | nil => cases h
  | cons d rest ih =>
    rcases List.mem_append.1 h with h | h
    · obtain ⟨p, hp, rfl⟩ := List.mem_map.1 h
      rw [List.map_cons, some_text_of_mem_ite hp]
      exact List.mem_cons_self
    · exact List.mem_cons_of_mem _ (ih h)

theorem mem_texts_of_baseOccurrence {base : Base} (h : o ∈ setting.baseOccurrences metas base) :
    some o.phrase.text ∈ [some base.image, base.platform] := by
  obtain ⟨p, hp, rfl⟩ := List.mem_map.1 h
  rcases List.mem_cons.1 hp with rfl | hp
  · exact List.mem_cons_self
  · exact List.mem_cons_of_mem _ (List.mem_singleton.2 (some_text_of_mem_optional hp))

theorem mem_checkedTexts_of_occurrence (h : o ∈ s.occurrences setting metas body) :
    some o.phrase.text ∈ Check.checkedTexts body := by
  cases body with
  | arg declarations => exact mem_default_of_argOccurrence h
  | _ =>
    obtain ⟨p, hp, rfl⟩ := List.mem_map.1 h
    exact mem_checkedTexts_of_phrase hp

theorem mem_checkedTexts_of_origin {slot : Nat} {text : String}
    (h : (slot, text) ∈ Planner.origins body) : some text ∈ Check.checkedTexts body := by
  cases body with
  | copy c =>
    obtain ⟨_, htext, heq⟩ := List.mem_map.1 h
    cases heq
    have horigin := (Option.filter_eq_some_iff.1 (Option.mem_toList.1 htext)).1
    simp [Check.checkedTexts, horigin]
  | run r =>
    obtain ⟨⟨mount, _⟩, hmount, hentry⟩ := List.mem_filterMap.1 h
    obtain ⟨_, htext, heq⟩ := Option.map_eq_some_iff.1 hentry
    cases heq
    have horigin := (Option.filter_eq_some_iff.1 htext).1
    refine List.mem_append_right _ (List.mem_flatMap.2 ⟨mount, ?_, by simp [horigin]⟩)
    exact List.mem_of_getElem? (List.mk_mem_zipIdx_iff_getElem?.1 hmount)
  | _ => cases h

/-- The texts of an instruction that a lowering looks at in a scope: those that it expands, and the
references to stages, whose meaning is settled before. -/
def Scope.lookedAt (s : Scope) (setting : Setting) (metas : Metas) (body : Body) :
    List Occurrence :=
  s.occurrences setting metas body ++
    (Planner.origins body).map fun origin => ⟨s.lookup, .word origin.2⟩

theorem mem_checkedTexts_of_lookedAt (h : o ∈ s.lookedAt setting metas body) :
    some o.phrase.text ∈ Check.checkedTexts body := by
  rcases List.mem_append.1 h with h | h
  · exact mem_checkedTexts_of_occurrence h
  · obtain ⟨origin, horigin, rfl⟩ := List.mem_map.1 h
    exact mem_checkedTexts_of_origin horigin

/-- The names that the expansion of a text looks up. -/
def Occurrence.asked (escape : Char) (strict : Bool) (o : Occurrence) : List String :=
  (o.phrase.template escape).asked o.lookup strict

/-- Is a name hidden in a text? -/
def Occurrence.Hides (escape : Char) (o : Occurrence) (name : String) : Prop :=
  Template.IsHidden escape o.lookup o.phrase.text name

end Lower

namespace Document

open Lower Check

variable {d : Document} {name : String}

theorem hides_or_uses {texts : List (Option String)} {o : Occurrence} {strict : Bool}
    (htext : some o.phrase.text ∈ texts) (h : name ∈ o.asked d.escape strict) :
    o.Hides d.escape name ∨ d.Uses texts name :=
  (Template.mem_references_of_asked h).symm.imp_right fun h => ⟨_, htext, h⟩

/-! ### Warnings before the first stage -/

theorem mem_issues {scope : Check.Scope} {escape : Char} {texts : List (Option String)}
    (hname : name ∈ namesIn escape texts) (hscope : name ∉ scope.known) :
    scope.issue name ∈ scope.issues escape texts := by
  have hfilter := scope.filter_unknownName?_issues escape texts name
  rw [if_pos ⟨hname, hscope⟩] at hfilter
  have hmem : scope.issue name ∈ [scope.issue name] := List.mem_cons_self
  rw [← hfilter] at hmem
  exact List.mem_of_mem_filter hmem

/-- A check of what stands before the first stage tells of every variable in the default of an `ARG`
that no `ARG` before it declares. -/
theorem exists_preambleFinding {escape : Char} {is : List Instruction} (scope : Check.Scope)
    (reported : Bool) {j : Nat} {i : Instruction} {declarations : List Declaration}
    (hi : is[j]? = some i) (hbody : i.body = .arg declarations)
    (hname : name ∈ namesIn escape (declarations.map Declaration.default))
    (hscope : name ∉ scope.known)
    (hbefore : ∀ q i', q < j → is[q]? = some i' → name ∉ i'.body.args) :
    ∃ issue, ⟨issue, i.position⟩ ∈ preambleFindings escape scope reported is ∧
      issue.unknownName? = some name := by
  induction is generalizing j scope reported with
  | nil => cases hi
  | cons first rest ih =>
    cases j with
    | zero =>
      cases hi
      refine ⟨scope.issue name, ?_, scope.unknownName?_issue name⟩
      unfold preambleFindings
      rw [hbody]
      refine List.mem_append_left _ ?_
      rw [findings, hbody]
      exact List.mem_map_of_mem (List.mem_append_left _ (mem_issues hname hscope))
    | succ j =>
      -- An instruction that is no `ARG` leaves the scope as it is, even an `ENV`.
      have hfirst : name ∉ first.body.args := hbefore 0 first j.succ_pos rfl
      have hrest : ∀ q i', q < j → rest[q]? = some i' → name ∉ i'.body.args :=
        fun q i' hq => hbefore (q + 1) i' (Nat.succ_lt_succ hq)
      unfold preambleFindings
      split
      · rename_i ds harg
        have hknown : name ∉ (scope.after first.body).known := by
          rw [scope.known_after, Body.declares, List.mem_append, List.mem_append, harg]
          rw [harg] at hfirst
          simp [hscope, hfirst, Body.envs]
        obtain ⟨issue, hissue, hunknown⟩ := ih _ _ hi hknown hrest
        exact ⟨issue, List.mem_append_right _ hissue, hunknown⟩
      · obtain ⟨issue, hissue, hunknown⟩ := ih _ _ hi hscope hrest
        exact ⟨issue, List.mem_append_right _ hissue, hunknown⟩

theorem warningsAbout_ne_nil {r : Report} {issue : Issue} {x : Position}
    (h : ⟨issue, x⟩ ∈ r.findings) (hissue : issue.unknownName? = some name) :
    r.warningsAbout name x ≠ [] := by
  have hwarning : Finding.isError ⟨issue, x⟩ = false := by
    unfold Finding.isError
    revert hissue
    cases issue with
    | _ => simp [Issue.unknownName?, Issue.severity]
  refine List.ne_nil_of_mem
    (List.mem_map_of_mem (List.mem_filter.2 ⟨List.mem_filter.2 ⟨h, ?_⟩, ?_⟩))
  · simp [hwarning]
  · simp [hissue]

/-! ### Lookups -/

/-- What is looked up at an instruction, whatever the values of the variables are, is known there,
or a check warns of it, unless it is hidden. -/
structure SeesLookups (d : Document) (setting : Setting) : Prop where
  preamble : ∀ (j : Nat) (i : Instruction) (declarations : List Declaration) (metas : Metas),
    d.preamble[j]? = some i → i.body = .arg declarations →
    ∀ o ∈ setting.metaOccurrences metas declarations, ∀ (strict : Bool),
    ∀ name ∈ o.asked d.escape strict,
      o.Hides d.escape name ∨ name ∈ Platform.globalArgs ∨
        (∃ q i', q < j ∧ d.preamble[q]? = some i' ∧ name ∈ i'.body.args) ∨
        d.check.warningsAbout name i.position ≠ []
  base : ∀ (n : Nat) (s : Stage) (metas : Metas), d.stages[n]? = some s →
    ∀ o ∈ setting.baseOccurrences metas s.base, ∀ (strict : Bool),
    ∀ name ∈ o.asked d.escape strict,
      o.Hides d.escape name ∨ name ∈ metaNames d ∨ name ∈ Platform.globalArgs ∨
        d.check.warningsAbout name s.position ≠ []
  instruction : ∀ (n position : Nat) (s : Stage) (i : Instruction) (metas : Metas)
    (scope : Lower.Scope), d.stages[n]? = some s → s.instructions[position]? = some i →
    ∀ o ∈ scope.lookedAt setting metas i.body, ∀ (strict : Bool),
    ∀ name ∈ o.asked d.escape strict,
      o.Hides d.escape name ∨ d.Sees Body.declares n position name ∨
        d.check.warningsAbout name i.position ≠ []

theorem seesLookups {source : String} (h : parse source = .ok d) (setting : Setting) :
    d.SeesLookups setting where
  preamble := by
    intro j i declarations metas hi hbody o ho strict name hname
    refine (hides_or_uses (mem_default_of_metaOccurrence ho) hname).imp_right fun huses => ?_
    by_contra hunseen
    simp only [not_or, not_exists, not_and] at hunseen
    obtain ⟨hglobal, hbefore, hwarning⟩ := hunseen
    obtain ⟨issue, hissue, hunknown⟩ := exists_preambleFinding ⟨[], false, Platform.globalArgs, []⟩
      false hi hbody (uses_iff.2 huses) hglobal hbefore
    have hfinding : ⟨issue, i.position⟩ ∈ d.check.findings :=
      List.mem_append_left _ (List.mem_append_left _ (List.mem_append_left _ hissue))
    exact hwarning (warningsAbout_ne_nil hfinding hunknown)
  base := by
    intro n s metas hs o ho strict name hname
    refine (hides_or_uses (mem_texts_of_baseOccurrence ho) hname).imp_right fun huses => ?_
    by_contra hunseen
    simp only [not_or] at hunseen
    obtain ⟨hmeta, hglobal, hwarning⟩ := hunseen
    obtain ⟨issue, hissue, -⟩ := (warningsAbout_base (nodup_position_of_parse h) hs).1
      ⟨huses, hmeta, hglobal⟩
    exact hwarning (by simp [hissue])
  instruction := by
    intro n position s i metas scope hs hi o ho strict name hname
    refine (hides_or_uses (mem_checkedTexts_of_lookedAt ho) hname).imp_right fun huses => ?_
    by_contra hunseen
    simp only [not_or] at hunseen
    obtain ⟨hsees, hwarning⟩ := hunseen
    obtain ⟨issue, hissue, -⟩ := (warningsAbout_instruction (Parsed.numbered (.inl ⟨source, h⟩))
      (nodup_position_of_parse h) hs hi).1 ⟨huses, hsees⟩
    exact hwarning (by simp [hissue])

/-- The references of a text are what its expansion looks up when no variable has a value. With
other values it looks up nothing else but what is hidden in the text. So a check sees all that a
lowering can look up and that is not hidden. -/
theorem lookups_seen (mode : Template.Mode) (escape : Char) (text : String)
    (lookup : Template.Lookup) (strict : Bool) :
    ((Template.read mode escape .none text.toList).expandM (Template.noting lookup) strict).run [] =
        ((Template.read mode escape .none text.toList).expand lookup strict,
          (Template.read mode escape .none text.toList).asked lookup strict) ∧
      Template.references escape text =
        (Template.ofText escape text).asked (fun _ => none) false ∧
      (∀ name ∈ (Template.read mode escape .none text.toList).asked lookup strict,
        name ∈ Template.references escape text ∨ Template.IsHidden escape lookup text name) ∧
      ∀ (source : String) (d : Document), parse source = .ok d →
        ∀ setting, d.SeesLookups setting := by
  refine ⟨?_, ?_, fun name h => ?_, fun source d h setting => seesLookups h setting⟩
  · exact Template.run_noting lookup strict _
  · exact Template.names_eq_asked _
  · exact Template.mem_references_of_asked h

/-- The variables of a default and of the word of a `-` substitution are seen, the one in the word
of a `+` substitution is not: a lowering misses it and a check says nothing. -/
theorem lookups_seen_mixed : ∃ d g,
    parse "ARG V=$W\nFROM a\nENV C=1\nRUN ${A:-$B}${C:+$D}\n" = .ok d ∧
    d.SeesLookups (Job.setting ⟨[], none, none⟩ d) ∧
    (d.lower ⟨[], none, none⟩ .empty).result = .ok g ∧
    d.check.findings = [⟨.undeclared "W", ⟨1, 1⟩⟩, ⟨.undeclared "A", ⟨4, 1⟩⟩,
      ⟨.undeclared "B", ⟨4, 1⟩⟩] ∧
    g.warnings = [⟨"W", none, .arg, ⟨1, 1⟩⟩, ⟨"B", some 0, .run, ⟨4, 1⟩⟩,
      ⟨"D", some 0, .run, ⟨4, 1⟩⟩] ∧
    Template.IsHidden '\\' (fun name => if name = "C" then some "1" else none)
      "${A:-$B}${C:+$D}" "D" := by
  obtain ⟨d, g, hd, hg, hfindings, hwarnings⟩ := exists_lowered_with
    "ARG V=$W\nFROM a\nENV C=1\nRUN ${A:-$B}${C:+$D}\n" ⟨[], none, none⟩ (fun _ => .empty)
    (fun d g => d.check.findings = [⟨.undeclared "W", ⟨1, 1⟩⟩, ⟨.undeclared "A", ⟨4, 1⟩⟩,
        ⟨.undeclared "B", ⟨4, 1⟩⟩] ∧
      g.warnings = [⟨"W", none, .arg, ⟨1, 1⟩⟩, ⟨"B", some 0, .run, ⟨4, 1⟩⟩,
        ⟨"D", some 0, .run, ⟨4, 1⟩⟩]) (by decide +kernel)
  obtain ⟨-, -, hseen, hcheck⟩ := lookups_seen .text '\\' "${A:-$B}${C:+$D}"
    (fun name => if name = "C" then some "1" else none) true
  refine ⟨d, g, hd, hcheck _ d hd _, hg, hfindings, hwarnings, (hseen "D" ?_).resolve_left ?_⟩
  · decide +kernel
  · decide +kernel

/-- The word of a `+` substitution is expanded when its variable has a value, and what it refers to
is not among the references of the text. -/
theorem references_omit_alternative :
    "B" ∈ (Template.ofWord '\\' "${A:+$B}").asked
      (fun name => if name = "A" then some "1" else none) true ∧
    Template.references '\\' "${A:+$B}" = ["A"] := by
  decide +kernel

end Document

end Dockerfile
