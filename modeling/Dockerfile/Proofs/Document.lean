import Dockerfile.Check
import Dockerfile.Proofs.Template

/-!
# Documents that are read

The stages of a document that was read are numbered in their order, and no `FROM` stands among the
instructions of a stage. Preamble and stages hold all instructions that were read, in their order
(`all_ofInstructions`), and one more instruction at the end is one more in the last stage
(`ofInstructions_concat`). A reference that is resolved means an earlier stage, so the resolution of
a check only points backward (`Resolution.backward_check`).
-/

namespace Dockerfile

namespace Document

/-- Was the document read, from a text or from tokens? -/
def Parsed (d : Document) : Prop :=
  (∃ source, parse source = .ok d) ∨ ∃ tokens, ofTokens tokens = .ok d

/-- Every stage has the number of its place. -/
def Numbered (d : Document) : Prop := ∀ (n : Nat) (s : Stage), d.stages[n]? = some s → s.index = n

/-- The shape of a document that was read. -/
structure Shaped (d : Document) : Prop where
  numbered : d.Numbered
  /-- A stage goes up to the next `FROM`. -/
  noBase : ∀ s ∈ d.stages, ∀ i ∈ s.instructions, i.kind ≠ .base

theorem kind_ne_base {i : Instruction} (h : ∀ position base, i = ⟨position, .base base⟩ → False) :
    i.kind ≠ .base := by
  obtain ⟨position, body⟩ := i
  cases body with
  | base base => exact (h position base rfl).elim
  | _ => rintro ⟨⟩

theorem kind_ne_base_of_mem_splitStage {instructions : List Instruction} {i : Instruction}
    (h : i ∈ (splitStage instructions).1) : i.kind ≠ .base := by
  fun_induction splitStage instructions with
  | case1 | case2 => simp at h
  | case3 j rest hj own others hrest ih =>
    rcases List.mem_cons.1 h with rfl | h
    · exact kind_ne_base hj
    · exact ih (by rwa [hrest])

variable {d : Document} {s : Stage} {entries : List Entry}

theorem stagesFrom_index {first n : Nat} {instructions : List Instruction}
    (h : (stagesFrom first instructions)[n]? = some s) : s.index = first + n := by
  fun_induction stagesFrom first instructions generalizing n with
  | case1 => simp at h
  | case2 first position base rest ih =>
    cases n with
    | zero =>
      rw [List.getElem?_cons_zero, Option.some.injEq] at h
      rw [← h]
      rfl
    | succ n =>
      rw [List.getElem?_cons_succ] at h
      rw [ih h]
      omega
  | case3 first i rest _ ih => exact ih h

theorem stagesFrom_noBase {first : Nat} {instructions : List Instruction}
    (h : s ∈ stagesFrom first instructions) : ∀ i ∈ s.instructions, i.kind ≠ .base := by
  fun_induction stagesFrom first instructions with
  | case1 => simp at h
  | case2 first position base rest ih =>
    rcases List.mem_cons.1 h with rfl | h
    · exact fun i hi => kind_ne_base_of_mem_splitStage hi
    · exact ih h
  | case3 first i rest _ ih => exact ih h

theorem shaped_ofInstructions (directives : List (Directive × Position)) (escape : Char)
    (instructions : List Instruction) : (ofInstructions directives escape instructions).Shaped where
  numbered := fun n s h => by rw [stagesFrom_index h, Nat.zero_add]
  noBase := fun _ h => stagesFrom_noBase h

theorem ofEntries_eq_ok (h : ofEntries entries = .ok d) :
    ∃ is, instructions (Entry.escapeOf (Entry.directives entries)) entries = .ok is ∧
      d = ofInstructions (Entry.directives entries)
        (Entry.escapeOf (Entry.directives entries)) is := by
  simp only [ofEntries] at h
  cases hi : instructions (Entry.escapeOf (Entry.directives entries)) entries with
  | error fault =>
    rw [hi] at h
    cases h
  | ok is =>
    rw [hi] at h
    cases h
    exact ⟨is, rfl, rfl⟩

theorem shaped_of_ofEntries (h : ofEntries entries = .ok d) : d.Shaped := by
  obtain ⟨is, -, rfl⟩ := ofEntries_eq_ok h
  exact shaped_ofInstructions _ _ is

theorem isEscape_of_directive {d : Directive} {c : Char} (h : d.escape? = some c) :
    Template.IsEscape c := by
  unfold Directive.escape? at h
  split at h
  · split at h
    · split at h
      · rename_i hchar
        cases h
        simpa [Template.IsEscape] using hchar
      · cases h
    · cases h
  · cases h

theorem isEscape_escapeOf (directives : List (Directive × Position)) :
    Template.IsEscape (Entry.escapeOf directives) := by
  unfold Entry.escapeOf
  cases hlast : (directives.filterMap fun d => d.1.escape?).getLast? with
  | none => exact .inl rfl
  | some c =>
    obtain ⟨d, -, hc⟩ := List.mem_filterMap.1 (List.mem_of_getLast? hlast)
    exact isEscape_of_directive hc

theorem isEscape_of_ofEntries (h : ofEntries entries = .ok d) : Template.IsEscape d.escape := by
  obtain ⟨is, -, rfl⟩ := ofEntries_eq_ok h
  exact isEscape_escapeOf _

theorem Parsed.isEscape (h : d.Parsed) : Template.IsEscape d.escape := by
  rcases h with ⟨source, h⟩ | ⟨tokens, h⟩
  · exact isEscape_of_ofEntries h
  · exact isEscape_of_ofEntries h

theorem Parsed.shaped (h : d.Parsed) : d.Shaped := by
  rcases h with ⟨source, h⟩ | ⟨tokens, h⟩
  · exact shaped_of_ofEntries h
  · exact shaped_of_ofEntries h

theorem Parsed.numbered (h : d.Parsed) : d.Numbered := h.shaped.numbered

theorem numbered_of_parse {source : String} (h : parse source = .ok d) : d.Numbered :=
  Parsed.numbered (.inl ⟨source, h⟩)

namespace Numbered

variable {d : Document}

theorem index_lt (hd : d.Numbered) (h : s ∈ d.stages) : s.index < d.stages.length := by
  obtain ⟨n, hn⟩ := List.mem_iff_getElem?.1 h
  rw [hd n s hn]
  exact (List.getElem?_eq_some_iff.1 hn).1

theorem eq_of_index (hd : d.Numbered) {t : Stage} (hs : s ∈ d.stages) (ht : t ∈ d.stages)
    (h : s.index = t.index) : s = t := by
  obtain ⟨n, hn⟩ := List.mem_iff_getElem?.1 hs
  obtain ⟨m, hm⟩ := List.mem_iff_getElem?.1 ht
  rw [hd n s hn, hd m t hm] at h
  rw [h] at hn
  exact Option.some.inj (hn.symm.trans hm)

theorem resolve?_lt (hd : d.Numbered) {reference : String} {before n : Nat}
    (h : d.resolve? reference before = some n) : n < before := by
  unfold resolve? at h
  split at h
  · split at h
    · cases h
      assumption
    · cases h
  · obtain ⟨s, hs, rfl⟩ := Option.map_eq_some_iff.1 h
    obtain ⟨k, hk⟩ := List.mem_iff_getElem?.1 (List.mem_of_find?_eq_some hs)
    rw [List.getElem?_take] at hk
    split at hk
    · rename_i hlt
      rw [hd k s hk]
      exact hlt
    · cases hk

end Numbered

/-! ### All instructions -/

/-- The instructions of a document as they stand in the file, with the `FROM` of each stage. -/
def all (d : Document) : List Instruction :=
  d.preamble ++ d.stages.flatMap fun s => ⟨s.position, .base s.base⟩ :: s.instructions

theorem splitStage_append (instructions : List Instruction) :
    (splitStage instructions).1 ++ (splitStage instructions).2 = instructions := by
  fun_induction splitStage instructions with
  | case1 | case2 => rfl
  | case3 i rest _ own others hrest ih =>
    rw [hrest] at ih
    exact congrArg (i :: ·) ih

theorem flatMap_stagesFrom (first : Nat) (is : List Instruction) :
    ((stagesFrom first is).flatMap fun s => ⟨s.position, .base s.base⟩ :: s.instructions) =
      (splitStage is).2 := by
  fun_induction stagesFrom first is with
  | case1 => rfl
  | case2 first position base rest ih =>
    rw [List.flatMap_cons, ih, List.cons_append, splitStage_append]
    rfl
  | case3 first i rest hi ih =>
    rw [ih, splitStage]
    exact hi

/-- Grouping instructions keeps them all. -/
theorem all_ofInstructions (directives : List (Directive × Position)) (escape : Char)
    (instructions : List Instruction) :
    (ofInstructions directives escape instructions).all = instructions := by
  rw [all, ofInstructions, flatMap_stagesFrom, splitStage_append]

theorem ofInstructions_all (h : ofEntries entries = .ok d) :
    ofInstructions d.directives d.escape d.all = d := by
  obtain ⟨is, -, rfl⟩ := ofEntries_eq_ok h
  rw [all_ofInstructions]
  rfl

end Document

/-! ### One more instruction -/

/-- A stage with one more instruction at its end. -/
def Stage.add (s : Stage) (i : Instruction) : Stage :=
  { s with instructions := s.instructions ++ [i] }

namespace Document

/-- A document with one more instruction at its end: in the last stage, or before the first stage
where there is none. -/
def add (d : Document) (i : Instruction) : Document :=
  match d.stages.getLast? with
  | none => { d with preamble := d.preamble ++ [i] }
  | some s => { d with stages := d.stages.dropLast ++ [s.add i] }

theorem splitStage_cons {i : Instruction} (hi : i.kind ≠ .base) (rest : List Instruction) :
    splitStage (i :: rest) = (i :: (splitStage rest).1, (splitStage rest).2) := by
  obtain ⟨position, body⟩ := i
  cases body with
  | base base => exact (hi rfl).elim
  | _ => rfl

theorem stagesFrom_cons {i : Instruction} (hi : i.kind ≠ .base) (first : Nat)
    (rest : List Instruction) : stagesFrom first (i :: rest) = stagesFrom first rest := by
  obtain ⟨position, body⟩ := i
  cases body with
  | base base => exact (hi rfl).elim
  | _ => rfl

theorem splitStage_of_noBase {is : List Instruction} (h : ∀ i ∈ is, i.kind ≠ .base) :
    splitStage is = (is, []) := by
  induction is with
  | nil => rfl
  | cons i is ih =>
    obtain ⟨hi, his⟩ := List.forall_mem_cons.1 h
    rw [splitStage_cons hi, ih his]

theorem stagesFrom_of_noBase {is : List Instruction} (h : ∀ i ∈ is, i.kind ≠ .base) (first : Nat) :
    stagesFrom first is = [] := by
  induction is with
  | nil => rfl
  | cons i is ih =>
    obtain ⟨hi, his⟩ := List.forall_mem_cons.1 h
    rw [stagesFrom_cons hi, ih his]

variable {position : Position} {base : Base}

/-- What stands before a `FROM` does not depend on what stands behind it. -/
theorem splitStage_append_base (front own : List Instruction) :
    (splitStage (front ++ ⟨position, .base base⟩ :: own)).1 = (splitStage front).1 := by
  fun_induction splitStage front with
  | case1 | case2 => rfl
  | case3 i rest hi before others hrest ih =>
    have hkind : i.kind ≠ .base := kind_ne_base hi
    rw [hrest] at ih
    rw [List.cons_append, splitStage_cons hkind, ih]

theorem stagesFrom_append_base (first : Nat) (front own : List Instruction) :
    stagesFrom first (front ++ ⟨position, .base base⟩ :: own) = stagesFrom first front ++
      stagesFrom (first + (stagesFrom first front).length) (⟨position, .base base⟩ :: own) := by
  fun_induction stagesFrom first front with
  | case1 first => rfl
  | case2 first _ _ rest ih =>
    rw [List.cons_append, stagesFrom, splitStage_append_base, ih, List.length_cons,
      Nat.add_assoc first, Nat.add_comm 1, List.cons_append]
  | case3 first i rest hi ih =>
    rw [List.cons_append, stagesFrom_cons (kind_ne_base hi), ih]

/-- The last `FROM` of some instructions, if there is one. -/
theorem exists_last_base (is : List Instruction) : (∀ i ∈ is, i.kind ≠ .base) ∨
    ∃ front position base own, is = front ++ ⟨position, .base base⟩ :: own ∧
      ∀ i ∈ own, i.kind ≠ .base := by
  induction is with
  | nil => exact .inl (by simp)
  | cons i is ih =>
    rcases ih with hno | ⟨front, position, base, own, rfl, hown⟩
    · obtain ⟨position, body⟩ := i
      cases body with
      | base base => exact .inr ⟨[], position, base, is, rfl, hno⟩
      | _ => exact .inl (List.forall_mem_cons.2 ⟨by rintro ⟨⟩, hno⟩)
    · exact .inr ⟨i :: front, position, base, own, rfl, hown⟩

/-- An instruction behind others is added to the document. -/
theorem ofInstructions_concat {i : Instruction} (hi : i.kind ≠ .base)
    (directives : List (Directive × Position)) (escape : Char) (is : List Instruction) :
    ofInstructions directives escape (is ++ [i]) = (ofInstructions directives escape is).add i := by
  rcases exists_last_base is with hno | ⟨front, position, base, own, rfl, hown⟩
  · have hall : ∀ j ∈ is ++ [i], j.kind ≠ .base := by
      simpa [or_imp, forall_and] using ⟨hno, hi⟩
    simp [ofInstructions, add, splitStage_of_noBase hno, splitStage_of_noBase hall,
      stagesFrom_of_noBase hno, stagesFrom_of_noBase hall]
  · have hall : ∀ j ∈ own ++ [i], j.kind ≠ .base := by
      simpa [or_imp, forall_and] using ⟨hown, hi⟩
    rw [List.append_assoc, List.cons_append]
    simp [ofInstructions, add, splitStage_append_base, stagesFrom_append_base, stagesFrom,
      splitStage_of_noBase hown, splitStage_of_noBase hall, stagesFrom_of_noBase hown,
      stagesFrom_of_noBase hall, Stage.add]

end Document

/-! ### Numbers and names -/

/-- The number and the name of a stage, which is all that a reference to a stage looks at. -/
def Stage.label (s : Stage) : Nat × Option String := (s.index, s.name)

theorem map_label_find? {stages stages' : List Stage}
    (h : stages'.map Stage.label = stages.map Stage.label) (name : String) :
    (stages'.find? (·.isNamed name)).map Stage.label =
      (stages.find? (·.isNamed name)).map Stage.label := by
  induction stages generalizing stages' with
  | nil =>
    rw [List.map_nil, List.map_eq_nil_iff] at h
    rw [h]
  | cons s rest ih =>
    obtain ⟨s', rest', rfl, hs, hrest⟩ := List.map_eq_cons_iff.1 h
    have hnamed : s'.isNamed name = s.isNamed name := by
      unfold Stage.isNamed
      rw [show s'.name = s.name from congrArg Prod.snd hs]
    rw [List.find?_cons, List.find?_cons, hnamed]
    cases s.isNamed name with
    | false => exact ih hrest
    | true => simp [hs]

namespace Document

variable {d d' : Document}

theorem Numbered.map_label_eq (hd : d.Numbered) (hd' : d'.Numbered)
    (h : d'.stages.map Stage.name = d.stages.map Stage.name) :
    d'.stages.map Stage.label = d.stages.map Stage.label := by
  refine List.ext_getElem? fun n => ?_
  have hn := congrArg (·[n]?) h
  simp only [List.getElem?_map] at hn ⊢
  cases hs : d.stages[n]? with
  | none =>
    rw [hs, Option.map_none, Option.map_eq_none_iff] at hn
    rw [hn]
  | some s =>
    rw [hs, Option.map_some, Option.map_eq_some_iff] at hn
    obtain ⟨s', hs', hname⟩ := hn
    simp [hs', Stage.label, hd n s hs, hd' n s' hs', hname]

theorem resolve?_congr (h : d'.stages.map Stage.label = d.stages.map Stage.label)
    (reference : String) (before : Nat) :
    d'.resolve? reference before = d.resolve? reference before := by
  have htake :
      (d'.stages.take before).map Stage.label = (d.stages.take before).map Stage.label := by
    rw [List.map_take, List.map_take, h]
  have hfind := congrArg (Option.map Prod.fst) (map_label_find? htake reference)
  rw [Option.map_map, Option.map_map] at hfind
  unfold resolve?
  cases Text.decimalIndex? reference with
  | some index => rfl
  | none => exact hfind

end Document

/-! ### Resolutions -/

/-- The text of the reference that an instruction has in a slot. -/
def Body.originAt (slot : Nat) : Body → Option String
  | .copy c => c.origin
  | .run r => r.mounts[slot]?.bind Mount.origin
  | _ => none

theorem Check.originAt_of_mem {body : Body} {slot : Nat} {text : String}
    (h : (slot, text) ∈ origins body) : body.originAt slot = some text := by
  cases body with
  | copy c =>
    obtain ⟨text', htext, heq⟩ := List.mem_map.1 h
    cases heq
    exact Option.mem_toList.1 htext
  | run r =>
    obtain ⟨⟨mount, n⟩, hmount, hentry⟩ := List.mem_filterMap.1 h
    dsimp only at hentry
    split at hentry
    · rename_i text' horigin
      split at hentry
      · cases hentry
      · cases hentry
        simp [Body.originAt, List.mk_mem_zipIdx_iff_getElem?.1 hmount, horigin]
    · cases hentry
  | _ => cases h

namespace Check

variable {d : Document} {s : Stage}

theorem hasVariables_eq_false {escape : Char} {text : String} :
    hasVariables escape text = false ↔ Template.references escape text = [] := by
  simp [hasVariables]

/-- The entry of a reference of an instruction. -/
theorem originEntry_eq_some_iff {position slot : Nat} {text : String} {entry : Site × Nat} :
    (if hasVariables d.escape text then none
      else (d.resolve? (Template.unquote d.escape text) s.index).map fun target =>
        ((⟨s.index, some position, slot⟩ : Site), target)) = some entry ↔
      entry.1 = ⟨s.index, some position, slot⟩ ∧ Template.references d.escape text = [] ∧
        d.resolve? (Template.unquote d.escape text) s.index = some entry.2 := by
  obtain ⟨site, target⟩ := entry
  rw [← hasVariables_eq_false]
  cases hasVariables d.escape text with
  | true => simp
  | false => cases d.resolve? (Template.unquote d.escape text) s.index <;> simp [eq_comm]

/-- The entries of an instruction: its references without variables that mean a stage. -/
theorem mem_originEntries {position : Nat} {body : Body} {entry : Site × Nat} :
    entry ∈ originEntries d s position body ↔ ∃ slot text, (slot, text) ∈ origins body ∧
      entry.1 = ⟨s.index, some position, slot⟩ ∧ Template.references d.escape text = [] ∧
      d.resolve? (Template.unquote d.escape text) s.index = some entry.2 := by
  rw [originEntries, List.mem_filterMap]
  constructor
  · rintro ⟨o, ho, h⟩
    exact ⟨o.1, o.2, ho, originEntry_eq_some_iff.1 h⟩
  · rintro ⟨slot, text, ho, h⟩
    exact ⟨(slot, text), ho, originEntry_eq_some_iff.2 h⟩

/-- The entries of a stage: that of its `FROM`, and those of its instructions. -/
theorem mem_stageEntries {site : Site} {t : Nat} :
    (site, t) ∈ stageEntries d s ↔
      (site = ⟨s.index, none, 0⟩ ∧ base? d s = some t) ∨
      ∃ p i slot text, site = ⟨s.index, some p, slot⟩ ∧ s.instructions[p]? = some i ∧
        (slot, text) ∈ origins i.body ∧ Template.references d.escape text = [] ∧
        d.resolve? (Template.unquote d.escape text) s.index = some t := by
  rw [stageEntries, List.mem_append]
  refine or_congr ?_ ?_
  · constructor
    · intro h
      obtain ⟨target, htarget, heq⟩ := List.mem_map.1 h
      cases heq
      exact ⟨rfl, Option.mem_toList.1 htarget⟩
    · rintro ⟨rfl, h⟩
      exact List.mem_map.2 ⟨t, Option.mem_toList.2 h, rfl⟩
  · constructor
    · intro h
      obtain ⟨entry, hentry, h⟩ := List.mem_flatMap.1 h
      obtain ⟨slot, text, ho, hsite, hfree, htarget⟩ := mem_originEntries.1 h
      exact ⟨entry.2, entry.1, slot, text, hsite, List.mem_zipIdx_iff_getElem?.1 hentry, ho, hfree,
        htarget⟩
    · rintro ⟨p, i, slot, text, hsite, hi, ho, hfree, htarget⟩
      exact List.mem_flatMap.2 ⟨(i, p), List.mk_mem_zipIdx_iff_getElem?.2 hi,
        mem_originEntries.2 ⟨slot, text, ho, hsite, hfree, htarget⟩⟩

/-- The entries of a check: what the unquoted text of a `FROM` or of another reference means. -/
theorem of_mem_stageEntries {entry : Site × Nat} (h : entry ∈ stageEntries d s) :
    (entry.1 = ⟨s.index, none, 0⟩ ∧
      d.resolve? (Template.unquote d.escape s.base.image) s.index = some entry.2) ∨
    ∃ position i slot text, entry.1 = ⟨s.index, some position, slot⟩ ∧
      s.instructions[position]? = some i ∧ i.body.originAt slot = some text ∧
      d.resolve? (Template.unquote d.escape text) s.index = some entry.2 := by
  rcases mem_stageEntries.1 h with ⟨hsite, hbase⟩ | ⟨p, i, slot, text, hsite, hi, ho, -, htarget⟩
  · unfold base? at hbase
    split at hbase
    · cases hbase
    · exact .inl ⟨hsite, hbase⟩
  · exact .inr ⟨p, i, slot, text, hsite, hi, originAt_of_mem ho, htarget⟩

end Check

namespace Resolution

/-- Every entry of a resolution for a stage points to an earlier stage. -/
def Backward (r : Resolution) : Prop :=
  ∀ site target, r.get? site = some target → target < site.stage

theorem mem_entries_of_get? {r : Resolution} {site : Site} {target : Nat}
    (h : r.get? site = some target) : (site, target) ∈ r.entries := by
  obtain ⟨entry, hfind, rfl⟩ := Option.map_eq_some_iff.1 h
  obtain rfl : entry.1 = site := by simpa using List.find?_some hfind
  exact List.mem_reverse.1 (List.mem_of_find?_eq_some hfind)

theorem backward_of_entries {r : Resolution}
    (h : ∀ entry ∈ r.entries, entry.2 < entry.1.stage) : r.Backward :=
  fun _ _ hget => h _ (mem_entries_of_get? hget)

theorem backward_empty : Resolution.empty.Backward :=
  backward_of_entries (by simp [Resolution.empty])

theorem backward_check {d : Document} (hd : d.Numbered) : d.check.resolution.Backward := by
  refine backward_of_entries fun entry hentry => ?_
  obtain ⟨stage, -, hentry⟩ := List.mem_flatMap.1 hentry
  rcases Check.of_mem_stageEntries hentry with ⟨hsite, htarget⟩ | ⟨_, _, _, _, hsite, -, -, htarget⟩
  · rw [hsite]
    exact hd.resolve?_lt htarget
  · rw [hsite]
    exact hd.resolve?_lt htarget

end Resolution

end Dockerfile
