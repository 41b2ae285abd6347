import Dockerfile.Check
import Dockerfile.Proofs.Images
import Mathlib.Data.List.Basic

/-!
# Arguments that a check accepts

The forms in which a check accepts owners, modes, ports, signals, checksums and images leave no room
for a brace. So an argument of such a form that has no variables is `Braceless` in a document
without errors: it holds no substitution either, not even one that is not closed or not known.
-/

namespace Dockerfile

namespace Check

open Text

/-! ### Forms -/

theorem brace_notMem_of_digits {cs : List Char} (h : isDigits cs) : '\x7b' ∉ cs := by
  rw [isDigits, Bool.and_eq_true] at h
  exact notMem_of_all (by decide) h.2

theorem brace_notMem_of_isOwner {s : String} (h : isOwner s) : '\x7b' ∉ s.toList := by
  have hname : ∀ cs, startsAndGoesOn (fun c => c.isAlpha || c = '_')
      (fun c => isWordChar c || c = '.' || c = '-') cs → '\x7b' ∉ cs := by
    intro cs h
    cases cs with
    | nil => cases h
    | cons c cs =>
      rw [startsAndGoesOn, Bool.and_eq_true] at h
      rw [List.mem_cons, not_or]
      refine ⟨?_, notMem_of_all (by decide) h.2⟩
      rintro rfl
      exact absurd h.1 (by decide)
  have hpart : ∀ cs, wholeLine isOwnerPart cs → '\x7b' ∉ cs := by
    intro cs h
    refine notMem_of_wholeLine (by decide) (fun cs h => ?_) h
    rw [isOwnerPart, Bool.or_eq_true] at h
    rcases h with h | h
    · exact brace_notMem_of_digits h
    · dsimp only at h
      split at h
      · rename_i hlast
        rw [← List.dropLast_append_getLast? _ hlast, List.mem_append, List.mem_singleton, not_or]
        exact ⟨hname _ h, by decide⟩
      · exact hname cs h
  unfold isOwner at h
  split at h
  · rename_i hcut
    rw [Bool.and_eq_true] at h
    exact notMem_of_cut? hcut (by decide) (hpart _ h.1) (hpart _ h.2)
  · exact hpart _ h

theorem brace_notMem_of_isMode {s : String} (h : isMode s) : '\x7b' ∉ s.toList := by
  refine notMem_of_wholeLine (by decide) (fun cs h => ?_) h
  rw [Bool.and_eq_true] at h
  exact notMem_of_all (by decide) h.1

theorem brace_notMem_of_isPort {s : String} (h : isPort s) : '\x7b' ∉ s.toList := by
  have hdigits : ∀ cs n, digits? cs = some n → '\x7b' ∉ cs := by
    intro cs n h
    simpa using notMem_of_decimalIndex? (x := '\x7b') (by decide) h
  have hrange : ∀ cs range, portRange? cs = some range → '\x7b' ∉ cs := by
    intro cs range h
    unfold portRange? at h
    split at h
    · rename_i first last hcut
      obtain ⟨m, hm, h⟩ := Option.bind_eq_some_iff.1 h
      obtain ⟨n, hn, -⟩ := Option.bind_eq_some_iff.1 h
      exact notMem_of_cut? hcut (by decide) (hdigits _ _ hm) (hdigits _ _ hn)
    · obtain ⟨n, hn, -⟩ := Option.map_eq_some_iff.1 h
      exact hdigits _ _ hn
  refine notMem_of_wholeLine (by decide) (fun cs h => ?_) h
  obtain ⟨range, hports⟩ : ∃ range, ports? cs = some range := by
    rw [← Option.isSome_iff_exists]
    exact Option.isSome_of_any h
  unfold ports? at hports
  split at hports
  · rename_i protocol hcut
    split at hports
    · rename_i hprotocol
      refine notMem_of_cut? hcut (by decide) (hrange _ _ hports) fun hmem => ?_
      have hfold := List.mem_map_of_mem (f := foldCase) hmem
      rw [isProtocol, List.contains_iff_mem] at hprotocol
      have hnone : ["tcp".toList, "udp".toList, "sctp".toList].all
          (fun cs => !cs.contains (foldCase '\x7b')) := by decide
      have := List.all_eq_true.1 hnone _ hprotocol
      rw [List.contains_iff_mem.2 hfold] at this
      cases this
    · cases hports
  · exact hrange _ _ hports

theorem brace_notMem_of_contains {names : List String}
    (hnames : names.all fun name => !name.toList.contains '\x7b') {s : String}
    (h : names.contains s) : '\x7b' ∉ s.toList := by
  have := List.all_eq_true.1 hnames s (List.contains_iff_mem.1 h)
  simpa using this

theorem brace_notMem_of_isRealTimeSignal {cs : List Char} (h : isRealTimeSignal cs) :
    '\x7b' ∉ cs := by
  rw [isRealTimeSignal, Bool.and_eq_true, List.contains_iff_mem] at h
  obtain ⟨hname, hoffset⟩ := h
  rw [← List.take_append_drop 5 cs, List.mem_append, not_or]
  constructor
  · have hnone : ["RTMIN".toList, "RTMAX".toList].all (fun cs => !cs.contains '\x7b') := by decide
    simpa using List.all_eq_true.1 hnone _ hname
  · split at hoffset
    · rename_i hnil
      rw [hnil]
      simp
    · rename_i sign offset hcons
      rw [Bool.and_eq_true] at hoffset
      rw [hcons, List.mem_cons, not_or]
      refine ⟨?_, brace_notMem_of_digits hoffset.2⟩
      rintro rfl
      exact absurd hoffset.1 (by decide)

theorem brace_notMem_of_isSignal {s : String} (h : isSignal (toUpper s)) : '\x7b' ∉ s.toList := by
  have hupper : '\x7b' ∉ (toUpper s).toList := by
    unfold isSignal at h
    split at h
    · rename_i n hn
      exact notMem_of_decimalIndex? (by decide) hn
    · dsimp only at h
      have hname : ∀ name : List Char, signals.contains (String.ofList name) ||
          wholeLine isRealTimeSignal name → '\x7b' ∉ name := by
        intro name h
        rw [Bool.or_eq_true] at h
        rcases h with h | h
        · simpa using brace_notMem_of_contains (by decide) h
        · exact notMem_of_wholeLine (by decide) (fun cs h => brace_notMem_of_isRealTimeSignal h) h
      split at h
      · rename_i hprefix
        obtain ⟨name, hsig⟩ := List.isPrefixOf_iff_prefix.1 hprefix
        rw [← hsig] at h ⊢
        rw [List.mem_append, not_or]
        exact ⟨by decide, hname name h⟩
      · exact hname _ h
  intro hmem
  refine hupper ?_
  rw [toUpper, String.toList_ofList]
  exact mem_upperChars (by decide) (by decide) hmem

/-- Is there no error among some issues? -/
def Harmless (issues : List Issue) : Prop := ∀ issue ∈ issues, issue.severity ≠ .error

theorem harmless_append {a b : List Issue} : Harmless (a ++ b) ↔ Harmless a ∧ Harmless b :=
  List.forall_mem_append

theorem not_harmless {issue : Issue} (h : issue.severity = .error) : ¬ Harmless [issue] :=
  fun hnone => hnone issue List.mem_cons_self h

/-- An argument whose unquoted text has no brace, unless it has variables. -/
def Braceless (escape : Char) (argument : Option String) : Prop :=
  ∀ text, argument = some text → hasVariables escape text = false →
    '\x7b' ∉ (Template.unquote escape text).toList

theorem braceless_of_form {c : Context} {argument : Option String} {accept : String → Bool}
    {issue : String → Issue} (hissue : ∀ text, (issue text).severity = .error)
    (haccept : ∀ s, accept s → '\x7b' ∉ s.toList) (h : Harmless (c.form argument accept issue)) :
    Braceless c.escape argument := by
  rintro text rfl hvariables
  unfold Context.form at h
  dsimp only at h
  split at h
  · rename_i haccepted
    rw [hvariables, Bool.false_or] at haccepted
    exact haccept _ haccepted
  · exact absurd h (not_harmless (hissue text))

theorem braceless_of_checksumIssues {c : Context} {argument : Option String}
    (h : Harmless (argument.elim [] (checksumIssues c))) : Braceless c.escape argument := by
  rintro text rfl hvariables
  rw [Option.elim_some, checksumIssues, hvariables, if_neg Bool.false_ne_true] at h
  generalize hcut : cutString ':' (c.unquote text) = parts at h
  obtain ⟨algorithm, digest⟩ := parts
  dsimp only at h
  split at h
  · rename_i digest length hlength
    split at h
    · rename_i haccepted
      rw [Bool.and_eq_true] at haccepted
      have halgorithm : '\x7b' ∉ algorithm.toList := by
        have hnames : (hashLengths.map Prod.fst).contains algorithm := by
          obtain ⟨before, behind, hsplit, -⟩ := List.lookup_eq_some_iff.1 hlength
          rw [hsplit]
          simp
        exact brace_notMem_of_contains (by decide) hnames
      have hdigest : '\x7b' ∉ digest.toList := by
        refine notMem_of_wholeLine (by decide) (fun cs h => ?_) haccepted.2
        rw [Bool.and_eq_true] at h
        exact notMem_of_all (by decide) h.2
      have htext : (Template.unquote c.escape text).toList =
          algorithm.toList ++ ':' :: digest.toList := (cutString_eq hcut).1
      rw [htext, List.mem_append, List.mem_cons]
      simp [halgorithm, hdigest]
    · exact absurd h (not_harmless rfl)
  · exact absurd h (not_harmless rfl)

end Check

/-! ### Images -/

namespace Image

open Text

/-- Every part of an image reference is checked, so none has a brace. -/
theorem brace_notMem_of_parse {reference : String} {image : Image}
    (h : parse reference = .ok image) : '\x7b' ∉ reference.toList := by
  obtain ⟨hi, path, hpath, htext⟩ := parse_eq_ok_iff.1 h
  have hbrace : '\x7b' ∉ path := notMem_of_namedBy hpath
    (notMem_registry hi (by decide) (by decide)) (notMem_repository hi (by decide) (by decide))
    (by decide)
  rcases htext with htext | ⟨htext, -⟩
  · rw [htext, List.mem_append, not_or]
    exact ⟨hbrace, notMem_suffix hi (by decide) (by decide) (by decide)⟩
  · rwa [htext]

end Image

/-! ### Documents without errors -/

namespace Check

theorem braceless_of_imageIssues {d : Document} {stage : Stage} {image : String}
    (h : Harmless (imageIssues d stage image)) : '\x7b' ∉ image.toList := by
  unfold imageIssues at h
  split at h
  · exact absurd h (not_harmless rfl)
  dsimp only at h
  split at h
  · exact absurd h (not_harmless rfl)
  split at h
  · rename_i hscratch
    intro hmem
    have hlower : '\x7b' ∈ (Text.toLower image).toList := by
      rw [Text.toLower, String.toList_ofList]
      exact Text.mem_lowerAfter (by decide) (by decide) hmem
    rw [hscratch] at hlower
    exact absurd hlower (by decide)
  split at h
  · rename_i heq
    exact Image.brace_notMem_of_parse heq
  · exact absurd h (not_harmless rfl)

theorem findings_of_mem (d : Document) (stage : Stage) (scope : Scope) (seen : List Kind)
    {instructions : List Instruction} {i : Instruction} (hi : i ∈ instructions) :
    ∃ scope', ∀ f ∈ findings ⟨d.escape, some scope', fun text => d.resolve? text stage.index⟩ i,
      f ∈ instructionFindings d stage scope seen instructions := by
  induction instructions generalizing scope seen with
  | nil => cases hi
  | cons j rest ih =>
    unfold instructionFindings
    dsimp only
    rcases List.mem_cons.1 hi with rfl | hi
    · exact ⟨scope, fun f hf => List.mem_append_left _ (List.mem_append_right _ hf)⟩
    · obtain ⟨scope', h⟩ := ih (scope.after j.body) (j.kind :: seen) hi
      exact ⟨scope', fun f hf => List.mem_append_right _ (h f hf)⟩

theorem stageFindings_of_mem (d : Document) (metas : List String) (settled : List (List String))
    {stages : List Stage} {s : Stage} (hs : s ∈ stages) :
    ∃ scope, (∀ issue ∈ baseIssues d metas s,
        ⟨issue, s.position⟩ ∈ stageFindings d metas settled stages) ∧
      ∀ f ∈ instructionFindings d s scope [] s.instructions,
        f ∈ stageFindings d metas settled stages := by
  induction stages generalizing settled with
  | nil => cases hs
  | cons t rest ih =>
    unfold stageFindings
    dsimp only
    rcases List.mem_cons.1 hs with rfl | hs
    · refine ⟨⟨metas, true, ((base? d s).bind (settled[·]?)).getD [], argNames s⟩, ?_, ?_⟩
      · intro issue hissue
        exact List.mem_append_left _ (List.mem_append_left _ (List.mem_map_of_mem hissue))
      · intro f hf
        exact List.mem_append_left _ (List.mem_append_right _ hf)
    · obtain ⟨scope, hbase, h⟩ := ih (settled ++ _) hs
      exact ⟨scope, fun issue hissue => List.mem_append_right _ (hbase issue hissue),
        fun f hf => List.mem_append_right _ (h f hf)⟩

variable {d : Document} {s : Stage} {i : Instruction}

theorem mem_errors_of_stageFindings {f : Finding}
    (hf : f ∈ stageFindings d (metaNames d) [] d.stages) (h : f.issue.severity = .error) :
    f ∈ d.check.errors := by
  refine List.mem_filter.2 ⟨List.mem_append_right _ hf, ?_⟩
  rw [Finding.isError, h]
  rfl

theorem severity_of_stageFindings (h : d.check.errors = []) {f : Finding}
    (hf : f ∈ stageFindings d (metaNames d) [] d.stages) : f.issue.severity ≠ .error := by
  intro hseverity
  have hmem := mem_errors_of_stageFindings hf hseverity
  rw [h] at hmem
  cases hmem

theorem harmless_baseIssues (h : d.check.errors = []) (hs : s ∈ d.stages) :
    Harmless (baseIssues d (metaNames d) s) := by
  intro issue hissue
  obtain ⟨scope, hbase, -⟩ := stageFindings_of_mem d (metaNames d) [] hs
  exact severity_of_stageFindings h (hbase issue hissue)

/-- Every instruction of a stage is checked against some scope, and its issues are told at its
place. -/
theorem exists_context (hs : s ∈ d.stages) (hi : i ∈ s.instructions) (hkind : i.kind ≠ .onbuild) :
    ∃ c : Context, c.escape = d.escape ∧ ∀ issue ∈ issues c i.body,
      ⟨issue, i.position⟩ ∈ stageFindings d (metaNames d) [] d.stages := by
  obtain ⟨scope, -, hstage⟩ := stageFindings_of_mem d (metaNames d) [] hs
  obtain ⟨scope', hfindings⟩ := findings_of_mem d s scope [] hi
  refine ⟨⟨d.escape, some scope', fun text => d.resolve? text s.index⟩, rfl, ?_⟩
  intro issue hissue
  refine hstage _ (hfindings _ ?_)
  obtain ⟨position, body⟩ := i
  cases body with
  | onbuild place trigger expression => exact absurd rfl hkind
  | _ => exact List.mem_map_of_mem hissue

theorem harmless_issues (h : d.check.errors = []) (hs : s ∈ d.stages) (hi : i ∈ s.instructions)
    (hkind : i.kind ≠ .onbuild) :
    ∃ c : Context, c.escape = d.escape ∧ Harmless (issues c i.body) := by
  obtain ⟨c, hc, htold⟩ := exists_context hs hi hkind
  exact ⟨c, hc, fun issue hissue => severity_of_stageFindings h (htold issue hissue)⟩

end Check

end Dockerfile
