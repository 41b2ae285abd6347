import Dockerfile.Proofs.Checking.Places

/-!
# References to stages

Which stage a reference means is said here without the checker: decimal digits mean the stage of
that number, any other text the first stage of that name, and either counts only for the stages
behind it (`Means`). The sites of a document with the texts that stand there are `Refers`. A check
puts exactly the references that mean a stage into its resolution, and tells of every other one at
its place: a `COPY` or a mount by one error, a `FROM` as `BaseOutcome` says.
-/

namespace Dockerfile

/-! ### Numbers -/

namespace Text

/-- Does a text write a number in decimal digits, of any script? -/
def Decimal (text : String) (n : Nat) : Prop :=
  ∃ digits : List Nat, digits ≠ [] ∧ text.toList.map digitValue? = digits.map some ∧
    n = digits.foldl (fun before digit => 10 * before + digit) 0

theorem readDigits?_of_digits {cs : List Char} {digits : List Nat}
    (h : cs.map digitValue? = digits.map some) (acc : Nat) :
    readDigits? acc cs = some (digits.foldl (fun before digit => 10 * before + digit) acc) := by
  fun_induction readDigits? acc cs generalizing digits with
  | case1 acc =>
    obtain rfl : digits = [] := by simpa using h
    rfl
  | case2 acc c rest ih =>
    -- An underscore is no digit.
    cases digits with
    | nil => cases h
    | cons digit digits =>
      have hunderscore : digitValue? '_' = none := by decide
      rw [List.map_cons, List.map_cons, hunderscore] at h
      cases h
  | case3 acc c rest _ ih =>
    cases digits with
    | nil => cases h
    | cons digit digits =>
      rw [List.map_cons, List.map_cons, List.cons.injEq] at h
      rw [h.1, Option.bind_some, ih digit h.2]
      rfl

theorem exists_digits {cs : List Char} (h : ∀ c ∈ cs, isDecimal c) :
    ∃ digits : List Nat, cs.map digitValue? = digits.map some := by
  induction cs with
  | nil => exact ⟨[], rfl⟩
  | cons c cs ih =>
    obtain ⟨digit, hdigit⟩ := Option.isSome_iff_exists.1 (h c List.mem_cons_self)
    obtain ⟨digits, hdigits⟩ := ih fun c' hc' => h c' (List.mem_cons_of_mem _ hc')
    exact ⟨digit :: digits, by rw [List.map_cons, List.map_cons, hdigit, hdigits]⟩

theorem readNat?_of_digits {cs : List Char} {digits : List Nat} (hne : digits ≠ [])
    (h : cs.map digitValue? = digits.map some) :
    readNat? cs = some (digits.foldl (fun before digit => 10 * before + digit) 0) := by
  cases cs with
  | nil => exact absurd (by simpa using h.symm) hne
  | cons c cs =>
    cases digits with
    | nil => cases h
    | cons digit digits =>
      rw [List.map_cons, List.map_cons, List.cons.injEq] at h
      rw [readNat?, h.1, Option.bind_some, readDigits?_of_digits h.2]
      simp

theorem decimalIndex?_eq_some_iff {text : String} {n : Nat} :
    decimalIndex? text = some n ↔ Decimal text n := by
  unfold decimalIndex?
  constructor
  · intro h
    split at h
    · rename_i hall
      rw [Bool.and_eq_true, Bool.not_eq_true', List.all_eq_true] at hall
      obtain ⟨digits, hdigits⟩ := exists_digits hall.2
      have hne : digits ≠ [] := by
        rintro rfl
        rw [List.map_nil, List.map_eq_nil_iff, String.toList_eq_nil_iff] at hdigits
        rw [hdigits] at hall
        cases hall.1
      rw [readNat?_of_digits hne hdigits, Option.some.injEq] at h
      exact ⟨digits, hne, hdigits, h.symm⟩
    · cases h
  · rintro ⟨digits, hne, hdigits, rfl⟩
    have hdecimal : ∀ c ∈ text.toList, isDecimal c := by
      intro c hc
      have hmem : digitValue? c ∈ digits.map some := hdigits ▸ List.mem_map_of_mem hc
      obtain ⟨digit, -, hdigit⟩ := List.mem_map.1 hmem
      rw [isDecimal, ← hdigit]
      rfl
    have hempty : text.isEmpty = false := by
      rw [Bool.eq_false_iff]
      intro hempty
      rw [String.isEmpty_iff] at hempty
      rw [hempty] at hdigits
      exact hne (by simpa using hdigits.symm)
    rw [hempty, List.all_eq_true.2 hdecimal]
    exact readNat?_of_digits hne hdigits

theorem decimalIndex?_eq_none_iff {text : String} :
    decimalIndex? text = none ↔ ∀ n, ¬Decimal text n := by
  rw [Option.eq_none_iff_forall_ne_some]
  exact forall_congr' fun n => not_congr decimalIndex?_eq_some_iff

end Text

/-! ### What references mean -/

/-- Is a stage the first one of a name? -/
def Document.FirstNamed (d : Document) (text : String) (t : Nat) : Prop :=
  (∃ s, d.stages[t]? = some s ∧ s.isNamed text) ∧
    ∀ u < t, ∀ s, d.stages[u]? = some s → s.isNamed text = false

/-- The stage that a text means in a reference of stage `before`. -/
inductive Means (d : Document) (before : Nat) (text : String) : Nat → Prop where
  | index {t : Nat} (h : Text.Decimal text t) (hlt : t < before) : Means d before text t
  | name {t : Nat} (hdecimal : ∀ n, ¬Text.Decimal text n) (h : d.FirstNamed text t)
    (hlt : t < before) : Means d before text t

/-- The text of an instruction in one of its slots for stages: the `--from` of a `COPY`, and the
`from` of the mounts of a `RUN` that is not empty. -/
inductive Body.HasOrigin : Body → Nat → String → Prop where
  | copy {c : Copy} {text : String} (h : c.origin = some text) : HasOrigin (.copy c) 0 text
  | mount {r : Run} {slot : Nat} {m : Mount} {text : String} (hm : r.mounts[slot]? = some m)
    (h : m.origin = some text) (hne : text ≠ "") : HasOrigin (.run r) slot text

/-- The sites of a document with a text without variables, and that text without its quotes. -/
inductive Refers (d : Document) : Site → String → Prop where
  | base {k : Nat} {s : Stage} (hs : d.stages[k]? = some s)
    (hfree : Template.references d.escape s.base.image = []) :
    Refers d ⟨k, none, 0⟩ (Template.unquote d.escape s.base.image)
  | origin {k p slot : Nat} {s : Stage} {i : Instruction} {text : String}
    (hs : d.stages[k]? = some s) (hi : s.instructions[p]? = some i)
    (h : i.body.HasOrigin slot text) (hfree : Template.references d.escape text = []) :
    Refers d ⟨k, some p, slot⟩ (Template.unquote d.escape text)

variable {text : String} {site : Site} {slot : Nat} {d : Document}

theorem Body.HasOrigin.unique {body : Body} {text' : String} (h : body.HasOrigin slot text)
    (h' : body.HasOrigin slot text') : text = text' := by
  cases h with
  | copy h =>
    cases h' with
    | copy h' => exact Option.some.inj (h.symm.trans h')
  | mount hm h _ =>
    cases h' with
    | mount hm' h' _ =>
      obtain rfl := Option.some.inj (hm.symm.trans hm')
      exact Option.some.inj (h.symm.trans h')

theorem Refers.unique {text' : String} (h : Refers d site text) (h' : Refers d site text') :
    text = text' := by
  cases h with
  | base hs _ =>
    cases h' with
    | base hs' _ =>
      obtain rfl := Option.some.inj (hs.symm.trans hs')
      rfl
  | origin hs hi h _ =>
    cases h' with
    | origin hs' hi' h' _ =>
      obtain rfl := Option.some.inj (hs.symm.trans hs')
      obtain rfl := Option.some.inj (hi.symm.trans hi')
      rw [h.unique h']

section Resolving

variable {d : Document} {text : String} {before t : Nat}

/-- Looking for a name among some first stages finds the first stage of that name. -/
theorem Document.Numbered.find?_take_iff (hd : d.Numbered) {s : Stage} :
    (d.stages.take before).find? (·.isNamed text) = some s ↔
      d.stages[s.index]? = some s ∧ d.FirstNamed text s.index ∧ s.index < before := by
  rw [List.find?_eq_some_iff_getElem]
  constructor
  · rintro ⟨hnamed, n, hn, hget, hfirst⟩
    have hs : (d.stages.take before)[n]? = some s := List.getElem?_eq_some_iff.2 ⟨hn, hget⟩
    rw [List.getElem?_take_of_lt (by rw [List.length_take] at hn; omega)] at hs
    obtain rfl := hd n s hs
    refine ⟨hs, ⟨⟨s, hs, hnamed⟩, ?_⟩, by rw [List.length_take] at hn; omega⟩
    intro u hu s' hs'
    obtain ⟨hlt, hget'⟩ := List.getElem?_eq_some_iff.1 hs'
    have := hfirst u hu
    rw [List.getElem_take, hget'] at this
    simpa using this
  · rintro ⟨hs, ⟨⟨s', hs', hnamed⟩, hfirst⟩, hlt⟩
    obtain rfl := Option.some.inj (hs'.symm.trans hs)
    obtain ⟨hlength, hget⟩ := List.getElem?_eq_some_iff.1 hs
    refine ⟨hnamed, s'.index, by rw [List.length_take]; omega, by rw [List.getElem_take, hget], ?_⟩
    intro u hu
    rw [List.getElem_take, hfirst u hu _ (List.getElem?_eq_getElem _)]
    rfl

theorem Document.Numbered.resolve?_eq_some_iff (hd : d.Numbered) :
    d.resolve? text before = some t ↔ Means d before text t := by
  unfold Document.resolve?
  constructor
  · intro h
    split at h
    · rename_i index hindex
      split at h
      · rename_i hlt
        cases h
        exact .index (Text.decimalIndex?_eq_some_iff.1 hindex) hlt
      · cases h
    · rename_i hnone
      obtain ⟨s, hs, rfl⟩ := Option.map_eq_some_iff.1 h
      obtain ⟨-, hfirst, hlt⟩ := hd.find?_take_iff.1 hs
      exact .name (Text.decimalIndex?_eq_none_iff.1 hnone) hfirst hlt
  · intro h
    cases h with
    | index h hlt =>
      rw [Text.decimalIndex?_eq_some_iff.2 h]
      exact if_pos hlt
    | name hdecimal h hlt =>
      obtain ⟨s, hs, -⟩ := h.1
      obtain rfl := hd t s hs
      have hfind := hd.find?_take_iff.2 ⟨hs, h, hlt⟩
      rw [Text.decimalIndex?_eq_none_iff.2 hdecimal]
      dsimp only
      rw [hfind]
      rfl

end Resolving

/-! ### The resolution -/

namespace Check

theorem mem_origins {body : Body} : (slot, text) ∈ origins body ↔ body.HasOrigin slot text := by
  constructor
  · intro h
    cases body with
    | copy c =>
      obtain ⟨text', htext, heq⟩ := List.mem_map.1 h
      cases heq
      exact .copy (Option.mem_toList.1 htext)
    | run r =>
      obtain ⟨entry, hentry, h⟩ := List.mem_filterMap.1 h
      dsimp only at h
      split at h
      · rename_i text' horigin
        split at h
        · cases h
        · rename_i hempty
          cases h
          exact .mount (List.mem_zipIdx_iff_getElem?.1 hentry) horigin
            (by simpa [String.isEmpty_iff] using hempty)
      · cases h
    | _ => cases h
  · intro h
    cases h with
    | copy h => exact List.mem_map.2 ⟨text, Option.mem_toList.2 h, rfl⟩
    | mount hm h hne =>
      refine List.mem_filterMap.2 ⟨(_, slot), List.mk_mem_zipIdx_iff_getElem?.2 hm, ?_⟩
      have hempty : text.isEmpty = false := by
        rw [Bool.eq_false_iff]
        exact fun hempty => hne (String.isEmpty_iff.1 hempty)
      simp [h, hempty]

theorem pairwise_zipIdx {α : Type} (l : List α) : l.zipIdx.Pairwise (·.2 < ·.2) := by
  have hpairwise : (l.zipIdx.map Prod.snd).Pairwise (· < ·) := by
    rw [List.zipIdx_map_snd]
    exact List.pairwise_lt_range'
  exact List.pairwise_map.1 hpairwise

theorem slot_of_mount {m : Mount} {o : Nat × String}
    (h : (match m.origin with
      | some text => if text.isEmpty then none else some (slot, text)
      | none => none) = some o) : o.1 = slot := by
  split at h
  · split at h
    · cases h
    · cases h
      rfl
  · cases h

theorem pairwise_origins (body : Body) : (origins body).Pairwise (·.1 < ·.1) := by
  cases body with
  | copy c =>
    cases horigin : c.origin with
    | none | some => simp [origins, horigin]
  | run r =>
    refine List.pairwise_filterMap.2 ((pairwise_zipIdx r.mounts).imp ?_)
    intro m m' hlt o ho o' ho'
    rw [slot_of_mount ho, slot_of_mount ho']
    exact hlt
  | _ => exact List.Pairwise.nil

theorem stage_of_mem_stageEntries {s : Stage} {entry : Site × Nat} (h : entry ∈ stageEntries d s) :
    entry.1.stage = s.index := by
  rcases mem_stageEntries.1 h with ⟨hsite, -⟩ | ⟨_, _, _, _, hsite, -⟩ <;> rw [hsite]

/-- No two entries of a stage are for one site. -/
theorem pairwise_stageEntries (d : Document) (s : Stage) :
    (stageEntries d s).Pairwise (·.1 ≠ ·.1) := by
  refine List.pairwise_append.2 ⟨?_, List.pairwise_flatMap.2 ⟨?_, ?_⟩, ?_⟩
  · cases base? d s with
    | none => exact List.Pairwise.nil
    | some t => exact List.pairwise_singleton _ _
  · -- The references of an instruction stand in different slots,
    intro entry _
    refine List.pairwise_filterMap.2 ((pairwise_origins entry.1.body).imp ?_)
    intro o o' hlt e he e' he' heq
    rw [(originEntry_eq_some_iff.1 he).1, (originEntry_eq_some_iff.1 he').1] at heq
    exact Nat.ne_of_lt hlt (congrArg Site.slot heq)
  · -- those of two instructions at different positions,
    refine (pairwise_zipIdx s.instructions).imp ?_
    intro i i' hlt e he e' he' heq
    obtain ⟨_, _, -, hsite, -⟩ := mem_originEntries.1 he
    obtain ⟨_, _, -, hsite', -⟩ := mem_originEntries.1 he'
    rw [hsite, hsite'] at heq
    exact Nat.ne_of_lt hlt (Option.some.inj (congrArg Site.position heq))
  · -- and the `FROM` has no position.
    intro e he e' he' heq
    obtain ⟨t, ht, rfl⟩ := List.mem_map.1 he
    obtain ⟨i, hi, hown⟩ := List.mem_flatMap.1 he'
    obtain ⟨_, _, -, hsite, -⟩ := mem_originEntries.1 hown
    cases congrArg Site.position (heq.trans hsite)

end Check

open Check

namespace Document.Numbered

variable {d : Document}

/-- The table of a check holds no site twice. -/
theorem nodup_sites (hd : d.Numbered) : (d.check.resolution.entries.map Prod.fst).Nodup := by
  rw [List.Nodup, List.pairwise_map]
  refine List.pairwise_flatMap.2 ⟨fun s _ => pairwise_stageEntries d s, ?_⟩
  refine List.pairwise_iff_getElem.2 fun n m hn hm hlt e he e' he' heq => ?_
  have hstage := congrArg Site.stage heq
  rw [stage_of_mem_stageEntries he, stage_of_mem_stageEntries he',
    hd n _ (List.getElem?_eq_getElem hn), hd m _ (List.getElem?_eq_getElem hm)] at hstage
  exact Nat.ne_of_lt hlt hstage

theorem mem_entries_iff (hd : d.Numbered) {t : Nat} :
    (site, t) ∈ d.check.resolution.entries ↔ ∃ text, Refers d site text ∧
      d.resolve? text site.stage = some t := by
  constructor
  · intro h
    obtain ⟨s, hs, h⟩ := List.mem_flatMap.1 h
    obtain ⟨k, hk⟩ := List.mem_iff_getElem?.1 hs
    obtain rfl := hd k s hk
    rcases mem_stageEntries.1 h with
      ⟨rfl, hbase⟩ | ⟨p, i, slot, text, rfl, hi, ho, hfree, htarget⟩
    · unfold base? at hbase
      split at hbase
      · cases hbase
      · rename_i hfree
        exact ⟨_, .base hk (hasVariables_eq_false.1 (Bool.eq_false_iff.2 hfree)), hbase⟩
    · exact ⟨_, .origin hk hi (mem_origins.1 ho) hfree, htarget⟩
  · rintro ⟨text, hrefers, h⟩
    cases hrefers with
    | @base k s hs hfree =>
      obtain rfl := hd k s hs
      refine List.mem_flatMap.2 ⟨s, List.mem_of_getElem? hs, mem_stageEntries.2 (.inl ⟨rfl, ?_⟩)⟩
      rw [base?, hasVariables_eq_false.2 hfree]
      exact h
    | @origin k p slot s i text hs hi ho hfree =>
      obtain rfl := hd k s hs
      exact List.mem_flatMap.2 ⟨s, List.mem_of_getElem? hs, mem_stageEntries.2
        (.inr ⟨p, i, slot, text, rfl, hi, mem_origins.2 ho, hfree, h⟩)⟩

end Document.Numbered

theorem Resolution.get?_eq_some_iff {r : Resolution} {t : Nat}
    (hr : (r.entries.map Prod.fst).Nodup) : r.get? site = some t ↔ (site, t) ∈ r.entries := by
  refine ⟨mem_entries_of_get?, fun h => ?_⟩
  cases hget : r.get? site with
  | none =>
    rw [get?, Option.map_eq_none_iff, List.find?_eq_none] at hget
    exact (hget (site, t) (List.mem_reverse.2 h) (decide_eq_true rfl)).elim
  | some t' =>
    cases List.inj_on_of_nodup_map hr h (mem_entries_of_get? hget) rfl
    rfl

/-- The resolution of a check says of a reference what its text means. -/
theorem Refers.get?_check (hd : d.Numbered) (h : Refers d site text) :
    d.check.resolution.get? site = d.resolve? text site.stage := by
  refine Option.ext fun t => ?_
  rw [Resolution.get?_eq_some_iff hd.nodup_sites, hd.mem_entries_iff]
  constructor
  · rintro ⟨text', h', hresolve⟩
    rwa [h.unique h']
  · exact fun hresolve => ⟨text, h, hresolve⟩

/-! ### Errors -/

/-- Does an issue tell what is wrong with a reference to a stage or to an image? -/
def Check.Issue.isOrigin (i : Issue) : Bool :=
  ["unknown-stage", "invalid-image-reference"].contains i.kind

/-- The errors of references to stages and images that a report tells at a place. -/
def Report.originErrorsAt (r : Report) (x : Position) : List Issue :=
  (r.errors.filter fun f => decide (f.position = x) && f.issue.isOrigin).map Finding.issue

theorem Report.originErrorsAt_eq (r : Report) (x : Position) :
    r.originErrorsAt x = (referencesAt x r.findings).filter Issue.isOrigin := by
  rw [originErrorsAt, errors, referencesAt, List.filter_map, List.filter_filter, List.filter_filter]
  refine congrArg (List.map Finding.issue) (List.filter_congr fun f _ => ?_)
  have hissue : f.issue.isOrigin = true → f.issue.isReference = true ∧ f.isError = true := by
    unfold Finding.isError
    cases f.issue with
    | _ => simp [Issue.isOrigin, Issue.kind, Issue.isReference, Issue.severity]
  cases horigin : f.issue.isOrigin with
  | false => simp only [Function.comp_apply, horigin, Bool.and_false, Bool.false_and]
  | true =>
    simp only [Function.comp_apply, horigin, hissue horigin, Bool.and_true, Bool.true_and]

/-- The issues of variables are none of references to stages. -/
theorem Check.Scope.filter_isOrigin_issues (scope : Scope) (escape : Char)
    (texts : List (Option String)) : (scope.issues escape texts).filter Issue.isOrigin = [] := by
  refine List.filter_eq_nil_iff.2 fun issue hissue => ?_
  obtain ⟨name, -, rfl⟩ := List.mem_map.1 hissue
  unfold Scope.issue
  split
  · simp [Issue.isOrigin, Issue.kind]
  · split <;> simp [Issue.isOrigin, Issue.kind]

/-- The errors of an instruction tell of its references without variables that mean no stage. -/
theorem Check.Context.filter_isOrigin_origins (c : Context) (hscope : c.scope.isNone = false)
    (what : String) (refs : List (Nat × String)) :
    (refs.flatMap fun origin => c.origin what origin.2).filter Issue.isOrigin =
      ((refs.filter fun origin => !hasVariables c.escape origin.2 &&
        (c.resolve? (c.unquote origin.2)).isNone).map fun origin =>
          (origin.1, c.unquote origin.2)).map fun missed => .unknownOrigin what missed.2 := by
  induction refs with
  | nil => rfl
  | cons origin refs ih =>
    rw [List.flatMap_cons, List.filter_append, ih, Context.origin, hscope, Bool.false_or,
      List.filter_cons]
    cases hasVariables c.escape origin.2 with
    | true => rfl
    | false =>
      cases c.resolve? (c.unquote origin.2) with
      | some | none => rfl

namespace Document

variable {d : Document} {k : Nat} {s : Stage}

/-- Is the text of a `FROM` no number and the name of no other stage? -/
def IsImage (d : Document) (k : Nat) (text : String) : Prop :=
  (∀ n, ¬Text.Decimal text n) ∧ ∀ t, d.FirstNamed text t → t = k

/-- What becomes of the `FROM` of stage `k` whose text without quotes is `image`: the stage that it
means, and the errors that are told. -/
inductive BaseOutcome (d : Document) (k : Nat) (image : String) :
    Option Nat → List Issue → Prop where
  | stage {t : Nat} (h : Means d k image t) : BaseOutcome d k image (some t) []
  | index {n : Nat} (h : Text.Decimal image n) (hle : k ≤ n) :
    BaseOutcome d k image none [.baseIndex image]
  | later {t : Nat} {s : Stage} {name : String} (hdecimal : ∀ n, ¬Text.Decimal image n)
    (h : d.FirstNamed image t) (hlt : k < t) (hs : d.stages[t]? = some s)
    (hname : s.name = some name) : BaseOutcome d k image none [.laterBase image name]
  | scratch (h : d.IsImage k image) (hscratch : Text.toLower image = "scratch") :
    BaseOutcome d k image none []
  | image {i : Image} (h : d.IsImage k image) (himage : Image.parse image = .ok i) :
    BaseOutcome d k image none []
  | refused {fault : Image.Fault} (h : d.IsImage k image)
    (hscratch : Text.toLower image ≠ "scratch") (himage : Image.parse image = .error fault) :
    BaseOutcome d k image none [.image image fault]

theorem Numbered.stageNamed?_eq_some_iff (hd : d.Numbered) :
    d.stageNamed? text = some s ↔ d.stages[s.index]? = some s ∧ d.FirstNamed text s.index := by
  have hfind : (d.stages.take d.stages.length).find? (·.isNamed text) = some s ↔
      d.stages[s.index]? = some s ∧ d.FirstNamed text s.index ∧ s.index < d.stages.length :=
    hd.find?_take_iff
  rw [List.take_length] at hfind
  rw [stageNamed?, hfind]
  refine and_congr_right fun hs => and_iff_left_of_imp fun _ => ?_
  exact (List.getElem?_eq_some_iff.1 hs).1

theorem Numbered.isImage (hd : d.Numbered) {image : String}
    (hdecimal : Text.decimalIndex? image = none) (hresolve : d.resolve? image k = none)
    (hlater : (d.stageNamed? image).filter (fun s => decide (k < s.index)) = none) :
    d.IsImage k image := by
  refine ⟨Text.decimalIndex?_eq_none_iff.1 hdecimal, fun t ht => ?_⟩
  obtain ⟨s, hs, -⟩ := ht.1
  obtain rfl := hd t s hs
  rw [hd.stageNamed?_eq_some_iff.2 ⟨hs, ht⟩, Option.filter_some] at hlater
  have hle : ¬k < s.index := fun hlt => by simp [hlt] at hlater
  rcases Nat.lt_or_ge s.index k with hlt | hge
  · have hmeans := hd.resolve?_eq_some_iff.2
      (.name (Text.decimalIndex?_eq_none_iff.1 hdecimal) ht hlt)
    rw [hresolve] at hmeans
    cases hmeans
  · omega

theorem Numbered.baseOutcome_imageIssues (hd : d.Numbered) {image : String}
    (hresolve : d.resolve? image s.index = none) :
    BaseOutcome d s.index image none (imageIssues d s image) := by
  unfold imageIssues
  cases hdecimal : Text.decimalIndex? image with
  | some n =>
    have hle : s.index ≤ n := by
      rw [resolve?, hdecimal] at hresolve
      by_contra hlt
      simp [Nat.lt_of_not_le hlt] at hresolve
    exact .index (Text.decimalIndex?_eq_some_iff.1 hdecimal) hle
  | none =>
    dsimp only [Option.isSome_none]
    rw [if_neg Bool.false_ne_true]
    split
    · rename_i later hlater
      obtain ⟨hnamed, hlt⟩ := Option.filter_eq_some_iff.1 hlater
      obtain ⟨hs, hfirst⟩ := hd.stageNamed?_eq_some_iff.1 hnamed
      obtain ⟨name, hname⟩ : ∃ name, later.name = some name := by
        have hown := List.find?_some hnamed
        cases hname : later.name with
        | none => simp [Stage.isNamed, hname] at hown
        | some name => exact ⟨name, rfl⟩
      rw [hname]
      exact .later (Text.decimalIndex?_eq_none_iff.1 hdecimal) hfirst (of_decide_eq_true hlt) hs
        hname
    · rename_i hlater
      have himage := hd.isImage hdecimal hresolve hlater
      split
      · rename_i hscratch
        exact .scratch himage hscratch
      · rename_i hscratch
        split
        · rename_i i hi
          exact .image himage hi
        · rename_i fault hfault
          exact .refused himage hscratch hfault

theorem of_mem_imageIssues {image : String} {issue : Issue} (hissue : issue ∈ imageIssues d s image) :
    issue.isReference = true ∧ issue.isOrigin = true := by
  unfold imageIssues at hissue
  split at hissue
  · rw [List.mem_singleton.1 hissue]
    exact ⟨rfl, rfl⟩
  · dsimp only at hissue
    split at hissue
    · rw [List.mem_singleton.1 hissue]
      exact ⟨rfl, rfl⟩
    · split at hissue
      · cases hissue
      · split at hissue
        · cases hissue
        · rw [List.mem_singleton.1 hissue]
          exact ⟨rfl, rfl⟩

/-- Of the issues of a `FROM` those of its platform tell of no reference. -/
theorem filter_isReference_baseIssues (metas : List String) :
    (baseIssues d metas s).filter Issue.isReference =
      Scope.issues ⟨metas, false, metas ++ Platform.globalArgs, []⟩ d.escape
        [some s.base.image, s.base.platform] ++
      if hasVariables d.escape s.base.image || (base? d s).isSome then []
      else imageIssues d s (Template.unquote d.escape s.base.image) := by
  have hscope := filter_references ⟨d.escape, some ⟨metas, false, metas ++ Platform.globalArgs, []⟩,
    fun _ => none⟩ [some s.base.image, s.base.platform]
  rw [Context.references, Option.elim_some] at hscope
  rw [baseIssues, List.filter_append, List.filter_append, hscope, List.append_assoc]
  congr 1
  refine (congrArg₂ (· ++ ·) ?_ ?_).trans (List.nil_append _)
  · split
    · split
      · rfl
      · split <;> rfl
    · rfl
  · split
    · rfl
    · exact List.filter_eq_self.2 fun issue hissue => (of_mem_imageIssues hissue).1

/-- Every reference of an instruction without variables either has an entry or is told of, once
and in the order of the slots. -/
theorem exists_missed (hd : d.Numbered) (hplaces : (d.all.map Instruction.position).Nodup)
    (hs : d.stages[k]? = some s) {p : Nat} {i : Instruction} (hi : s.instructions[p]? = some i) :
    ∃ missed : List (Nat × String), missed.Pairwise (·.1 < ·.1) ∧
      (∀ slot text, (slot, text) ∈ missed ↔ Refers d ⟨k, some p, slot⟩ text ∧
        d.check.resolution.get? ⟨k, some p, slot⟩ = none) ∧
      d.check.originErrorsAt i.position =
        missed.map fun reference => .unknownOrigin (originName i.body) reference.2 := by
  refine ⟨((origins i.body).filter fun origin => !hasVariables d.escape origin.2 &&
      (d.resolve? (Template.unquote d.escape origin.2) k).isNone).map fun origin =>
        (origin.1, Template.unquote d.escape origin.2), ?_, ?_, ?_⟩
  · exact List.pairwise_map.2 ((pairwise_origins i.body).filter _)
  · intro slot text
    constructor
    · intro h
      obtain ⟨origin, ho, heq⟩ := List.mem_map.1 h
      obtain ⟨rfl, rfl⟩ := Prod.mk.inj heq
      obtain ⟨ho, hfree⟩ := List.mem_filter.1 ho
      rw [Bool.and_eq_true, Bool.not_eq_true', hasVariables_eq_false] at hfree
      have hrefers : Refers d ⟨k, some p, origin.1⟩ (Template.unquote d.escape origin.2) :=
        .origin hs hi (mem_origins.1 ho) hfree.1
      refine ⟨hrefers, ?_⟩
      rw [hrefers.get?_check hd]
      exact Option.isNone_iff_eq_none.1 hfree.2
    · rintro ⟨hrefers, hget⟩
      rw [hrefers.get?_check hd] at hget
      cases hrefers with
      | @origin _ _ _ s' i' text hs' hi' ho hfree =>
        obtain rfl := Option.some.inj (hs.symm.trans hs')
        obtain rfl := Option.some.inj (hi.symm.trans hi')
        refine List.mem_map.2 ⟨(slot, text), List.mem_filter.2 ⟨mem_origins.2 ho, ?_⟩, rfl⟩
        dsimp only at hget ⊢
        rw [hasVariables_eq_false.2 hfree, hget]
        rfl
  · obtain rfl := hd k s hs
    rw [Report.originErrorsAt_eq, referencesAt_instruction hplaces hs hi,
      filter_isReference_issues, List.filter_append, Context.references, contextAfter,
      Option.elim_some, Scope.filter_isOrigin_issues, List.nil_append,
      Context.filter_isOrigin_origins _ rfl]
    rfl

/-- What the errors at the place of a `FROM` without variables tell of its image. -/
theorem baseOutcome (hd : d.Numbered) (hplaces : (d.all.map Instruction.position).Nodup)
    (hs : d.stages[k]? = some s) (hfree : Template.references d.escape s.base.image = []) :
    BaseOutcome d k (Template.unquote d.escape s.base.image)
      (d.check.resolution.get? ⟨k, none, 0⟩) (d.check.originErrorsAt s.position) := by
  obtain rfl := hd k s hs
  have hget := (Refers.base hs hfree).get?_check hd
  have hbase : base? d s = d.resolve? (Template.unquote d.escape s.base.image) s.index := by
    rw [base?, hasVariables_eq_false.2 hfree]
    rfl
  rw [hget, Report.originErrorsAt_eq, referencesAt_base hplaces hs, filter_isReference_baseIssues,
    List.filter_append, Scope.filter_isOrigin_issues, List.nil_append, hbase,
    hasVariables_eq_false.2 hfree, Bool.false_or]
  cases hresolve : d.resolve? (Template.unquote d.escape s.base.image) s.index with
  | some t => exact .stage (hd.resolve?_eq_some_iff.1 hresolve)
  | none =>
    rw [if_neg (by simp), List.filter_eq_self.2 fun issue hissue => (of_mem_imageIssues hissue).2]
    exact hd.baseOutcome_imageIssues hresolve

end Document

/-! ### All references of a document -/

/-- A check says of every reference without variables, once, what it means or that it means
nothing. -/
structure Document.Classified (d : Document) : Prop where
  /-- The table holds no site twice. -/
  nodup : (d.check.resolution.entries.map Prod.fst).Nodup
  /-- The table holds the references that mean an earlier stage, and nothing else. -/
  entry : ∀ site t, (site, t) ∈ d.check.resolution.entries ↔
    ∃ text, Refers d site text ∧ Means d site.stage text t
  /-- For the others of an instruction there is one error each, in the order of the slots, and there
  are no more such errors. -/
  origin : ∀ k s p i, d.stages[k]? = some s → s.instructions[p]? = some i →
    ∃ missed : List (Nat × String), missed.Pairwise (·.1 < ·.1) ∧
      (∀ slot text, (slot, text) ∈ missed ↔ Refers d ⟨k, some p, slot⟩ text ∧
        d.check.resolution.get? ⟨k, some p, slot⟩ = none) ∧
      d.check.originErrorsAt i.position =
        missed.map fun reference => .unknownOrigin (originName i.body) reference.2
  base : ∀ k s, d.stages[k]? = some s → Template.references d.escape s.base.image = [] →
    d.BaseOutcome k (Template.unquote d.escape s.base.image)
      (d.check.resolution.get? ⟨k, none, 0⟩) (d.check.originErrorsAt s.position)

theorem check_classifies_references {source : String} {d : Document}
    (h : Document.parse source = .ok d) : d.Classified := by
  have hd : d.Numbered := Document.Parsed.numbered (.inl ⟨source, h⟩)
  have hplaces := Document.nodup_position_of_parse h
  refine ⟨hd.nodup_sites, ?_, ?_, ?_⟩
  · intro site t
    rw [hd.mem_entries_iff]
    exact exists_congr fun text => and_congr_right fun _ => hd.resolve?_eq_some_iff
  · exact fun k s p i hs hi => Document.exists_missed hd hplaces hs hi
  · exact fun k s hs hfree => Document.baseOutcome hd hplaces hs hfree

theorem check_classifies_references_mixed : ∃ d : Document,
    Document.parse ("FROM i AS a\nFROM A AS b\nCOPY --from=0 x y\n" ++
      "RUN --mount=from=a,target=/t --mount=from=b,target=/u x\nONBUILD COPY --from=z x y\n" ++
      "FROM 5\nFROM c\nFROM scratch AS scratch\nFROM e//f AS c\n") = .ok d ∧ d.Classified ∧
    d.check.resolution.entries =
      [(⟨1, none, 0⟩, 0), (⟨1, some 0, 0⟩, 0), (⟨1, some 1, 0⟩, 0)] ∧
    d.check.findings =
      [⟨.unknownOrigin "--mount from" "b", ⟨4, 1⟩⟩, ⟨.baseIndex "5", ⟨6, 1⟩⟩,
        ⟨.laterBase "c" "c", ⟨7, 1⟩⟩, ⟨.image "e//f" (.name "e//f"), ⟨9, 1⟩⟩] := by
  exact Document.exists_parsed (by decide +kernel) fun d hd => check_classifies_references hd

end Dockerfile
