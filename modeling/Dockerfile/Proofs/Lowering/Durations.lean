import Dockerfile.Proofs.Accepted
import Dockerfile.Proofs.Lexing.Cuts
import Dockerfile.Proofs.Lowering.Variables

/-!
# Durations of health checks

A duration is one or more numbers, each with its unit (`Duration`). The durations of a health check
are checked without their quotes and escapes, and a graph shows them as they are written. So what a
graph shows is a duration, and the one that was checked, if and only if it is written without quotes,
escapes and line ends (`shows_durations_iff`). A stage has the last health check of its own, else
that of its base (`Run.healthcheck_eq`).
-/

namespace Dockerfile

namespace Check

open Text

/-! ### The grammar of durations -/

/-- A number, with a fraction or without one, in the digits of any script. -/
inductive Number : List Char → Prop where
  | whole {digits : List Char} (hne : digits ≠ []) (hdigits : ∀ c ∈ digits, isDecimal c) :
    Number digits
  | fraction {digits more : List Char} (hne : digits ≠ []) (hdigits : ∀ c ∈ digits, isDecimal c)
    (hne' : more ≠ []) (hmore : ∀ c ∈ more, isDecimal c) : Number (digits ++ '.' :: more)

/-- One or more numbers, each with its unit. -/
inductive Duration : List Char → Prop where
  | last {number unit : List Char} (hnumber : Number number) (hunit : unit ∈ units) :
    Duration (number ++ unit)
  | more {number unit rest : List Char} (hnumber : Number number) (hunit : unit ∈ units)
    (hrest : Duration rest) : Duration (number ++ (unit ++ rest))

/-- Units hold no digit, and start with neither a digit nor a point. -/
theorem unit_chars {unit : List Char} (h : unit ∈ units) :
    unit ≠ [] ∧ ∀ c ∈ unit, isDecimal c = false ∧ c ≠ '.' := by
  have hall : units.all fun unit => !unit.isEmpty &&
      unit.all fun c => !isDecimal c && c != '.' := by decide +kernel
  simpa using List.all_eq_true.1 hall unit h

theorem exists_takeWhile_decimal (cs : List Char) : ∃ digits rest, cs = digits ++ rest ∧
    cs.takeWhile isDecimal = digits ∧ cs.dropWhile isDecimal = rest ∧ ∀ c ∈ digits, isDecimal c :=
  ⟨_, _, List.takeWhile_append_dropWhile.symm, rfl, rfl, fun _ hc => List.mem_takeWhile_imp hc⟩

variable {cs number rest : List Char}

theorem exists_number_of_skipDecimal? (h : skipDecimal? cs = some rest) :
    ∃ number, Number number ∧ cs = number ++ rest := by
  obtain ⟨digits, behind, rfl, htake, hdrop, hdigits⟩ := exists_takeWhile_decimal cs
  unfold skipDecimal? at h
  rw [htake, hdrop] at h
  split at h
  · cases h
  · rename_i hne
    rw [List.isEmpty_iff] at hne
    split at h
    · rename_i more
      obtain ⟨fraction, end', rfl, htake', hdrop', hfraction⟩ := exists_takeWhile_decimal more
      rw [htake', hdrop'] at h
      split at h
      · cases h
      · rename_i hne'
        rw [List.isEmpty_iff] at hne'
        cases h
        exact ⟨digits ++ '.' :: fraction, .fraction hne hdigits hne' hfraction, by simp⟩
    · cases h
      exact ⟨digits, .whole hne hdigits, rfl⟩

/-- A number is passed where neither a digit nor a point follows it. -/
theorem Number.skipDecimal? (h : Number number)
    (hrest : ∀ c ∈ rest.head?, isDecimal c = false ∧ c ≠ '.') :
    skipDecimal? (number ++ rest) = some rest := by
  have hstops : Stops isDecimal rest := fun c hc => (hrest c hc).1
  cases h with
  | whole hne hdigits =>
    unfold Check.skipDecimal?
    rw [takeWhile_append_of_stops hdigits hstops, dropWhile_append_of_stops hdigits hstops,
      if_neg (by simpa using hne)]
    split
    · exact absurd rfl (hrest '.' rfl).2
    · rfl
  | @fraction digits more hne hdigits hne' hmore =>
    have hpoint : Stops isDecimal ('.' :: (more ++ rest)) := by
      rintro c ⟨⟩
      decide +kernel
    unfold Check.skipDecimal?
    rw [List.append_assoc, List.cons_append, takeWhile_append_of_stops hdigits hpoint,
      dropWhile_append_of_stops hdigits hpoint, if_neg (by simpa using hne)]
    show (if ((more ++ rest).takeWhile isDecimal).isEmpty then none
      else some ((more ++ rest).dropWhile isDecimal)) = some rest
    rw [takeWhile_append_of_stops hmore hstops, dropWhile_append_of_stops hmore hstops,
      if_neg (by simpa using hne')]

theorem Number.head?_isDecimal (h : Number number) (rest : List Char) :
    ∃ c, (number ++ rest).head? = some c ∧ isDecimal c := by
  cases h with
  | whole hne hdigits =>
    obtain ⟨c, digits, rfl⟩ := List.exists_cons_of_ne_nil hne
    exact ⟨c, rfl, hdigits c List.mem_cons_self⟩
  | fraction hne hdigits =>
    obtain ⟨c, digits, rfl⟩ := List.exists_cons_of_ne_nil hne
    exact ⟨c, rfl, hdigits c List.mem_cons_self⟩

theorem Duration.head?_isDecimal (h : Duration cs) : ∃ c, cs.head? = some c ∧ isDecimal c := by
  cases h with
  | last hnumber => exact hnumber.head?_isDecimal _
  | more hnumber => exact hnumber.head?_isDecimal _

theorem duration_of_isDurationFrom (h : isDurationFrom cs) : Duration cs := by
  fun_induction isDurationFrom cs with
  | case1 cs hskip => cases h
  | case2 cs rest hskip _ _ unit behind ih =>
    obtain ⟨number, hnumber, rfl⟩ := exists_number_of_skipDecimal? hskip
    have hsplit : rest = unit ++ behind := List.takeWhile_append_dropWhile.symm
    rw [Bool.and_eq_true, Bool.or_eq_true, List.contains_iff_mem] at h
    obtain ⟨hunit, hend | hmore⟩ := h
    · rw [hsplit, List.isEmpty_iff.1 hend, List.append_nil]
      exact .last hnumber hunit
    · rw [hsplit]
      exact .more hnumber hunit (ih hmore)

/-- A number with its unit is passed where no other character of a unit can follow it. -/
theorem isDurationFrom_append {unit : List Char} (hnumber : Number number) (hunit : unit ∈ units)
    (hrest : Stops (fun c => !isDecimal c) rest) :
    isDurationFrom (number ++ (unit ++ rest)) = (rest.isEmpty || isDurationFrom rest) := by
  obtain ⟨hne, hchars⟩ := unit_chars hunit
  have hskip : skipDecimal? (number ++ (unit ++ rest)) = some (unit ++ rest) := by
    refine hnumber.skipDecimal? ?_
    obtain ⟨c, unit, rfl⟩ := List.exists_cons_of_ne_nil hne
    rintro _ ⟨⟩
    exact hchars c List.mem_cons_self
  have hclass : ∀ c ∈ unit, !isDecimal c := by
    intro c hc
    rw [(hchars c hc).1]
    rfl
  rw [isDurationFrom]
  split
  · rename_i hnone
    rw [hskip] at hnone
    cases hnone
  · rename_i hsome
    rw [hskip] at hsome
    cases hsome
    dsimp only
    rw [takeWhile_append_of_stops hclass hrest, dropWhile_append_of_stops hclass hrest,
      List.contains_iff_mem.2 hunit, Bool.true_and]

theorem Duration.isDurationFrom (h : Duration cs) : isDurationFrom cs := by
  induction h with
  | @last number unit hnumber hunit =>
    have hlast : Check.isDurationFrom (number ++ (unit ++ [])) = true :=
      isDurationFrom_append hnumber hunit (by rintro _ ⟨⟩)
    rwa [List.append_nil] at hlast
  | more hnumber hunit hrest ih =>
    obtain ⟨c, hc, hdecimal⟩ := hrest.head?_isDecimal
    rw [isDurationFrom_append hnumber hunit, ih, Bool.or_true]
    intro c' hc'
    obtain rfl : c = c' := Option.some.inj (hc.symm.trans hc')
    exact congrArg not hdecimal

theorem isDurationFrom_iff : isDurationFrom cs ↔ Duration cs :=
  ⟨duration_of_isDurationFrom, Duration.isDurationFrom⟩

/-- The check also accepts a duration with a line end behind it. -/
theorem isDuration_iff {text : String} : isDuration text ↔
    Duration text.toList ∨ ∃ duration, Duration duration ∧ text.toList = duration ++ ['\n'] := by
  rw [isDuration, wholeLine, Bool.or_eq_true, Bool.and_eq_true, isDurationFrom_iff,
    isDurationFrom_iff, beq_iff_eq]
  refine or_congr_right ⟨?_, ?_⟩
  · rintro ⟨hlast, hduration⟩
    exact ⟨_, hduration, (List.dropLast_append_getLast? '\n' hlast).symm⟩
  · rintro ⟨duration, hduration, htext⟩
    rw [htext, List.getLast?_concat, List.dropLast_concat]
    exact ⟨rfl, hduration⟩

/-! ### Texts without quotes -/

/-- Is a character a digit, a point or a letter of a unit? -/
def isDurationChar (c : Char) : Bool := isDecimal c || c = '.' || units.flatten.contains c

theorem Number.chars (h : Number number) : ∀ c ∈ number, isDurationChar c := by
  have hdecimal {digits : List Char} (hdigits : ∀ c ∈ digits, isDecimal c) :
      ∀ c ∈ digits, isDurationChar c := by
    intro c hc
    rw [isDurationChar, hdigits c hc]
    rfl
  cases h with
  | whole _ hdigits => exact hdecimal hdigits
  | fraction _ hdigits _ hmore =>
    exact List.forall_mem_append.2 ⟨hdecimal hdigits,
      List.forall_mem_cons.2 ⟨by decide +kernel, hdecimal hmore⟩⟩

theorem Duration.chars (h : Duration cs) : ∀ c ∈ cs, isDurationChar c := by
  have hunits {unit : List Char} (hunit : unit ∈ units) : ∀ c ∈ unit, isDurationChar c := by
    intro c hc
    rw [isDurationChar, List.contains_iff_mem.2 (List.mem_flatten.2 ⟨unit, hunit, hc⟩),
      Bool.or_true]
  induction h with
  | last hnumber hunit => exact List.forall_mem_append.2 ⟨hnumber.chars, hunits hunit⟩
  | more hnumber hunit _ ih =>
    exact List.forall_mem_append.2 ⟨hnumber.chars, List.forall_mem_append.2 ⟨hunits hunit, ih⟩⟩

end Check

namespace Template

/-- Is a text written without quotes, escapes and line ends? -/
def IsBare (escape : Char) (text : String) : Prop :=
  ∀ c ∈ text.toList, c ≠ '"' ∧ c ≠ '\'' ∧ c ≠ escape ∧ c ≠ '\n'

instance (escape : Char) (text : String) : Decidable (IsBare escape text) :=
  List.decidableBAll (fun c => c ≠ '"' ∧ c ≠ '\'' ∧ c ≠ escape ∧ c ≠ '\n') text.toList

theorem unquoteFrom_of_bare {escape : Char} {cs : List Char}
    (h : ∀ c ∈ cs, c ≠ '"' ∧ c ≠ '\'' ∧ c ≠ escape) : unquoteFrom escape .none cs = cs := by
  induction cs with
  | nil => exact unquoteFrom_nil escape .none
  | cons c cs ih =>
    obtain ⟨⟨hdouble, hsingle, hescape⟩, hcs⟩ := List.forall_mem_cons.1 h
    rw [unquoteFrom_cons]
    by_cases hdollar : c = '$'
    · subst hdollar
      simp [wordFront, hescape, ih hcs]
    · simp [wordFront, hescape, hdouble, hsingle, hdollar, ih hcs]

theorem IsBare.unquote_eq {escape : Char} {text : String} (h : IsBare escape text) :
    unquote escape text = text := by
  rw [unquote, unquoteFrom_of_bare fun c hc => ⟨(h c hc).1, (h c hc).2.1, (h c hc).2.2.1⟩,
    String.ofList_toList]

end Template

namespace Check

/-- What the check accepted without quotes is a duration as it is written, and the one that was
checked, if and only if it is bare. -/
theorem duration_written_iff {escape : Char} (he : Template.IsEscape escape) {text : String}
    (h : isDuration (Template.unquote escape text)) :
    text = Template.unquote escape text ∧ Duration text.toList ↔ Template.IsBare escape text := by
  constructor
  · rintro ⟨-, hduration⟩ c hc
    have hne {special : Char} (hspecial : isDurationChar special = false) : c ≠ special := by
      rintro rfl
      rw [hduration.chars c hc] at hspecial
      cases hspecial
    have hescape : isDurationChar escape = false := by
      rcases he with rfl | rfl
      · decide +kernel
      · decide +kernel
    exact ⟨hne (by decide +kernel), hne (by decide +kernel), hne hescape, hne (by decide +kernel)⟩
  · intro hbare
    have hsame := hbare.unquote_eq
    rw [hsame] at h
    refine ⟨hsame.symm, ?_⟩
    rcases isDuration_iff.1 h with hduration | ⟨duration, -, htext⟩
    · exact hduration
    · have hend : '\n' ∈ text.toList := by
        rw [htext]
        exact List.mem_concat_self
      exact absurd rfl (hbare _ hend).2.2.2

end Check

/-! ### Health checks -/

/-- The durations of a health check, as they are written. -/
def Healthcheck.durations (h : Healthcheck) : List (Option String) :=
  [h.interval, h.timeout, h.startPeriod, h.startInterval]

/-- The durations of a test. -/
def HealthTest.durations (t : HealthTest) : List (Option String) :=
  [t.interval, t.timeout, t.startPeriod, t.startInterval]

/-- The test that a task sets. -/
def Task.healthTest? : Task → Option HealthTest
  | .config (.healthcheck test) => some test
  | _ => none

/-- The last test that some operations set. -/
def lastTest? (operations : List Operation) : Option HealthTest :=
  (operations.filterMap (·.task.healthTest?)).getLast?

/-- Is a test that of an operation or of the configuration of a stage? -/
def Graph.ShowsTest (g : Graph) (test : HealthTest) : Prop :=
  (∃ o ∈ g.operations, o.task.healthTest? = some test) ∨
    ∃ s ∈ g.stages, s.config.healthcheck = some test

theorem lastTest?_concat (operations : List Operation) (o : Operation) :
    lastTest? (operations ++ [o]) = o.task.healthTest?.or (lastTest? operations) := by
  unfold lastTest?
  rw [List.filterMap_append, List.getLast?_append]
  cases h : o.task.healthTest? <;> simp [h]

theorem mem_of_lastTest? {operations : List Operation} {test : HealthTest}
    (h : lastTest? operations = some test) : ∃ o ∈ operations, o.task.healthTest? = some test :=
  List.mem_filterMap.1 (List.mem_of_getLast? h)

namespace Check

/-- Where a health check has no error, its test has its durations, and they were accepted. -/
theorem durations_of_harmless {c : Context} {h : Healthcheck} (hh : Harmless (healthcheckIssues c h)) :
    (Lower.Surroundings.healthTest h).durations = h.durations ∧
      ∀ text, some text ∈ h.durations → isDuration (Template.unquote c.escape text) := by
  unfold healthcheckIssues at hh
  split at hh
  · -- Without a command there are no options.
    rename_i hcommand
    split at hh
    · exact absurd hh (not_harmless rfl)
    · rename_i hoptions
      simp only [Healthcheck.hasOptions, Bool.not_eq_true, Bool.or_eq_false_iff,
        Option.isSome_eq_false_iff, Option.isNone_iff_eq_none] at hoptions
      obtain ⟨⟨⟨⟨hinterval, htimeout⟩, hperiod⟩, hstart⟩, -⟩ := hoptions
      simp [Healthcheck.durations, HealthTest.durations, Lower.Surroundings.healthTest, hcommand,
        hinterval, htimeout, hperiod, hstart]
  · rename_i command hcommand
    refine ⟨by simp [Healthcheck.durations, HealthTest.durations, Lower.Surroundings.healthTest,
      hcommand], ?_⟩
    intro text htext
    obtain ⟨⟨option, value⟩, hoption, rfl⟩ := List.mem_map.1 (show some text ∈
      [("interval", h.interval), ("timeout", h.timeout), ("start-period", h.startPeriod),
        ("start-interval", h.startInterval)].map Prod.snd from htext)
    by_contra hbad
    refine (harmless_append.1 hh).2 (.duration option text) ?_ rfl
    refine List.mem_flatMap.2 ⟨_, hoption, ?_⟩
    show Issue.duration option text ∈ if isDuration (c.unquote text) then [] else _
    rw [Context.unquote, if_neg hbad]
    exact List.mem_singleton_self _

end Check

namespace Lower

namespace Surroundings

theorem exists_healthcheck_of_task? {s : Surroundings} {body : Body} {task : Task}
    {test : HealthTest} (h : s.task? body = some task) (htest : task.healthTest? = some test) :
    ∃ check, body = .healthcheck check ∧ test = healthTest check := by
  cases body with
  | healthcheck check =>
    cases h
    cases htest
    exact ⟨check, rfl, rfl⟩
  | base | arg => cases h
  | _ =>
    cases h
    cases htest

end Surroundings

namespace StageFrame

variable {f : StageFrame} {start p q : Progress} {instructions : List Instruction}

theorem healthcheck_configAfter (config : Config) (task : Task) :
    (configAfter config task).healthcheck = task.healthTest?.or config.healthcheck := by
  cases task with
  | config change =>
    cases change with
    | _ => rfl
  | exec | file => rfl

/-- A walk ends with the last test of its operations, else with that of its start. -/
theorem Walked.healthcheck_eq (walk : f.Walked start instructions p)
    (hstart : start.operations = []) :
    p.config.healthcheck = (lastTest? p.operations).or start.config.healthcheck := by
  induction walk with
  | nil =>
    rw [hstart]
    rfl
  | @concat instructions p q i before step ih =>
    cases (lowerInstruction_ok step).2.2 with
    | pass => exact ih
    | make task keys =>
      show (configAfter p.config task).healthcheck =
        (lastTest? (p.operations ++ [f.operation p instructions.length i task keys])).or _
      rw [healthcheck_configAfter, lastTest?_concat, Option.or_assoc, ← ih]
      rfl

end StageFrame

section Runs

variable {d : Document} {job : Job} {r : Resolution} {g : Graph} {plans : List Plan}
  {order : List Nat} {done : List Lowered}

/-- A stage has the last test of its own operations, else that of its base. -/
theorem Run.healthcheck_eq (run : Run d job r g plans order done) (hd : d.Numbered)
    {s : StageGraph} (hs : s ∈ g.stages) :
    s.config.healthcheck = (lastTest? (g.stageOperations s.index)).or
      (s.baseStage.bind fun b => (g.stage? b).bind (·.config.healthcheck)) := by
  obtain ⟨l, hl, rfl⟩ := run.mem_stages.1 hs
  obtain ⟨plan, before, hlower, hbase⟩ := run.exists_lowerStage hd hl
  obtain ⟨platform, p, -, hwalk, hlowered⟩ := lowerStage_ok hlower
  have hstart : (Progress.start (baseIn? before plan)).config.healthcheck =
      ((baseIn? before plan).map Lowered.graph).bind (·.config.healthcheck) := by
    cases baseIn? before plan <;> rfl
  rw [run.stageOperations_eq hd hl, ← Option.bind_assoc, ← hbase, ← hstart, hlowered]
  exact hwalk.healthcheck_eq rfl

/-- The test of a stage is the one of an operation. -/
theorem Run.exists_test (run : Run d job r g plans order done) (hd : d.Numbered)
    {s : StageGraph} (hs : s ∈ g.stages) {test : HealthTest}
    (htest : s.config.healthcheck = some test) :
    ∃ o ∈ g.operations, o.task.healthTest? = some test := by
  induction hn : s.index using Nat.strong_induction_on generalizing s with
  | h n ih =>
    rw [run.healthcheck_eq hd hs, Option.or_eq_some_iff] at htest
    rcases htest with hown | ⟨-, hinherited⟩
    · obtain ⟨o, ho, htask⟩ := mem_of_lastTest? hown
      exact ⟨o, (List.mem_filter.1 ho).1, htask⟩
    · obtain ⟨b, hb, hinherited⟩ := Option.bind_eq_some_iff.1 hinherited
      obtain ⟨base, hfound, hbase⟩ := Option.bind_eq_some_iff.1 hinherited
      obtain ⟨l, hl, rfl⟩ := run.mem_stages.1 hs
      obtain ⟨-, -, -, -, -, -, -, hlt⟩ := run.exists_base hd hl hb
      have hindex : base.index = b := by simpa using List.find?_some hfound
      exact ih b (hn ▸ hlt) (List.mem_of_find?_eq_some hfound) hbase hindex

/-- The durations of the health checks of a graph, in its operations and in the configurations of
its stages, where no error was found. A stage has the last test of its own, else that of its base,
and every test is that of a `HEALTHCHECK` with the durations as they are written there. Without
their quotes and escapes these are durations, but for a line end; they are shown so if and only if
they are written without quotes, escapes and line ends. -/
theorem shows_durations_iff {source : String} (hparse : Document.parse source = .ok d)
    (hcheck : d.check.errors = []) (h : (d.lower job r).result = .ok g) :
    (∀ s ∈ g.stages, s.config.healthcheck = (lastTest? (g.stageOperations s.index)).or
      (s.baseStage.bind fun b => (g.stage? b).bind (·.config.healthcheck))) ∧
    ∀ test, g.ShowsTest test → ∃ o ∈ g.operations, o.task.healthTest? = some test ∧
      ∃ stage i check, d.stages[o.id.stage]? = some stage ∧
        stage.instructions[o.id.position]? = some i ∧ i.body = .healthcheck check ∧
        test.durations = check.durations ∧
        ∀ text, some text ∈ test.durations →
          (∃ duration, Check.Duration duration ∧
            ((Template.unquote d.escape text).toList = duration ∨
              (Template.unquote d.escape text).toList = duration ++ ['\n'])) ∧
          (text = Template.unquote d.escape text ∧ Check.Duration text.toList ↔
            Template.IsBare d.escape text) := by
  have hd : d.Parsed := .inl ⟨source, hparse⟩
  obtain ⟨plans, order, done, run⟩ := lower_ok h
  refine ⟨fun s hs => run.healthcheck_eq hd.numbered hs, fun test htest => ?_⟩
  obtain ⟨o, ho, htest⟩ : ∃ o ∈ g.operations, o.task.healthTest? = some test := by
    rcases htest with hown | ⟨s, hs, htest⟩
    · exact hown
    · exact run.exists_test hd.numbered hs htest
  obtain ⟨stage, i, around, hstage, hi, -, -, -, htask⟩ := run.exists_task hd.numbered ho
  obtain ⟨check, hbody, rfl⟩ := Surroundings.exists_healthcheck_of_task? htask htest
  have hkind : i.kind = .healthcheck := by
    rw [Instruction.kind, hbody]
    rfl
  obtain ⟨c, hc, hharmless⟩ := Check.harmless_issues hcheck (List.mem_of_getElem? hstage)
    (List.mem_of_getElem? hi) (hkind ▸ by decide)
  rw [hbody] at hharmless
  obtain ⟨hdurations, haccepted⟩ := Check.durations_of_harmless hharmless
  refine ⟨o, ho, htest, stage, i, check, hstage, hi, hbody, hdurations, fun text htext => ?_⟩
  rw [hdurations] at htext
  have hduration := haccepted text htext
  rw [hc] at hduration
  refine ⟨?_, Check.duration_written_iff hd.isEscape hduration⟩
  rcases Check.isDuration_iff.1 hduration with hwhole | ⟨duration, hwhole, hend⟩
  · exact ⟨_, hwhole, .inl rfl⟩
  · exact ⟨duration, hwhole, .inr hend⟩

/-- A stage shows the durations of its base, the bare one as a duration and the quoted one not. -/
theorem shows_durations_iff_inherited : ∃ d g,
    Document.parse ("FROM a AS b\nHEALTHCHECK --interval=1m0.5s --timeout='9'h CMD c\n" ++
      "HEALTHCHECK --interval=1m30s --timeout='2'h CMD c\nFROM b\nUSER u\n") = .ok d ∧
    d.check.errors = [] ∧ (d.lower ⟨[], none, none⟩ .empty).result = .ok g ∧
    ∃ s ∈ g.stages, ∃ test, s.index = 1 ∧ s.config.healthcheck = some test ∧
      test.durations = [some "1m30s", some "'2'h", none, none] ∧
      ("1m30s" = Template.unquote d.escape "1m30s" ∧ Check.Duration "1m30s".toList) ∧
      ¬ ("'2'h" = Template.unquote d.escape "'2'h" ∧ Check.Duration "'2'h".toList) := by
  obtain ⟨d, g, hd, hg, hescape, herrors, s, hs, hindex, htest⟩ := exists_lowered_with
    ("FROM a AS b\nHEALTHCHECK --interval=1m0.5s --timeout='9'h CMD c\n" ++
      "HEALTHCHECK --interval=1m30s --timeout='2'h CMD c\nFROM b\nUSER u\n") ⟨[], none, none⟩
    (fun _ => .empty) (fun d g => d.escape = '\\' ∧ d.check.errors = [] ∧
      ∃ s ∈ g.stages, s.index = 1 ∧ s.config.healthcheck =
        some ⟨["CMD-SHELL", "c"], some "1m30s", some "'2'h", none, none, none⟩) (by decide +kernel)
  obtain ⟨-, hshown⟩ := shows_durations_iff hd herrors hg
  obtain ⟨o, -, -, stage, i, check, -, -, -, -, hiff⟩ := hshown _ (.inr ⟨s, hs, htest⟩)
  refine ⟨d, g, hd, herrors, hg, s, hs, _, hindex, htest, rfl, (hiff _ (by decide)).2.2 ?_,
    fun hquoted => ?_⟩
  · rw [hescape]
    decide +kernel
  · exact absurd rfl ((hiff _ (by decide)).2.1 hquoted '\'' (by decide)).2.1

/-- The quotes around a duration are accepted and stay in the graph. -/
theorem duration_shown_quoted : ∃ d g,
    Document.parse "FROM x\nHEALTHCHECK --interval=\"30s\" CMD true\n" = .ok d ∧
    d.check.errors = [] ∧ (d.lower ⟨[], none, none⟩ .empty).result = .ok g ∧
    (∃ o ∈ g.operations, ∃ s ∈ g.stages, ∃ test, o.task.healthTest? = some test ∧
      s.config.healthcheck = some test ∧ test.interval = some "\"30s\"") ∧
    Template.unquote d.escape "\"30s\"" = "30s" ∧ ¬ Check.Duration "\"30s\"".toList := by
  obtain ⟨d, g, hd, hg, herrors, ⟨o, ho, s, hs, htask, htest⟩, hunquoted⟩ := exists_lowered_with
    "FROM x\nHEALTHCHECK --interval=\"30s\" CMD true\n" ⟨[], none, none⟩ (fun _ => .empty)
    (fun d g => d.check.errors = [] ∧ (∃ o ∈ g.operations, ∃ s ∈ g.stages,
      o.task.healthTest? =
        some ⟨["CMD-SHELL", "true"], some "\"30s\"", none, none, none, none⟩ ∧
      s.config.healthcheck =
        some ⟨["CMD-SHELL", "true"], some "\"30s\"", none, none, none, none⟩) ∧
      Template.unquote d.escape "\"30s\"" = "30s") (by decide +kernel)
  refine ⟨d, g, hd, herrors, hg, ⟨o, ho, s, hs, _, htask, htest, rfl⟩, hunquoted, ?_⟩
  exact fun hduration => absurd (hduration.chars '"' (by decide)) (by decide +kernel)

end Runs

end Lower

end Dockerfile
