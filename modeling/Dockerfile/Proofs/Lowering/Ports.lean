import Dockerfile.Proofs.Lowering.Verbatim

/-!
# Exposed ports

The port that a graph shows for an argument of an `EXPOSE` is `start[-end]/protocol` in full if the
numbers are written in ASCII digits, in their order and between 1 and 65535, and the protocol is a
known one in small letters. A check accepts digits of any script, the long `ſ` for an `s` and a line
feed at the end, all of which stay in the graph. So a port that the check accepted is in full if and
only if it was given in ASCII and without a line feed (`exposed_iff`).
-/

namespace Dockerfile

namespace Check

open Text

/-! ### Ports in full -/

/-- ASCII digits that write a number. -/
structure Writes (digits : List Char) (n : Nat) : Prop where
  ne_nil : digits ≠ []
  isDigit : ∀ c ∈ digits, c.isDigit
  value : Nat.ofDigitChars 10 digits 0 = n

/-- One number, or two with a hyphen between them. -/
inductive WritesRange : List Char → Nat → Nat → Prop where
  | single {digits : List Char} {n : Nat} (h : Writes digits n) : WritesRange digits n n
  | range {first last : List Char} {n m : Nat} (hfirst : Writes first n) (hlast : Writes last m) :
    WritesRange (first ++ '-' :: last) n m

/-- A port `start[-end]/protocol`. -/
def IsFullPort (port : String) : Prop :=
  ∃ range n m protocol, port.toList = range ++ '/' :: String.toList protocol ∧
    WritesRange range n m ∧ 1 ≤ n ∧ n ≤ m ∧ m ≤ 65535 ∧ protocol ∈ ["tcp", "udp", "sctp"]

/-- Has a text only ASCII characters, the last of which is no line feed? -/
def IsPlain (text : String) : Prop :=
  (∀ c ∈ text.toList, c.toNat < 128) ∧ text.toList.getLast? ≠ some '\n'

/-! ### Ports in ASCII -/

theorem isDigit_of_isDecimal {c : Char} (hascii : c.toNat < 128) (h : isDecimal c) : c.isDigit := by
  rw [isDecimal, digitValue?, if_pos hascii] at h
  split at h
  · assumption
  · cases h

variable {n m : Nat} {cs range : List Char}

theorem writes_of_digits? (hascii : ∀ c ∈ cs, c.toNat < 128) (h : digits? cs = some n) :
    Writes cs n := by
  rw [digits?, decimalIndex?, String.toList_ofList] at h
  split at h
  · rename_i hdigits
    rw [Bool.and_eq_true, List.all_eq_true] at hdigits
    have hdigit : ∀ c ∈ cs, c.isDigit := fun c hc =>
      isDigit_of_isDecimal (hascii c hc) (hdigits.2 c hc)
    cases cs with
    | nil => cases h
    | cons c rest =>
      obtain ⟨hc, hrest⟩ := List.forall_mem_cons.1 hdigit
      rw [readNat?, digitValue?_of_isDigit hc, Option.bind_some, readDigits?_of_isDigit hrest] at h
      refine ⟨List.cons_ne_nil c rest, hdigit, ?_⟩
      rw [Nat.ofDigitChars_cons, ← Option.some.inj h]
      simp
  · cases h

theorem writesRange_of_portRange? (hascii : ∀ c ∈ cs, c.toNat < 128)
    (h : portRange? cs = some (n, m)) : WritesRange cs n m := by
  unfold portRange? at h
  split at h
  · rename_i first last hcut
    obtain ⟨rfl, -⟩ := cut?_eq_some hcut
    obtain ⟨hfirst, hrest⟩ := List.forall_mem_append.1 hascii
    obtain ⟨a, ha, h⟩ := Option.bind_eq_some_iff.1 h
    obtain ⟨b, hb, h⟩ := Option.bind_eq_some_iff.1 h
    cases h
    exact .range (writes_of_digits? hfirst ha)
      (writes_of_digits? (List.forall_mem_cons.1 hrest).2 hb)
  · obtain ⟨a, ha, h⟩ := Option.map_eq_some_iff.1 h
    cases h
    exact .single (writes_of_digits? hascii ha)

theorem WritesRange.chars (h : WritesRange range n m) : ∀ c ∈ range, c.isDigit ∨ c = '-' := by
  cases h with
  | single h => exact fun c hc => .inl (h.isDigit c hc)
  | range hfirst hlast =>
    refine List.forall_mem_append.2 ⟨fun c hc => .inl (hfirst.isDigit c hc), ?_⟩
    exact List.forall_mem_cons.2 ⟨.inr rfl, fun c hc => .inl (hlast.isDigit c hc)⟩

theorem toLower_of_isDigit {c : Char} (h : c.isDigit) : c.toLower = c := by
  have hall : ∀ n < 128, (Char.ofNat n).isDigit → (Char.ofNat n).toLower = Char.ofNat n := by decide
  have hascii : c.toNat < 128 := isAlphanum_ascii (Bool.or_eq_true_iff.2 (.inr h))
  rw [← Char.ofNat_toNat c] at h ⊢
  exact hall _ hascii h

theorem WritesRange.map_toLower (h : WritesRange range n m) : range.map Char.toLower = range := by
  refine (List.map_congr_left fun c hc => ?_).trans (List.map_id range)
  rcases h.chars c hc with hdigit | rfl
  · exact toLower_of_isDigit hdigit
  · rfl

theorem WritesRange.slash_notMem (h : WritesRange range n m) : '/' ∉ range := by
  intro hmem
  rcases h.chars _ hmem with hdigit | heq
  · exact absurd hdigit (by decide)
  · exact absurd heq (by decide)

theorem exists_protocol (hascii : ∀ c ∈ cs, c.toNat < 128) (h : isProtocol cs) :
    ∃ protocol ∈ ["tcp", "udp", "sctp"], cs.map Char.toLower = String.toList protocol := by
  have hfold : cs.map foldCase = cs.map Char.toLower := by
    refine List.map_congr_left fun c hc => if_neg ?_
    rintro rfl
    exact absurd (hascii _ hc) (by decide)
  rw [isProtocol, hfold, List.contains_iff_mem] at h
  simpa using h

/-- What a text without a line feed at its end is accepted for. -/
theorem exists_ports_of_isPort {text : String} (h : isPort text)
    (hlast : text.toList.getLast? ≠ some '\n') :
    ∃ n m, ports? text.toList = some (n, m) ∧ 1 ≤ n ∧ n ≤ m ∧ m ≤ 65535 := by
  rw [isPort, wholeLine, Bool.or_eq_true, Bool.and_eq_true, beq_iff_eq] at h
  rcases h with h | ⟨hfeed, -⟩
  · cases hports : ports? text.toList with
    | none =>
      rw [hports] at h
      cases h
    | some bounds =>
      obtain ⟨n, m⟩ := bounds
      rw [hports] at h
      have hbounds : (1 ≤ n ∧ n ≤ m) ∧ m ≤ 65535 := by simpa using h
      exact ⟨n, m, rfl, hbounds.1.1, hbounds.1.2, hbounds.2⟩
  · exact absurd hfeed hlast

/-- A port that is accepted is shown in full if it is plain. -/
theorem isFullPort_shownPort {text : String} (h : isPort text) (hplain : IsPlain text) :
    IsFullPort (Lower.shownPort text) := by
  obtain ⟨hascii, hlast⟩ := hplain
  have hlower : (toLower text).toList = text.toList.map Char.toLower := by
    rw [toLower, String.toList_ofList, lowerChars, lowerAfter_of_ascii hascii]
  obtain ⟨n, m, hports, hfirst, hle, hlimit⟩ := exists_ports_of_isPort h hlast
  unfold ports? at hports
  split at hports
  · rename_i range protocol hcut
    obtain ⟨htext, -⟩ := cut?_eq_some hcut
    rw [htext] at hascii hlower
    obtain ⟨hascii, hrest⟩ := List.forall_mem_append.1 hascii
    split at hports
    · rename_i hprotocol
      have hrange := writesRange_of_portRange? hascii hports
      obtain ⟨name, hname, hsmall⟩ := exists_protocol (List.forall_mem_cons.1 hrest).2 hprotocol
      have hshown : (toLower text).toList = range ++ '/' :: String.toList name := by
        rw [hlower, List.map_append, List.map_cons, hrange.map_toLower, hsmall]
        rfl
      have hslash : (toLower text).toList.contains '/' := by
        rw [hshown]
        simp
      refine ⟨range, n, m, name, ?_, hrange, hfirst, hle, hlimit, hname⟩
      rw [Lower.shownPort, if_pos hslash, hshown]
    · cases hports
  · have hrange := writesRange_of_portRange? hascii hports
    rw [hrange.map_toLower] at hlower
    have hslash : ¬ (toLower text).toList.contains '/' := by
      rw [hlower]
      simpa using hrange.slash_notMem
    refine ⟨text.toList, n, m, "tcp", ?_, hrange, hfirst, hle, hlimit, by decide⟩
    rw [Lower.shownPort, if_neg hslash, String.toList_append, hlower]
    rfl

/-! ### Other ports -/

/-- A character of a port in full. -/
def isPortChar (c : Char) : Bool := c.isDigit || "-/tcpuds".toList.contains c

theorem IsFullPort.chars {port : String} (h : IsFullPort port) :
    ∀ c ∈ port.toList, isPortChar c := by
  obtain ⟨range, n, m, protocol, hport, hrange, -, -, -, hprotocol⟩ := h
  rw [hport]
  refine List.forall_mem_append.2 ⟨fun c hc => ?_, List.forall_mem_cons.2 ⟨rfl, ?_⟩⟩
  · rcases hrange.chars c hc with hdigit | rfl
    · rw [isPortChar, hdigit, Bool.true_or]
    · rfl
  · have hall : ["tcp", "udp", "sctp"].all fun name => name.toList.all isPortChar := by decide
    exact List.all_eq_true.1 (List.all_eq_true.1 hall protocol hprotocol)

theorem toNat_of_isPortChar {c : Char} (h : isPortChar c) :
    c.toNat < 128 ∧ c.toNat ≠ 0 ∧ c.toNat ≠ 'i'.toNat ∧ c.toNat ≠ 'k'.toNat := by
  rcases Bool.or_eq_true_iff.1 h with hdigit | hmem
  · have hascii : c.toNat < 128 := isAlphanum_ascii (Bool.or_eq_true_iff.2 (.inr hdigit))
    refine ⟨hascii, ?_⟩
    have hall : ∀ n < 128, (Char.ofNat n).isDigit → n ≠ 0 ∧ n ≠ 'i'.toNat ∧ n ≠ 'k'.toNat := by
      decide
    rw [← Char.ofNat_toNat c] at hdigit
    exact hall _ hascii hdigit
  · have hall : "-/tcpuds".toList.all fun c => decide (c.toNat < 128 ∧ c.toNat ≠ 0 ∧
        c.toNat ≠ 'i'.toNat ∧ c.toNat ≠ 'k'.toNat) := by decide
    exact of_decide_eq_true (List.all_eq_true.1 hall c (List.contains_iff_mem.1 hmem))

theorem toNat_ofNat (n : Nat) : (Char.ofNat n).toNat = n ∨ (Char.ofNat n).toNat = 0 := by
  delta Char.ofNat
  by_cases hn : n.isValidChar
  · rw [dif_pos hn]
    exact .inl rfl
  · rw [dif_neg hn]
    exact .inr rfl

/-- A small form is beyond ASCII, apart from the `k` that the sign of the kelvin has. -/
theorem toNat_of_move? {c small : Char} (h : toSmall.move? c = some small) :
    small.toNat = 'k'.toNat ∨ small.toNat = 0 ∨ 128 ≤ small.toNat := by
  have hall : toSmall.all fun entry => entry == (0x212A, 1, 1, -8383) ||
      decide (128 ≤ (entry.1 : Int) + entry.2.2.2) := by decide +kernel
  obtain ⟨entry, hfind, rfl⟩ := Option.map_eq_some_iff.1 h
  have hentry := List.all_eq_true.1 hall entry (List.mem_of_find?_eq_some hfind)
  have hholds := List.find?_some hfind
  obtain ⟨first, count, step, offset⟩ := entry
  dsimp only at hentry hholds ⊢
  rw [Bool.and_eq_true, Bool.and_eq_true, decide_eq_true_eq, decide_eq_true_eq] at hholds
  rw [Bool.or_eq_true, beq_iff_eq, decide_eq_true_eq] at hentry
  rcases toNat_ofNat ((c.toNat : Int) + offset).toNat with hcode | hzero
  · rw [hcode]
    rcases hentry with heq | hlarge
    · cases heq
      left
      change _ = 107
      omega
    · omega
  · exact .inr (.inl hzero)

/-- What a character beyond ASCII is in small letters does not stand in a port in full. -/
theorem exists_not_isPortChar {c : Char} (hc : 128 ≤ c.toNat) (before after : List Char) :
    ∃ small ∈ lowerChar before c after, ¬ isPortChar small := by
  unfold lowerChar
  rw [if_neg (Nat.not_lt.2 hc)]
  split
  · refine ⟨_, List.mem_cons_self, ?_⟩
    split <;> decide
  · split
    · exact ⟨'i', List.mem_cons_self, by decide⟩
    · refine ⟨_, List.mem_cons_self, fun h => ?_⟩
      have hchar := toNat_of_isPortChar h
      cases hmove : toSmall.move? c with
      | none =>
        rw [hmove, Option.getD_none] at hchar
        omega
      | some small =>
        rw [hmove, Option.getD_some] at hchar
        rcases toNat_of_move? hmove with hk | hzero | hlarge <;> omega

theorem ascii_of_lowerAfter {before cs : List Char}
    (h : ∀ c ∈ lowerAfter before cs, isPortChar c) : ∀ c ∈ cs, c.toNat < 128 := by
  induction cs generalizing before with
  | nil => exact List.forall_mem_nil _
  | cons c cs ih =>
    rw [lowerAfter, List.forall_mem_append] at h
    refine List.forall_mem_cons.2 ⟨Nat.lt_of_not_le fun hc => ?_, ih h.2⟩
    obtain ⟨small, hsmall, hnot⟩ := exists_not_isPortChar hc before cs
    exact hnot (h.1 small hsmall)

theorem isPlain_of_isFullPort {text : String} (h : IsFullPort (Lower.shownPort text)) :
    IsPlain text := by
  have hlower : ∀ c ∈ lowerChars text.toList, isPortChar c := by
    intro c hc
    refine h.chars c ?_
    rw [Lower.shownPort, toLower]
    split
    · rwa [String.toList_ofList]
    · rw [String.toList_append, String.toList_ofList]
      exact List.mem_append_left _ hc
  refine ⟨ascii_of_lowerAfter hlower, fun hlast => ?_⟩
  have hfeed := hlower '\n' (mem_lowerAfter (by decide) (by decide) (List.mem_of_getLast? hlast))
  exact absurd hfeed (by decide)

/-- A port that is accepted is shown in full if and only if it is plain. -/
theorem isFullPort_shownPort_iff {text : String} (h : isPort text) :
    IsFullPort (Lower.shownPort text) ↔ IsPlain text :=
  ⟨isPlain_of_isFullPort, isFullPort_shownPort h⟩

/-- A port of an instruction is accepted unless an error tells of it. -/
theorem isPort_of_notMem_errors {d : Document} {stage : Stage} {i : Instruction}
    {ports : List String} {text : String} (hs : stage ∈ d.stages) (hi : i ∈ stage.instructions)
    (hbody : i.body = .expose ports) (htext : text ∈ ports)
    (hvariables : hasVariables d.escape text = false)
    (h : ⟨.port text, i.position⟩ ∉ d.check.errors) : isPort (Template.unquote d.escape text) := by
  have hkind : i.kind = .expose := by
    rw [Instruction.kind, hbody]
    rfl
  obtain ⟨c, hc, htold⟩ := exists_context hs hi (hkind ▸ by decide)
  by_contra hbad
  have hform : c.form (some text) isPort .port = [.port text] := by
    rw [Context.form, Context.unquote, hc, hvariables]
    exact if_neg hbad
  have hissue : Issue.port text ∈ issues c i.body := by
    rw [hbody]
    refine List.mem_append_right _ (List.mem_flatMap.2 ⟨text, htext, ?_⟩)
    rw [hform]
    exact List.mem_singleton_self _
  exact h (mem_errors_of_stageFindings (htold _ hissue) rfl)

end Check

namespace Lower

/-! ### Ports of stages -/

namespace StageFrame

variable {f : StageFrame} {start p q : Progress} {n : Nat} {i : Instruction}
  {instructions : List Instruction}

theorem ports_subset_configAfter (config : Config) (task : Task) :
    config.ports ⊆ (configAfter config task).ports := by
  cases task with
  | config change =>
    cases change with
    | ports ports => exact (prefix_addNew _ _).subset
    | _ => exact fun _ h => h
  | exec | file => exact fun _ h => h

/-- The ports that an operation of a walk exposes are ports at its end. -/
theorem Walked.mem_ports (walk : f.Walked start instructions p) (hstart : start.operations = [])
    {o : Operation} (ho : o ∈ p.operations) {shown : List String}
    (htask : o.task = .config (.ports shown)) : shown ⊆ p.config.ports := by
  induction walk with
  | nil =>
    rw [hstart] at ho
    cases ho
  | @concat instructions p q i before step ih =>
    cases (lowerInstruction_ok step).2.2 with
    | pass => exact ih ho
    | make task keys =>
      rcases List.mem_append.1 ho with ho | ho
      · exact fun port hport => ports_subset_configAfter p.config task (ih ho hport)
      · rw [List.mem_singleton.1 ho] at htask
        obtain rfl : task = .config (.ports shown) := htask
        exact fun port hport => mem_addNew.2 (.inr hport)

end StageFrame

theorem Run.mem_ports {d : Document} {job : Job} {r : Resolution} {g : Graph} {plans : List Plan}
    {order : List Nat} {done : List Lowered} (run : Run d job r g plans order done)
    (hd : d.Numbered) {s : StageGraph} (hs : s ∈ g.stages) {o : Operation} (ho : o ∈ g.operations)
    (hstage : o.id.stage = s.index) {shown : List String}
    (htask : o.task = .config (.ports shown)) : shown ⊆ s.config.ports := by
  obtain ⟨l, hl, rfl⟩ := run.mem_stages.1 hs
  have hmem : o ∈ l.operations := by
    rw [← run.stageOperations_eq hd hl]
    exact List.mem_filter.2 ⟨ho, decide_eq_true hstage⟩
  obtain ⟨before, earlier, plan, -, -, -, hlower⟩ := (run.started.lowered hd).mem hl
  obtain ⟨platform, p, -, hwalk, rfl⟩ := lowerStage_ok hlower
  exact hwalk.mem_ports rfl hmem htask

/-- The ports of a graph: whatever is asked, an argument of an `EXPOSE` without variables of which
no error tells is a port of its stage, and the port is in full if and only if the argument is plain
without its quotes. -/
theorem exposed_iff {source : String} {d : Document} {job : Job} {r : Resolution} {g : Graph}
    {s : StageGraph} {stage : Stage} {i : Instruction} {ports : List String} {text : String}
    {n k : Nat} (hparse : Document.parse source = .ok d) (h : (d.lower job r).result = .ok g)
    (hs : s ∈ g.stages) (hstage : d.stages[s.index]? = some stage)
    (hi : stage.instructions[n]? = some i) (hbody : i.body = .expose ports)
    (hk : ports[k]? = some text) (hvariables : Check.hasVariables d.escape text = false)
    (hcheck : ⟨.port text, i.position⟩ ∉ d.check.errors) :
    ∃ o ∈ g.operations, ∃ shown port, o.id = ⟨s.index, n⟩ ∧ o.task = .config (.ports shown) ∧
      shown[k]? = some port ∧ port ∈ s.config.ports ∧
      (Check.IsFullPort port ↔ Check.IsPlain (Template.unquote d.escape text)) := by
  have hd : d.Parsed := .inl ⟨source, hparse⟩
  obtain ⟨plans, order, done, run⟩ := lower_ok h
  have hport := Check.isPort_of_notMem_errors (List.mem_of_getElem? hstage)
    (List.mem_of_getElem? hi) hbody (List.mem_of_getElem? hk) hvariables hcheck
  have hkind : i.kind = .expose := by
    rw [Instruction.kind, hbody]
    rfl
  obtain ⟨o, ho, hid⟩ := (run.keeps hd.shaped).exists_operation hs hstage
    (hd.numbered _ _ hstage) hi (hkind ▸ by decide)
  obtain ⟨stage', i', around, hstage', hi', -, -, hsetting, htask⟩ := run.exists_task hd.numbered ho
  rw [hid] at hstage' hi'
  obtain rfl : stage = stage' := Option.some.inj (hstage.symm.trans hstage')
  obtain rfl : i = i' := Option.some.inj (hi.symm.trans hi')
  rw [hbody] at htask
  have hshown : o.task = .config (.ports (ports.map around.port)) := (Option.some.inj htask).symm
  have hget : (ports.map around.port)[k]? = some (around.port text) := by
    rw [List.getElem?_map, hk]
    rfl
  -- The check looks at the unquoted text, the lowering at the value; without braces they agree.
  have hvalue : around.port text = shownPort (Template.unquote d.escape text) := by
    rw [← Phrase.value_plain hd.isEscape hvariables (Check.brace_notMem_of_isPort hport)
      around.scope.lookup]
    show shownPort (around.word text) = _
    rw [Surroundings.word, hsetting]
    rfl
  refine ⟨o, ho, _, _, hid, hshown, hget, ?_, ?_⟩
  · exact run.mem_ports hd.numbered hs ho (congrArg OperationId.stage hid) hshown
      (List.mem_of_getElem? hget)
  · rw [hvalue]
    exact Check.isFullPort_shownPort_iff hport

/-- A quoted range behind a port that is refused. -/
theorem exposed_iff_quoted : ∃ d g s stage i,
    Document.parse "FROM x\nUSER u\nEXPOSE http 8'0'80-\"8090\"/Udp\n" = .ok d ∧
    (d.lower ⟨[], none, none⟩ .empty).result = .ok g ∧ s ∈ g.stages ∧
    d.stages[s.index]? = some stage ∧ stage.instructions[1]? = some i ∧
    i.body = .expose ["http", "8'0'80-\"8090\"/Udp"] ∧
    d.check.errors = [⟨.port "http", i.position⟩] ∧
    Check.IsPlain (Template.unquote d.escape "8'0'80-\"8090\"/Udp") ∧
    ∃ o ∈ g.operations, ∃ shown port, o.id = ⟨s.index, 1⟩ ∧ o.task = .config (.ports shown) ∧
      shown[1]? = some port ∧ port ∈ s.config.ports ∧
      (Check.IsFullPort port ↔
        Check.IsPlain (Template.unquote d.escape "8'0'80-\"8090\"/Udp")) := by
  obtain ⟨d, g, hd, hg, hescape, s, hs, stage, -, i, -, hstage, hi, hbody, herrors⟩ :=
    exists_lowered_with "FROM x\nUSER u\nEXPOSE http 8'0'80-\"8090\"/Udp\n" ⟨[], none, none⟩
      (fun _ => .empty) (fun d g => d.escape = '\\' ∧ ∃ s ∈ g.stages, ∃ stage ∈ d.stages,
        ∃ i ∈ stage.instructions, d.stages[s.index]? = some stage ∧
          stage.instructions[1]? = some i ∧ i.body = .expose ["http", "8'0'80-\"8090\"/Udp"] ∧
          d.check.errors = [⟨.port "http", i.position⟩]) (by decide +kernel)
  have hplain : Check.IsPlain (Template.unquote d.escape "8'0'80-\"8090\"/Udp") := by
    have hunquoted : Template.unquote '\\' "8'0'80-\"8090\"/Udp" = "8080-8090/Udp" := by
      decide +kernel
    have hascii : "8080-8090/Udp".toList.all fun c => decide (c.toNat < 128) := by decide
    rw [hescape, hunquoted]
    exact ⟨fun c hc => of_decide_eq_true (List.all_eq_true.1 hascii c hc), by decide⟩
  refine ⟨d, g, s, stage, i, hd, hg, hs, hstage, hi, hbody, herrors, hplain, ?_⟩
  refine exposed_iff hd hg hs hstage hi hbody rfl ?_ ?_
  · rw [hescape]
    decide +kernel
  · rw [herrors]
    simp

/-- Digits of another script are accepted and stay in the graph. -/
theorem exposed_digits_foreign : ∃ d g s stage i,
    Document.parse "FROM x\nEXPOSE ٨٠\n" = .ok d ∧ d.check.errors = [] ∧
    (d.lower ⟨[], none, none⟩ .empty).result = .ok g ∧ s ∈ g.stages ∧
    d.stages[s.index]? = some stage ∧ stage.instructions[0]? = some i ∧
    i.body = .expose ["٨٠"] ∧ Check.hasVariables d.escape "٨٠" = false ∧
    (∃ o ∈ g.operations, o.id = ⟨s.index, 0⟩ ∧ o.task = .config (.ports ["٨٠/tcp"])) ∧
    "٨٠/tcp" ∈ s.config.ports ∧ ¬ Check.IsFullPort "٨٠/tcp" := by
  obtain ⟨d, g, hd, hg, herrors, s, hs, stage, -, i, -, hstage, hi, hbody, hvariables, o, ho, hid,
      htask⟩ := exists_lowered_with "FROM x\nEXPOSE ٨٠\n" ⟨[], none, none⟩ (fun _ => .empty)
    (fun d g => d.check.errors = [] ∧ ∃ s ∈ g.stages, ∃ stage ∈ d.stages,
      ∃ i ∈ stage.instructions, d.stages[s.index]? = some stage ∧
        stage.instructions[0]? = some i ∧ i.body = .expose ["٨٠"] ∧
        Check.hasVariables d.escape "٨٠" = false ∧
        ∃ o ∈ g.operations, o.id = ⟨s.index, 0⟩ ∧ o.task = .config (.ports ["٨٠/tcp"]))
    (by decide +kernel)
  obtain ⟨plans, order, done, run⟩ := lower_ok hg
  refine ⟨d, g, s, stage, i, hd, herrors, hg, hs, hstage, hi, hbody, hvariables,
    ⟨o, ho, hid, htask⟩, ?_, fun hfull => absurd (hfull.chars '٨' (by decide)) (by decide)⟩
  exact run.mem_ports (Document.Parsed.numbered (.inl ⟨_, hd⟩)) hs ho
    (congrArg OperationId.stage hid) htask (List.mem_singleton_self _)

end Lower

end Dockerfile
