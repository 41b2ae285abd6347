import Mathlib.Data.List.Induction
import Dockerfile.Proofs.Checking.Variables
import Dockerfile.Session

/-!
# Sessions forget

A session answers every call as if it were the first one. A reader goes through a text with the
escape character that the directives have set so far, and ends with the document of the text
(`Reader.read_eq`): no directive stands behind an instruction, so all instructions are read with one
character. A checker collects what it finds stage by stage, and ends with the report of the document
(`Checker.check_eq`): what it asks for on the way (the names before the first stage, the stage that a
`FROM` was settled to, the names known at the end of that stage) are those of this document.
-/

namespace Dockerfile

/-! ### Reading -/

namespace Document

/-- A document with one more instruction at its end. A `FROM` starts a stage. -/
def append (d : Document) (i : Instruction) : Document :=
  match i.body with
  | .base base => { d with stages := d.stages ++ [⟨d.stages.length, i.position, base, []⟩] }
  | _ => d.add i

theorem ofInstructions_append (directives : List (Directive × Position)) (escape : Char)
    (is : List Instruction) (i : Instruction) :
    ofInstructions directives escape (is ++ [i]) =
      (ofInstructions directives escape is).append i := by
  by_cases hi : i.kind = .base
  · obtain ⟨position, body⟩ := i
    cases body with
    | base base =>
      simp [ofInstructions, append, splitStage_append_base, stagesFrom_append_base, stagesFrom,
        splitStage]
    | _ => cases hi
  · rw [ofInstructions_concat hi]
    obtain ⟨position, body⟩ := i
    cases body with
    | base base => exact (hi rfl).elim
    | _ => rfl

theorem foldl_append (directives : List (Directive × Position)) (escape : Char) :
    List.foldl append ⟨directives, [], [], escape⟩ = ofInstructions directives escape := by
  funext is
  induction is using List.reverseRecOn with
  | nil => rfl
  | append_singleton is i ih => rw [List.foldl_concat, ih, ofInstructions_append]

end Document

namespace Session

/-- The escape character behind some directives. -/
def escapeBehind (escape : Char) (directives : List (Directive × Position)) : Char :=
  ((directives.filterMap fun d => d.1.escape?).getLast?).getD escape

theorem escapeBehind_cons (escape : Char) (d : Directive) (position : Position)
    (directives : List (Directive × Position)) :
    escapeBehind escape ((d, position) :: directives) =
      escapeBehind (d.escape?.getD escape) directives := by
  rw [escapeBehind, List.filterMap_cons]
  cases d.escape? with
  | none => rfl
  | some c => simp [escapeBehind, List.getLast?_cons]

namespace Reading

/-- The directives that are still to come. -/
def directivesIn (w : Reading) (entries : List Entry) : List (Directive × Position) :=
  if w.atTop then Entry.directivesFrom w.behindComment entries else []

theorem directivesIn_eq_nil (w : Reading) {entries : List Entry}
    (h : ∀ behindComment, Entry.directivesFrom behindComment entries = []) :
    w.directivesIn entries = [] := by
  rw [directivesIn, h, ite_self]

theorem directivesIn_directive {w : Reading} {t : Token} {d : Directive}
    (h : (if w.atTop then Directive.parse? t.text else none) = some d) (entries : List Entry) :
    w.directivesIn (.comment t :: entries) = (d, t.position) ::
      { w with
        directives := w.directives ++ [(d, t.position)]
        behindComment := true }.directivesIn entries := by
  split at h
  · rename_i htop
    rw [directivesIn, if_pos htop, directivesIn, if_pos htop, Entry.directivesFrom, h]
  · cases h

theorem directivesIn_comment {w : Reading} {t : Token}
    (h : (if w.atTop then Directive.parse? t.text else none) = none) (entries : List Entry) :
    w.directivesIn (.comment t :: entries) = [] := by
  unfold directivesIn
  split
  · rename_i htop
    rw [if_pos htop] at h
    rw [Entry.directivesFrom, h]
  · rfl

theorem directivesIn_lineEnd (w : Reading) (entries : List Entry) :
    w.directivesIn (.lineEnd :: entries) =
      { w with
        atTop := w.atTop && w.behindComment
        behindComment := false }.directivesIn entries := by
  simp only [directivesIn, Entry.directivesFrom, Bool.and_eq_true, ite_and]

theorem finish_add (w : Reading) (i : Instruction) (escape : Char) :
    (w.add i).finish escape = (w.finish escape).append i := by
  obtain ⟨position, body⟩ := i
  cases body with
  | base base => rfl
  | _ =>
    simp only [add, Document.append, Document.add, finish]
    cases w.stages.getLast? <;> rfl

end Reading

namespace Reader

/-- What reading the rest of a text ends with: the escape character that the directives to come
leave, and with it the instructions to come. -/
def ending (r : Reader) (w : Reading) (entries : List Entry) :
    Reader × Except SourceFault Document :=
  let directives := w.directivesIn entries
  let escape := escapeBehind r.escape directives
  (⟨escape⟩, List.foldl Document.append
    ({ w with directives := w.directives ++ directives }.finish escape) <$>
      Document.instructions escape entries)

variable {r r' : Reader} {w w' : Reading} {entry : Entry} {fault : SourceFault}

/-- Without directives to come the escape character is the one that is set. -/
theorem ending_eq {entries : List Entry} (h : w.directivesIn entries = []) : r.ending w entries =
    (r, List.foldl Document.append (w.finish r.escape) <$>
      Document.instructions r.escape entries) := by
  simp only [ending, h, List.append_nil]
  rfl

theorem ending_of_error (h : r.step w entry = (r', .error fault)) (entries : List Entry) :
    r.ending w (entry :: entries) = (r', .error fault) := by
  cases entry with
  | comment t =>
    simp only [step] at h
    split at h <;> cases h
  | lineEnd => cases h
  | line line =>
    simp only [step] at h
    split at h
    · rename_i cause hline
      cases h
      refine Eq.trans (ending_eq (w.directivesIn_eq_nil fun _ => rfl)) ?_
      rw [Document.instructions, hline]
      rfl
    · cases h
  | stray | broken =>
    cases h
    exact ending_eq (w.directivesIn_eq_nil fun _ => rfl)

/-- An entry that can be read does not change what reading ends with. -/
theorem ending_of_ok (h : r.step w entry = (r', .ok w')) (entries : List Entry) :
    r.ending w (entry :: entries) = r'.ending w' entries := by
  cases entry with
  | comment t =>
    simp only [step] at h
    split at h
    · rename_i d hd
      cases h
      simp only [ending, Reading.directivesIn_directive hd, escapeBehind_cons, List.append_assoc,
        List.singleton_append]
      rfl
    · rename_i hd
      cases h
      rw [ending_eq (Reading.directivesIn_comment hd entries)]
      exact Eq.symm (ending_eq rfl)
  | lineEnd =>
    cases h
    simp only [ending, Reading.directivesIn_lineEnd]
    rfl
  | line line =>
    simp only [step] at h
    split at h
    · cases h
    · rename_i i hline
      cases h
      -- No comment behind a line is a directive, so the character is the same before and after it.
      refine Eq.trans (ending_eq (w.directivesIn_eq_nil fun _ => rfl)) ?_
      refine Eq.trans ?_ (Eq.symm (ending_eq rfl))
      have hadd : (w.finish r.escape).append i = (w.add i).finish r.escape := (w.finish_add i _).symm
      rw [Document.instructions, hline]
      cases Document.instructions r.escape entries with
      | error fault => rfl
      | ok is => exact congrArg (fun d => (r, Except.ok (List.foldl Document.append d is))) hadd
  | stray | broken => cases h

theorem readFrom_eq (r : Reader) (w : Reading) (entries : List Entry) :
    r.readFrom w entries = r.ending w entries := by
  induction entries generalizing r w with
  | nil => exact Eq.symm (ending_eq (w.directivesIn_eq_nil fun _ => rfl))
  | cons entry entries ih =>
    rw [readFrom]
    split
    · rename_i r' fault hstep
      rw [ending_of_error hstep]
    · rename_i r' w' hstep
      rw [ending_of_ok hstep, ih]

/-- A reader reads a text as its document, whatever it has read before, and keeps the escape
character of the text. -/
theorem read_eq (r : Reader) (source : String) :
    r.read source = (⟨Document.escapeOf source⟩, Document.parse source) := by
  rw [read, readFrom_eq]
  simp only [ending, Reading.finish, List.nil_append, Document.foldl_append]
  rfl

end Reader

/-! ### Checking -/

open Check

namespace Checker

/-- What a checker has collected at the end of the instructions of a stage. -/
theorem checkInstructions_eq (c : Checker) (stage : Stage) (scope : Scope) (seen : List Kind)
    (position : Nat) (is : List Instruction) :
    c.checkInstructions stage scope seen position is =
      (c.tell (instructionFindings c.document stage scope seen is)).settle
        ((is.zipIdx position).flatMap fun i => originEntries c.document stage i.2 i.1.body) := by
  induction is generalizing c scope seen position with
  | nil => simp [checkInstructions, instructionFindings, tell, settle]
  | cons i is ih =>
    rw [checkInstructions, ih]
    simp [tell, settle, instructionFindings]

/-- The checker with all that a stage adds, if the stage starts with a scope. -/
def withStage (c : Checker) (stage : Stage) (scope : Scope) : Checker :=
  { (c.tell ((baseIssues c.document c.metas stage).map (⟨·, stage.position⟩) ++
      instructionFindings c.document stage scope [] stage.instructions)).settle
        (stageEntries c.document stage) with
    known := (stage.index, (scope.afterAll stage.instructions).known) :: c.known }

theorem checkStage_eq (c : Checker) (stage : Stage) : c.checkStage stage =
    c.withStage stage ⟨c.metas, true, (c.checkBase stage).inherited stage, argNames stage⟩ := by
  simp [checkStage, checkInstructions_eq, withStage, checkBase, tell, settle, stageEntries]

/-- The names known at the end of stages, by their numbers. -/
def numbered (settled : List (List String)) : List (Nat × List String) :=
  (settled.zipIdx.map Prod.swap).reverse

theorem numbered_concat (settled : List (List String)) (names : List String) :
    numbered (settled ++ [names]) = (settled.length, names) :: numbered settled := by
  simp [numbered, List.zipIdx_append]

theorem lookup_numbered (settled : List (List String)) (n : Nat) :
    (numbered settled).lookup n = settled[n]? := by
  induction settled using List.reverseRecOn with
  | nil => rfl
  | append_singleton settled names ih =>
    rw [numbered_concat, List.lookup_cons, ih]
    by_cases hn : n = settled.length
    · simp [hn]
    · have hne : (n == settled.length) = false := beq_eq_false_iff_ne.2 hn
      simp only [hne]
      rcases Nat.lt_or_gt_of_ne hn with hlt | hgt
      · rw [List.getElem?_append_left hlt]
      · rw [List.getElem?_eq_none (Nat.le_of_lt hgt), List.getElem?_eq_none (by simp; omega)]

/-- The checker of a document behind the first stages. -/
def behind (d : Document) (k : Nat) : Checker where
  document := d
  findings := Check.checkPreamble d ++ nameFindings [] d.stages ++
    stageFindings d (metaNames d) [] (d.stages.take k)
  resolution := ⟨(d.stages.take k).flatMap (stageEntries d)⟩
  metas := metaNames d
  known := numbered (d.settledBefore k)

variable {d : Document} {k : Nat} {s : Stage}

/-- The `FROM` of a stage is settled to the stage that it means. -/
theorem baseOf?_checkBase (hd : d.Numbered) (hs : d.stages[k]? = some s) :
    ((behind d k).checkBase s).resolution.baseOf? s.index = base? d s := by
  simp only [checkBase, tell, settle, behind, Resolution.baseOf?, Resolution.get?,
    List.reverse_append]
  cases base? d s with
  | some t => simp
  | none =>
    -- The entries of the stages before this one are not for its `FROM`.
    simp only [Option.toList_none, List.map_nil, List.reverse_nil, List.nil_append,
      Option.map_eq_none_iff, List.find?_eq_none, List.mem_reverse, List.mem_flatMap]
    rintro entry ⟨s', hs', hentry⟩ hsite
    have hstage : entry.1.stage = s.index := congrArg Site.stage (of_decide_eq_true hsite)
    obtain ⟨j, hj, rfl⟩ := List.mem_take_iff_getElem.1 hs'
    rw [stage_of_mem_stageEntries hentry, hd j _ (List.getElem?_eq_getElem _), hd k s hs] at hstage
    omega

theorem behind_succ (hd : d.Numbered) (hs : d.stages[k]? = some s) : behind d (k + 1) =
    (behind d k).withStage s (startScope d (metaNames d) (d.settledBefore k) s) := by
  have hindex : s.index = (d.settledBefore k).length := by
    rw [hd k s hs, (hd.mem_settledBefore (List.getElem?_eq_some_iff.1 hs).1.le).1]
  simp only [behind, List.take_add_one, hs, Option.toList_some, stageFindings_append,
    stageFindings, Document.settledBefore_succ hs, numbered_concat, List.flatMap_append,
    List.append_nil, List.flatMap_cons, List.flatMap_nil, ← hindex]
  simp only [withStage, tell, settle, List.append_assoc]
  rfl

theorem checkStage_behind (hd : d.Numbered) (hs : d.stages[k]? = some s) :
    (behind d k).checkStage s = behind d (k + 1) := by
  have hscope : (⟨metaNames d, true, ((behind d k).checkBase s).inherited s, argNames s⟩ : Scope) =
      startScope d (metaNames d) (d.settledBefore k) s := by
    rw [inherited, baseOf?_checkBase hd hs]
    simp [checkBase, tell, settle, behind, lookup_numbered, startScope]
  rw [checkStage_eq, behind_succ hd hs, ← hscope]
  rfl

theorem foldl_checkStage (hd : d.Numbered) (hk : k ≤ d.stages.length) :
    (d.stages.take k).foldl checkStage (behind d 0) = behind d k := by
  induction k with
  | zero => rfl
  | succ k ih =>
    have hs := List.getElem?_eq_getElem (Nat.lt_of_succ_le hk)
    rw [List.take_add_one, hs, Option.toList_some, List.foldl_concat, ih (Nat.le_of_succ_le hk),
      checkStage_behind hd hs]

/-- A checker checks a document as if it were new: all that it keeps of the last one is dropped. -/
theorem check_eq_new (c : Checker) (d : Document) : c.check d = ({} : Checker).check d := rfl

/-- A checker tells of a document with stages in their order what its check finds. -/
theorem check_eq (hd : d.Numbered) (c : Checker) : (c.check d).2 = d.check := by
  have hstart : (c.reset d).checkPreamble.checkNames = behind d 0 := by
    have hnone : numbered (d.settledBefore 0) = [] := rfl
    simp [checkNames, checkPreamble, reset, tell, behind, stageFindings, Resolution.empty, hnone]
  have hend := foldl_checkStage hd (Nat.le_refl _)
  rw [List.take_length] at hend
  rw [check, hstart, hend]
  simp [report, behind, Document.check]

end Checker

/-! ### Calls -/

/-- The text that a call reads. -/
def Call.source? : Call → Option String
  | .parse source => some source
  | .check _ => none

theorem parse_snd (s : Session) (source : String) : (s.parse source).2 = Document.parse source := by
  rw [parse, s.reader.read_eq]
  cases Document.parse source <;> rfl

theorem escape_parse (s : Session) (source : String) :
    (s.parse source).1.escape = Document.escapeOf source := by
  rw [parse, s.reader.read_eq]
  cases Document.parse source <;> rfl

/-- A call is answered as by a new session. -/
theorem call_snd (s : Session) (c : Call) : (s.call c).2 = (({} : Session).call c).2 := by
  cases c with
  | parse source =>
    show Answer.document (s.parse source).2 = Answer.document (({} : Session).parse source).2
    rw [parse_snd, parse_snd]
  | check d => exact congrArg (fun checked => Answer.report checked.2) (s.checker.check_eq_new d)

theorem escape_call (s : Session) (c : Call) :
    (s.call c).1.escape = (c.source?.map Document.escapeOf).getD s.escape := by
  cases c with
  | parse source => exact s.escape_parse source
  | check d => rfl

theorem calls_snd (s : Session) (cs : List Call) :
    (s.calls cs).2 = cs.map fun c => (({} : Session).call c).2 := by
  induction cs generalizing s with
  | nil => rfl
  | cons c cs ih =>
    rw [List.map_cons, ← s.call_snd c, ← ih (s.call c).1]
    rfl

theorem escape_calls (s : Session) (cs : List Call) : (s.calls cs).1.escape =
    ((cs.filterMap Call.source?).getLast?.map Document.escapeOf).getD s.escape := by
  induction cs generalizing s with
  | nil => rfl
  | cons c cs ih =>
    show ((s.call c).1.calls cs).1.escape = _
    rw [ih, escape_call, List.filterMap_cons]
    cases c.source? with
    | none => rfl
    | some source =>
      rw [List.getLast?_cons]
      cases (cs.filterMap Call.source?).getLast? <;> rfl

/-- The answers of a session to some calls, one after the other, do not depend on what was called
before: not on the calls before the session was looked at, and not on one another. -/
structure Independent (s : Session) (cs : List Call) : Prop where
  /-- Every call is answered as by a new session. -/
  asNew : (s.calls cs).2 = cs.map fun c => (({} : Session).call c).2
  /-- A text is answered by what can be read of it. -/
  parsed : ∀ (n : Nat) (source : String), cs[n]? = some (.parse source) →
    (s.calls cs).2[n]? = some (.document (Document.parse source))
  /-- A document with stages in their order is answered by its check. -/
  checked : ∀ (n : Nat) (d : Document), cs[n]? = some (.check d) → d.Numbered →
    (s.calls cs).2[n]? = some (.report d.check)
  /-- The last text leaves its escape character behind, whether or not it could be read. -/
  escape : (s.calls cs).1.escape =
    ((cs.filterMap Call.source?).getLast?.map Document.escapeOf).getD s.escape

/-- Calls are answered alike in every session, also where calls between them failed. -/
theorem calls_independent (s : Session) (cs : List Call) : s.Independent cs where
  asNew := s.calls_snd cs
  parsed n source h := by
    rw [calls_snd, List.getElem?_map, h]
    exact congrArg (fun result => some (Answer.document result)) (parse_snd {} source)
  checked n d h hd := by
    rw [calls_snd, List.getElem?_map, h]
    exact congrArg (fun report => some (Answer.report report)) (Checker.check_eq hd {})
  escape := s.escape_calls cs

/-- The first text sets another escape character and cannot be read to its end. In the session that
it leaves, a text is read with a backslash, and its document is checked, as in a new one. -/
theorem calls_independent_after_failure :
    let s := (({} : Session).parse "# escape=\x60\nFROM a\nRUN $\x7bx\n").1
    (s.document.isNone ∧ s.escape = '\x60') ∧
      ∃ d, Document.parse "FROM a AS b\nFROM b\nENV x=\"1\\\"2\" y=$z\n" = .ok d ∧
        s.Independent [.parse "FROM a AS b\nFROM b\nENV x=\"1\\\"2\" y=$z\n", .check d] ∧
        d.escape = '\\' ∧ d.check.findings.map Check.Finding.issue = [.undeclared "z"] :=
  ⟨by decide +kernel, Document.exists_parsed (by decide +kernel) fun _ _ => calls_independent _ _⟩

end Session

end Dockerfile
