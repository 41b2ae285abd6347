import Dockerfile.Proofs.Lexing.Arrays
import Dockerfile.Proofs.Lowering.Added

/-!
# Commands as arrays

A command that is written as an array of strings is the list of these strings. This holds of every
instruction with a command (`CommandForm`), behind every text that ends at the end of a line, for
both escape characters and whatever the strings hold (`parse_encodeStrings`): the lexer takes the
array as one word, the line keeps it, and the reader of JSON gives the strings back. What `RUN`
comes to has the strings as its arguments, whatever the variables are (`parse_command_array`).
-/

namespace Dockerfile

open Json

namespace Instruction

theorem looksLikeArray_encodeStrings (ascii : Bool) (args : List String) :
    looksLikeArray (encodeStrings ascii args).toList := by
  have hinner : (Text.stripChars (encodeItems ascii args)).isEmpty ||
      (Text.stripChars (encodeItems ascii args)).head?.any fun c => c = '"' || c = '\'' := by
    cases args with
    | nil => rfl
    | cons s more =>
      rw [encodeItems, encodeString, List.cons_append, List.cons_append,
        Text.head?_stripChars rfl]
      simp
  have hlast : ('[' :: (encodeItems ascii args ++ [']'])).getLast? = some ']' :=
    List.getLast?_concat (l := '[' :: encodeItems ascii args)
  rw [toList_encodeStrings]
  simp [looksLikeArray, hlast, hinner]

/-- An array of strings is a list of arguments. -/
theorem commandOf_encodeStrings (ascii : Bool) (args : List String) :
    commandOf (encodeStrings ascii args) = .ok ⟨encodeStrings ascii args, .exec args⟩ := by
  unfold commandOf
  rw [looksLikeArray_encodeStrings, if_pos rfl, Reader.read_encodeStrings]
  dsimp only
  rw [Reader.strings?_map_str]

section

variable {text : String} (harray : Lexer.IsArray text)

include harray

theorem isFlag_array (p : Position) (n : Nat) : isFlag ⟨text, p, n⟩ = false := by
  obtain ⟨body, htext, -⟩ := harray
  rw [isFlag, htext]
  rfl

/-- The text of a line from an array to the end. -/
theorem textFrom_array (keyword lead word : String) (p q : Position) (words : List Word) :
    LogicalLine.textFrom ⟨keyword, p, words, lead ++ text⟩ ⟨word, q, lead.length⟩ = text := by
  obtain ⟨body, htext, -⟩ := harray
  have hlast : ('[' :: (body ++ [']'])).getLast? = some ']' :=
    List.getLast?_concat (l := '[' :: body)
  have hends : Text.stripChars ('[' :: (body ++ [']'])) = '[' :: (body ++ [']']) := by
    refine Text.stripChars_of_ends rfl fun d hd => ?_
    rw [hlast] at hd
    cases hd
    rfl
  rw [LogicalLine.textFrom, String.toList_append, ← String.length_toList, List.drop_left, htext,
    hends, ← htext, String.ofList_toList]

end

end Instruction

/-! ### Instructions with a command -/

/-- The instructions that hold a command. -/
inductive CommandForm where
  | run
  | cmd
  | entrypoint
  | shell
  | healthcheck
  deriving DecidableEq

namespace CommandForm

/-- The kind of the instruction. -/
def kind : CommandForm → Kind
  | run => .run
  | cmd => .cmd
  | entrypoint => .entrypoint
  | shell => .shell
  | healthcheck => .healthcheck

/-- What stands before the command, up to a space. -/
def opening : CommandForm → String
  | healthcheck => "HEALTHCHECK CMD"
  | form => form.kind.name

/-- What stands between the keyword and the command. -/
def lead : CommandForm → String
  | healthcheck => " CMD "
  | _ => " "

/-- The instruction with a command and without flags. -/
def body (command : Command) : CommandForm → Body
  | run => .run ⟨command, [], none, none⟩
  | cmd => .cmd command
  | entrypoint => .entrypoint command
  | shell => .shell command
  | healthcheck => .healthcheck ⟨some command, none, none, none, none, none⟩

/-- The words of the instruction, of which `w` is the command. -/
def words (q : Position) (w : Word) : CommandForm → List Word
  | healthcheck => [⟨"CMD", q, " ".length⟩, w]
  | _ => [w]

theorem opening_eq (form : CommandForm) : form.opening ++ " " = form.kind.name ++ form.lead := by
  cases form <;> decide

theorem kind_body_ne_base (form : CommandForm) (command : Command) :
    (form.body command).kind ≠ .base := by
  cases form <;> rintro ⟨⟩

end CommandForm

namespace Instruction

theorem readFlags_of_not_isFlag {escape : Char} {kind : Kind} {w : Word} (h : isFlag w = false)
    (allowed : List (String × FlagType)) (rest : List Word) :
    readFlags escape kind allowed (w :: rest) = .ok ([], w :: rest) := by
  rw [readFlags, h]
  rfl

variable {text : String} (harray : Lexer.IsArray text)

include harray

theorem readCommand_array (kind : Kind) (keyword lead word : String) (p q : Position)
    (words rest : List Word) :
    readCommand kind ⟨keyword, p, words, lead ++ text⟩ (⟨word, q, lead.length⟩ :: rest) =
      (commandOf text).mapError (⟨·, q⟩) := by
  rw [readCommand, textFrom_array harray]

theorem readRun_array (escape : Char) (keyword lead : String) (p q : Position) :
    readRun escape ⟨keyword, p, [⟨text, q, lead.length⟩], lead ++ text⟩ =
      (⟨·, [], none, none⟩) <$> (commandOf text).mapError (⟨·, q⟩) := by
  rw [readRun, readFlags_of_not_isFlag (isFlag_array harray q lead.length)]
  dsimp only [bind, Except.bind]
  rw [readCommand_array harray]
  cases commandOf text <;> rfl

theorem readHealthcheck_array (escape : Char) (keyword lead : String) (p q q' : Position)
    (n : Nat) :
    readHealthcheck escape ⟨keyword, p, [⟨"CMD", q, n⟩, ⟨text, q', lead.length⟩], lead ++ text⟩ =
      (⟨some ·, none, none, none, none, none⟩) <$> (commandOf text).mapError (⟨·, q'⟩) := by
  have hmode : isFlag ⟨"CMD", q, n⟩ = false := by
    simp only [isFlag]
    decide
  have hupper : Text.toUpper "CMD" = "CMD" := by decide +kernel
  rw [readHealthcheck, readFlags_of_not_isFlag hmode]
  dsimp only [bind, Except.bind]
  rw [hupper, readCommand_array harray]
  cases commandOf text <;> rfl

/-- What a line with an array comes to is what the array comes to. -/
theorem readBody_array (form : CommandForm) (escape : Char) (p q q' : Position) :
    readBody escape (form.lead ++ text) form.kind.name p
        (form.words q ⟨text, q', form.lead.length⟩) =
      (form.body ·) <$> (commandOf text).mapError (⟨·, q'⟩) := by
  cases form
  all_goals
    dsimp only [CommandForm.kind, CommandForm.lead, CommandForm.words]
    rw [readBody, Kind.ofKeyword?_name]
    dsimp only [readKind]
  case run =>
    rw [readRun_array harray]
    cases commandOf text <;> rfl
  case healthcheck =>
    rw [readHealthcheck_array harray]
    cases commandOf text <;> rfl
  all_goals
    rw [readCommand_array harray]
    rfl

end Instruction

/-! ### Lines -/

namespace Lexer

open LogicalLine

variable {e : Char} {text : String}

section

variable (he : Template.IsEscape e) (harray : IsArray text)

include he harray

/-- A space and an array at the end of a text. -/
theorem scanFrom_array {w : Words} (hw : w.finish = ⟨true, []⟩) (p : Position) : ∃ q,
    scanFrom ⟨.argument (.words w), e, p, ' ' :: text.toList⟩ =
      ⟨[⟨.whitespace, " ", p⟩, ⟨.string, text, p.after [' ']⟩, ⟨.eof, "", q⟩], none⟩ := by
  have hstops : Stops isBlank text.toList := by
    obtain ⟨body, htext, -⟩ := harray
    rw [htext]
    rintro c ⟨⟩
    rfl
  have hspace := steps_space he w p hstops
  rw [hw] at hspace
  have hsteps := steps_array he (w := ⟨true, []⟩) rfl rfl harray (p.after [' ']) []
  rw [List.append_nil] at hsteps
  rw [scanFrom_of_steps (hspace.trans hsteps), scanFrom_nil he rfl]
  exact ⟨_, rfl⟩

theorem ofScan_array (kind : Kind) (window : Bool) (p : Position) : ∃ q,
    Entry.ofScan (scanFrom ⟨.line window, e, p, kind.name.toList ++ ' ' :: text.toList⟩) =
      [.line ⟨kind.name, p, [⟨text, q, " ".length⟩], " " ++ text⟩] := by
  have hkeyword := steps_keyword he kind.isAlpha_of_mem_name kind.name_ne_nil window p text.toList
  obtain ⟨q, hscan⟩ := scanFrom_array he harray (w := ⟨true, []⟩) rfl (p.after kind.name.toList)
  refine ⟨(p.after kind.name.toList).after [' '], ?_⟩
  rw [scanFrom_of_steps hkeyword, hscan, String.ofList_toList]
  simp [Entry.ofScan, Entry.ofTokensFrom, Draft.start, Draft.space, Draft.piece, Draft.finish]

theorem ofScan_mode_array (kind : Kind) (window : Bool) (p : Position) : ∃ q q',
    Entry.ofScan (scanFrom ⟨.line window, e, p,
        kind.name.toList ++ ' ' :: 'C' :: 'M' :: 'D' :: ' ' :: text.toList⟩) =
      [.line ⟨kind.name, p, [⟨"CMD", q, " ".length⟩, ⟨text, q', " CMD ".length⟩],
        " CMD " ++ text⟩] := by
  have halpha : ∀ c ∈ ['C', 'M', 'D'], c.isAlpha := List.all_eq_true.1 (by decide)
  have hkeyword := steps_keyword he kind.isAlpha_of_mem_name kind.name_ne_nil window p
    ('C' :: 'M' :: 'D' :: ' ' :: text.toList)
  generalize p.after kind.name.toList = q at hkeyword
  have hspace := steps_space he ⟨true, []⟩ q
    (stops_letters halpha (by decide) (' ' :: text.toList))
  have hmode := steps_word he halpha (by decide) ⟨true, []⟩ (q.after [' ']) text.toList
  obtain ⟨q', hscan⟩ := scanFrom_array he harray (w := Words.extend ⟨true, []⟩ ['C', 'M', 'D']) rfl
    ((q.after [' ']).after ['C', 'M', 'D'])
  refine ⟨q.after [' '], ((q.after [' ']).after ['C', 'M', 'D']).after [' '], ?_⟩
  rw [scanFrom_of_steps (hkeyword.trans (hspace.trans hmode)), hscan, String.ofList_toList]
  simp [Entry.ofScan, Entry.ofTokensFrom, Draft.start, Draft.space, Draft.piece, Draft.finish]

/-- A command that is an array makes one line. -/
theorem ofScan_form_array (form : CommandForm) (window : Bool) (p : Position) : ∃ q q',
    Entry.ofScan (scanFrom ⟨.line window, e, p,
        form.kind.name.toList ++ (form.lead ++ text).toList⟩) =
      [.line ⟨form.kind.name, p, form.words q ⟨text, q', form.lead.length⟩,
        form.lead ++ text⟩] := by
  rw [String.toList_append]
  cases form with
  | run | cmd | entrypoint | shell => exact ⟨p, ofScan_array he harray _ window p⟩
  | healthcheck => exact ofScan_mode_array he harray .healthcheck window p

end

end Lexer

namespace Document

open Lexer Lower

/-- A text can go on with an array behind an instruction with a command, and what it comes to is
what the array comes to. -/
theorem parse_array {front : String} {d : Document} (h : parse front = .ok d)
    (hend : (Token.scan front).endsLine) (form : CommandForm) {text : String}
    (harray : IsArray text) :
    ∃ p q, parse (front ++ form.opening ++ " " ++ text) =
      match Instruction.commandOf text with
      | .error cause => .error (.ofLine ⟨cause, q⟩)
      | .ok command => .ok (d.add ⟨p, form.body command⟩) := by
  obtain ⟨a, ha⟩ : ∃ a, form.lead ++ text = " " ++ a := by
    cases form with
    | healthcheck =>
      refine ⟨"CMD " ++ text, ?_⟩
      rw [← String.append_assoc]
      rfl
    | _ => exact ⟨_, rfl⟩
  have htext : (form.lead ++ text).toList = ' ' :: a.toList := by
    rw [ha, String.toList_append]
    rfl
  have hline : '\n' ∉ a.toList := by
    have hlead : '\n' ∉ form.lead.toList := by cases form <;> decide
    intro hmem
    have hall : '\n' ∈ (form.lead ++ text).toList := by
      rw [htext]
      exact List.mem_cons_of_mem _ hmem
    rw [String.toList_append, List.mem_append] at hall
    exact hall.elim hlead harray.newline_notMem
  have hopening : front ++ form.opening ++ " " = front ++ form.kind.name ++ form.lead := by
    rw [String.append_assoc, form.opening_eq, String.append_assoc]
  rw [hopening, String.append_assoc, ha, ← String.append_assoc]
  obtain ⟨line, ⟨p, q, hread⟩, hparse⟩ := parse_append_line h hend hline
    (P := fun line => ∃ p q, Instruction.ofLine d.escape line =
      (fun command => ⟨p, form.body command⟩) <$>
        (Instruction.commandOf text).mapError (⟨·, q⟩)) fun window p => by
    obtain ⟨q, q', hentries⟩ :=
      ofScan_form_array (isEscape_of_ofEntries h) harray form window p
    rw [htext] at hentries
    refine ⟨_, hentries, p, q', ?_⟩
    rw [Instruction.ofLine, Instruction.readBody_array harray]
    cases Instruction.commandOf text <;> rfl
  refine ⟨p, q, ?_⟩
  rw [hparse, hread]
  cases Instruction.commandOf text with
  | error cause => rfl
  | ok command =>
    have hkind := form.kind_body_ne_base command
    exact congrArg Except.ok (ofInstructions_all_concat (i := ⟨p, form.body command⟩) h hkind)

/-- A command that is an array of strings can be put at the end of a text. -/
theorem parse_encodeStrings {front : String} {d : Document} (h : parse front = .ok d)
    (hend : (Token.scan front).endsLine) (form : CommandForm) (ascii : Bool) (args : List String) :
    ∃ p, parse (front ++ form.opening ++ " " ++ encodeStrings ascii args) =
      .ok (d.add ⟨p, form.body ⟨encodeStrings ascii args, .exec args⟩⟩) := by
  obtain ⟨p, q, hparse⟩ := parse_array h hend form (isArray_encodeStrings ascii args)
  rw [Instruction.commandOf_encodeStrings] at hparse
  exact ⟨p, hparse⟩

theorem harmless_exec (setting : Setting) (text : String) (args : List String) :
    Harmless setting (CommandForm.run.body ⟨text, .exec args⟩) :=
  ⟨rfl, fun _ _ _ => rfl⟩

/-- A list of strings that is written as an array behind a `RUN`, `CMD`, `ENTRYPOINT`, `SHELL` or
`HEALTHCHECK CMD` is read as that list. Behind a `RUN`, the document can still be lowered where it
could be before, and whatever it comes to for its last stage has an operation with the strings as
its arguments. -/
theorem parse_command_array {front : String} {d : Document} (h : parse front = .ok d)
    (hend : (Token.scan front).endsLine) (form : CommandForm) (ascii : Bool) (args : List String) :
    (Token.scan (front ++ form.opening ++ " " ++ encodeStrings ascii args)).fault = none ∧
    ∃ i, parse (front ++ form.opening ++ " " ++ encodeStrings ascii args) = .ok (d.add i) ∧
      i.body = form.body ⟨encodeStrings ascii args, .exec args⟩ ∧
      ∀ s, form = .run → d.stages.getLast? = some s → ∀ (job : Job) (r : Resolution),
        (∀ g, r.Backward → (d.lower job r).result = .ok g →
          ∃ g', ((d.add i).lower job r).result = .ok g') ∧
        ∀ g', target d job.target = .ok s.index → ((d.add i).lower job r).result = .ok g' →
          ∃ o ∈ g'.operations, ∃ x, o.id = ⟨s.index, s.instructions.length⟩ ∧
            o.task = .exec x ∧ x.args = args := by
  obtain ⟨p, hparse⟩ := parse_encodeStrings h hend form ascii args
  refine ⟨scan_fault_of_parse hparse, _, hparse, rfl, ?_⟩
  rintro s rfl hs job r
  obtain ⟨stages, hs⟩ := List.getLast?_eq_some_iff.1 hs
  constructor
  · intro g hr hg
    exact exists_lower_add (shaped_of_ofEntries h).numbered hr hs (harmless_exec _ _ _) hg
  · intro g' htarget hg'
    obtain ⟨o, ho, hid, t, -, htask⟩ :=
      exists_operation_add (shaped_of_ofEntries hparse) hs (by rintro ⟨⟩) htarget hg'
    exact ⟨o, ho, _, hid, (Option.some.inj htask).symm, rfl⟩

/-- Quotes, variables, escape characters of both kinds, brackets and characters beyond ASCII. -/
theorem parse_command_array_escaped : ∃ d i g' o x,
    parse "# escape=\x60\nARG a\nFROM b\nENV c=$a\n" = .ok d ∧
    encodeStrings true ["sh", "-c", "echo \"$c\" \x60date\x60 \\ [é] 😀\n"] =
      "[\"sh\", \"-c\", \"echo \\\"$c\\\" \x60date\x60 \\\\ [\\u00e9] \\ud83d\\ude00\\n\"]" ∧
    parse ("# escape=\x60\nARG a\nFROM b\nENV c=$a\n" ++ CommandForm.run.opening ++ " " ++
      encodeStrings true ["sh", "-c", "echo \"$c\" \x60date\x60 \\ [é] 😀\n"]) = .ok (d.add i) ∧
    ((d.add i).lower ⟨[("a", "e")], none, none⟩ .empty).result = .ok g' ∧ o ∈ g'.operations ∧
    o.id = ⟨0, 1⟩ ∧ o.task = .exec x ∧
    x.args = ["sh", "-c", "echo \"$c\" \x60date\x60 \\ [é] 😀\n"] := by
  obtain ⟨d, g, hd, hg, hlast, hend⟩ := exists_lowered_with
    "# escape=\x60\nARG a\nFROM b\nENV c=$a\n" ⟨[("a", "e")], none, none⟩ (fun _ => .empty)
    (fun d _ => d.stages.getLast? = some ⟨0, ⟨3, 1⟩, ⟨"b", none, none⟩,
      [⟨⟨4, 1⟩, .env [⟨"c", "$a"⟩]⟩]⟩ ∧
      (Token.scan "# escape=\x60\nARG a\nFROM b\nENV c=$a\n").endsLine) (by decide +kernel)
  have htarget : target d none = .ok 0 := by rw [target, hlast]
  obtain ⟨-, i, hparse, -, hrun⟩ := parse_command_array hd hend .run true
    ["sh", "-c", "echo \"$c\" \x60date\x60 \\ [é] 😀\n"]
  obtain ⟨hlower, hargs⟩ := hrun _ rfl hlast ⟨[("a", "e")], none, none⟩ .empty
  obtain ⟨g', hg'⟩ := hlower g Resolution.backward_empty hg
  obtain ⟨o, ho, x, hid, htask, hx⟩ := hargs g' htarget hg'
  exact ⟨d, i, g', o, x, hd, by decide +kernel, hparse, hg', ho, hid, htask, hx⟩

end Document

end Dockerfile
