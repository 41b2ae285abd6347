import Dockerfile.Proofs.Checking.Places
import Dockerfile.Proofs.CommandArrays
import Dockerfile.Proofs.Lexing.Drafts

/-!
# How the mode of a health check is spelled

The mode of a health check is read in capitals, however it is spelled (`ofLine_behind`). The lexer
however lets arrays start behind `CMD` and not behind `cmd` (`Spelling`). So the two spellings are
read alike where no array starts (`parse_eq_of_not_startsArray`), and else their outcomes agree just
where the lexer finds the same kind of fault and the text behind the mode is the same command, or
none for either (`outcome_eq_iff`).
Within a line the text is the same (`outcome_eq_iff_faultKind`), and the faults need not be: an
escape that an array may not hold is refused behind `CMD` only (`outcome_refused_iff`).
-/

namespace Dockerfile

open Text (feedsOfPairs)
open LogicalLine (Draft)

/-! ### Reading the mode -/

namespace Instruction

/-- How the mode of a health check with a command can be spelled, and whether an array may start
behind it. -/
inductive Spelling : String → Bool → Prop where
  | upper : Spelling "CMD" true
  | lower : Spelling "cmd" false

variable {mode : String} {allow : Bool} {line : LogicalLine}

/-- A text is no command only for an integer of too many digits. -/
theorem exists_overlong {text : String} {cause : Cause} (h : commandOf text = .error cause) :
    ∃ digits, cause = .overlong digits := by
  unfold commandOf at h
  split at h
  · split at h
    · cases h
      exact ⟨_, rfl⟩
    · cases h
    · split at h <;> cases h
  · cases h

/-- The command of a health check is the text behind its mode, however the mode is spelled. -/
theorem ofLine_behind (hmode : Spelling mode allow) (hkeyword : line.keyword = "HEALTHCHECK")
    (escape : Char) (q : Position) (n : Nat) (lead : String) :
    ofLine escape (line.behind ⟨mode, q, n⟩ lead) =
      match line.words with
      | [] => .error ⟨.missing .healthcheck "a command", line.position⟩
      | w :: _ => (fun command => ⟨line.position, .healthcheck
          ⟨some command, none, none, none, none, none⟩⟩) <$>
        (commandOf (line.rest line.words)).mapError (⟨·, w.position⟩) := by
  have hflag : isFlag ⟨mode, q, n⟩ = false := by
    cases hmode <;> simp only [isFlag] <;> decide
  have hupper : Text.toUpper mode = "CMD" := by
    cases hmode <;> decide +kernel
  have hkind : Kind.ofKeyword? "HEALTHCHECK" = some .healthcheck :=
    Kind.ofKeyword?_name .healthcheck
  have htext := line.behindFirst_behind ⟨mode, q, n⟩ lead
  rw [ofLine, LogicalLine.behind, readBody, hkeyword, hkind]
  dsimp only [readKind]
  rw [readHealthcheck, readFlags_of_not_isFlag hflag]
  dsimp only [bind, Except.bind]
  rw [hupper]
  cases hwords : line.words with
  | nil => rfl
  | cons w words =>
    rw [hwords] at htext
    rw [← htext, LogicalLine.behindFirst, LogicalLine.behind, hkeyword, hwords, List.map_cons]
    dsimp only [List.tail_cons, LogicalLine.rest, readCommand]
    cases commandOf (LogicalLine.textFrom _ _) <;> rfl

end Instruction

/-- The place behind a text. -/
def Position.endOf (text : String) : Position := .after .start (feedsOfPairs text.toList)

/-- Is a fault found by the lexer? -/
def SourceFault.isLexical : SourceFault → Bool
  | lexical _ => true
  | _ => false

/-- The logical line of an entry. -/
def Entry.line? : Entry → Option LogicalLine
  | .line l => some l
  | _ => none

namespace Document

open Lexer LogicalLine
open Instruction (Spelling)

variable {mode mode' : String} {allow allow' : Bool} {d : Draft}

/-- However the mode is spelled, the same tokens behind it make the same instructions. -/
theorem instructions_behind (hmode : Spelling mode allow) (hmode' : Spelling mode' allow')
    (hkeyword : d.keyword = "HEALTHCHECK") (hd : d.Grown) (escape : Char) (fault : Option Fault)
    (tokens : List Token) (q q' : Position) (n n' : Nat) (lead lead' : String) :
    instructions escape (Entry.ofTokensFrom fault (some (d.behind ⟨mode, q, n⟩ lead)) tokens) =
      instructions escape
        (Entry.ofTokensFrom fault (some (d.behind ⟨mode', q', n'⟩ lead')) tokens) := by
  have hline (d : Draft) (hkeyword : d.keyword = "HEALTHCHECK") :
      Instruction.ofLine escape (d.behind ⟨mode, q, n⟩ lead).finish =
        Instruction.ofLine escape (d.behind ⟨mode', q', n'⟩ lead').finish := by
    rw [Draft.finish_behind, Draft.finish_behind, Instruction.ofLine_behind hmode hkeyword,
      Instruction.ofLine_behind hmode' hkeyword]
  induction tokens generalizing d with
  | nil =>
    cases fault with
    | none => simp only [Entry.ofTokensFrom, instructions, hline d hkeyword]
    | some fault => rfl
  | cons t tokens ih =>
    obtain ⟨kind, text, position⟩ := t
    cases kind with
    | comment | continuation => exact ih hkeyword hd
    | instruction => rfl
    | newline | eof => simp only [Entry.ofTokensFrom, instructions, hline d hkeyword]
    | whitespace =>
      simp only [Entry.ofTokensFrom, Draft.space_behind]
      exact ih hkeyword (.space text)
    | string | reference =>
      simp only [Entry.ofTokensFrom, Draft.piece_behind _ _ hd]
      exact ih hkeyword (.piece _)

/-- What is told apart of the ways in which a text can be read: the document, or who finds the fault
and its kind. -/
def outcome (source : String) : Except (Bool × Option String) Document :=
  (parse source).mapError fun fault => (fault.isLexical, fault.diagnostic.kind)

/-- The last logical line of a text. -/
def lastLine? (source : String) : Option LogicalLine :=
  ((Entry.ofScan (Token.scan source)).filterMap Entry.line?).getLast?

/-- The command that a line has behind its first word, if that is one. -/
def commandBehind? (line : LogicalLine) : Option Command :=
  (Instruction.commandOf line.behindFirst).toOption

/-! ### Health checks at the end of a text -/

/-- A text with a health check behind it. -/
def appendCheck (front mode a : String) : String := front ++ ("HEALTHCHECK " ++ mode ++ " " ++ a)

/-- The state behind the mode of a health check that starts at a place. -/
def checkState (e : Char) (p : Position) (a : String) (allow : Bool) : State :=
  ⟨.argument (.words ⟨allow, []⟩), e, p.after "HEALTHCHECK CMD".toList,
    ' ' :: feedsOfPairs a.toList⟩

/-- The line of a health check behind its keyword. -/
def checkDraft (p : Position) : Draft := .start ⟨.instruction, "HEALTHCHECK", p⟩

theorem isAlpha_of_mem_mode (hmode : Spelling mode allow) : ∀ c ∈ mode.toList, c.isAlpha := by
  have hall : mode.toList.all Char.isAlpha := by cases hmode <;> decide
  exact List.all_eq_true.1 hall

/-- A health check is read up to its mode. What follows is read with or without arrays, as the mode
is spelled. -/
theorem scanFrom_check {e : Char} (he : Template.IsEscape e) (hmode : Spelling mode allow)
    (window : Bool) (p : Position) (a : String) : ∃ q q',
    scanFrom ⟨.line window, e, p,
        feedsOfPairs ("HEALTHCHECK " ++ mode ++ " " ++ a).toList⟩ =
      let scan := scanFrom (checkState e p a allow)
      ⟨[⟨.instruction, "HEALTHCHECK", p⟩, ⟨.whitespace, " ", q⟩, ⟨.string, mode, q'⟩] ++
        scan.tokens, scan.fault⟩ := by
  have halpha := isAlpha_of_mem_mode hmode
  have hne : mode.toList ≠ [] := by cases hmode <;> decide
  have htext : ("HEALTHCHECK " ++ mode ++ " " ++ a).toList =
      Kind.healthcheck.name.toList ++ ' ' :: (mode.toList ++ ' ' :: a.toList) := by
    simp [Kind.name]
  rw [htext, feedsOfPairs_argument Kind.healthcheck.isAlpha_of_mem_name,
    feedsOfPairs_argument halpha]
  have hkeyword := steps_keyword he Kind.healthcheck.isAlpha_of_mem_name
    Kind.healthcheck.name_ne_nil window p (mode.toList ++ ' ' :: feedsOfPairs a.toList)
  have hspace := steps_space he ⟨true, []⟩ (p.after Kind.healthcheck.name.toList)
    (stops_letters halpha hne (' ' :: feedsOfPairs a.toList))
  have hword := steps_word he halpha hne ⟨true, []⟩
    ((p.after Kind.healthcheck.name.toList).after [' ']) (feedsOfPairs a.toList)
  have hplace : ((p.after Kind.healthcheck.name.toList).after [' ']).after mode.toList =
      p.after "HEALTHCHECK CMD".toList := by
    rw [← Position.after_append, ← Position.after_append]
    cases hmode with
    | upper => rfl
    | lower =>
      rw [after_of_notMem p (by decide), after_of_notMem p (by decide)]
      rfl
  have hfinish : (Words.extend ⟨true, []⟩ mode.toList).finish = Words.finish ⟨allow, []⟩ := by
    cases hmode <;> rfl
  rw [scanFrom_of_steps (hkeyword.trans (hspace.trans hword)), hplace,
    scanFrom_space he hfinish, String.ofList_toList, String.ofList_toList]
  exact ⟨_, _, rfl⟩

/-- The entries of a health check: its line stands behind the mode. -/
theorem ofScan_check {e : Char} (he : Template.IsEscape e) (hmode : Spelling mode allow)
    (window : Bool) (p : Position) (a : String) : ∃ q,
    Entry.ofScan (scanFrom ⟨.line window, e, p,
        feedsOfPairs ("HEALTHCHECK " ++ mode ++ " " ++ a).toList⟩) =
      let scan := scanFrom (checkState e p a allow)
      Entry.ofTokensFrom scan.fault
        (some ((checkDraft p).behind ⟨mode, q, " ".length⟩ (" " ++ mode))) scan.tokens := by
  obtain ⟨q', q, hscan⟩ := scanFrom_check he hmode window p a
  obtain ⟨blanks, rest, -, -, -, hsteps⟩ := exists_steps_space he (feedsOfPairs a.toList)
  have hspace := scanFrom_of_steps (hsteps ⟨allow, []⟩
    (p.after "HEALTHCHECK CMD".toList))
  have hdraft : (((checkDraft p).space " ").piece ⟨.string, mode, q⟩).space (String.ofList blanks) =
      ((checkDraft p).behind ⟨mode, q, " ".length⟩ (" " ++ mode)).space (String.ofList blanks) := by
    simp [checkDraft, Draft.start, Draft.space, Draft.piece, Draft.behind]
  refine ⟨q, ?_⟩
  rw [hscan]
  dsimp only [checkState]
  rw [hspace]
  exact congrArg (fun d => Entry.ofTokensFrom _ (some d) _) hdraft

section Checks

variable {front : String} {doc : Document} {a : String}

/-- The tokens behind the mode of a health check. -/
def checkScan (front : String) (doc : Document) (a : String) (allow : Bool) : Scan :=
  scanFrom (checkState doc.escape (.endOf front) a allow)

/-- The line of a health check without its mode. -/
def checkLine (front : String) (doc : Document) (a : String) (allow : Bool) : LogicalLine :=
  ((checkScan front doc a allow).tokens.foldl Draft.add
    (checkDraft (.endOf front))).finish

theorem head?_check (mode a : String) :
    ("HEALTHCHECK " ++ mode ++ " " ++ a).toList.head?.any isSolid := by
  simp [isSolid, isBlank]

/-- The draft behind the mode of a health check. -/
def modeDraft (front mode : String) (q : Position) : Draft :=
  (checkDraft (.endOf front)).behind ⟨mode, q, " ".length⟩ (" " ++ mode)

theorem parse_appendCheck (h : parse front = .ok doc) (hend : (Token.scan front).endsLine)
    (hmode : Spelling mode allow) (a : String) : ∃ q, parse (appendCheck front mode a) =
      (fun is => ofInstructions doc.directives doc.escape (doc.all ++ is)) <$>
        let scan := checkScan front doc a allow
        instructions doc.escape
          (Entry.ofTokensFrom scan.fault (some (modeDraft front mode q)) scan.tokens) := by
  obtain ⟨window, hparse⟩ := parse_append h hend (head?_check mode a)
  obtain ⟨q, hentries⟩ := ofScan_check (isEscape_of_ofEntries h) hmode window _ a
  rw [hentries] at hparse
  exact ⟨q, hparse⟩

/-- What the lexer makes of a text with a health check behind it. -/
theorem scan_appendCheck (h : parse front = .ok doc) (hend : (Token.scan front).endsLine)
    (hmode : Spelling mode allow) (a : String) :
    let scan := checkScan front doc a allow
    (Token.scan (appendCheck front mode a)).fault = scan.fault ∧
      (Token.scan (appendCheck front mode a)).lineEnds =
        (Token.scan front).lineEnds + scan.lineEnds ∧
      ∃ q, Entry.ofScan (Token.scan (appendCheck front mode a)) =
        Entry.ofScan (Token.scan front) ++
          Entry.ofTokensFrom scan.fault (some (modeDraft front mode q)) scan.tokens := by
  have he := isEscape_of_ofEntries h
  obtain ⟨window, tokens, entries, hfeeds, hold, hnew⟩ := exists_scan_append h hend
  obtain ⟨-, hscan⟩ := hnew _ (head?_check mode a)
  obtain ⟨q, q', hcheck⟩ := scanFrom_check he hmode window _ a
  obtain ⟨q'', hentries⟩ := ofScan_check he hmode window _ a
  refine ⟨?_, ?_, q'', ?_⟩
  · rw [appendCheck, hscan, hcheck]
    rfl
  · rw [appendCheck, hscan, hcheck, hold]
    simp [Scan.lineEnds, checkScan, Position.endOf]
  · rw [appendCheck, hscan, Entry.ofScan, hfeeds, hold, Entry.ofScan, hfeeds]
    exact congrArg₂ (· ++ ·) (List.append_nil entries).symm hentries

/-- The entries of a health check that is read to the end of the text. -/
theorem ofTokensFrom_checkScan (h : parse front = .ok doc) {allow : Bool}
    (hline : (checkScan front doc a allow).lineEnds = 0) (mode : String) (q : Position) :
    Entry.ofTokensFrom (checkScan front doc a allow).fault (some (modeDraft front mode q))
        (checkScan front doc a allow).tokens =
      match (checkScan front doc a allow).fault with
      | some fault => [.broken fault]
      | none =>
        [.line ((checkLine front doc a allow).behind ⟨mode, q, " ".length⟩ (" " ++ mode))] := by
  have hnewline : ∀ x ∈ (checkScan front doc a allow).tokens, x.kind ≠ .newline := by
    simpa [Scan.lineEnds] using hline
  have hgrown (p : Position) : (checkDraft p).Grown := by rintro ⟨⟩
  rw [checkScan, ofTokensFrom_scanFrom (isEscape_of_ofEntries h) rfl hnewline, ← checkScan,
    lastEntry, modeDraft, Draft.foldl_add_behind _ _ (hgrown _), Draft.finish_behind]
  cases (checkScan front doc a allow).fault with
  | none | some => rfl

/-- The document with a health check behind it. -/
def addCheck (front : String) (doc : Document) (command : Command) : Document :=
  ofInstructions doc.directives doc.escape (doc.all ++
    [⟨.endOf front, .healthcheck ⟨some command, none, none, none, none, none⟩⟩])

/-- How a text with a health check behind it is read, if the health check is read to the end of the
text. -/
theorem outcome_appendCheck (h : parse front = .ok doc) (hend : (Token.scan front).endsLine)
    (hmode : Spelling mode allow)
    (hline : (checkScan front doc a allow).lineEnds = 0) :
    let line := checkLine front doc a allow
    outcome (appendCheck front mode a) =
      match (checkScan front doc a allow).fault with
      | some fault => .error (true, some fault.cause.kind)
      | none =>
        if line.words.isEmpty then .error (false, some "missing-argument")
        else match (Instruction.commandOf (line.rest line.words)).toOption with
          | some command => .ok (addCheck front doc command)
          | none => .error (false, none) := by
  obtain ⟨q, hparse⟩ := parse_appendCheck h hend hmode a
  have hkeyword := (checkDraft (.endOf front)).keyword_foldl_add
    (checkScan front doc a allow).tokens
  dsimp only at hparse ⊢
  rw [outcome, hparse, ofTokensFrom_checkScan h hline mode q]
  cases (checkScan front doc a allow).fault with
  | some fault => rfl
  | none =>
    dsimp only [instructions]
    rw [Instruction.ofLine_behind hmode hkeyword.1]
    have hposition : (checkLine front doc a allow).position = .endOf front := hkeyword.2
    rw [hposition]
    cases (checkLine front doc a allow).words with
    | nil => rfl
    | cons w words =>
      dsimp only [List.isEmpty_cons]
      cases hcommand : Instruction.commandOf
          ((checkLine front doc a allow).rest (w :: words)) with
      | ok command => rfl
      | error cause =>
        obtain ⟨digits, rfl⟩ := Instruction.exists_overlong hcommand
        rfl

/-- The last line of a text with a health check behind it, if the health check is read to the end of
the text. -/
theorem lastLine?_appendCheck (h : parse front = .ok doc) (hend : (Token.scan front).endsLine)
    (hmode : Spelling mode allow)
    (hline : (checkScan front doc a allow).lineEnds = 0) :
    let line := checkLine front doc a allow
    (lastLine? (appendCheck front mode a)).map commandBehind? =
      match (checkScan front doc a allow).fault with
      | some _ => (lastLine? front).map commandBehind?
      | none => some (Instruction.commandOf (line.rest line.words)).toOption := by
  obtain ⟨-, -, q, hentries⟩ := scan_appendCheck h hend hmode a
  dsimp only at hentries ⊢
  rw [lastLine?, hentries, ofTokensFrom_checkScan h hline mode q, List.filterMap_append,
    List.getLast?_append]
  cases (checkScan front doc a allow).fault with
  | some fault => rfl
  | none =>
    exact congrArg (fun text => some (Instruction.commandOf text).toOption)
      (behindFirst_behind _ _ _)

/-- Where a bracket is read without a fault, there is a word. -/
theorem words_isEmpty_of_bracket {s : State} {tokens : List Token} {e : Char}
    (he : Template.IsEscape e) {w : Words} {q : Position} {body : List Char}
    (hsteps : Steps s tokens ⟨.argument (.words w), e, q, '[' :: body⟩)
    (hfault : (scanFrom s).fault = none) (d : Draft) :
    ((scanFrom s).tokens.foldl Draft.add d).finish.words.isEmpty = false := by
  have hwhole : continues e ('[' :: body) = false := by
    rw [continues, continuation?_of_ne (ne_escape he rfl)]
    rfl
  rw [scanFrom_of_steps hsteps] at hfault ⊢
  obtain ⟨x, more, htokens, hx⟩ := exists_wordPiece he rfl (by decide) hwhole hfault
  rw [htokens, List.foldl_append, List.foldl_cons, Draft.add_of_isWordPiece _ hx]
  have hfirst := List.getLast?_eq_some_getLast
    (Draft.words_piece_ne_nil (tokens.foldl Draft.add d) x)
  obtain ⟨v, hv, -⟩ := Draft.exists_getLast?_foldl_add hfirst more
  rw [List.isEmpty_eq_false_iff, Draft.finish, Ne, List.reverse_eq_nil_iff]
  intro hnil
  rw [hnil] at hv
  cases hv

/-- Whether arrays may start plays no part in whether there is a command. -/
theorem words_checkLine_isEmpty (h : parse front = .ok doc)
    (hfault : ∀ allow, (checkScan front doc a allow).fault = none) :
    (checkLine front doc a true).words.isEmpty = (checkLine front doc a false).words.isEmpty := by
  have he := isEscape_of_ofEntries h
  generalize hp : Position.endOf front = p
  have hbar : (checkState doc.escape p a true).bar = checkState doc.escape p a false := rfl
  by_cases hreach : ∃ body, (checkState doc.escape p a true).ReachesArray body
  · -- Both lines go on with a word at the bracket where they part.
    obtain ⟨body, tokens, ⟨_, e, q, _⟩, hsteps, hbarred, -, rfl, rfl⟩ := hreach
    have he' : Template.IsEscape e := hsteps.isEscape he
    subst hp
    have hupper : (checkLine front doc a true).words.isEmpty = false :=
      words_isEmpty_of_bracket he' hsteps (hfault true) _
    have hlower : (checkLine front doc a false).words.isEmpty = false :=
      words_isEmpty_of_bracket he' hbarred (hfault false) _
    rw [hupper, hlower]
  · have hsame : checkScan front doc a false = checkScan front doc a true := by
      rw [checkScan, checkScan, hp, ← hbar]
      exact scanFrom_bar he rfl (not_exists.1 hreach)
    rw [checkLine, checkLine, hsame]

/-- Within a line without joints, the command of a health check is the same text whether or not
arrays may start. -/
theorem exists_rest_checkLine (h : parse front = .ok doc) (hline : '\n' ∉ a.toList)
    (hjoins : joinsLines doc.escape a.toList = false) : ∃ text, ∀ allow,
      (checkScan front doc a allow).fault = none →
        (checkLine front doc a allow).rest (checkLine front doc a allow).words = text := by
  have he := isEscape_of_ofEntries h
  have hfeeds := feedsOfPairs_of_notMem hline
  obtain ⟨blanks, rest, hsplit, -, hstops, hsteps⟩ := exists_steps_space he a.toList
  refine ⟨String.ofList (Text.stripChars rest), fun allow hfault => ?_⟩
  generalize hp : Position.endOf front = p
  have hstate : checkState doc.escape p a allow = ⟨.argument (.words ⟨allow, []⟩), doc.escape,
      p.after "HEALTHCHECK CMD".toList, ' ' :: a.toList⟩ := by
    rw [checkState, hfeeds]
  have hspace : ' ' ≠ doc.escape := ne_escape he rfl
  have hplain : '\n' ∉ ' ' :: a.toList := by simp [hline]
  have hwhole : joinsLines doc.escape (' ' :: a.toList) = false := by
    simp [joinsLines, hjoins, continues, continuation?_of_ne hspace]
  rw [checkScan, hp, hstate] at hfault
  have hraw := raw_scanFrom he rfl hplain hwhole hfault (checkDraft p)
  have hscan := scanFrom_of_steps (hsteps ⟨allow, []⟩ (p.after "HEALTHCHECK CMD".toList))
  rw [checkLine, checkScan, hp, hstate]
  cases rest with
  | nil =>
    rw [hscan, scanFrom_nil he rfl]
    rfl
  | cons c cs =>
    rw [hsplit] at hplain hwhole
    have hc : c ≠ '\n' := fun hc => hplain (hc ▸ by simp)
    rw [hscan] at hfault
    obtain ⟨x, more, htokens, hx⟩ := exists_wordPiece he (hstops c rfl) hc
      (continues_of_joinsLines (joinsLines_append hwhole)) hfault
    -- The first word starts behind the blanks, and its place is kept.
    have hfirst : (((checkDraft p).space (String.ofList blanks)).piece x).words.getLast? =
      some ⟨x.text, x.position, ("" ++ String.ofList blanks).length⟩ := rfl
    obtain ⟨w, hw, hoffset⟩ := Draft.exists_getLast?_foldl_add hfirst more
    rw [← Draft.add_of_isWordPiece _ hx] at hw
    have hall : (scanFrom ⟨.argument (.words ⟨allow, []⟩), doc.escape,
        p.after "HEALTHCHECK CMD".toList, ' ' :: a.toList⟩).tokens.foldl Draft.add (checkDraft p) =
      more.foldl Draft.add (((checkDraft p).space (String.ofList blanks)).add x) := by
      rw [hscan, htokens]
      rfl
    rw [hall] at hraw ⊢
    rw [Draft.rest_finish hw, hraw, hoffset]
    simp [hsplit, checkDraft, Draft.start]

theorem addCheck_inj {command command' : Command} :
    addCheck front doc command = addCheck front doc command' ↔ command = command' := by
  refine ⟨fun h => ?_, fun h => h ▸ rfl⟩
  have hall := congrArg all h
  rw [addCheck, addCheck, all_ofInstructions, all_ofInstructions,
    List.append_cancel_left_eq] at hall
  simpa using hall

/-- A health check that is read to the end of the text has the same outcome for both spellings of
its mode if and only if the lexer finds the same kind of fault and the same command, or none, stands
behind the mode. -/
theorem outcome_eq_iff (h : parse front = .ok doc) (hend : (Token.scan front).endsLine)
    (hline : ∀ allow, (checkScan front doc a allow).lineEnds = 0) :
    outcome (appendCheck front "CMD" a) = outcome (appendCheck front "cmd" a) ↔
      (Token.scan (appendCheck front "CMD" a)).faultKind =
        (Token.scan (appendCheck front "cmd" a)).faultKind ∧
      (lastLine? (appendCheck front "CMD" a)).map commandBehind? =
        (lastLine? (appendCheck front "cmd" a)).map commandBehind? := by
  rw [outcome_appendCheck h hend .upper (hline _), outcome_appendCheck h hend .lower (hline _),
    lastLine?_appendCheck h hend .upper (hline _), lastLine?_appendCheck h hend .lower (hline _),
    Scan.faultKind, Scan.faultKind, (scan_appendCheck h hend .upper a).1,
    (scan_appendCheck h hend .lower a).1]
  cases hfault : (checkScan front doc a true).fault with
  | some fault =>
    cases (checkScan front doc a false).fault with
    | some fault' => simp
    | none =>
      dsimp only
      repeat' split
      all_goals simp
  | none =>
    cases hfault' : (checkScan front doc a false).fault with
    | some fault' =>
      dsimp only
      repeat' split
      all_goals simp
    | none =>
      have hnone (allow : Bool) : (checkScan front doc a allow).fault = none := by
        cases allow with
        | true => exact hfault
        | false => exact hfault'
      have hempty := words_checkLine_isEmpty h hnone
      dsimp only
      cases hwords : (checkLine front doc a true).words.isEmpty with
      | true =>
        have hwords' := hempty.symm.trans hwords
        rw [List.isEmpty_iff] at hwords hwords'
        simp [hwords, hwords', rest]
      | false =>
        rw [← hempty, hwords]
        repeat' split
        all_goals simp_all [addCheck_inj]

/-- Where no array starts, both spellings are read alike. -/
theorem parse_eq_of_not_startsArray (h : parse front = .ok doc)
    (hend : (Token.scan front).endsLine)
    (hno : ∀ body, ¬ StartsArray doc.escape (' ' :: feedsOfPairs a.toList) body) :
    parse (appendCheck front "CMD" a) = parse (appendCheck front "cmd" a) := by
  have he := isEscape_of_ofEntries h
  have hsame : checkScan front doc a false = checkScan front doc a true := by
    refine scanFrom_bar (s := checkState doc.escape _ a true) he rfl ?_
    rintro body ⟨tokens, ⟨_, e, q, _⟩, hsteps, -, hline, rfl, rfl⟩
    obtain rfl : e = doc.escape := (hsteps.isInside he rfl hline).1
    exact hno body ((startsArray_iff he).2 ⟨_, tokens, q, hline, hsteps⟩)
  obtain ⟨q, hparse⟩ := parse_appendCheck h hend .upper a
  obtain ⟨q', hparse'⟩ := parse_appendCheck h hend .lower a
  rw [hparse, hparse', hsame]
  exact congrArg _ (instructions_behind .upper .lower rfl (by rintro ⟨⟩) _ _ _ _ _ _ _ _ _)

theorem lineEnds_checkScan (h : parse front = .ok doc) (hline : '\n' ∉ a.toList) (allow : Bool) :
    (checkScan front doc a allow).lineEnds = 0 := by
  have hplain : '\n' ∉ (checkState doc.escape (Position.endOf front) a allow).rest := by
    simp [checkState, feedsOfPairs_of_notMem hline, hline]
  rw [checkScan, Scan.lineEnds, List.countP_eq_zero]
  obtain ⟨tokens, t, hsteps, ⟨token, hfinished, hscan⟩ | ⟨fault, -, hscan⟩⟩ := exists_steps
    (checkState doc.escape (Position.endOf front) a allow)
  all_goals
    obtain ⟨-, -, hnewline⟩ := hsteps.isPlain (.inl rfl) (isEscape_of_ofEntries h) hplain
    rw [hscan]
  · obtain ⟨-, rfl⟩ := step_finished hfinished
    simpa [or_imp, forall_and] using hnewline
  · simpa using hnewline

/-- Within a line without joints, only the faults of the lexer can tell the spellings apart. -/
theorem outcome_eq_iff_faultKind (h : parse front = .ok doc) (hend : (Token.scan front).endsLine)
    (hline : '\n' ∉ a.toList) (hjoins : joinsLines doc.escape a.toList = false) :
    outcome (appendCheck front "CMD" a) = outcome (appendCheck front "cmd" a) ↔
      (Token.scan (appendCheck front "CMD" a)).faultKind =
        (Token.scan (appendCheck front "cmd" a)).faultKind := by
  have hone := lineEnds_checkScan (a := a) h hline
  rw [outcome_eq_iff h hend hone, and_iff_left_iff_imp]
  intro hkinds
  obtain ⟨text, htext⟩ := exists_rest_checkLine h hline hjoins
  rw [Scan.faultKind, Scan.faultKind, (scan_appendCheck h hend .upper a).1,
    (scan_appendCheck h hend .lower a).1] at hkinds
  rw [lastLine?_appendCheck h hend .upper (hone _), lastLine?_appendCheck h hend .lower (hone _)]
  cases hfault : (checkScan front doc a true).fault with
  | some fault =>
    cases hfault' : (checkScan front doc a false).fault with
    | some fault' => rfl
    | none =>
      rw [hfault, hfault'] at hkinds
      cases hkinds
  | none =>
    cases hfault' : (checkScan front doc a false).fault with
    | some fault' =>
      rw [hfault, hfault'] at hkinds
      cases hkinds
    | none =>
      dsimp only
      rw [htext _ hfault, htext _ hfault']

/-- Within a line, an escape is refused just behind the mode in capitals, in a string of an array. -/
theorem outcome_refused_iff (h : parse front = .ok doc) (hend : (Token.scan front).endsLine)
    (hmode : Spelling mode allow) (hline : '\n' ∉ a.toList) :
    outcome (appendCheck front mode a) = .error (true, some "invalid-escape") ↔
      allow ∧ ∃ body, StartsArray doc.escape (' ' :: a.toList) body ∧
        MisescapedIn doc.escape 1 body := by
  have he := isEscape_of_ofEntries h
  have hplain : '\n' ∉ ' ' :: a.toList := by simp [hline]
  have hscan : outcome (appendCheck front mode a) = .error (true, some "invalid-escape") ↔
      ∃ fault, (checkScan front doc a allow).fault = some fault ∧
        fault.cause.kind = "invalid-escape" := by
    rw [outcome_appendCheck h hend hmode (lineEnds_checkScan h hline allow)]
    cases (checkScan front doc a allow).fault with
    | some fault => simp
    | none =>
      dsimp only
      repeat' split
      all_goals simp
  rw [hscan, checkScan, checkState, feedsOfPairs_of_notMem hline]
  cases allow with
  | true => simpa using scanFrom_refuses_iff he hplain
  | false => simpa using not_refused_of_bar he rfl rfl hplain

/-- A health check whose mode is spelled `CMD` or `cmd`, behind a text that ends at the end of a
line.

Where no array starts behind the mode, both are read alike. Where both stay on one logical line,
they have the same outcome if and only if the lexer finds the same kind of fault, if any, and what
stands behind the mode is the same command, its text included, or for both an array with an integer
of too many digits. Within a line without joints the text is the same, so there only the faults of
the lexer can differ. They do where a string of an array holds a backslash that is no
escape: within a line, this is refused behind `CMD` and never behind `cmd`. -/
theorem outcome_spelling (h : parse front = .ok doc) (hend : (Token.scan front).endsLine)
    (a : String) :
    ((∀ body, ¬ StartsArray doc.escape (' ' :: Text.feedsOfPairs a.toList) body) →
      parse (appendCheck front "CMD" a) = parse (appendCheck front "cmd" a)) ∧
    ((Token.scan (appendCheck front "CMD" a)).lineEnds = (Token.scan front).lineEnds →
      (Token.scan (appendCheck front "cmd" a)).lineEnds = (Token.scan front).lineEnds →
      (outcome (appendCheck front "CMD" a) = outcome (appendCheck front "cmd" a) ↔
        (Token.scan (appendCheck front "CMD" a)).faultKind =
          (Token.scan (appendCheck front "cmd" a)).faultKind ∧
        (lastLine? (appendCheck front "CMD" a)).map commandBehind? =
          (lastLine? (appendCheck front "cmd" a)).map commandBehind?)) ∧
    ('\n' ∉ a.toList → joinsLines doc.escape a.toList = false →
      (outcome (appendCheck front "CMD" a) = outcome (appendCheck front "cmd" a) ↔
        (Token.scan (appendCheck front "CMD" a)).faultKind =
          (Token.scan (appendCheck front "cmd" a)).faultKind)) ∧
    ('\n' ∉ a.toList →
      (outcome (appendCheck front "CMD" a) = .error (true, some "invalid-escape") ↔
        ∃ body, StartsArray doc.escape (' ' :: a.toList) body ∧ MisescapedIn doc.escape 1 body) ∧
      outcome (appendCheck front "cmd" a) ≠ .error (true, some "invalid-escape")) := by
  refine ⟨parse_eq_of_not_startsArray h hend, fun hlines hlines' => ?_, fun hline hjoins => ?_,
    fun hline => ?_⟩
  · rw [(scan_appendCheck h hend .upper a).2.1] at hlines
    rw [(scan_appendCheck h hend .lower a).2.1] at hlines'
    refine outcome_eq_iff h hend fun allow => ?_
    cases allow with
    | true => exact Nat.add_left_cancel hlines
    | false => exact Nat.add_left_cancel hlines'
  · exact outcome_eq_iff_faultKind h hend hline hjoins
  · rw [outcome_refused_iff h hend .upper hline, Ne, outcome_refused_iff h hend .lower hline]
    simp

end Checks

/-- An array over two lines, of which the shell form sees a comment in the second. -/
theorem outcome_spelling_escaped : ∃ doc, parse "# escape=\x60\nFROM x\n" = .ok doc ∧
    parse (appendCheck "# escape=\x60\nFROM x\n" "CMD" "curl $x") =
      parse (appendCheck "# escape=\x60\nFROM x\n" "cmd" "curl $x") ∧
    outcome (appendCheck "# escape=\x60\nFROM x\n" "CMD" "[\"\\\" \x60\n # \"]") ≠
      outcome (appendCheck "# escape=\x60\nFROM x\n" "cmd" "[\"\\\" \x60\n # \"]") ∧
    outcome (appendCheck "# escape=\x60\nFROM x\n" "CMD" "[\"a b\"]") =
      outcome (appendCheck "# escape=\x60\nFROM x\n" "cmd" "[\"a b\"]") ∧
    (∃ body, StartsArray '\x60' " [\"\\.\"]".toList body ∧ MisescapedIn '\x60' 1 body) ∧
    outcome (appendCheck "# escape=\x60\nFROM x\n" "cmd" "[\"\\.\"]") ≠
      .error (true, some "invalid-escape") := by
  obtain ⟨doc, hdoc, -, hescape, hend⟩ : ∃ doc, parse "# escape=\x60\nFROM x\n" = .ok doc ∧
      True ∧ doc.escape = '\x60' ∧ (Token.scan "# escape=\x60\nFROM x\n").endsLine :=
    exists_parsed (by decide +kernel) fun _ _ => trivial
  have hupper : (Token.scan (appendCheck "# escape=\x60\nFROM x\n" "CMD"
      "[\"\\\" \x60\n # \"]")).lineEnds = (Token.scan "# escape=\x60\nFROM x\n").lineEnds := by
    decide +kernel
  have hlower : (Token.scan (appendCheck "# escape=\x60\nFROM x\n" "cmd"
      "[\"\\\" \x60\n # \"]")).lineEnds = (Token.scan "# escape=\x60\nFROM x\n").lineEnds := by
    decide +kernel
  have htexts : (lastLine? (appendCheck "# escape=\x60\nFROM x\n" "CMD"
        "[\"\\\" \x60\n # \"]")).map commandBehind? ≠
      (lastLine? (appendCheck "# escape=\x60\nFROM x\n" "cmd"
        "[\"\\\" \x60\n # \"]")).map commandBehind? := by decide +kernel
  refine ⟨doc, hdoc, (outcome_spelling hdoc hend "curl $x").1 fun body hbody => ?_,
    fun hsame => ?_, ?_, ?_, ((outcome_spelling hdoc hend "[\"\\.\"]").2.2.2 (by decide)).2⟩
  · have hmem := hbody.mem (isEscape_of_ofEntries hdoc)
    exact absurd hmem (by decide)
  · exact htexts (((outcome_spelling hdoc hend _).2.1 hupper hlower).1 hsame).2
  · refine ((outcome_spelling hdoc hend "[\"a b\"]").2.2.1 (by decide) ?_).2 (by decide +kernel)
    rw [hescape]
    decide
  · have hrefused : (outcome (appendCheck "# escape=\x60\nFROM x\n" "CMD" "[\"\\.\"]")).map
        (fun _ => ()) = .error (true, some "invalid-escape") := by decide +kernel
    have harray := ((outcome_spelling hdoc hend "[\"\\.\"]").2.2.2 (by decide)).1.1
      (Lower.eq_error_of_map hrefused)
    rwa [hescape] at harray

/-- An escape that is refused in an array is kept in a shell form. -/
theorem outcome_spelling_refused :
    (Token.scan (appendCheck "FROM x\n" "CMD" "[\"\\.\"]")).lineEnds = 1 ∧
    (Token.scan (appendCheck "FROM x\n" "cmd" "[\"\\.\"]")).lineEnds = 1 ∧
    outcome (appendCheck "FROM x\n" "CMD" "[\"\\.\"]") = .error (true, some "invalid-escape") ∧
    ∃ doc, outcome (appendCheck "FROM x\n" "cmd" "[\"\\.\"]") = .ok doc := by
  have hupper : (outcome (appendCheck "FROM x\n" "CMD" "[\"\\.\"]")).map (fun _ => ()) =
      .error (true, some "invalid-escape") := by decide +kernel
  have hlower : (outcome (appendCheck "FROM x\n" "cmd" "[\"\\.\"]")).toOption.isSome := by
    decide +kernel
  refine ⟨by decide +kernel, by decide +kernel, Lower.eq_error_of_map hupper, ?_⟩
  cases h : outcome (appendCheck "FROM x\n" "cmd" "[\"\\.\"]") with
  | ok doc => exact ⟨doc, rfl⟩
  | error fault =>
    rw [h] at hlower
    cases hlower

end Document

end Dockerfile
