import Dockerfile.Proofs.Lexing.Borders

/-!
# What the lexer and the reader agree on

The lexer makes tokens and the reader groups them into lines. Both keep track of where a line
starts and of the directives at the top of the file, each in its own way. The reader never meets a
token that cannot stand where it does, so that whatever it refuses it refuses for the words of a
line (`parse_cases`, `ofText_ofLine`). And the directives that it collects are those for which the
lexer changes its escape character (`parse_directives`).
-/

namespace Dockerfile

/-! ### Faults of lines -/

namespace Instruction

/-- Can a line with the argument text `raw` be refused for a cause? Never for a token, and for an
integer that is too long only if an array in the text has one. -/
def Cause.IsOf (raw : List Char) : Cause → Prop
  | .strayToken _ => False
  | .overlong digits =>
    ∃ array : String, array.toList <:+: raw ∧ Json.Reader.read array = .error (.overlong digits)
  | _ => True

theorem Cause.IsOf.kind_ne {raw : List Char} {cause : Cause} (h : cause.IsOf raw) :
    cause.kind ≠ "unexpected-token" := by
  cases cause with
  | strayToken t => exact h.elim
  | _ => simp [kind]

/-- A result whose fault, if there is one, is that of a line with the argument text `raw`. -/
def OfText (raw : List Char) {α : Type} (x : Except Fault α) : Prop :=
  ∀ fault, x = .error fault → fault.cause.IsOf raw

section Results

variable {α β : Type} {raw : List Char}

theorem ofText_ok (a : α) : OfText raw (.ok a : Except Fault α) := by
  intro fault h
  cases h

theorem ofText_error {fault : Fault} (h : fault.cause.IsOf raw) :
    OfText raw (.error fault : Except Fault α) := by
  rintro _ ⟨⟩
  exact h

theorem OfText.bind {x : Except Fault α} {k : α → Except Fault β} (hx : OfText raw x)
    (hk : ∀ a, OfText raw (k a)) : OfText raw (x >>= k) := by
  cases x with
  | error fault => exact ofText_error (hx fault rfl)
  | ok a => exact hk a

theorem OfText.map {x : Except Fault α} (hx : OfText raw x) (f : α → β) : OfText raw (f <$> x) := by
  cases x with
  | error fault => exact ofText_error (hx fault rfl)
  | ok a => exact ofText_ok (f a)

theorem ofText_ite {c : Prop} [Decidable c] {x y : Except Fault α} (hx : OfText raw x)
    (hy : OfText raw y) : OfText raw (if c then x else y) := by
  split
  · exact hx
  · exact hy

theorem ofText_mapM {f : α → Except Fault β} (hf : ∀ a, OfText raw (f a)) (xs : List α) :
    OfText raw (xs.mapM f) := by
  induction xs with
  | nil => exact ofText_ok []
  | cons a xs ih =>
    rw [List.mapM_cons]
    exact (hf a).bind fun b => ih.bind fun bs => ofText_ok (b :: bs)

end Results

variable {escape : Char} {kind : Kind} {allowed : List (String × FlagType)} {line : LogicalLine}
  {raw : List Char}

theorem ofText_readFlag (w : Word) : OfText raw (readFlag escape kind allowed w) := by
  unfold readFlag
  generalize Text.cutString '=' (String.ofList (w.text.toList.drop 2)) = cut
  obtain ⟨name, value⟩ := cut
  dsimp only
  cases allowed.lookup (Text.toLower name) with
  | none => exact ofText_error trivial
  | some type =>
    cases type with
    | value =>
      cases value with
      | none => exact ofText_error trivial
      | some value => exact ofText_ite (ofText_error trivial) (ofText_ok _)
    | switch => exact ofText_ite (ofText_ok _) (ofText_error trivial)

theorem ofText_readFlags (words : List Word) :
    OfText raw (readFlags escape kind allowed words) := by
  induction words with
  | nil => exact ofText_ok _
  | cons w words ih =>
    rw [readFlags]
    refine ofText_ite ?_ (ofText_ok _)
    exact (ofText_readFlag w).bind fun _ => ih.bind fun _ => ofText_ok _

theorem isInfix_textFrom (line : LogicalLine) (w : Word) :
    (line.textFrom w).toList <:+: line.raw.toList := by
  rw [LogicalLine.textFrom, String.toList_ofList]
  exact (Text.isInfix_stripChars _).trans (List.drop_suffix w.offset _).isInfix

theorem ofText_readCommand (words : List Word) :
    OfText line.raw.toList (readCommand kind line words) := by
  cases words with
  | nil => exact ofText_error trivial
  | cons w words =>
    rw [readCommand]
    unfold commandOf
    split
    · split
      · rename_i digits hread
        exact ofText_error ⟨_, isInfix_textFrom line w, hread⟩
      · exact ofText_ok _
      · split <;> exact ofText_ok _
    · exact ofText_ok _

theorem ofText_readPathList (first : Word) (words : List Word) :
    OfText line.raw.toList (readPathList escape kind line first words) := by
  refine ofText_ite ?_ (ofText_ok _)
  split
  · rename_i digits hread
    exact ofText_error ⟨_, isInfix_textFrom line first, hread⟩
  · exact ofText_error trivial
  · split
    · exact ofText_ok _
    · exact ofText_error trivial

theorem ofText_readPaths (words : List Word) :
    OfText line.raw.toList (readPaths escape kind line words) := by
  cases words with
  | nil => exact ofText_error trivial
  | cons first words =>
    refine (ofText_readPathList first (first :: words)).bind fun paths => ?_
    split
    · exact ofText_ok _
    · exact ofText_error trivial

theorem ofText_readPair (w : Word) : OfText raw (readPair escape kind w) := by
  unfold readPair
  split
  · exact ofText_error trivial
  · exact ofText_ite (ofText_error trivial) (ofText_ok _)

theorem ofText_readPairs (words : List Word) :
    OfText line.raw.toList (readPairs escape kind line words) := by
  cases words with
  | nil => exact ofText_error trivial
  | cons first words =>
    rw [readPairs]
    exact ofText_ite (ofText_mapM ofText_readPair _)
      (ofText_ite (ofText_error trivial) (ofText_ok _))

theorem ofText_readBase (line : LogicalLine) : OfText line.raw.toList (readBase escape line) := by
  refine (ofText_readFlags line.words).bind fun result => ?_
  obtain ⟨flags, words⟩ := result
  rcases words with _ | ⟨image, _ | ⟨second, rest⟩⟩
  · exact ofText_error trivial
  · exact ofText_ok _
  · refine ofText_ite ?_ (ofText_error trivial)
    rcases rest with _ | ⟨name, _ | ⟨excess, rest⟩⟩
    · exact ofText_error trivial
    · exact ofText_ok _
    · exact ofText_error trivial

theorem ofText_readDeclaration (w : Word) : OfText raw (readDeclaration w) :=
  ofText_ite (ofText_error trivial) (ofText_ok _)

theorem ofText_readRetries (text : Option String) :
    OfText line.raw.toList (readRetries line text) := by
  unfold readRetries
  split
  · exact ofText_ok _
  · split
    · exact ofText_ok _
    · exact ofText_error trivial

theorem ofText_readHealthcheck (line : LogicalLine) :
    OfText line.raw.toList (readHealthcheck escape line) := by
  refine (ofText_readFlags line.words).bind fun result => ?_
  obtain ⟨flags, words⟩ := result
  cases words with
  | nil => exact ofText_error trivial
  | cons mode rest =>
    refine (ofText_readRetries _).bind fun retries => ?_
    refine ofText_ite ?_ (ofText_ite ?_ (ofText_error trivial))
    · exact ((ofText_readCommand rest).map some).bind fun _ => ofText_ok _
    · cases rest with
      | nil => exact ofText_ok _
      | cons excess rest => exact ofText_error trivial

theorem ofText_readText (what : String) (line : LogicalLine) :
    OfText line.raw.toList (readText kind what line) := by
  unfold readText
  split
  · exact ofText_error trivial
  · exact ofText_ok _

/-- A line is refused for its words. -/
theorem ofText_readKind (line : LogicalLine) (kind : Kind) :
    OfText line.raw.toList (readKind escape line kind) := by
  cases kind with
  | base => exact (ofText_readBase line).map _
  | run =>
    refine OfText.map ((ofText_readFlags line.words).bind fun result => ?_) _
    exact (ofText_readCommand _).bind fun _ => ofText_ok _
  | copy | add =>
    refine OfText.map ((ofText_readFlags line.words).bind fun result => ?_) _
    exact (ofText_readPaths _).bind fun _ => ofText_ok _
  | env | label => exact (ofText_readPairs line.words).map _
  | healthcheck => exact (ofText_readHealthcheck line).map _
  | entrypoint | cmd | shell => exact (ofText_readCommand line.words).map _
  | onbuild => exact ofText_error trivial
  | arg =>
    refine OfText.map ?_ _
    unfold readArg
    split
    · exact ofText_error trivial
    · exact ofText_mapM ofText_readDeclaration _
  | volume =>
    refine OfText.map ?_ _
    unfold readVolume
    split
    · exact ofText_error trivial
    · exact ofText_readPathList _ _
  | user =>
    refine OfText.map ?_ _
    unfold readUser
    split
    · exact ofText_error trivial
    · exact ofText_ok _
    · exact ofText_error trivial
  | stopsignal =>
    refine OfText.map ?_ _
    unfold readSignal
    split
    · exact ofText_error trivial
    · exact ofText_ok _
    · exact ofText_error trivial
  | expose =>
    refine OfText.map ?_ _
    unfold readPorts
    split
    · exact ofText_error trivial
    · exact ofText_ok _
  | workdir | maintainer => exact (ofText_readText _ line).map _

/-- An instruction is refused for the words of its line, and so is the trigger of an `ONBUILD`. -/
theorem ofText_readBody (escape : Char) (raw keyword : String) (position : Position)
    (words : List Word) : OfText raw.toList (readBody escape raw keyword position words) := by
  induction words generalizing keyword position with
  | nil =>
    rw [readBody]
    split
    · exact ofText_error trivial
    · exact ofText_readKind _ _
  | cons head tail ih =>
    rw [readBody]
    split
    · exact ofText_error trivial
    · exact (ih head.text head.position).map _
    · exact ofText_readKind _ _

theorem ofText_ofLine (escape : Char) (line : LogicalLine) :
    OfText line.raw.toList (ofLine escape line) :=
  (ofText_readBody escape line.raw line.keyword line.position line.words).map _

end Instruction

/-! ### Entries of a text -/

namespace Lexer

open Entry

/-- The entries of a text are lines and silent ones, and at the end the fault of the lexer. -/
theorem exists_entries {s : State} (he : Template.IsEscape s.escape)
    {draft : Option LogicalLine.Draft} (hfits : Fits s.mode draft) : ∃ front,
      ofTokensFrom (scanFrom s).fault draft (scanFrom s).tokens =
        front ++ (scanFrom s).fault.toList.map .broken ∧
      ∀ x ∈ front, x.isSilent ∨ ∃ line, x = .line line := by
  fun_induction scanFrom s generalizing draft with
  | case1 s token hstep =>
    obtain ⟨-, rfl⟩ := step_finished hstep
    cases draft with
    | none => exact ⟨[], rfl, List.forall_mem_nil _⟩
    | some d => exact ⟨[.line d.finish], rfl, by simp⟩
  | case2 s fault hstep =>
    cases draft with
    | none | some => exact ⟨[], rfl, List.forall_mem_nil _⟩
  | case3 s tokens t hstep _ scan ih =>
    obtain ⟨pieces, skip, hmove, rfl, -⟩ := move_of_step he hstep
    -- The tokens of the step add entries of their own, and leave a draft that fits.
    obtain ⟨entries, draft', hfeeds, hfits', hentries⟩ : ∃ entries draft',
        Feeds draft (placed s.position pieces) entries draft' ∧ Fits t.mode draft' ∧
        ∀ x ∈ entries, x.isSilent ∨ ∃ line, x = .line line := by
      cases hm : s.mode with
      | line window =>
        rw [hm] at hmove hfits
        obtain ⟨entries, draft', hfeeds, hfits', hsilent, -⟩ := hmove.exists_feeds_line s.position
        rw [hfits.line]
        exact ⟨entries, draft', hfeeds, hfits', fun x hx => .inl (hsilent x hx)⟩
      | _ =>
        have hinside : s.mode.isLine = false := by rw [hm]; rfl
        obtain ⟨d, rfl⟩ := hfits.inside hinside
        rcases hmove.exists_feeds_inside hinside d s.position with ⟨ht, hfeeds⟩ | ⟨d', hfeeds, ht⟩
        · exact ⟨_, none, hfeeds, ht.symm, by simp⟩
        · exact ⟨[], some d', hfeeds, ht.symm, List.forall_mem_nil _⟩
    obtain ⟨front, hfront, hall⟩ := ih (hmove.isEscape he) hfits'
    refine ⟨entries ++ front, ?_, List.forall_mem_append.2 ⟨hentries, hall⟩⟩
    rw [hfeeds, hfront, List.append_assoc]

end Lexer

namespace Document

open Lexer

/-- Lines are read up to the first that is refused; behind them the lexer may have stopped. -/
theorem instructions_outcome (escape : Char) {front : List Entry} (fault : Option Lexer.Fault)
    (hfront : ∀ x ∈ front, x.isSilent ∨ ∃ line, x = .line line) :
    (∃ is, instructions escape (front ++ fault.toList.map .broken) = .ok is ∧ fault = none) ∨
      (∃ lexical, instructions escape (front ++ fault.toList.map .broken) =
        .error (.lexical lexical) ∧ fault = some lexical) ∨
      ∃ line refusal, Entry.line line ∈ front ∧
        instructions escape (front ++ fault.toList.map .broken) = .error (.ofLine refusal) ∧
        Instruction.ofLine escape line = .error refusal := by
  induction front with
  | nil =>
    cases fault with
    | none => exact .inl ⟨[], rfl, rfl⟩
    | some lexical => exact .inr (.inl ⟨lexical, rfl, rfl⟩)
  | cons x front ih =>
    obtain ⟨hx, hothers⟩ := List.forall_mem_cons.1 hfront
    cases x with
    | comment | lineEnd =>
      refine (ih hothers).imp_right (Or.imp_right ?_)
      rintro ⟨line, refusal, hmem, hrest⟩
      exact ⟨line, refusal, List.mem_cons_of_mem _ hmem, hrest⟩
    | stray | broken => simp [Entry.isSilent] at hx
    | line line =>
      rw [List.cons_append, instructions]
      cases hline : Instruction.ofLine escape line with
      | error refusal => exact .inr (.inr ⟨line, refusal, List.mem_cons_self, rfl, hline⟩)
      | ok i =>
        rcases ih hothers with
          ⟨is, his, hnone⟩ | ⟨lexical, hlexical, hsome⟩ | ⟨l, refusal, hmem, hl, hrefusal⟩
        · exact .inl ⟨i :: is, by rw [his]; rfl, hnone⟩
        · exact .inr (.inl ⟨lexical, by rw [hlexical]; rfl, hsome⟩)
        · exact .inr (.inr ⟨l, refusal, List.mem_cons_of_mem _ hmem, by rw [hl]; rfl, hrefusal⟩)

/-- The entries of a whole text. -/
theorem exists_entries_ofScan (source : String) : ∃ front, Entry.ofScan (Token.scan source) =
      front ++ (Token.scan source).fault.toList.map .broken ∧
      ∀ x ∈ front, x.isSilent ∨ ∃ line, x = .line line :=
  exists_entries (s := .start (Text.feedsOfPairs source.toList)) (.inl rfl) (fits_start _)

/-- A text is a document, or the lexer stops in it, or the reader refuses a line of it. -/
theorem parse_cases (source : String) :
    (∃ d, parse source = .ok d ∧ (Token.scan source).fault = none) ∨
      (∃ lexical, parse source = .error (.lexical lexical) ∧
        (Token.scan source).fault = some lexical) ∨
      ∃ line refusal, parse source = .error (.ofLine refusal) ∧
        .line line ∈ Entry.ofScan (Token.scan source) ∧
        ∃ escape, Instruction.ofLine escape line = .error refusal := by
  obtain ⟨front, hentries, hfront⟩ := exists_entries_ofScan source
  unfold parse ofEntries
  rw [hentries]
  dsimp only
  rcases instructions_outcome _ (Token.scan source).fault hfront with
    ⟨is, his, hnone⟩ | ⟨lexical, hlexical, hsome⟩ | ⟨line, refusal, hline, hl, hrefusal⟩
  · exact .inl ⟨_, by rw [his]; rfl, hnone⟩
  · exact .inr (.inl ⟨lexical, by rw [hlexical]; rfl, hsome⟩)
  · exact .inr (.inr ⟨line, refusal, by rw [hl]; rfl, List.mem_append_left _ hline, _, hrefusal⟩)

theorem scan_fault_of_parse {source : String} {d : Document} (h : parse source = .ok d) :
    (Token.scan source).fault = none := by
  rcases parse_cases source with ⟨-, -, hnone⟩ | ⟨_, hfault, -⟩ | ⟨_, _, hfault, -⟩
  · exact hnone
  · cases h.symm.trans hfault
  · cases h.symm.trans hfault

end Document

/-! ### Directives -/

namespace Lexer

open Entry

section
variable {m m' : Mode} {e e' : Char} {cs rest skip : List Char} {pieces : List Piece}

/-- Only a directive changes the escape character, and behind it directives count. -/
theorem Move.escape_eq (h : Move m e cs pieces skip m' e' rest) (hm : m' ≠ .line true) :
    e' = e := by
  have hdirective {directive : Option Directive} (h : Mode.line directive.isSome ≠ .line true) :
      escapeBehind e directive = e := by
    cases directive with
    | none => rfl
    | some d => exact (h rfl).elim
  cases h with
  | comment | lastComment => exact hdirective hm
  | _ => rfl

end

/-- Do directives count where the machine is? -/
def State.window (s : State) : Bool :=
  match s.mode with
  | .line window => window
  | _ => false

/-- The comments that the machine reads from a state on while directives count. -/
def windowComments (s : State) : List Token :=
  match h : step s with
  | .finished _ => []
  | .stopped _ => []
  | .next tokens t =>
    have := step_size h
    (if s.window then tokens.filter (·.kind = .comment) else []) ++ windowComments t
termination_by s.size

/-- The directive that a comment is, with its place. -/
def directiveOf? (comment : Token) : Option (Directive × Position) :=
  (Directive.parse? comment.text).map (·, comment.position)

theorem mode_of_window {s : State} (h : s.window) : s.mode = .line true := by
  unfold State.window at h
  split at h
  · rename_i hmode
    rw [hmode, h]
  · cases h

theorem windowComments_of_step {s t : State} {tokens : List Token} (h : step s = .next tokens t) :
    windowComments s =
      (if s.window then tokens.filter (·.kind = .comment) else []) ++ windowComments t := by
  rw [windowComments]
  split
  · rename_i hfinished
    cases h.symm.trans hfinished
  · rename_i hstopped
    cases h.symm.trans hstopped
  · rename_i hnext
    cases h.symm.trans hnext
    rfl

/-- Where directives do not count, they do not count later. -/
theorem windowComments_closed {s : State} (he : Template.IsEscape s.escape)
    (h : s.window = false) : windowComments s = [] := by
  fun_induction windowComments s with
  | case1 | case2 => rfl
  | case3 s tokens t hstep _ ih =>
    obtain ⟨pieces, skip, hmove, -, -⟩ := move_of_step he hstep
    have ht : t.window = false := by
      cases hwindow : t.window with
      | false => rfl
      | true =>
        obtain ⟨hs, -⟩ := hmove.of_window (mode_of_window hwindow)
        rw [State.window, hs] at h
        cases h
    rw [h, ih (hmove.isEscape he) ht]
    rfl

/-- At the end of a text there is no comment. -/
theorem windowComments_nil {s : State} (h : s.rest = []) (hmode : s.mode.isLine) :
    windowComments s = [] := by
  obtain ⟨mode, e, p, cs⟩ := s
  obtain rfl : cs = [] := h
  cases mode with
  | line window =>
    rw [windowComments]
    rfl
  | _ => cases hmode

/-- A comment at the top of a file, and the comments behind it if it is a directive. -/
theorem directives_comment {text : List Char} {p : Position} (entries : List Entry)
    {later : List Token} (hnone : directiveIn true text = none → later = [])
    (hsome : (directiveIn true text).isSome →
      directivesFrom true entries = later.filterMap directiveOf?) :
    directives (.comment ⟨.comment, String.ofList text, p⟩ :: entries) =
      (⟨.comment, String.ofList text, p⟩ :: later).filterMap directiveOf? := by
  rw [directives, List.filterMap_cons, directiveOf?]
  cases hd : directiveIn true text with
  | none =>
    rw [directivesFrom_of_comment hd, hnone hd,
      show Directive.parse? (String.ofList text) = none from hd]
    rfl
  | some d =>
    rw [directivesFrom_of_directive hd, hsome (by rw [hd]; rfl),
      show Directive.parse? (String.ofList text) = some d from hd]
    rfl

/-- The directives of the entries ahead are those of the comments that are read while directives
count. -/
theorem directives_eq_windowComments {s : State} (he : Template.IsEscape s.escape)
    (h : s.window) :
    directives (ofScan (scanFrom s)) = (windowComments s).filterMap directiveOf? := by
  have hmode := mode_of_window h
  fun_induction scanFrom s with
  | case1 s token hstep =>
    obtain ⟨hnil, rfl⟩ := step_finished hstep
    rw [windowComments_nil hnil (by rw [hmode]; rfl)]
    rfl
  | case2 s fault hstep =>
    rw [step, hmode] at hstep
    exact (lineStep_ne_stopped hstep).elim
  | case3 s tokens t hstep _ scan ih =>
    obtain ⟨pieces, skip, hmove, rfl, -⟩ := move_of_step he hstep
    have he' := hmove.isEscape he
    rw [windowComments_of_step hstep, if_pos h]
    obtain ⟨mode, e, p, cs⟩ := s
    obtain ⟨mode', e', p', rest⟩ := t
    obtain rfl : mode = .line true := hmode
    dsimp only at hmove he'
    cases hmove with
    | indent => exact ih he' rfl rfl
    | lineEnd =>
      rw [windowComments_closed he' rfl]
      rfl
    | comment =>
      refine directives_comment (.lineEnd :: ofScan scan) (fun hnone => ?_) fun hsome => ?_
      · exact windowComments_closed he' (congrArg Option.isSome hnone)
      · exact ih he' hsome (congrArg Mode.line hsome)
    | lastComment =>
      refine directives_comment (ofScan scan) (fun _ => windowComments_nil rfl rfl) fun _ => ?_
      rw [show scan = ⟨[⟨.eof, "", p'⟩], none⟩ from scanFrom_nil he' rfl,
        windowComments_nil rfl rfl]
      rfl
    | keyword =>
      rw [windowComments_closed he' rfl]
      exact directivesFrom_open false _ _ _

end Lexer

namespace Document

open Lexer

/-- The directives of a document are those of the comments that the lexer reads while directives
count, and its escape character is the one that the lexer has from the first keyword on. -/
theorem parse_directives {source : String} {d : Document} (h : parse source = .ok d) :
    d.directives =
        (windowComments (.start (Text.feedsOfPairs source.toList))).filterMap directiveOf? ∧
      ∀ before t tokens u, Steps (.start (Text.feedsOfPairs source.toList)) before t →
        step t = .next tokens u → HasKeyword (before ++ tokens) →
        t.escape = d.escape ∧ u.escape = d.escape := by
  obtain ⟨is, -, rfl⟩ := ofEntries_eq_ok h
  refine ⟨directives_eq_windowComments (.inl rfl) rfl, ?_⟩
  intro before t tokens u hbefore hstep hkeyword
  have he := hbefore.isEscape (.inl rfl)
  have hsteps := hbefore.trans (.single hstep)
  have hmode : u.mode ≠ .line true := fun hmode =>
    (hsteps.not_hasKeyword (.inl rfl) hmode).2 hkeyword
  have hu := escape_of_steps hsteps hmode
  obtain ⟨pieces, skip, hmove, -, -⟩ := move_of_step he hstep
  exact ⟨(hmove.escape_eq hmode).symm.trans hu, hu⟩

/-- Two directives, one of them indented, and a comment that closes the window. -/
theorem parse_directives_indented :
    let source := "# syntax=a\n  # escape=\x60\n# c\n# escape=\\\nFROM a\nRUN b \x60\n c\n"
    ∃ d, parse source = .ok d ∧ d.escape = '\x60' ∧
      d.directives = [(⟨"syntax", "a"⟩, ⟨1, 1⟩), (⟨"escape", "\x60"⟩, ⟨2, 3⟩)] ∧
      d.directives =
        (windowComments (.start (Text.feedsOfPairs source.toList))).filterMap directiveOf? ∧
      ∀ before t tokens u, Steps (.start (Text.feedsOfPairs source.toList)) before t →
        step t = .next tokens u → HasKeyword (before ++ tokens) →
        t.escape = d.escape ∧ u.escape = d.escape := by
  intro source
  have hread : (parse source).toOption.map (fun d => (d.escape, d.directives)) =
      some ('\x60', [(⟨"syntax", "a"⟩, ⟨1, 1⟩), (⟨"escape", "\x60"⟩, ⟨2, 3⟩)]) := by
    decide +kernel
  cases hparse : parse source with
  | error fault =>
    rw [hparse] at hread
    cases hread
  | ok d =>
    rw [hparse] at hread
    have hread := Option.some.inj hread
    exact ⟨d, rfl, congrArg Prod.fst hread, congrArg Prod.snd hread, parse_directives hparse⟩

end Document

end Dockerfile
