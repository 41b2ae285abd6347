import Dockerfile.Diagnostic
import Dockerfile.Directive
import Dockerfile.Template
import Dockerfile.Text
import Dockerfile.Token

/-!
# Lexing

A file is cut into tokens by a machine that takes one step for each token or two. Its state is a
mode, the escape character, the place and the text ahead. At the start of a line the machine looks
for comments and instructions (`Mode.line`); behind the keyword of an instruction it reads words
and arrays (`Mode.argument`); behind a line that is continued it passes comments and blank lines
(`Mode.continued`).

The pieces of a line are first read as spans of the text. The text of a token is its span, but for
quoted texts over several lines: there an escape character that joins two lines is left out
(`dropBreaks`). Every step makes the text shorter or lowers the rank of the mode, so the machine
stops (`scanFrom`).
-/

namespace Dockerfile

namespace Lexer

/-- White space within a line. -/
def isBlank (c : Char) : Bool := c = ' ' || c = '\t' || c = '\r'

/-- The two quotes. -/
def isQuote (c : Char) : Bool := c = '"' || c = '\''

/-! ### Faults -/

/-- Why a text cannot be cut into tokens. -/
inductive Cause where
  | unclosedQuote (quote : Char)
  | unclosedVariable
  | unclosedArrayString
  | badUnicodeEscape
  /-- The character behind a backslash, if there is one. -/
  | badEscape (behind : Option Char)
  deriving DecidableEq, Repr

/-- The name of the kind of a cause. -/
def Cause.kind : Cause → String
  | unclosedQuote _ => "unterminated-string"
  | unclosedVariable => "unterminated-variable"
  | unclosedArrayString => "unterminated-string"
  | badUnicodeEscape => "invalid-escape"
  | badEscape _ => "invalid-escape"

/-- The wording of a cause. -/
def Cause.message : Cause → String
  | unclosedQuote quote => s!"unterminated {quote} quoted string"
  | unclosedVariable => "unterminated variable reference, missing '\x7d'"
  | unclosedArrayString => "unterminated string in JSON array"
  | badUnicodeEscape => "invalid \\u escape in JSON array, expected 4 hex digits"
  | badEscape behind =>
    let shown := String.ofList behind.toList
    s!"invalid escape sequence '\\{shown}' in JSON array"

/-- A cause and its place. -/
structure Fault where
  cause : Cause
  position : Position
  deriving DecidableEq, Repr

/-- The fault as it is shown. -/
def Fault.diagnostic (fault : Fault) : Diagnostic :=
  .located fault.cause.message fault.cause.kind fault.position

/-! ### Joined lines -/

/-- The span that joins a line with the next one: the escape character, blanks and the line end, or
at the end of the text the escape character and at least one blank. -/
def continuation? (escape : Char) : List Char → Option (List Char × List Char)
  | [] => none
  | c :: rest =>
    if c = escape then
      match rest.dropWhile isBlank with
      | [] => if rest.isEmpty then none else some (c :: rest, [])
      | d :: behind =>
        if d = '\n' then some (c :: rest.takeWhile isBlank ++ ['\n'], behind) else none
    else none

/-- Does a text start with a span that joins lines? -/
def continues (escape : Char) (cs : List Char) : Bool := (continuation? escape cs).isSome

/-- Does a text start with an escape character, blanks and a line end? -/
def breaksLine (escape : Char) : List Char → Bool
  | [] => false
  | c :: rest => c = escape && (rest.dropWhile isBlank).head? == some '\n'

/-- A text without the escape characters that join its lines and without the blanks between them
and the line ends. `dropping` says that such blanks are being left out. -/
def dropBreaksFrom (escape : Char) (dropping : Bool) : List Char → List Char
  | [] => []
  | c :: rest =>
    if dropping && isBlank c then dropBreaksFrom escape true rest
    else if breaksLine escape (c :: rest) then dropBreaksFrom escape true rest
    else c :: dropBreaksFrom escape false rest

/-- A text without the escape characters that join its lines. -/
def dropBreaks (escape : Char) (cs : List Char) : List Char := dropBreaksFrom escape false cs

/-! ### Spans

Each of these cuts a text in two, a span and what follows it. -/

/-- Puts a character in front of a span. -/
def consSpan (c : Char) (cut : List Char × List Char) : List Char × List Char :=
  (c :: cut.1, cut.2)

/-- The keyword of an instruction: up to a blank, a line end or a joined line. -/
def keyword (escape : Char) : List Char → List Char × List Char
  | [] => ([], [])
  | c :: rest =>
    if isBlank c || c = '\n' || continues escape (c :: rest) then ([], c :: rest)
    else consSpan c (keyword escape rest)

/-- Does a text behind a dollar sign make it a reference? -/
def startsVariable : List Char → Bool
  | [] => false
  | c :: _ => c = '\x7b' || Template.isNameStart c

/-- Plain characters: up to a blank, a line end, a quote, a variable or a joined line. An escape
character takes the next one with it. -/
def literal (escape : Char) : List Char → List Char × List Char
  | [] => ([], [])
  | c :: rest =>
    if isBlank c || c = '\n' || isQuote c || (c = '$' && startsVariable rest) then ([], c :: rest)
    else if c = escape then
      if continues escape (c :: rest) then ([], c :: rest)
      else match rest with
        | [] => ([c], [])
        | d :: behind => consSpan c (consSpan d (literal escape behind))
    else consSpan c (literal escape rest)

/-- Text up to the closing brace of `depth` open braces, within a line. -/
def braces? (depth : Nat) : List Char → Option (List Char × List Char)
  | [] => none
  | c :: rest =>
    if c = '\n' then none
    else if c = '\x7b' then (braces? (depth + 1) rest).map (consSpan c)
    else if c = '\x7d' then
      if depth ≤ 1 then some ([c], rest) else (braces? (depth - 1) rest).map (consSpan c)
    else (braces? depth rest).map (consSpan c)

/-- What belongs to a variable behind its dollar sign: text in braces or a name. -/
def reference? : List Char → Option (List Char × List Char)
  | [] => some ([], [])
  | c :: rest =>
    if c = '\x7b' then (braces? 1 rest).map (consSpan c)
    else some ((c :: rest).takeWhile Template.isNameChar, (c :: rest).dropWhile Template.isNameChar)

/-- A quoted text behind its opening quote, up to the closing one. Between double quotes an escape
character takes the next one with it. A line may end only where it is joined with the next one;
`joined` says that it is. -/
def quoted? (escape quote : Char) (joined : Bool) : List Char → Option (List Char × List Char)
  | [] => none
  | c :: rest =>
    if c = '\n' then
      if joined then (quoted? escape quote false rest).map (consSpan c) else none
    else if continues escape (c :: rest) then (quoted? escape quote true rest).map (consSpan c)
    else if c = quote then some ([c], rest)
    else if c = escape && quote = '"' then
      match rest with
      | [] => none
      | d :: behind =>
        (quoted? escape quote false behind).map fun cut => consSpan c (consSpan d cut)
    else (quoted? escape quote joined rest).map (consSpan c)

/-! ### Arrays -/

/-- A cause and the text in front of its place. -/
structure SpanFault where
  cause : Cause
  before : List Char

/-- Puts a character in front of a span or of the text before a fault. -/
def consResult (c : Char) :
    Except SpanFault (List Char × List Char) → Except SpanFault (List Char × List Char)
  | .ok cut => .ok (consSpan c cut)
  | .error fault => .error { fault with before := c :: fault.before }

/-- Hexadecimal digits. -/
def isHex (c : Char) : Bool := c.isDigit || ('a' ≤ c && c ≤ 'f') || ('A' ≤ c && c ≤ 'F')

/-- The characters that may stand behind a backslash in an array. -/
def isArrayEscape (c : Char) : Bool := ['"', '\\', '/', 'b', 'f', 'n', 'r', 't', 'u'].contains c

/-- Do four hexadecimal digits come next? -/
def hexAhead (cs : List Char) : Bool := (cs.takeWhile isHex).length ≥ 4

/-- A string of an array behind its opening quote, up to the closing one. Its escapes are checked
here. -/
def arrayString (escape : Char) (joined : Bool) :
    List Char → Except SpanFault (List Char × List Char)
  | [] => .error ⟨.unclosedArrayString, []⟩
  | c :: rest =>
    if c = '\n' then
      if joined then consResult c (arrayString escape false rest)
      else .error ⟨.unclosedArrayString, []⟩
    else if continues escape (c :: rest) then consResult c (arrayString escape true rest)
    else if c = '"' then .ok ([c], rest)
    else if c = '\\' then
      match rest with
      | [] => .error ⟨.badEscape none, []⟩
      | d :: behind =>
        if d = 'u' && !hexAhead behind then .error ⟨.badUnicodeEscape, []⟩
        else if isArrayEscape d then
          consResult c (consResult d (arrayString escape false behind))
        else .error ⟨.badEscape (some d), []⟩
    else consResult c (arrayString escape joined rest)

variable {cs rest span : List Char} {s t : State} {tokens : List Token} {escape : Char}
  {depth : Nat}

theorem consResult_eq_ok {c : Char} {result : Except SpanFault (List Char × List Char)}
    (h : consResult c result = .ok (span, rest)) :
    ∃ tail, result = .ok (tail, rest) ∧ span = c :: tail := by
  cases result with
  | error fault => cases h
  | ok cut => cases h; exact ⟨cut.1, rfl, rfl⟩

theorem arrayString_length {joined : Bool} (h : arrayString escape joined cs = .ok (span, rest)) :
    rest.length < cs.length := by
  fun_induction arrayString escape joined cs generalizing span rest
  case case1 | case3 | case6 | case7 | case9 => cases h
  case case2 ih | case4 ih | case10 ih =>
    obtain ⟨tail, ht, _⟩ := consResult_eq_ok h
    have := ih ht
    simp only [List.length_cons]
    omega
  case case5 => cases h; simp
  case case8 ih =>
    obtain ⟨_, ht, _⟩ := consResult_eq_ok h
    obtain ⟨_, ht, _⟩ := consResult_eq_ok ht
    have := ih ht
    simp only [List.length_cons]
    omega

/-- A piece of an array within one line: its span, how many brackets are open behind it, and the
text behind it. It ends behind the bracket that closes the array, before a line end or before a
joined line. -/
structure Segment where
  span : List Char
  depth : Nat
  rest : List Char

/-- The fault of a string behind its opening quote, seen from before the quote. A string that does
not end is at fault where it starts. -/
def SpanFault.inString (quote : Char) (fault : SpanFault) : SpanFault :=
  if fault.cause = .unclosedArrayString then { fault with before := [] }
  else { fault with before := quote :: fault.before }

/-- Puts text in front of a segment or of the text before a fault. -/
def prependSegment (text : List Char) : Except SpanFault Segment → Except SpanFault Segment
  | .ok segment => .ok { segment with span := text ++ segment.span }
  | .error fault => .error { fault with before := text ++ fault.before }

/-- Reads a piece of an array inside `depth` open brackets. -/
def segment (escape : Char) (depth : Nat) (cs : List Char) : Except SpanFault Segment :=
  match cs with
  | [] => .ok ⟨[], depth, []⟩
  | c :: rest =>
    if c = '\n' || continues escape (c :: rest) then .ok ⟨[], depth, c :: rest⟩
    else if c = '"' then
      match h : arrayString escape false rest with
      | .error fault => .error (fault.inString c)
      | .ok (span, behind) =>
        have := arrayString_length h
        prependSegment (c :: span) (segment escape depth behind)
    else if c = '[' then prependSegment [c] (segment escape (depth + 1) rest)
    else if c = ']' then
      if depth ≤ 1 then .ok ⟨[c], 0, rest⟩ else prependSegment [c] (segment escape (depth - 1) rest)
    else prependSegment [c] (segment escape depth rest)
termination_by cs.length
decreasing_by all_goals simp_all <;> omega

/-! ### The machine -/

/-- The words of an instruction read so far, as far as they decide whether an array may start. -/
structure Words where
  /-- Are all finished words flags or written in capitals? -/
  allowArray : Bool
  /-- The word being read. -/
  word : List Char

/-- May an array follow this word? -/
def leavesArray (word : List Char) : Bool :=
  ['-', '-'].isPrefixOf word || (word.all Text.isLetter && Text.isUpperWord word)

/-- Ends the word being read. -/
def Words.finish (w : Words) : Words :=
  if w.word.isEmpty then w else ⟨w.allowArray && leavesArray w.word, []⟩

/-- Adds text to the word being read. -/
def Words.extend (w : Words) (text : List Char) : Words := { w with word := w.word ++ text }

/-- Where the machine is among the arguments of an instruction. -/
inductive Argument where
  /-- Among words. -/
  | words (w : Words)
  /-- Inside an array with some open brackets. -/
  | array (depth : Nat) (w : Words)

/-- Where the machine is. -/
inductive Mode where
  /-- At the start of a line, or behind its leading blanks. Directives count while `window`. -/
  | line (window : Bool)
  /-- Among the arguments of an instruction. -/
  | argument (a : Argument)
  /-- Behind a line that is joined with the next one. -/
  | continued (a : Argument)

/-- The state of the machine. -/
structure State where
  mode : Mode
  escape : Char
  position : Position
  /-- The text ahead. -/
  rest : List Char

/-- A step of the machine: tokens, and how it goes on. -/
inductive Step where
  | next (tokens : List Token) (state : State)
  | finished (token : Token)
  | stopped (fault : Fault)

/-- The state behind a span. -/
def State.pass (s : State) (mode : Mode) (span rest : List Char) : State :=
  { s with mode := mode, position := s.position.after span, rest := rest }

/-- The step that makes one token of a span. -/
def State.emit (s : State) (kind : Token.Kind) (mode : Mode) (span rest : List Char) : Step :=
  .next [⟨kind, String.ofList span, s.position⟩] (s.pass mode span rest)

/-- The step at a comment. It may be a directive, and a line end behind it belongs to it. -/
def commentStep (s : State) (window : Bool) (cs : List Char) : Step :=
  let text := cs.takeWhile (· ≠ '\n')
  let token : Token := ⟨.comment, String.ofList text, s.position⟩
  let directive := if window then Directive.parse? token.text else none
  let escape := (directive.bind Directive.escape?).getD s.escape
  let s := { s with escape := escape }
  let behind := s.position.after text
  match cs.dropWhile (· ≠ '\n') with
  | [] => .next [token] (s.pass (.line directive.isSome) text [])
  | c :: rest =>
    .next [token, ⟨.newline, "\n", behind⟩] (s.pass (.line directive.isSome) (text ++ [c]) rest)

/-- The step at the start of a line. -/
def lineStep (s : State) (window : Bool) : List Char → Step
  | [] => .finished ⟨.eof, "", s.position⟩
  | c :: rest =>
    if isBlank c then
      s.emit .whitespace (.line window) (c :: rest.takeWhile isBlank) (rest.dropWhile isBlank)
    else if c = '\n' then s.emit .newline (.line false) [c] rest
    else if c = '#' then commentStep s window (c :: rest)
    else
      let (span, behind) := keyword s.escape (c :: rest)
      s.emit .instruction (.argument (.words ⟨true, []⟩)) span behind

/-- The step inside an array, behind the characters `lead` of the piece to read. -/
def arrayStep (s : State) (w : Words) (depth : Nat) (lead cs : List Char) : Step :=
  match segment s.escape depth cs with
  | .error fault => .stopped ⟨fault.cause, s.position.after (lead ++ fault.before)⟩
  | .ok piece =>
    let span := lead ++ piece.span
    let text := dropBreaks s.escape span
    let tokens : List Token :=
      if span.isEmpty then [] else [⟨.string, String.ofList text, s.position⟩]
    let w := w.extend text
    let behind := s.position.after span
    if piece.depth = 0 then .next tokens (s.pass (.argument (.words w)) span piece.rest)
    else match continuation? s.escape piece.rest with
      | some (joint, rest) =>
        .next (tokens ++ [⟨.continuation, String.ofList joint, behind⟩])
          (s.pass (.continued (.array piece.depth w)) (span ++ joint) rest)
      | none => .next tokens (s.pass (.argument (.words w)) span piece.rest)

/-- The step that adds a piece to the word being read. -/
def State.piece (s : State) (w : Words) (kind : Token.Kind) (text span rest : List Char) : Step :=
  .next [⟨kind, String.ofList text, s.position⟩]
    (s.pass (.argument (.words (w.extend text))) span rest)

/-- The step among the words of an instruction. -/
def wordsStep (s : State) (w : Words) : List Char → Step
  | [] => .finished ⟨.eof, "", s.position⟩
  | c :: rest =>
    if c = '\n' then s.emit .newline (.line false) [c] rest
    else match continuation? s.escape (c :: rest) with
      | some (span, behind) => s.emit .continuation (.continued (.words w)) span behind
      | none =>
        if isBlank c then
          s.emit .whitespace (.argument (.words w.finish)) (c :: rest.takeWhile isBlank)
            (rest.dropWhile isBlank)
        else if c = '[' && w.word.isEmpty && w.allowArray then arrayStep s w 1 [c] rest
        else if isQuote c then
          match quoted? s.escape c false rest with
          | some (span, behind) =>
            s.piece w .string (dropBreaks s.escape (c :: span)) (c :: span) behind
          | none => .stopped ⟨.unclosedQuote c, s.position⟩
        else if c = '$' && startsVariable rest then
          match reference? rest with
          | some (span, behind) => s.piece w .reference (c :: span) (c :: span) behind
          | none => .stopped ⟨.unclosedVariable, s.position⟩
        else
          let (span, behind) := literal s.escape (c :: rest)
          s.piece w .string span span behind

/-- The step among the arguments of an instruction. -/
def argumentStep (s : State) : Argument → Step
  | .words w => wordsStep s w s.rest
  | .array depth w => arrayStep s w depth [] s.rest

/-- The step behind a joined line: a comment or a blank line is passed, anything else resumes the
instruction, with its leading blanks. -/
def continuedStep (s : State) (a : Argument) : Step :=
  let blanks := s.rest.takeWhile isBlank
  match s.rest.dropWhile isBlank with
  | [] => .next [] { s with mode := .argument a }
  | c :: rest =>
    if c = '\n' then .next [] (s.pass (.continued a) (blanks ++ [c]) rest)
    else if c = '#' then
      let text := (c :: rest).takeWhile (· ≠ '\n')
      let token : Token := ⟨.comment, String.ofList text, s.position.after blanks⟩
      match (c :: rest).dropWhile (· ≠ '\n') with
      | [] => .next [token] (s.pass (.continued a) (blanks ++ text) [])
      | d :: behind => .next [token] (s.pass (.continued a) (blanks ++ text ++ [d]) behind)
    else .next [] { s with mode := .argument a }

/-- One step of the machine. -/
def step (s : State) : Step :=
  match s.mode with
  | .line window => lineStep s window s.rest
  | .argument a => argumentStep s a
  | .continued a => continuedStep s a

/-! ### Every step makes progress -/

theorem length_dropWhile_le (p : Char → Bool) (cs : List Char) :
    (cs.dropWhile p).length ≤ cs.length :=
  (List.dropWhile_suffix p).length_le

theorem continuation?_length (h : continuation? escape cs = some (span, rest)) :
    rest.length < cs.length := by
  cases cs with
  | nil => cases h
  | cons c cs =>
    simp only [continuation?] at h
    have := length_dropWhile_le isBlank cs
    split at h
    · split at h
      · split at h
        · cases h
        · cases h; simp
      · rename_i heq
        rw [heq] at this
        split at h
        · cases h
          simp only [List.length_cons] at this ⊢
          omega
        · cases h
    · cases h

theorem keyword_length_le (escape : Char) (cs : List Char) :
    (keyword escape cs).2.length ≤ cs.length := by
  induction cs with
  | nil => exact Nat.le_refl _
  | cons c rest ih =>
    simp only [keyword]
    split
    · exact Nat.le_refl _
    · simp only [consSpan, List.length_cons]
      omega

theorem literal_length_le (escape : Char) (cs : List Char) :
    (literal escape cs).2.length ≤ cs.length := by
  fun_induction literal escape cs <;> simp_all [consSpan] <;> omega

theorem literal_length_lt {c : Char} (blank : isBlank c = false) (line : c ≠ '\n')
    (quote : isQuote c = false) (dollar : (c = '$' && startsVariable rest) = false)
    (whole : continues escape (c :: rest) = false) :
    (literal escape (c :: rest)).2.length < (c :: rest).length := by
  unfold literal
  simp only [blank, line, quote, dollar, whole, decide_false, Bool.or_self, Bool.false_eq_true,
    if_false]
  split
  · split
    · simp
    · rename_i d behind
      have := literal_length_le escape behind
      simp only [consSpan, List.length_cons]
      omega
  · have := literal_length_le escape rest
    simp only [consSpan, List.length_cons]
    omega

theorem braces?_length (h : braces? depth cs = some (span, rest)) : rest.length < cs.length := by
  fun_induction braces? depth cs generalizing span rest
  case case1 | case2 => cases h
  case case4 => cases h; simp
  all_goals
    rename_i ih
    obtain ⟨cut, hc, he⟩ := Option.map_eq_some_iff.1 h
    cases he
    have := ih hc
    simp only [List.length_cons]
    omega

theorem reference?_length_le (h : reference? cs = some (span, rest)) : rest.length ≤ cs.length := by
  unfold reference? at h
  split at h
  · cases h; exact Nat.le_refl _
  · split at h
    · obtain ⟨cut, hc, he⟩ := Option.map_eq_some_iff.1 h
      cases he
      have := braces?_length hc
      simp only [List.length_cons]
      omega
    · cases h
      exact length_dropWhile_le _ _

theorem quoted?_length {quote : Char} {joined : Bool}
    (h : quoted? escape quote joined cs = some (span, rest)) : rest.length < cs.length := by
  fun_induction quoted? escape quote joined cs generalizing span rest
  case case1 | case3 | case6 => cases h
  case case5 => cases h; simp
  all_goals
    rename_i ih
    obtain ⟨cut, hc, he⟩ := Option.map_eq_some_iff.1 h
    cases he
    have := ih hc
    simp only [consSpan, List.length_cons]
    omega

theorem prependSegment_rest {text : List Char} {result : Except SpanFault Segment}
    {piece : Segment} (h : prependSegment text result = .ok piece) :
    ∃ tail, result = .ok tail ∧ tail.rest = piece.rest := by
  cases result with
  | error fault => cases h
  | ok tail => cases h; exact ⟨tail, rfl, rfl⟩

theorem segment_length_le {piece : Segment} (h : segment escape depth cs = .ok piece) :
    piece.rest.length ≤ cs.length := by
  fun_induction segment escape depth cs generalizing piece
  case case1 | case2 => cases h; exact Nat.le_refl _
  case case3 => cases h
  case case4 hs _ _ ih =>
    obtain ⟨tail, ht, he⟩ := prependSegment_rest h
    have := ih ht
    have := arrayString_length hs
    rw [← he]
    simp only [List.length_cons]
    omega
  case case6 => cases h; simp
  all_goals
    rename_i ih
    obtain ⟨tail, ht, he⟩ := prependSegment_rest h
    have := ih ht
    rw [← he]
    simp only [List.length_cons]
    omega

/-- The rank of a mode: a step that reads nothing lowers it. -/
def Mode.rank : Mode → Nat
  | .argument (.words _) => 0
  | .argument (.array _ _) => 1
  | .line _ => 1
  | .continued _ => 2

/-- What every step makes smaller. -/
def State.size (s : State) : Nat := 3 * s.rest.length + s.mode.rank

theorem Mode.rank_le (m : Mode) : m.rank ≤ 2 := by
  unfold Mode.rank
  split <;> omega

theorem State.size_lt_of_length_lt (h : t.rest.length < s.rest.length) : t.size < s.size := by
  have := t.mode.rank_le
  unfold State.size
  omega

theorem commentStep_size {window : Bool} (hs : s.rest = '#' :: cs)
    (h : commentStep s window s.rest = .next tokens t) : t.size < s.size := by
  apply State.size_lt_of_length_lt
  rw [hs] at h ⊢
  simp only [commentStep] at h
  have := length_dropWhile_le (· ≠ '\n') cs
  split at h
  · cases h; simp [State.pass]
  · rename_i heq
    cases h
    simp only [List.dropWhile_cons] at heq
    simp only [State.pass, List.length_cons]
    rw [if_pos (by decide)] at heq
    rw [heq] at this
    simp only [List.length_cons] at this
    omega

theorem lineStep_size {window : Bool} (hm : s.mode = .line window)
    (h : lineStep s window s.rest = .next tokens t) : t.size < s.size := by
  cases hs : s.rest with
  | nil => rw [hs] at h; cases h
  | cons c rest =>
    rw [hs] at h
    simp only [lineStep] at h
    split at h
    · cases h
      apply State.size_lt_of_length_lt
      have := length_dropWhile_le isBlank rest
      rw [hs]
      simp only [State.pass, List.length_cons]
      omega
    · split at h
      · cases h
        apply State.size_lt_of_length_lt
        rw [hs]
        simp [State.pass]
      · split at h
        · rename_i hc
          subst hc
          rw [← hs] at h
          exact commentStep_size hs h
        · cases h
          have := keyword_length_le s.escape (c :: rest)
          simp only [State.size, State.pass, Mode.rank, hm, hs]
          omega

theorem arrayStep_length_le {w : Words} {lead : List Char}
    (h : arrayStep s w depth lead cs = .next tokens t) :
    t.rest.length < cs.length ∨
      (t.rest.length ≤ cs.length ∧ ∃ w', t.mode = .argument (.words w')) := by
  simp only [arrayStep] at h
  split at h
  · cases h
  · rename_i piece hp
    have := segment_length_le hp
    split at h
    · cases h; exact .inr ⟨this, _, rfl⟩
    · split at h
      · rename_i hc
        have := continuation?_length hc
        cases h
        left
        simp only [State.pass]
        omega
      · cases h; exact .inr ⟨this, _, rfl⟩

theorem wordsStep_size {w : Words} (h : wordsStep s w s.rest = .next tokens t) :
    t.size < s.size := by
  apply State.size_lt_of_length_lt
  cases hs : s.rest with
  | nil => rw [hs] at h; cases h
  | cons c rest =>
    rw [hs] at h
    simp only [wordsStep] at h
    split at h
    · cases h; simp [State.pass]
    · rename_i line
      split at h
      · rename_i hc
        have := continuation?_length hc
        cases h
        exact this
      · rename_i whole
        split at h
        · cases h
          have := length_dropWhile_le isBlank rest
          simp only [State.pass, List.length_cons]
          omega
        · rename_i blank
          split at h
          · have := arrayStep_length_le h
            simp only [List.length_cons]
            omega
          · split at h
            · split at h
              · rename_i hq
                have := quoted?_length hq
                cases h
                simp only [State.pass, List.length_cons]
                omega
              · cases h
            · rename_i quote
              split at h
              · split at h
                · rename_i hv
                  have := reference?_length_le hv
                  cases h
                  simp only [State.pass, List.length_cons]
                  omega
                · cases h
              · rename_i dollar
                cases h
                exact literal_length_lt (by simpa using blank) line (by simpa using quote)
                  (by simpa using dollar) (by simp [continues, whole])

theorem continuedStep_size {a : Argument} (hm : s.mode = .continued a)
    (h : continuedStep s a = .next tokens t) : t.size < s.size := by
  have ha : (Mode.argument a).rank < 2 := by cases a <;> simp [Mode.rank]
  have hr : s.mode.rank = 2 := by rw [hm]; rfl
  simp only [continuedStep] at h
  have := length_dropWhile_le isBlank s.rest
  split at h
  · cases h
    simp only [State.size, hr]
    omega
  · rename_i c rest heq
    rw [heq] at this
    simp only [List.length_cons] at this
    split at h
    · cases h
      apply State.size_lt_of_length_lt
      simp only [State.pass]
      omega
    · split at h
      · rename_i hc
        subst hc
        have hd := length_dropWhile_le (· ≠ '\n') rest
        split at h
        · cases h
          apply State.size_lt_of_length_lt
          simp only [State.pass, List.length_nil]
          omega
        · rename_i heq
          cases h
          apply State.size_lt_of_length_lt
          rw [List.dropWhile_cons, if_pos (by decide)] at heq
          rw [heq] at hd
          simp only [List.length_cons] at hd
          simp only [State.pass]
          omega
      · cases h
        simp only [State.size, hr]
        omega

theorem step_size (h : step s = .next tokens t) : t.size < s.size := by
  unfold step at h
  split at h
  · exact lineStep_size (by assumption) h
  · rename_i a hm
    cases a with
    | words w => exact wordsStep_size h
    | array depth w =>
      rcases arrayStep_length_le h with hl | ⟨hl, w', ht⟩
      · exact State.size_lt_of_length_lt hl
      · simp only [State.size, hm, ht, Mode.rank]
        omega
  · exact continuedStep_size (by assumption) h

/-! ### Whole texts -/

/-- The tokens of a text, up to a fault if there is one. -/
structure Scan where
  tokens : List Token
  fault : Option Fault
  deriving DecidableEq, Repr

/-- Runs the machine until it stops. -/
def scanFrom (s : State) : Scan :=
  match h : step s with
  | .finished token => ⟨[token], none⟩
  | .stopped fault => ⟨[], some fault⟩
  | .next tokens t =>
    have := step_size h
    let scan := scanFrom t
    ⟨tokens ++ scan.tokens, scan.fault⟩
termination_by s.size

/-- The state at the start of a text. -/
def State.start (cs : List Char) : State := ⟨.line true, Directive.defaultEscape, .start, cs⟩

end Lexer

/-- Cuts a text into tokens. -/
def Token.scan (source : String) : Lexer.Scan :=
  Lexer.scanFrom (.start (Text.feedsOfPairs source.toList))

end Dockerfile
