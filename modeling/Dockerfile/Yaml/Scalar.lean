import Dockerfile.Calendar
import Dockerfile.Json.Reader

/-!
# Characters and scalars of YAML

The texts of quoted, plain and block scalars. A line end inside a scalar is folded: it becomes a
space, or it goes if empty lines follow it, which stay. Each reader gives the text and what follows
it.
-/

namespace Dockerfile.Yaml

/-- Why a text gives no value: it is no YAML, or it is and names a day, a number or a character that
does not exist. -/
inductive Fault where
  | malformed
  | calendar (fault : Calendar.Fault)
  | noDigits (base : Nat)
  | codePoint
  deriving DecidableEq, Repr

/-- The wording of a fault. -/
def Fault.message : Fault → String
  | malformed => "invalid YAML"
  | calendar fault => fault.message
  | noDigits base => s!"invalid literal for int() with base {base}: ''"
  | codePoint => "chr() arg not in range(0x110000)"

/-! ### Characters -/

/-- Can `c` stand in a YAML text? -/
def isAllowed (c : Char) : Bool :=
  let n := c.toNat
  n = 0x9 || n = 0xA || n = 0xD || (0x20 ≤ n && n ≤ 0x7E) || n = 0x85 ||
    (0xA0 ≤ n && n ≤ 0xD7FF) || (0xE000 ≤ n && n ≤ 0xFFFD) || 0x10000 ≤ n

/-- Does `c` end a line? -/
def isBreak (c : Char) : Bool :=
  c = '\n' || c = '\r' || c = '\x85' || c = '\u2028' || c = '\u2029'

/-- A blank stands between words of a line. -/
def isBlank (c : Char) : Bool := c = ' ' || c = '\t'

/-- Does a text end here, or does a blank or a line end come? -/
def atGap (cs : List Char) : Bool := cs.head?.all fun c => isBlank c || isBreak c

/-- Does a text end here, or does its line? -/
def atLineEnd (cs : List Char) : Bool := cs.head?.all isBreak

/-- The character that a line end stands for. All but the two separators of Unicode count as a line
feed. -/
def breakChar (c : Char) : Char := if c = '\u2028' || c = '\u2029' then c else '\n'

/-- Reads a line end. -/
def readBreak? : List Char → Option (Char × List Char)
  | '\r' :: '\n' :: rest => some ('\n', rest)
  | c :: rest => if isBreak c then some (breakChar c, rest) else none
  | [] => none

/-- Does a mark between documents stand here? -/
def atSeparator : List Char → Bool
  | '-' :: '-' :: '-' :: rest => atGap rest
  | '.' :: '.' :: '.' :: rest => atGap rest
  | _ => false

/-- The characters of the names of anchors, directives and tag handles. -/
def isNameChar (c : Char) : Bool := c.isAlphanum || c = '-' || c = '_'

/-- What a line end with further line ends behind it stands for in a folded text. -/
def fold (first : Char) (more : List Char) : List Char :=
  if first != '\n' then first :: more else if more.isEmpty then [' '] else more

/-! ### Quoted scalars -/

/-- Reads the line ends, with blanks before them, up to the next character of a quoted scalar. No
mark between documents may stand there. -/
def readBreaks : Nat → List Char → Except Fault (List Char × List Char)
  | 0, _ => throw .malformed
  | fuel + 1, cs => do
    if atSeparator cs then throw .malformed
    let cs := cs.dropWhile isBlank
    match readBreak? cs with
    | none => pure ([], cs)
    | some (c, rest) =>
      let (more, rest) ← readBreaks fuel rest
      pure (c :: more, rest)

/-- What stands for an escaped character. -/
def escaped? : Char → Option Char
  | '0' => some '\x00'
  | 'a' => some '\x07'
  | 'b' => some '\x08'
  | 't' | '\t' => some '\t'
  | 'n' => some '\n'
  | 'v' => some '\x0b'
  | 'f' => some '\x0c'
  | 'r' => some '\r'
  | 'e' => some '\x1b'
  | ' ' => some ' '
  | '"' => some '"'
  | '\\' => some '\\'
  | '/' => some '/'
  | 'N' => some '\x85'
  | '_' => some '\xa0'
  | 'L' => some '\u2028'
  | 'P' => some '\u2029'
  | _ => none

/-- The number of hexadecimal digits behind an escaped letter. -/
def codeWidth? : Char → Option Nat
  | 'x' => some 2
  | 'u' => some 4
  | 'U' => some 8
  | _ => none

/-- The number that hexadecimal digits spell. -/
def hexNumber? (cs : List Char) : Option Nat :=
  cs.foldl (fun n c => do pure (16 * (← n) + (← Json.Reader.hexValue? c))) (some 0)

/-- Reads what stands behind a backslash. -/
def readEscape : List Char → Except Fault (List Char × List Char)
  | [] => throw .malformed
  | c :: rest =>
    match escaped? c, codeWidth? c with
    | some d, _ => pure ([d], rest)
    | none, some width =>
      match hexNumber? (rest.take width) with
      | some n =>
        if rest.length < width then throw .malformed
        else if 0x110000 ≤ n then throw .codePoint
        else pure ([Char.ofNat n], rest.drop width)
      | none => throw .malformed
    | none, none =>
      match readBreak? (c :: rest) with
      | some (_, rest) => readBreaks (rest.length + 1) rest
      | none => throw .malformed

/-- Reads a quoted scalar behind its opening quote. A single quote is written twice in single
quotes, and a backslash escapes in double quotes. -/
def readQuoted (double : Bool) : Nat → List Char → Except Fault (List Char × List Char)
  | 0, _ => throw .malformed
  | _, [] => throw .malformed
  | fuel + 1, c :: rest => do
    if isBlank c || isBreak c then
      let behind := (c :: rest).dropWhile isBlank
      match readBreak? behind with
      | some (first, rest) =>
        let (more, rest) ← readBreaks (rest.length + 1) rest
        let (text, rest) ← readQuoted double fuel rest
        pure (fold first more ++ text, rest)
      | none =>
        let blanks := (c :: rest).takeWhile isBlank
        let (text, rest) ← readQuoted double fuel behind
        pure (blanks ++ text, rest)
    else if double && c = '\\' then
      let (piece, rest) ← readEscape rest
      let (text, rest) ← readQuoted double fuel rest
      pure (piece ++ text, rest)
    else if double && c = '"' then pure ([], rest)
    else if !double && c = '\'' then
      match rest with
      | '\'' :: rest =>
        let (text, rest) ← readQuoted double fuel rest
        pure ('\'' :: text, rest)
      | _ => pure ([], rest)
    else
      let (text, rest) ← readQuoted double fuel rest
      pure (c :: text, rest)

/-! ### Plain scalars -/

/-- The characters that structure a flow collection. -/
def isFlowMark (c : Char) : Bool := c = ',' || c = '[' || c = ']' || c = '\x7b' || c = '\x7d'

/-- Does a word of a plain scalar end here? -/
def endsWord (flow : Bool) (c : Char) (rest : List Char) : Bool :=
  isBlank c || isBreak c || (c = ':' && (atGap rest || (flow && rest.head?.any isFlowMark))) ||
    (flow && (isFlowMark c || c = '?'))

/-- A word of a plain scalar and what follows it. -/
def readWord (flow : Bool) : List Char → List Char × List Char
  | [] => ([], [])
  | c :: rest =>
    if endsWord flow c rest then ([], c :: rest)
    else
      let (word, rest) := readWord flow rest
      (c :: word, rest)

/-- What follows a word of a plain scalar: the text between it and the next word, or nothing if the
scalar ends; the column of the next word if it is on another line; whether a line ended; the
rest. -/
structure Between where
  text : Option (List Char)
  column : Option Nat
  broken : Bool
  rest : List Char

/-- Reads the empty lines between two words, from a column on. A mark between documents ends the
scalar. -/
def readEmptyLines (column : Nat) : List Char → Option (List Char) × Nat × List Char
  | [] => (some [], column, [])
  | '\r' :: '\n' :: rest => emptyLine '\n' rest (readEmptyLines 0 rest)
  | c :: rest =>
    if c = ' ' then readEmptyLines (column + 1) rest
    else if isBreak c then
      emptyLine (breakChar c) rest (readEmptyLines 0 rest)
    else (some [], column, c :: rest)
where
  emptyLine (c : Char) (rest : List Char) (later : Option (List Char) × Nat × List Char) :
      Option (List Char) × Nat × List Char :=
    if atSeparator rest then (none, 0, rest) else (later.1.map (c :: ·), later.2)

/-- Reads what stands between a word of a plain scalar and the next. -/
def readBetween (cs : List Char) : Between :=
  let blanks := cs.takeWhile (· = ' ')
  let behind := cs.dropWhile (· = ' ')
  match readBreak? behind with
  | none => ⟨if blanks.isEmpty then none else some blanks, none, false, behind⟩
  | some (first, rest) =>
    if atSeparator rest then ⟨none, some 0, true, rest⟩
    else
      let (more, column, rest) := readEmptyLines 0 rest
      ⟨more.map (fold first), some column, true, rest⟩

/-- Reads a plain scalar, in which `pending` stands before the next word. The scalar ends before a
comment and, outside flow collections, before a line that is not indented to column `indent`. The
second component says whether a line ended behind it. -/
def readPlain (flow : Bool) (indent : Int) :
    Nat → List Char → Bool → List Char → List Char × Bool × List Char
  | 0, _, broken, cs => ([], broken, cs)
  | fuel + 1, pending, broken, cs =>
    if cs.head? = some '#' then ([], broken, cs)
    else
      match readWord flow cs with
      | ([], _) => ([], broken, cs)
      | (word, rest) =>
        let next := readBetween rest
        let ends := next.rest.head? = some '#' ||
          (!flow && next.column.any fun column => (column : Int) < indent)
        match next.text with
        | none => (pending ++ word, next.broken, next.rest)
        | some between =>
          if ends then (pending ++ word, next.broken, next.rest)
          else
            let (text, broken, rest) := readPlain flow indent fuel between next.broken next.rest
            (pending ++ word ++ text, broken, rest)

/-! ### Block scalars -/

/-- What becomes of the line ends behind a block scalar. -/
inductive Chomp where
  | clip
  | strip
  | keep
  deriving DecidableEq, Repr

/-- Reads a mark of what becomes of the last line ends. -/
def readChomp : List Char → Chomp × List Char
  | '+' :: rest => (.keep, rest)
  | '-' :: rest => (.strip, rest)
  | cs => (.clip, cs)

/-- Reads a digit that gives the indentation. -/
def readIncrement (cs : List Char) : Option Nat × List Char :=
  match cs with
  | c :: rest => if c.isDigit then (some (c.toNat - '0'.toNat), rest) else (none, cs)
  | [] => (none, [])

/-- The text behind blanks, a comment and the end of a line. -/
def readHeaderEnd (cs : List Char) : Except Fault (List Char) :=
  let cs := cs.dropWhile (· = ' ')
  let cs := if cs.head? = some '#' then cs.dropWhile (!isBreak ·) else cs
  if atLineEnd cs then pure ((readBreak? cs).elim cs Prod.snd) else throw .malformed

/-- Reads the line in which a block scalar starts, behind its mark. -/
def readHeader (cs : List Char) : Except Fault (Chomp × Option Nat × List Char) := do
  let (chomp, increment, rest) := match readChomp cs with
    | (.clip, _) =>
      let (increment, rest) := readIncrement cs
      let (chomp, rest) := if increment.isSome then readChomp rest else (.clip, rest)
      (chomp, increment, rest)
    | (chomp, rest) =>
      let (increment, rest) := readIncrement rest
      (chomp, increment, rest)
  if increment = some 0 then throw .malformed
  if !(rest.head?.all fun c => c = ' ' || isBreak c) then throw .malformed
  pure (chomp, increment, ← readHeaderEnd rest)

/-- Where the text of a block scalar goes on: the line ends before it, the column and the rest. -/
structure Margin where
  breaks : List Char
  column : Nat
  rest : List Char

/-- Reads the empty lines in front of a block scalar's text; the second component is the column of
the most indented of them and of the text. -/
def readLeading (column most : Nat) : List Char → Margin × Nat
  | [] => (⟨[], column, []⟩, most)
  | '\r' :: '\n' :: rest => breakBefore '\n' (readLeading 0 most rest)
  | c :: rest =>
    if c = ' ' then readLeading (column + 1) (max most (column + 1)) rest
    else if isBreak c then
      breakBefore (breakChar c) (readLeading 0 most rest)
    else (⟨[], column, c :: rest⟩, most)
where
  breakBefore (c : Char) (later : Margin × Nat) : Margin × Nat :=
    (⟨c :: later.1.breaks, later.1.column, later.1.rest⟩, later.2)

/-- Reads empty lines and the indentation of the line behind them, up to column `indent`. -/
def readMargin (indent : Nat) : Nat → List Char → Margin
  | 0, cs => ⟨[], 0, cs⟩
  | fuel + 1, cs =>
    let column := min indent (cs.takeWhile (· = ' ')).length
    let rest := cs.drop column
    match readBreak? rest with
    | some (c, rest) =>
      let later := readMargin indent fuel rest
      ⟨c :: later.breaks, later.column, later.rest⟩
    | none => ⟨[], column, rest⟩

/-- The text that the last line ends of a block scalar stand for. -/
def Chomp.apply (chomp : Chomp) (last : Option Char) (more : List Char) : List Char :=
  match chomp with
  | strip => []
  | clip => last.toList
  | keep => last.toList ++ more

/-- Reads the lines of a block scalar. In a folded one a line end between two lines that start with
no blank is folded. -/
def readLines (folded : Bool) (chomp : Chomp) (indent : Nat) :
    Nat → Margin → List Char × List Char
  | 0, margin => ([], margin.rest)
  | fuel + 1, margin =>
    let line := margin.rest.takeWhile (!isBreak ·)
    let behind := margin.rest.dropWhile (!isBreak ·)
    let last := (readBreak? behind).map Prod.fst
    let behind := (readBreak? behind).elim behind Prod.snd
    let next := readMargin indent (behind.length + 1) behind
    if next.column = indent && !next.rest.isEmpty then
      let even (cs : List Char) : Bool := !cs.head?.any isBlank
      let join := if folded && last = some '\n' && even margin.rest && even next.rest then
          if next.breaks.isEmpty then [' '] else []
        else last.toList
      let (text, rest) := readLines folded chomp indent fuel next
      (margin.breaks ++ line ++ join ++ text, rest)
    else (margin.breaks ++ line ++ chomp.apply last next.breaks, next.rest)

/-- Reads a block scalar behind its mark, in a collection at column `parent`. -/
def readBlock (folded : Bool) (parent : Int) (cs : List Char) :
    Except Fault (List Char × List Char) := do
  let (chomp, increment, rest) ← readHeader cs
  let least := (max (parent + 1) 1).toNat
  let (margin, indent) := match increment with
    | some n => (readMargin (least + n - 1) (rest.length + 1) rest, least + n - 1)
    | none =>
      let (margin, most) := readLeading 0 0 rest
      (margin, max least most)
  if margin.column = indent && !margin.rest.isEmpty then
    pure (readLines folded chomp indent (rest.length + 1) margin)
  else pure (chomp.apply none margin.breaks, margin.rest)

end Dockerfile.Yaml
