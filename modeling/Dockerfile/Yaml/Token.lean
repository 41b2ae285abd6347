import Dockerfile.Yaml.Scalar

/-!
# Tokens of YAML

A YAML text is a stream of tokens. Some of them are written, others follow from how far lines are
indented: `blockSequence` and `blockMapping` open a collection, `blockEnd` closes it, and `key`
stands in front of a key, which a reader knows for one only at the colon behind it.

The reader goes through a text once. It knows at which columns the open block collections stand, how
many flow collections are open, and where on the current line a key could have started: at the colon
behind such a place the token `key` is put in front of what stands there, and a block mapping is
opened if the place is indented further than the collection around it.
-/

namespace Dockerfile.Yaml

/-- A line that starts with a percent sign. -/
inductive Directive where
  | version (major : Nat)
  | handle (name stem : String)
  | other
  deriving DecidableEq, Repr

/-- A token. A tag is a handle, perhaps, and the text behind it. -/
inductive Token where
  | directive (value : Directive)
  | documentStart
  | documentEnd
  | blockSequence
  | blockMapping
  | blockEnd
  | flowSequence
  | flowSequenceEnd
  | flowMapping
  | flowMappingEnd
  | flowEntry
  | blockEntry
  | key
  | value
  | refer (name : String)
  | anchor (name : String)
  | tag (handle : Option String) (suffix : String)
  | scalar (text : String) (plain : Bool)
  deriving DecidableEq, Repr

namespace Token

/-- The tokens of a text, or those in front of a fault. A reader of the tokens meets the fault only
where it needs the token that is missing. -/
structure Stream where
  tokens : List Token
  fault : Option Fault
  deriving DecidableEq, Repr

/-- A place where a key may have started: its place among the tokens, whether a key must start
there, and its position. -/
structure Start where
  place : Nat
  required : Bool
  index : Nat
  line : Nat
  column : Nat
  deriving DecidableEq, Repr

/-- The reader: the text ahead and its position, the open collections, whether a key may start here,
the possible starts of keys by the number of flow collections around them, and the tokens so far. -/
structure Reader where
  rest : List Char
  index : Nat := 0
  line : Nat := 0
  column : Nat := 0
  flow : Nat := 0
  indent : Int := -1
  outer : List Int := []
  keyAllowed : Bool := true
  starts : List (Nat × Start) := []
  tokens : List Token := []

namespace Reader

/-! ### Moving and adding -/

/-- Moves over `n` characters. A byte order mark takes no column. -/
def forward : Nat → Reader → Reader
  | 0, r => r
  | n + 1, r =>
    match r.rest with
    | [] => r
    | c :: rest =>
      let ends := isBreak c && !(c = '\r' && rest.head? = some '\n')
      forward n { r with
        rest
        index := r.index + 1
        line := if ends then r.line + 1 else r.line
        column := if ends then 0 else if c = '\ufeff' then r.column else r.column + 1 }

/-- Moves to where the text ahead is `rest`. -/
def forwardTo (rest : List Char) (r : Reader) : Reader :=
  r.forward (r.rest.length - rest.length)

/-- Adds a token. -/
def add (t : Token) (r : Reader) : Reader := { r with tokens := r.tokens ++ [t] }

/-- Puts tokens in front of the token at a place. -/
def insert (place : Nat) (ts : List Token) (r : Reader) : Reader :=
  { r with tokens := r.tokens.take place ++ ts ++ r.tokens.drop place }

/-- Is the reader outside all flow collections? -/
def inBlock (r : Reader) : Bool := r.flow = 0

/-! ### Indentation -/

/-- Closes the block collections that stand to the right of a column. -/
def closeTo (column : Int) (r : Reader) : Reader :=
  if r.inBlock then go r.outer r else r
where
  go : List Int → Reader → Reader
    | [], r => r
    | outer :: more, r =>
      if column < r.indent then
        go more { (r.add .blockEnd) with indent := outer, outer := more }
      else r

/-- Opens a block collection at a column if that is to the right of the innermost one. The second
component says whether one was opened. -/
def openAt (column : Nat) (r : Reader) : Reader × Bool :=
  if r.indent < column then
    ({ r with indent := column, outer := r.indent :: r.outer }, true)
  else (r, false)

/-- Opens a block collection at the current column, outside flow collections. -/
def openBlock (t : Token) (r : Reader) : Except Fault Reader := do
  if !r.inBlock then return r
  if !r.keyAllowed then throw .malformed
  let (r, opened) := r.openAt r.column
  pure (if opened then r.add t else r)

/-! ### Possible keys -/

/-- Forgets the starts of keys that are out of reach: a key is on one line and has at most 1024
characters. -/
def dropStale (r : Reader) : Except Fault Reader := do
  let stale (s : Start) : Bool := s.line != r.line || 1024 < r.index - s.index
  if r.starts.any fun (_, s) => stale s && s.required then throw .malformed
  pure { r with starts := r.starts.filter fun (_, s) => !stale s }

/-- Forgets the start of a key at the current level. -/
def dropStart (r : Reader) : Except Fault Reader := do
  match r.starts.lookup r.flow with
  | some s => if s.required then throw .malformed
  | none => pure ()
  pure { r with starts := r.starts.filter fun (level, _) => level != r.flow }

/-- Notes that a key may start here. -/
def markStart (r : Reader) : Except Fault Reader := do
  if !r.keyAllowed then return r
  let required := r.inBlock && r.indent = (r.column : Int)
  let start : Start := ⟨r.tokens.length, required, r.index, r.line, r.column⟩
  let r ← r.dropStart
  pure { r with starts := (r.flow, start) :: r.starts }

/-! ### Tokens by their first character -/

/-- The end of the text, a directive or a mark between documents closes all block collections. -/
def closeAll (r : Reader) : Except Fault Reader := do
  let r ← (r.closeTo (-1)).dropStart
  pure { r with keyAllowed := false }

/-- Reads an opening bracket or brace. -/
def openFlow (t : Token) (r : Reader) : Except Fault Reader := do
  let r ← r.markStart
  pure (({ r with flow := r.flow + 1, keyAllowed := true }.forward 1).add t)

/-- Reads a closing bracket or brace. -/
def closeFlow (t : Token) (r : Reader) : Except Fault Reader := do
  let r ← r.dropStart
  pure (({ r with flow := r.flow - 1, keyAllowed := false }.forward 1).add t)

/-- Reads a comma. -/
def readEntry (r : Reader) : Except Fault Reader := do
  let r ← r.dropStart
  pure (({ r with keyAllowed := true }.forward 1).add .flowEntry)

/-- Reads a hyphen in front of an item. -/
def readItem (r : Reader) : Except Fault Reader := do
  let r ← (← r.openBlock .blockSequence).dropStart
  pure (({ r with keyAllowed := true }.forward 1).add .blockEntry)

/-- Reads a question mark in front of a key. -/
def readKey (r : Reader) : Except Fault Reader := do
  let r ← (← r.openBlock .blockMapping).dropStart
  pure (({ r with keyAllowed := r.inBlock }.forward 1).add .key)

/-- Reads a colon behind a key. -/
def readColon (r : Reader) : Except Fault Reader := do
  match r.starts.lookup r.flow with
  | some s =>
    let r := { r with starts := r.starts.filter fun (level, _) => level != r.flow }
    let (r, opened) := if r.inBlock then r.openAt s.column else (r, false)
    let r := r.insert s.place (if opened then [.blockMapping, .key] else [.key])
    pure (({ r with keyAllowed := false }.forward 1).add .value)
  | none =>
    let r ← (← r.openBlock .blockMapping).dropStart
    pure (({ r with keyAllowed := r.inBlock }.forward 1).add .value)

/-- Reads a name behind its mark. -/
def readName (make : String → Token) (r : Reader) : Except Fault Reader := do
  let r ← r.markStart
  let name := (r.rest.drop 1).takeWhile isNameChar
  let rest := (r.rest.drop 1).dropWhile isNameChar
  let ends := atGap rest || rest.head?.any "?:,]\x7d%@\x60".toList.contains
  if name.isEmpty || !ends then throw .malformed
  pure (({ r with keyAllowed := false }.forwardTo rest).add (make (String.ofList name)))

/-! ### Tags and directives -/

/-- The characters of the text of a tag, escaped ones apart. -/
def isTagChar (c : Char) : Bool := c.isAlphanum || "-;/?:@&=+$,_.!~*'()[]".toList.contains c

/-- Reads the text of a tag. An escaped character is a percent sign and two hexadecimal digits. -/
def readTagText : List Char → Except Fault (List Char × List Char)
  | [] => pure ([], [])
  | '%' :: a :: b :: rest =>
    match hexNumber? [a, b] with
    | some n => do
      let (text, rest) ← readTagText rest
      pure (Char.ofNat n :: text, rest)
    | none => throw .malformed
  | c :: rest =>
    if c = '%' then throw .malformed
    else if isTagChar c then do
      let (text, rest) ← readTagText rest
      pure (c :: text, rest)
    else pure ([], c :: rest)

/-- Reads the text of a tag, which is not empty. -/
def readSuffix (cs : List Char) : Except Fault (String × List Char) := do
  let (text, rest) ← readTagText cs
  if text.isEmpty then throw .malformed
  pure (String.ofList text, rest)

/-- Reads a handle: one exclamation mark, or a name between two. -/
def readHandle : List Char → Except Fault (String × List Char)
  | '!' :: ' ' :: rest => pure ("!", ' ' :: rest)
  | '!' :: rest =>
    let name := rest.takeWhile isNameChar
    match rest.dropWhile isNameChar with
    | '!' :: rest => pure (String.ofList ('!' :: name ++ ['!']), rest)
    | _ => throw .malformed
  | _ => throw .malformed

/-- Does a tag's word end here? -/
def atTagEnd (cs : List Char) : Bool := cs.head?.all fun c => c = ' ' || isBreak c

/-- Reads a tag behind its exclamation mark. -/
def readTagBody (cs : List Char) : Except Fault (Token × List Char) := do
  match cs with
  | '<' :: rest =>
    let (suffix, rest) ← readSuffix rest
    match rest with
    | '>' :: rest => pure (.tag none suffix, rest)
    | _ => throw .malformed
  | _ =>
    if atGap cs then return (.tag none "!", cs)
    let word := cs.takeWhile fun c => !(c = ' ' || isBreak c)
    let (handle, rest) ← if word.contains '!' then readHandle ('!' :: cs) else pure ("!", cs)
    let (suffix, rest) ← readSuffix rest
    pure (.tag (some handle) suffix, rest)

/-- Reads a tag. -/
def readTag (r : Reader) : Except Fault Reader := do
  let r ← r.markStart
  let (t, rest) ← readTagBody (r.rest.drop 1)
  if !atTagEnd rest then throw .malformed
  pure (({ r with keyAllowed := false }.forwardTo rest).add t)

/-- Reads a version: two numbers with a point between them. -/
def readVersion (cs : List Char) : Except Fault (Directive × List Char) := do
  let major := cs.takeWhile Char.isDigit
  match cs.dropWhile Char.isDigit with
  | '.' :: rest =>
    let minor := rest.takeWhile Char.isDigit
    if major.isEmpty || minor.isEmpty then throw .malformed
    pure (.version ((String.ofList major).toNat?.getD 0), rest.dropWhile Char.isDigit)
  | _ => throw .malformed

/-- Reads a handle and what it stands for. -/
def readHandleText (cs : List Char) : Except Fault (Directive × List Char) := do
  let (handle, rest) ← readHandle cs
  if rest.head? != some ' ' then throw .malformed
  let (stem, rest) ← readSuffix (rest.dropWhile (· = ' '))
  pure (.handle handle stem, rest)

/-- Reads a directive. -/
def readDirective (r : Reader) : Except Fault Reader := do
  let r ← r.closeAll
  let name := (r.rest.drop 1).takeWhile isNameChar
  let rest := (r.rest.drop 1).dropWhile isNameChar
  if name.isEmpty || !atTagEnd rest then throw .malformed
  let body := rest.dropWhile (· = ' ')
  let (line, rest) ← match String.ofList name with
    | "YAML" => readVersion body
    | "TAG" => readHandleText body
    | _ => pure (.other, rest.dropWhile (!isBreak ·))
  if !atTagEnd rest then throw .malformed
  pure ((r.forwardTo (← readHeaderEnd rest)).add (.directive line))

/-! ### The next token -/

/-- Reads a block scalar. -/
def readBlockScalar (folded : Bool) (r : Reader) : Except Fault Reader := do
  let r ← r.dropStart
  let (text, rest) ← readBlock folded r.indent (r.rest.drop 1)
  pure (({ r with keyAllowed := true }.forwardTo rest).add (.scalar (String.ofList text) false))

/-- Reads a quoted scalar. -/
def readQuotedScalar (double : Bool) (r : Reader) : Except Fault Reader := do
  let r ← r.markStart
  let (text, rest) ← readQuoted double (r.rest.length + 1) (r.rest.drop 1)
  pure (({ r with keyAllowed := false }.forwardTo rest).add (.scalar (String.ofList text) false))

/-- Reads a plain scalar. -/
def readPlainScalar (r : Reader) : Except Fault Reader := do
  let r ← r.markStart
  let (text, broken, rest) :=
    readPlain (!r.inBlock) (r.indent + 1) (r.rest.length + 1) [] false r.rest
  pure (({ r with keyAllowed := broken }.forwardTo rest).add (.scalar (String.ofList text) true))

/-- Can a plain scalar start with `c`? -/
def startsPlain (flow : Bool) (c : Char) (rest : List Char) : Bool :=
  !(isBlank c || isBreak c || "-?:,[]\x7b\x7d#&*!|>'\"%@\x60".toList.contains c) ||
    (!atGap rest && (c = '-' || (!flow && (c = '?' || c = ':'))))

/-- Skips blanks, comments and line ends. The second component says whether a line ended. -/
def skipGap (comment broken : Bool) : List Char → List Char × Bool
  | [] => ([], broken)
  | c :: rest =>
    if isBreak c then skipGap false true rest
    else if comment || c = '#' then skipGap true broken rest
    else if c = ' ' then skipGap false broken rest
    else (c :: rest, broken)

/-- Moves to the next token. Behind a line end a key may start, outside flow collections. -/
def toToken (r : Reader) : Except Fault Reader := do
  let r := if r.index = 0 && r.rest.head? = some '\ufeff' then r.forward 1 else r
  let (rest, broken) := skipGap false false r.rest
  let r := { r with keyAllowed := r.keyAllowed || (broken && r.inBlock) }.forwardTo rest
  let r ← r.dropStale
  pure (r.closeTo r.column)

/-- Reads the token that starts with `c`. -/
def readToken (c : Char) (rest : List Char) (r : Reader) : Except Fault Reader :=
  let separator := r.column = 0 && atSeparator (c :: rest)
  if c = '%' && r.column = 0 then r.readDirective
  else if separator then do
    let r ← r.closeAll
    pure ((r.forward 3).add (if c = '-' then .documentStart else .documentEnd))
  else if c = '[' then r.openFlow .flowSequence
  else if c = '\x7b' then r.openFlow .flowMapping
  else if c = ']' then r.closeFlow .flowSequenceEnd
  else if c = '\x7d' then r.closeFlow .flowMappingEnd
  else if c = ',' then r.readEntry
  else if c = '-' && atGap rest then r.readItem
  else if c = '?' && (!r.inBlock || atGap rest) then r.readKey
  else if c = ':' && (!r.inBlock || atGap rest) then r.readColon
  else if c = '*' then r.readName .refer
  else if c = '&' then r.readName .anchor
  else if c = '!' then r.readTag
  else if c = '|' && r.inBlock then r.readBlockScalar false
  else if c = '>' && r.inBlock then r.readBlockScalar true
  else if c = '\'' then r.readQuotedScalar false
  else if c = '"' then r.readQuotedScalar true
  else if startsPlain (!r.inBlock) c rest then r.readPlainScalar
  else throw .malformed

/-- The tokens that no token read later can come in front of: those before the first place where a
key may have started. -/
def settled (r : Reader) : List Token :=
  match (r.starts.map fun (_, s) => s.place).min? with
  | some place => r.tokens.take place
  | none => r.tokens

/-- The tokens of a text in which no more can be read. -/
def breakOff (fault : Fault) (r : Reader) : Stream := ⟨r.settled, some fault⟩

/-- Reads at most `fuel` tokens. -/
def run : Nat → Reader → Stream
  | 0, r => r.breakOff .malformed
  | fuel + 1, r =>
    match r.toToken with
    | .error fault => r.breakOff fault
    | .ok r =>
      match r.rest with
      | [] =>
        match r.closeAll with
        | .ok r => ⟨r.tokens, none⟩
        | .error fault => r.breakOff fault
      | c :: rest =>
        match r.readToken c rest, r.markStart with
        | .ok r, _ => run fuel r
        | .error fault, .ok r => r.breakOff fault
        | .error fault, .error _ => r.breakOff fault

end Reader

/-- The tokens of a YAML text. -/
def scan (text : String) : Stream :=
  let cs := text.toList
  if cs.all isAllowed then Reader.run (cs.length + 1) { rest := cs } else ⟨[], some .malformed⟩

end Token

end Dockerfile.Yaml
