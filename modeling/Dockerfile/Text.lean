import Dockerfile.Text.Character

/-!
# Texts

What is done with a text as such: white space, line ends, cutting at a separator, integers, quoting,
control sequences and paths.

An integer is written with an optional sign and decimal digits of any script, with single underscores
between digits and white space around the whole, and has at most `integerLimit` digits.
`decimalIndex?` reads a number of any length; what the program does on a longer one is left out.
-/

namespace Dockerfile.Text

/-! ### White space -/

/-- The text without white space at its end. -/
def stripEnd (s : List Char) : List Char := (s.reverse.dropWhile isSpace).reverse

/-- The text without white space at either end. -/
def stripChars (s : List Char) : List Char := stripEnd (s.dropWhile isSpace)

/-- The text without white space at either end. -/
def strip (s : String) : String := String.ofList (stripChars s.toList)

/-! ### Line ends -/

/-- A text with each pair of carriage return and line feed made a line feed. -/
def feedsOfPairs : List Char → List Char
  | [] => []
  | c :: rest =>
    if c = '\r' && rest.head? == some '\n' then feedsOfPairs rest else c :: feedsOfPairs rest

/-- A text with every line end made a line feed. -/
def feedsOfLineEnds (cs : List Char) : List Char :=
  (feedsOfPairs cs).map fun c => if c = '\r' then '\n' else c

/-- The text of a file, whatever its line ends are. -/
def ofFile (s : String) : String := String.ofList (feedsOfLineEnds s.toList)

/-! ### Cutting -/

/-- The parts of a text between the characters that satisfy `p`. There is always at least one. -/
def splitWhen (p : Char → Bool) : List Char → List (List Char)
  | [] => [[]]
  | c :: rest =>
    if p c then [] :: splitWhen p rest
    else match splitWhen p rest with
      | [] => [[c]]
      | part :: parts => (c :: part) :: parts

/-- The parts of a text between occurrences of a separator. -/
def splitAt (separator : Char) : List Char → List (List Char) := splitWhen (· == separator)

/-- The parts before and behind the first occurrence of a separator. -/
def cut? (separator : Char) : List Char → Option (List Char × List Char)
  | [] => none
  | c :: rest =>
    if c = separator then some ([], rest)
    else (cut? separator rest).map fun (before, behind) => (c :: before, behind)

/-- The parts before and behind the last occurrence of a separator. -/
def cutLast? (separator : Char) : List Char → Option (List Char × List Char)
  | [] => none
  | c :: rest =>
    match cutLast? separator rest with
    | some (before, behind) => some (c :: before, behind)
    | none => if c = separator then some ([], rest) else none

/-- The parts before and behind the first separator that stands outside braces, where `depth` more
braces are open than closed. -/
def cutOutsideBraces? (separator : Char) (depth : Int) :
    List Char → Option (List Char × List Char)
  | [] => none
  | c :: rest =>
    let go (depth : Int) := (cutOutsideBraces? separator depth rest).map
      fun (before, behind) => (c :: before, behind)
    if c = '\x7b' then go (depth + 1)
    else if c = '\x7d' then go (depth - 1)
    else if c = separator && depth == 0 then some ([], rest)
    else go depth

/-- The part of a text before the first separator outside braces, and the part behind it if there
is one. -/
def cutWord (separator : Char) (s : String) : String × Option String :=
  match cutOutsideBraces? separator 0 s.toList with
  | some (before, behind) => (String.ofList before, some (String.ofList behind))
  | none => (s, none)

/-- The part of a text before the first separator, and the part behind it if there is one. -/
def cutString (separator : Char) (s : String) : String × Option String :=
  match cut? separator s.toList with
  | some (before, behind) => (String.ofList before, some (String.ofList behind))
  | none => (s, none)

/-- Does a text satisfy `p` as a whole, or up to a line feed that ends it? -/
def wholeLine (p : List Char → Bool) (s : List Char) : Bool :=
  p s || (s.getLast? == some '\n' && p s.dropLast)

/-! ### Integers -/

/-- The most digits that an integer may have. -/
def integerLimit : Nat := 4300

/-- The number that the digits write, `acc` being what earlier digits wrote. Underscores stand
between two digits. -/
def readDigits? (acc : Nat) : List Char → Option Nat
  | [] => some acc
  | '_' :: c :: rest => (digitValue? c).bind fun d => readDigits? (10 * acc + d) rest
  | c :: rest => (digitValue? c).bind fun d => readDigits? (10 * acc + d) rest

/-- A natural number: at least one digit, the first character a digit. -/
def readNat? : List Char → Option Nat
  | [] => none
  | c :: rest => (digitValue? c).bind fun d => readDigits? d rest

/-- The blanks that may surround an integer. The information separators are none. -/
def isIntegerBlank (c : Char) : Bool :=
  if c.toNat < 128 then (9 ≤ c.toNat && c.toNat ≤ 13) || c = ' ' else isSpace c

/-- Reads an integer that is not too long. -/
def readInt? (s : String) : Option Int :=
  let body := (s.toList.dropWhile isIntegerBlank).reverse.dropWhile isIntegerBlank
  if integerLimit < body.countP isDecimal then none
  else match body.reverse with
    | '-' :: rest => (readNat? rest).map fun n => -(n : Int)
    | '+' :: rest => (readNat? rest).map fun n => (n : Int)
    | rest => (readNat? rest).map fun n => (n : Int)

/-- A text of decimal digits alone, and at least one of them, with the number it writes. -/
def decimalIndex? (s : String) : Option Nat :=
  if !s.isEmpty && s.toList.all isDecimal then readNat? s.toList else none

/-! ### Quoting -/

/-- The hexadecimal digits of `n`, at least `width` of them. -/
def hexDigits (width n : Nat) : List Char :=
  let digits := Nat.toDigits 16 n
  List.replicate (width - digits.length) '0' ++ digits

/-- A code point as `\xNN`, `\uNNNN` or `\UNNNNNNNN`, whichever is the shortest that holds it. -/
def escapeCode (c : Char) : List Char :=
  if c.toNat < 0x100 then '\\' :: 'x' :: hexDigits 2 c.toNat
  else if c.toNat < 0x10000 then '\\' :: 'u' :: hexDigits 4 c.toNat
  else '\\' :: 'U' :: hexDigits 8 c.toNat

/-- The quote that surrounds `s`. -/
def quoteFor (s : List Char) : Char :=
  if s.contains '\'' && !s.contains '"' then '"' else '\''

/-- One character of a text between two `quote`s. -/
def quoteChar (quote c : Char) : List Char :=
  if c = quote || c = '\\' then ['\\', c]
  else if c = '\n' then ['\\', 'n']
  else if c = '\r' then ['\\', 'r']
  else if c = '\t' then ['\\', 't']
  else if isPrintable c then [c]
  else escapeCode c

/-- The text between quotes. -/
def quotedChars (s : List Char) : List Char :=
  let quote := quoteFor s
  quote :: s.flatMap (quoteChar quote) ++ [quote]

/-- The text between quotes. -/
def quoted (s : String) : String := String.ofList (quotedChars s.toList)

/-! ### Control sequences of terminals -/

/-- Is a character a parameter of a control sequence: a digit or one of `:;<=>?`? -/
def isParameter (c : Char) : Bool := '0' ≤ c && c ≤ '?'

/-- Is a character an intermediate one of a control sequence: a space or punctuation up to the
slash? -/
def isIntermediate (c : Char) : Bool := ' ' ≤ c && c ≤ '/'

/-- Does a character end a control sequence? -/
def isFinal (c : Char) : Bool := '@' ≤ c && c ≤ '~'

/-- The text behind the control sequence that a text starts with, if it starts with one. -/
def skipControl? : List Char → Option (List Char)
  | '\x1b' :: '[' :: rest =>
    match (rest.dropWhile isParameter).dropWhile isIntermediate with
    | c :: behind => if isFinal c then some behind else none
    | [] => none
  | _ => none

theorem skipControl?_length {cs rest : List Char} (h : skipControl? cs = some rest) :
    rest.length < cs.length := by
  unfold skipControl? at h
  split at h
  · rename_i behind
    have parameters := (List.dropWhile_suffix (l := behind) isParameter).length_le
    have others := (List.dropWhile_suffix (l := behind.dropWhile isParameter) isIntermediate).length_le
    split at h
    · rename_i heq
      split at h
      · cases h
        rw [heq] at others
        simp only [List.length_cons] at others ⊢
        omega
      · cases h
    · cases h
  · cases h

/-- A text without its control sequences. -/
def dropControls (cs : List Char) : List Char :=
  match h : skipControl? cs with
  | some rest =>
    have := skipControl?_length h
    dropControls rest
  | none =>
    match cs with
    | [] => []
    | c :: rest => c :: dropControls rest
termination_by cs.length
decreasing_by all_goals simp_all

/-- A text as a stream shows it that is no terminal. -/
def plain (s : String) : String := String.ofList (dropControls s.toList)

/-! ### Paths -/

namespace Path

/-- The path `path` seen from the folder `folder`. -/
def join (folder path : List Char) : List Char :=
  if path.head? = some '/' then path
  else if folder.isEmpty || folder.getLast? = some '/' then folder ++ path
  else folder ++ '/' :: path

/-- The leading slashes that stay: two if there are exactly two, otherwise at most one. -/
def root : List Char → List Char
  | '/' :: '/' :: '/' :: _ => ['/']
  | '/' :: '/' :: _ => ['/', '/']
  | '/' :: _ => ['/']
  | _ => []

/-- Adds a component to the normalized components `done`, the innermost first. A `..` removes a
component, stays at the start of a relative path, and vanishes at the root. -/
def push (rooted : Bool) (done : List (List Char)) (component : List Char) : List (List Char) :=
  if component = [] || component = ['.'] then done
  else if component = ['.', '.'] then
    match done with
    | [] => if rooted then [] else [component]
    | last :: earlier => if last = ['.', '.'] then component :: done else earlier
  else component :: done

/-- Components with slashes between them. -/
def joinComponents (components : List (List Char)) : List Char :=
  ['/'].intercalate components

/-- The path without empty, `.` and resolvable `..` components. -/
def normalize (path : List Char) : List Char :=
  let lead := root path
  let components := ((splitAt '/' path).foldl (push !lead.isEmpty) []).reverse
  match lead ++ joinComponents components with
  | [] => ['.']
  | result => result

/-- The folder that a path names something in: what stands before its last slash, and nothing if it
has none. Slashes at the end do not count unless there is nothing else. -/
def folder (path : List Char) : List Char :=
  match cutLast? '/' path with
  | none => []
  | some (lead, _) =>
    if lead.all (· = '/') then lead ++ ['/'] else (lead.reverse.dropWhile (· = '/')).reverse

end Path

end Dockerfile.Text
