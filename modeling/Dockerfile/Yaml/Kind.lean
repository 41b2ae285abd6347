import Dockerfile.Text
import Dockerfile.Value
import Dockerfile.Yaml.Scalar

/-!
# What plain scalars are

The text of a plain scalar decides what it is: a truth value (`yes`, `Off`), a number in one of
several bases, of which sixty is one (`1:30`), a day or a time, nothing, or else a text.
-/

namespace Dockerfile.Yaml

/-- What a scalar is. `merge` and `default` are the texts `<<` and `=`, which mean something only as
keys. -/
inductive Kind where
  | null
  | bool
  | int
  | float
  | timestamp
  | merge
  | default
  | str
  deriving DecidableEq, Repr

namespace Kind

/-- The tag of a kind. -/
def tag : Kind → String
  | null => "tag:yaml.org,2002:null"
  | bool => "tag:yaml.org,2002:bool"
  | int => "tag:yaml.org,2002:int"
  | float => "tag:yaml.org,2002:float"
  | timestamp => "tag:yaml.org,2002:timestamp"
  | merge => "tag:yaml.org,2002:merge"
  | default => "tag:yaml.org,2002:value"
  | str => "tag:yaml.org,2002:str"

/-- The kinds. -/
def all : List Kind := [null, bool, int, float, timestamp, merge, default, str]

/-- The kind of a tag. -/
def ofTag? (tag : String) : Option Kind := all.find? fun kind => kind.tag = tag

/-! ### Truth values and nothing -/

/-- The truth value of a word, in small letters. -/
def truth? : String → Option Bool
  | "yes" | "true" | "on" => some true
  | "no" | "false" | "off" => some false
  | _ => none

/-- A word in small letters, if it is written in small letters, in capitals or with one capital. -/
def uniform? (cs : List Char) : Option String :=
  let small := cs.map Char.toLower
  let capitals := cs.map Char.toUpper
  let title := capitals.take 1 ++ small.drop 1
  if cs = small || cs = capitals || cs = title then some (String.ofList small) else none

/-! ### Numbers -/

/-- The text behind a sign, and whether the sign is negative. -/
def unsigned : List Char → Bool × List Char
  | '-' :: rest => (true, rest)
  | '+' :: rest => (false, rest)
  | cs => (false, cs)

/-- Do the characters start with one that satisfies `first` and go on with digits and
underscores? -/
def isNumeral (first : Char → Bool) : List Char → Bool
  | [] => false
  | c :: rest => first c && rest.all fun d => d.isDigit || d = '_'

/-- Is this a place of a number in base sixty, the first place apart? -/
def isSixtieth : List Char → Bool
  | [d] => d.isDigit
  | [c, d] => '0' ≤ c && c ≤ '5' && d.isDigit
  | _ => false

/-- Is this a number in base sixty, with colons between its places? -/
def isSexagesimal (first : Char → Bool) (cs : List Char) : Bool :=
  match Text.splitAt ':' cs with
  | head :: place :: places => isNumeral first head && (place :: places).all isSixtieth
  | _ => false

/-- Is this an integer? -/
def isInt (cs : List Char) : Bool :=
  let digits (p : Char → Bool) (ds : List Char) : Bool :=
    !ds.isEmpty && ds.all fun d => p d || d = '_'
  let positive (c : Char) : Bool := c.isDigit && c != '0'
  match (unsigned cs).2 with
  | ['0'] => true
  | '0' :: 'b' :: ds => digits (fun d => d = '0' || d = '1') ds
  | '0' :: 'x' :: ds => digits (fun d => (Json.Reader.hexValue? d).isSome) ds
  | '0' :: ds => digits (fun d => '0' ≤ d && d ≤ '7') ds
  | ds => isNumeral positive ds || isSexagesimal positive ds

/-- Is this an exponent with its sign? -/
def isExponent : List Char → Bool
  | [] => true
  | mark :: sign :: power =>
    (mark = 'e' || mark = 'E') && (sign = '-' || sign = '+') && !power.isEmpty &&
      power.all Char.isDigit
  | _ => false

/-- Is this what can stand behind the point of a number? -/
def isFraction (cs : List Char) : Bool :=
  isExponent (cs.dropWhile fun d => d.isDigit || d = '_')

/-- Is this a number with a point? -/
def isFloat (cs : List Char) : Bool :=
  let body := (unsigned cs).2
  let isInfinity := body = ".inf".toList || body = ".Inf".toList || body = ".INF".toList
  let isNan := cs = ".nan".toList || cs = ".NaN".toList || cs = ".NAN".toList
  isInfinity || isNan ||
    match Text.cut? '.' body with
    | none => false
    | some ([], behind) => body = cs && behind.head?.any Char.isDigit && isFraction behind
    | some (before, behind) =>
      (isNumeral Char.isDigit before && isFraction behind) ||
        (isSexagesimal Char.isDigit before && behind.all fun d => d.isDigit || d = '_')

/-- The natural number that digits spell in a base. -/
def natIn (base : Nat) (cs : List Char) : Nat :=
  cs.foldl (fun n c => base * n + (Json.Reader.hexValue? c).getD 0) 0

/-- The integer of a text that is one. -/
def readInt (cs : List Char) : Except Fault Int :=
  let (negative, digits) := unsigned (cs.filter (· != '_'))
  let inBase (base : Nat) (ds : List Char) : Except Fault Nat :=
    if ds.isEmpty then throw (.noDigits base) else pure (natIn base ds)
  let size : Except Fault Nat := match digits with
    | ['0'] => pure 0
    | '0' :: 'b' :: ds => inBase 2 ds
    | '0' :: 'x' :: ds => inBase 16 ds
    | '0' :: ds => inBase 8 ds
    | ds => pure ((Text.splitAt ':' ds).foldl (fun n place => 60 * n + natIn 10 place) 0)
  size.map fun n => if negative then -(n : Int) else n

/-- The sum of the places of a number in base sixty, the last place first, where places of less
weight than `base` add up to `sum`. -/
def sexagesimal (sum : Float) (base : Nat) : List (List Char) → Float
  | [] => sum
  | place :: places =>
    let x := ((Decimal.ofText? place).map Decimal.toFloat).getD 0.0
    sexagesimal (sum + x * Float.ofNat base) (base * 60) places

/-- The number of a text that is one. -/
def readFloat (cs : List Char) : Float :=
  let (negative, digits) := unsigned ((cs.filter (· != '_')).map Char.toLower)
  let size :=
    if digits = ".inf".toList then 1.0 / 0.0
    else if digits = ".nan".toList then 0.0 / 0.0
    else sexagesimal 0.0 1 (Text.splitAt ':' digits).reverse
  if negative then -size else size

/-! ### Days and times -/

/-- Reads from `least` to `most` digits. -/
def readDigits? (least most : Nat) (cs : List Char) : Option (Nat × List Char) :=
  let digits := (cs.take most).takeWhile Char.isDigit
  if digits.length < least then none
  else some (Decimal.natOfDigits digits, cs.drop digits.length)

/-- Reads a character. -/
def readChar? (c : Char) : List Char → Option (List Char)
  | d :: rest => if d = c then some rest else none
  | [] => none

/-- Reads the offset of a time from universal time, in minutes, up to the end of the text. -/
def readOffset? (cs : List Char) : Option (Option Int) :=
  match cs.dropWhile isBlank with
  | [] => if cs.isEmpty then some none else none
  | ['Z'] => some (some 0)
  | sign :: rest => do
    if sign != '-' && sign != '+' then none
    let (hours, rest) ← readDigits? 1 2 rest
    let (minutes, rest) ← match rest with
      | ':' :: rest => readDigits? 2 2 rest
      | _ => some (0, rest)
    if !rest.isEmpty then none
    let size : Int := 60 * hours + minutes
    some (some (if sign = '-' then -size else size))

/-- Reads the digits of a fraction of a second: how many millionths they give, of which there are at
most six digits. -/
def readMillionths : List Char → Nat × List Char
  | '.' :: rest =>
    let digits := rest.takeWhile Char.isDigit
    let six := (digits ++ List.replicate 6 '0').take 6
    (if digits.isEmpty then 0 else Decimal.natOfDigits six, rest.dropWhile Char.isDigit)
  | cs => (0, cs)

/-- Reads a day, or a time on a day. A day alone has two digits for its month and two for its day of
the month. -/
def readTimestamp? (cs : List Char) : Option (Except Calendar.Fault Value) := do
  let (year, rest) ← readDigits? 4 4 cs
  let (month, rest) ← readDigits? 1 2 (← readChar? '-' rest)
  let (day, rest) ← readDigits? 1 2 (← readChar? '-' rest)
  match rest with
  | [] => if cs.length = 10 then some (.date <$> Date.make year month day) else none
  | c :: more =>
    let rest ← if c = 'T' || c = 't' then some more
      else if isBlank c then some (more.dropWhile isBlank) else none
    let (hour, rest) ← readDigits? 1 2 rest
    let (minute, rest) ← readDigits? 2 2 (← readChar? ':' rest)
    let (second, rest) ← readDigits? 2 2 (← readChar? ':' rest)
    let (millionths, rest) := readMillionths rest
    let offset ← readOffset? rest
    some (.moment <$> Moment.make year month day hour minute second millionths offset)

/-! ### Plain scalars -/

/-- The kind of a plain scalar. -/
def ofPlain (text : String) : Kind :=
  let cs := text.toList
  let word := uniform? cs
  if (word >>= truth?).isSome then bool
  else if isFloat cs then float
  else if isInt cs then int
  else if text = "<<" then merge
  else if text = "" || text = "~" || word = some "null" then null
  else if (readTimestamp? cs).isSome then timestamp
  else if text = "=" then default
  else str

/-- The value of a scalar of a kind. -/
def value (kind : Kind) (text : String) : Except Fault Value :=
  let cs := text.toList
  match kind with
  | null => pure .null
  | str => pure (.str text)
  | bool => match truth? (String.ofList (cs.map Char.toLower)) with
    | some b => pure (.bool b)
    | none => throw .malformed
  | int => if isInt cs then .int <$> readInt cs else throw .malformed
  | float => if isFloat cs then pure (.float (readFloat cs)) else throw .malformed
  | timestamp => match readTimestamp? cs with
    | some (.ok value) => pure value
    | some (.error fault) => throw (.calendar fault)
    | none => throw .malformed
  | merge | default => throw .malformed

end Kind

end Dockerfile.Yaml
