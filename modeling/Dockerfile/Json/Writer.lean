import Dockerfile.Text

/-!
# Writing JSON

A JSON value here has no fractions, and the fields of an object are kept in the order in which they
are written. There are three layouts: `compact` without any blank, `canonical`, which is `compact`
after the fields of every object are put in the order of their names, and `indented` with two blanks
for each level. Characters beyond ASCII are written as they are.
-/

namespace Dockerfile

/-- A JSON value whose numbers are integers. -/
inductive Json where
  | null
  | bool (value : Bool)
  | int (value : Int)
  | str (value : String)
  | arr (items : List Json)
  | obj (fields : List (String × Json))
  deriving Inhabited

namespace Json

/-- A text, or `null`. -/
def ofOption (value : Option String) : Json := value.elim .null .str

/-- A natural number. -/
def nat (n : Nat) : Json := .int n

/-- A natural number, or `null`. -/
def ofNat? (value : Option Nat) : Json := value.elim .null nat

/-- An array of texts. -/
def strings (items : List String) : Json := .arr (items.map .str)

/-- One character of a JSON string. -/
def escapeChar (c : Char) : List Char :=
  if c = '"' then ['\\', '"']
  else if c = '\\' then ['\\', '\\']
  else if c = '\n' then ['\\', 'n']
  else if c = '\r' then ['\\', 'r']
  else if c = '\t' then ['\\', 't']
  else if c.toNat = 0x0C then ['\\', 'f']
  else if c.toNat = 0x08 then ['\\', 'b']
  else if c.toNat < 0x20 then '\\' :: 'u' :: Text.hexDigits 4 c.toNat
  else [c]

/-- A text between double quotes. -/
def writeString (s : String) : List Char := '"' :: s.toList.flatMap escapeChar ++ ['"']

/-- A number in decimal digits. -/
def writeInt (n : Int) : List Char := (toString n).toList

mutual

/-- The value without any blank. -/
def writeCompact : Json → List Char
  | .null => ['n', 'u', 'l', 'l']
  | .bool true => ['t', 'r', 'u', 'e']
  | .bool false => ['f', 'a', 'l', 's', 'e']
  | .int n => writeInt n
  | .str s => writeString s
  | .arr items => '[' :: writeItems items ++ [']']
  | .obj fields => '\x7b' :: writeFields fields ++ ['\x7d']

/-- Items with commas between them. -/
def writeItems : List Json → List Char
  | [] => []
  | [item] => writeCompact item
  | item :: rest => writeCompact item ++ ',' :: writeItems rest

/-- Fields with commas between them. -/
def writeFields : List (String × Json) → List Char
  | [] => []
  | [(name, value)] => writeString name ++ ':' :: writeCompact value
  | (name, value) :: rest => writeString name ++ ':' :: writeCompact value ++ ',' :: writeFields rest

end

/-- The value without any blank. -/
def compact (v : Json) : String := String.ofList (writeCompact v)

/-! ### Canonical order -/

/-- Puts a field before the first one whose name comes later. -/
def insertField (field : String × Json) : List (String × Json) → List (String × Json)
  | [] => [field]
  | other :: rest =>
    if field.1 < other.1 then field :: other :: rest else other :: insertField field rest

/-- Fields in the order of their names. -/
def sortFields (fields : List (String × Json)) : List (String × Json) :=
  fields.foldl (fun done field => insertField field done) []

mutual

/-- The value with the fields of every object in the order of their names. -/
def sorted : Json → Json
  | .null => .null
  | .bool b => .bool b
  | .int n => .int n
  | .str s => .str s
  | .arr items => .arr (sortedItems items)
  | .obj fields => .obj (sortFields (sortedFields fields))

/-- `sorted` on every item. -/
def sortedItems : List Json → List Json
  | [] => []
  | item :: rest => sorted item :: sortedItems rest

/-- `sorted` on the value of every field. -/
def sortedFields : List (String × Json) → List (String × Json)
  | [] => []
  | (name, value) :: rest => (name, sorted value) :: sortedFields rest

end

/-- The one text that stands for a value whatever the order of its fields. -/
def canonical (v : Json) : String := compact (sorted v)

/-! ### Indented layout -/

/-- A line break and the blanks of a level. -/
def lineBreak (level : Nat) : List Char := '\n' :: List.replicate (2 * level) ' '

mutual

/-- The value at a level, each item and field on a line of its own. -/
def writeIndented (level : Nat) : Json → List Char
  | .null => ['n', 'u', 'l', 'l']
  | .bool true => ['t', 'r', 'u', 'e']
  | .bool false => ['f', 'a', 'l', 's', 'e']
  | .int n => writeInt n
  | .str s => writeString s
  | .arr [] => ['[', ']']
  | .arr (item :: rest) =>
    '[' :: writeIndentedItems (level + 1) (item :: rest) ++ lineBreak level ++ [']']
  | .obj [] => ['\x7b', '\x7d']
  | .obj (field :: rest) =>
    '\x7b' :: writeIndentedFields (level + 1) (field :: rest) ++ lineBreak level ++ ['\x7d']

/-- Items on lines of their own, with commas at the line ends. -/
def writeIndentedItems (level : Nat) : List Json → List Char
  | [] => []
  | [item] => lineBreak level ++ writeIndented level item
  | item :: rest =>
    lineBreak level ++ writeIndented level item ++ ',' :: writeIndentedItems level rest

/-- Fields on lines of their own, with commas at the line ends. -/
def writeIndentedFields (level : Nat) : List (String × Json) → List Char
  | [] => []
  | [(name, value)] =>
    lineBreak level ++ writeString name ++ ':' :: ' ' :: writeIndented level value
  | (name, value) :: rest =>
    lineBreak level ++ writeString name ++ ':' :: ' ' :: writeIndented level value ++
      ',' :: writeIndentedFields level rest

end

/-- The value over several lines, two blanks for each level. -/
def indented (v : Json) : String := String.ofList (writeIndented 0 v)

end Json

end Dockerfile
