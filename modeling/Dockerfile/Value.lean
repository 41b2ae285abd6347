import Dockerfile.Calendar
import Dockerfile.Decimal
import Dockerfile.Json.Reader
import Dockerfile.Text

/-!
# Values of request files

What a request holds before it is checked: nothing, truth values, numbers, texts, days, times, lists
and maps. `text` writes a value the way a build argument gets it, `literal` the way it stands in a
list or a map.

In the `Data` of a document a list or a map may contain itself. `Data.value` unfolds a value of it:
going down, a collection that is met again is written only as such.
-/

namespace Dockerfile

/-- A value of a request. A map keeps the order of its keys. A list or a map that stands within
itself is `again` there, since it has no end otherwise. Of a value of any `other` kind only its text
counts, and whether it is empty. -/
inductive Value where
  | null
  | bool (value : Bool)
  | int (value : Int)
  | float (value : Float)
  | str (value : String)
  | date (value : Date)
  | moment (value : Moment)
  | list (items : List Value)
  | map (entries : List (Value × Value))
  | again (isMap : Bool)
  | other (text : String) (empty : Bool)
  deriving Inhabited

namespace Value

mutual

/-- A value as an item of a list or a map. -/
def literal : Value → String
  | null => "None"
  | bool true => "True"
  | bool false => "False"
  | int n => toString n
  | float x => Decimal.render x
  | str s => Text.quoted s
  | date d => d.literal
  | moment m => m.literal
  | list items => "[" ++ ", ".intercalate (literals items) ++ "]"
  | map entries => "\x7b" ++ ", ".intercalate (entryLiterals entries) ++ "\x7d"
  | again isMap => if isMap then "\x7b...\x7d" else "[...]"
  | other text _ => text

/-- The items of a list, each as it stands in the list. -/
def literals : List Value → List String
  | [] => []
  | item :: items => literal item :: literals items

/-- The entries of a map, each as it stands in the map. -/
def entryLiterals : List (Value × Value) → List String
  | [] => []
  | (key, value) :: entries => (literal key ++ ": " ++ literal value) :: entryLiterals entries

end

/-- The text of a value. -/
def text : Value → String
  | str s => s
  | date d => d.text
  | moment m => m.text
  | value => value.literal

/-- Does a value count as nothing: null, false, zero, the empty text, list or map? -/
def isEmpty : Value → Bool
  | null => true
  | bool b => !b
  | int n => n = 0
  | float x => x == 0.0
  | str s => s = ""
  | date _ | moment _ | again _ => false
  | list items => items.isEmpty
  | map entries => entries.isEmpty
  | other _ empty => empty

/-- The integer that a value is as a key: truth values count as 0 and 1, and an integral number is
the same key in either form. -/
def keyInt? : Value → Option Int
  | bool b => some (if b then 1 else 0)
  | int n => some n
  | float x => Decimal.integer? x
  | _ => none

/-- Are two values the same key of a map? -/
def sameKey : Value → Value → Bool
  | null, null => true
  | str s, str t => s = t
  | date d, date e => d = e
  | moment m, moment n => m.same n
  | float x, float y => x == y
  | a, b =>
    match a.keyInt?, b.keyInt? with
    | some m, some n => m = n
    | _, _ => false

/-- Sets a key of a map. A key that is there keeps its place. -/
def setEntry {α : Type} (key : Value) (value : α) : List (Value × α) → List (Value × α)
  | [] => [(key, value)]
  | (found, old) :: rest =>
    if found.sameKey key then (found, value) :: rest else (found, old) :: setEntry key value rest

/-- The value that a map has for a name, if it is a map and has one. -/
def get? (name : String) : Value → Option Value
  | map entries => (entries.find? fun entry => entry.1.sameKey (str name)).map Prod.snd
  | _ => none

/-- A number as JSON writes it. -/
def ofNumber (text : String) : Value :=
  let (negative, digits) := match text.toList with
    | '-' :: digits => (true, digits)
    | digits => (false, digits)
  if digits.all Char.isDigit then
    let n : Int := Decimal.natOfDigits digits
    int (if negative then -n else n)
  else
    let x := match Decimal.ofText? digits with
      | some d => d.toFloat
      | none => if digits.head? = some 'I' then 1.0 / 0.0 else 0.0 / 0.0
    float (if negative then -x else x)

mutual

/-- A JSON item as a value. -/
def ofItem : Json.Reader.Item → Value
  | .null => null
  | .bool b => bool b
  | .number text => ofNumber text
  | .str s => str s
  | .arr items => list (ofItems items)
  | .obj fields => map (ofFields fields)

/-- JSON items as values. -/
def ofItems : List Json.Reader.Item → List Value
  | [] => []
  | item :: items => ofItem item :: ofItems items

/-- The fields of a JSON object as the entries of a map. -/
def ofFields : List (String × Json.Reader.Item) → List (Value × Value)
  | [] => []
  | (name, item) :: fields => (str name, ofItem item) :: ofFields fields

end

end Value

/-- A value of a document: one without parts, or the place of a collection. -/
inductive Data.Cell where
  | leaf (value : Value)
  | collection (place : Nat)

/-- The parts of a collection. -/
inductive Data.Parts where
  | list (items : List Data.Cell)
  | map (entries : List (Value × Data.Cell))

/-- The data of a document: its root, and the collections by their places. -/
structure Data where
  root : Data.Cell
  collections : List (Nat × Data.Parts) := []

namespace Data

/-- The value of a cell, where only the collections at the places `shut` have not been entered. -/
def unfold (d : Data) (shut : List Nat) : Cell → Value
  | .leaf value => value
  | .collection place =>
    match d.collections.lookup place with
    | none => .null
    | some (.list items) =>
      if _ : place ∈ shut then .list (items.map fun item => d.unfold (shut.erase place) item)
      else .again false
    | some (.map entries) =>
      if _ : place ∈ shut then
        .map (entries.map fun (key, cell) => (key, d.unfold (shut.erase place) cell))
      else .again true
termination_by shut.length
decreasing_by
  all_goals
    have := List.length_erase_of_mem ‹place ∈ shut›
    have := List.length_pos_of_mem ‹place ∈ shut›
    omega

/-- The value of a cell. -/
def value (d : Data) (cell : Cell) : Value := d.unfold (d.collections.map Prod.fst) cell

/-- The entries of a map. -/
def entries? (d : Data) : Cell → Option (List (Value × Cell))
  | .leaf _ => none
  | .collection place =>
    match d.collections.lookup place with
    | some (.map entries) => some entries
    | _ => none

/-- What the map at the root has for a name. -/
def field? (d : Data) (name : String) : Option Cell := do
  let entry ← (← d.entries? d.root).find? fun entry => entry.1.sameKey (.str name)
  pure entry.2

end Data

end Dockerfile
