import Dockerfile.Text

/-!
# Reading JSON

A text is read into an `Item`, which keeps a number as it is written. The reader works left to
right with a stack of open arrays and objects, and says what was expected where a text breaks off.
Control characters may stand in strings, and `NaN`, `Infinity` and `-Infinity` count as numbers. An
integer of more than `Text.integerLimit` digits stops the reader, though nothing is wrong with it.
-/

namespace Dockerfile.Json.Reader

/-- What was wrong with a JSON text. -/
inductive Fault where
  | expectedValue
  | expectedComma
  | expectedColon
  | expectedName
  | extraData
  | unterminatedString
  | invalidEscape
  | invalidCodeUnit
  /-- There is an integer of too many digits. -/
  | overlong (digits : Nat)
  deriving DecidableEq, Repr

/-- The wording of a fault. -/
def Fault.message : Fault → String
  | expectedValue => "Expecting value"
  | expectedComma => "Expecting ',' delimiter"
  | expectedColon => "Expecting ':' delimiter"
  | expectedName => "Expecting property name enclosed in double quotes"
  | extraData => "Extra data"
  | unterminatedString => "Unterminated string starting at"
  | invalidEscape => "Invalid \\escape"
  | invalidCodeUnit => "Invalid \\uXXXX escape"
  | overlong digits =>
    s!"Exceeds the limit ({Text.integerLimit} digits) for integer string conversion: " ++
      s!"value has {digits} digits; use sys.set_int_max_str_digits() to increase the limit"

/-- A JSON value as it is written. -/
inductive Item where
  | null
  | bool (value : Bool)
  | number (text : String)
  | str (value : String)
  | arr (items : List Item)
  | obj (fields : List (String × Item))
  deriving Inhabited

/-- The blanks between JSON tokens. -/
def isBlank (c : Char) : Bool := c = ' ' || c = '\t' || c = '\n' || c = '\r'

/-- The text from its first character that is no blank. -/
def skip (cs : List Char) : List Char := cs.dropWhile isBlank

/-! ### Strings -/

/-- The value of a hexadecimal digit. -/
def hexValue? (c : Char) : Option Nat :=
  if '0' ≤ c && c ≤ '9' then some (c.toNat - '0'.toNat)
  else if 'a' ≤ c && c ≤ 'f' then some (c.toNat - 'a'.toNat + 10)
  else if 'A' ≤ c && c ≤ 'F' then some (c.toNat - 'A'.toNat + 10)
  else none

/-- The value of four hexadecimal digits. -/
def hexUnit? (a b c d : Char) : Option Nat := do
  let a ← hexValue? a
  let b ← hexValue? b
  let c ← hexValue? c
  let d ← hexValue? d
  return ((a * 16 + b) * 16 + c) * 16 + d

/-- The first half of a pair of code units that together stand for one character. -/
def isHighUnit (n : Nat) : Bool := 0xD800 ≤ n && n < 0xDC00

/-- The second half of such a pair. -/
def isLowUnit (n : Nat) : Bool := 0xDC00 ≤ n && n < 0xE000

/-- The character that a pair of code units stands for. -/
def joinUnits (high low : Nat) : Char :=
  Char.ofNat (0x10000 + (high - 0xD800) * 0x400 + (low - 0xDC00))

/-- The character of a single code unit; half a pair alone is shown as the replacement character. -/
def unitChar (n : Nat) : Char :=
  if isHighUnit n || isLowUnit n then Char.ofNat 0xFFFD else Char.ofNat n

/-- The character behind a backslash. -/
def escaped? : Char → Option Char
  | '"' => some '"'
  | '\\' => some '\\'
  | '/' => some '/'
  | 'b' => some (Char.ofNat 8)
  | 'f' => some (Char.ofNat 12)
  | 'n' => some '\n'
  | 'r' => some '\r'
  | 't' => some '\t'
  | _ => none

/-- Reads a string from behind its opening quote, with the characters `done` read so far, the last
one first. -/
def readString (done : List Char) : List Char → Except Fault (String × List Char)
  | [] => .error .unterminatedString
  | '"' :: rest => .ok (String.ofList done.reverse, rest)
  | ['\\'] => .error .unterminatedString
  | '\\' :: 'u' :: a :: b :: c :: d :: '\\' :: 'u' :: e :: f :: g :: h :: next :: rest =>
    match hexUnit? a b c d with
    | none => .error .invalidCodeUnit
    | some high =>
      if isHighUnit high then
        match hexUnit? e f g h with
        | none => .error .invalidCodeUnit
        | some low =>
          if isLowUnit low then readString (joinUnits high low :: done) (next :: rest)
          else readString (unitChar high :: done) ('\\' :: 'u' :: e :: f :: g :: h :: next :: rest)
      else readString (unitChar high :: done) ('\\' :: 'u' :: e :: f :: g :: h :: next :: rest)
  | '\\' :: 'u' :: a :: b :: c :: d :: next :: rest =>
    match hexUnit? a b c d with
    | none => .error .invalidCodeUnit
    | some unit => readString (unitChar unit :: done) (next :: rest)
  | '\\' :: 'u' :: _ => .error .invalidCodeUnit
  | '\\' :: c :: rest =>
    match escaped? c with
    | some e => readString (e :: done) rest
    | none => .error .invalidEscape
  | c :: rest => readString (c :: done) rest

/-! ### Numbers and names -/

/-- The text behind a number's digits from its fraction on: a point counts only with a digit behind
it. -/
def skipFraction : List Char → List Char
  | '.' :: d :: rest => if d.isDigit then rest.dropWhile Char.isDigit else '.' :: d :: rest
  | cs => cs

/-- The text behind an exponent; an exponent without digits is left in place. -/
def skipExponent (cs : List Char) : List Char :=
  match cs with
  | c :: rest =>
    if c = 'e' || c = 'E' then
      let digits := match rest with
        | s :: more => if s = '+' || s = '-' then more else rest
        | [] => rest
      match digits with
      | d :: more => if d.isDigit then more.dropWhile Char.isDigit else cs
      | [] => cs
    else cs
  | [] => cs

/-- The text behind an unsigned number. -/
def skipUnsigned? : List Char → Option (List Char)
  | '0' :: rest => some (skipExponent (skipFraction rest))
  | c :: rest =>
    if c.isDigit then some (skipExponent (skipFraction (rest.dropWhile Char.isDigit))) else none
  | [] => none

/-- The text behind a number. -/
def skipNumber? : List Char → Option (List Char)
  | 'N' :: 'a' :: 'N' :: rest => some rest
  | 'I' :: 'n' :: 'f' :: 'i' :: 'n' :: 'i' :: 't' :: 'y' :: rest => some rest
  | '-' :: 'I' :: 'n' :: 'f' :: 'i' :: 'n' :: 'i' :: 't' :: 'y' :: rest => some rest
  | '-' :: rest => skipUnsigned? rest
  | cs => skipUnsigned? cs

/-- A number or one of the names of a value, and the text behind it. -/
def readScalar? : List Char → Option (Item × List Char)
  | 'n' :: 'u' :: 'l' :: 'l' :: rest => some (.null, rest)
  | 't' :: 'r' :: 'u' :: 'e' :: rest => some (.bool true, rest)
  | 'f' :: 'a' :: 'l' :: 's' :: 'e' :: rest => some (.bool false, rest)
  | cs => (skipNumber? cs).map fun rest =>
    (.number (String.ofList (cs.take (cs.length - rest.length))), rest)

/-- The digits of an item that is an integer, if they are too many. -/
def Item.overlong? : Item → Option Nat
  | .number text =>
    let digits := if text.toList.head? = some '-' then text.toList.tail else text.toList
    if digits.all Char.isDigit && Text.integerLimit < digits.length then some digits.length
    else none
  | _ => none

/-! ### Progress -/

theorem length_skip_le (cs : List Char) : (skip cs).length ≤ cs.length :=
  (List.dropWhile_suffix isBlank).length_le

/-- Is `rest` the end of a text, with something in front of it? -/
def EndOf (rest cs : List Char) : Prop := ∃ c behind, cs = c :: behind ∧ rest <:+ behind

variable {rest cs : List Char}

theorem EndOf.length_lt (h : EndOf rest cs) : rest.length < cs.length := by
  obtain ⟨c, behind, rfl, hrest⟩ := h
  exact Nat.lt_succ_of_le hrest.length_le

theorem EndOf.cons (h : EndOf rest cs) (c : Char) : EndOf rest (c :: cs) := by
  obtain ⟨d, behind, rfl, hrest⟩ := h
  exact ⟨c, _, rfl, hrest.trans (List.suffix_cons d behind)⟩

theorem endOf_readString {done : List Char} {s : String} (h : readString done cs = .ok (s, rest)) :
    EndOf rest cs := by
  fun_induction readString done cs <;> try cases h
  case case2 => exact ⟨_, _, rfl, List.suffix_rfl⟩
  all_goals
    rename_i ih
    have hend := ih h
    repeat' first | exact hend | apply EndOf.cons

theorem skipFraction_suffix (cs : List Char) : skipFraction cs <:+ cs := by
  unfold skipFraction
  split
  · split
    · refine (List.dropWhile_suffix Char.isDigit).trans ?_
      exact (List.suffix_cons _ _).trans (List.suffix_cons _ _)
    · exact List.suffix_rfl
  · exact List.suffix_rfl

theorem skipExponent_suffix (cs : List Char) : skipExponent cs <:+ cs := by
  unfold skipExponent
  split
  · rename_i c rest
    split
    · dsimp only
      split
      · rename_i d more heq
        split
        · have hdigits : d :: more <:+ rest := by
            rw [← heq]
            split
            · split
              · exact List.suffix_cons _ _
              · exact List.suffix_rfl
            · exact List.suffix_rfl
          exact (List.dropWhile_suffix Char.isDigit).trans ((List.suffix_cons d more).trans
            (hdigits.trans (List.suffix_cons c rest)))
        · exact List.suffix_rfl
      · exact List.suffix_rfl
    · exact List.suffix_rfl
  · exact List.suffix_rfl

theorem endOf_skipUnsigned? (h : skipUnsigned? cs = some rest) : EndOf rest cs := by
  unfold skipUnsigned? at h
  split at h
  · cases h
    exact ⟨_, _, rfl, (skipExponent_suffix _).trans (skipFraction_suffix _)⟩
  · split at h
    · cases h
      exact ⟨_, _, rfl, (skipExponent_suffix _).trans
        ((skipFraction_suffix _).trans (List.dropWhile_suffix Char.isDigit))⟩
    · cases h
  · cases h

theorem endOf_skipNumber? (h : skipNumber? cs = some rest) : EndOf rest cs := by
  have hself (c : Char) : EndOf rest (c :: rest) := ⟨c, rest, rfl, List.suffix_rfl⟩
  unfold skipNumber? at h
  split at h
  case h_4 => exact (endOf_skipUnsigned? h).cons '-'
  case h_5 => exact endOf_skipUnsigned? h
  all_goals
    cases h
    repeat' first | exact hself _ | apply EndOf.cons

theorem endOf_readScalar? {item : Item} (h : readScalar? cs = some (item, rest)) :
    EndOf rest cs := by
  have hself (c : Char) : EndOf rest (c :: rest) := ⟨c, rest, rfl, List.suffix_rfl⟩
  unfold readScalar? at h
  split at h
  case h_4 =>
    obtain ⟨r, hr, he⟩ := Option.map_eq_some_iff.1 h
    cases he
    exact endOf_skipNumber? hr
  all_goals
    cases h
    repeat' first | exact hself _ | apply EndOf.cons

/-! ### Values -/

/-- An array or object that is still open, with what it holds so far, the last one first. An object
stands at the value of a field. -/
inductive Frame where
  | array (items : List Item)
  | object (fields : List (String × Item)) (name : String)

/-- What comes next: a value, the name of a field behind some fields, or what may follow the
finished `item`. -/
inductive Phase where
  | value
  | name (fields : List (String × Item))
  | after (item : Item)

/-- Reads from a phase inside the open frames to the end of the outermost value, and gives that
value and the text behind it. -/
def run (phase : Phase) (frames : List Frame) (cs : List Char) :
    Except Fault (Item × List Char) :=
  match phase, frames with
  | .value, frames =>
    match cs with
    | '"' :: rest =>
      match h : readString [] rest with
      | .ok (s, rest') =>
        have := (endOf_readString h).length_lt
        run (.after (.str s)) frames rest'
      | .error fault => .error fault
    | '[' :: rest =>
      have := length_skip_le rest
      match _h : skip rest with
      | ']' :: rest' => run (.after (.arr [])) frames rest'
      | rest' => run .value (.array [] :: frames) rest'
    | '\x7b' :: rest =>
      have := length_skip_le rest
      match _h : skip rest with
      | '\x7d' :: rest' => run (.after (.obj [])) frames rest'
      | rest' => run (.name []) frames rest'
    | cs =>
      match h : readScalar? cs with
      | some (item, rest) =>
        have := (endOf_readScalar? h).length_lt
        match item.overlong? with
        | some digits => .error (.overlong digits)
        | none => run (.after item) frames rest
      | none => .error .expectedValue
  | .name fields, frames =>
    match cs with
    | '"' :: rest =>
      match h : readString [] rest with
      | .ok (name, rest') =>
        have := (endOf_readString h).length_lt
        have := length_skip_le rest'
        match _h : skip rest' with
        | ':' :: value =>
          have := length_skip_le value
          run .value (.object fields name :: frames) (skip value)
        | _ => .error .expectedColon
      | .error fault => .error fault
    | _ => .error .expectedName
  | .after item, [] => .ok (item, cs)
  | .after item, .array items :: outer =>
    have := length_skip_le cs
    match _h : skip cs with
    | ']' :: rest => run (.after (.arr (item :: items).reverse)) outer rest
    | ',' :: rest =>
      have := length_skip_le rest
      run .value (.array (item :: items) :: outer) (skip rest)
    | _ => .error .expectedComma
  | .after item, .object fields name :: outer =>
    have := length_skip_le cs
    match _h : skip cs with
    | '\x7d' :: rest => run (.after (.obj ((name, item) :: fields).reverse)) outer rest
    | ',' :: rest =>
      have := length_skip_le rest
      run (.name ((name, item) :: fields)) outer (skip rest)
    | _ => .error .expectedComma
termination_by cs.length
decreasing_by all_goals simp_all <;> omega

/-- Reads a whole text as one value. -/
def read (text : String) : Except Fault Item := do
  let (item, rest) ← run .value [] (skip text.toList)
  if (skip rest).isEmpty then return item else throw .extraData

/-- The strings of an array that holds nothing else. -/
def Item.strings? : Item → Option (List String)
  | .arr items => items.mapM fun
    | .str s => some s
    | _ => none
  | _ => none

end Dockerfile.Json.Reader
