import Dockerfile.Text.Character

/-!
# Templates

Argument text refers to variables: `$NAME`, `$⟨NAME⟩` in braces, and in braces with a modifier that
says what to do when the variable has no value. A text is read once into a `Template`, which is
then expanded with a lookup. Two readings differ in what they keep: `ofText` keeps quotes and
escapes for the shell that runs the text, `ofWord` removes them. Nothing between single quotes is a
reference, nor is an escaped dollar sign.
-/

namespace Dockerfile

/-- A text with references to variables, in the order of the text. In a reference with a modifier,
`orEmpty` says that an empty value counts as none. -/
inductive Template where
  | done
  /-- A character that stands for itself. -/
  | char (c : Char) (rest : Template)
  /-- The value of a variable. -/
  | plain (name : String) (rest : Template)
  /-- The value of a variable, or `word` when it has none. -/
  | default (name : String) (orEmpty : Bool) (word rest : Template)
  /-- `word` when a variable has a value, otherwise nothing. -/
  | alternative (name : String) (orEmpty : Bool) (word rest : Template)
  /-- The value of a variable that must have one. -/
  | required (name : String) (orEmpty : Bool) (message : String) (rest : Template)
  deriving DecidableEq, Repr

namespace Template

/-- Characters that stand for themselves, before a template. -/
def chars (cs : List Char) (rest : Template) : Template := cs.foldr char rest

/-! ### Quotes and escapes -/

/-- The quotes that are open. -/
inductive Quote where
  | none
  | single
  | double
  deriving DecidableEq, Repr

/-- What stands at the front of a text: characters to keep with the quotes open behind them, or a
dollar sign that may start a reference. -/
inductive Front where
  | keep (cs : List Char) (quote : Quote) (rest : List Char)
  | dollar (rest : List Char)

/-- The front of a word. Quotes and escapes are removed; between double quotes an escape character
stays unless it stands before a double quote, a dollar sign or itself. -/
def wordFront (escape : Char) (quote : Quote) (c : Char) (rest : List Char) : Front :=
  if quote = .single then
    if c = '\'' then .keep [] .none rest else .keep [c] .single rest
  else match if c = escape then rest else [] with
    | next :: behind =>
      if quote = .double && !(next = '"' || next = '$' || next = escape)
      then .keep [c, next] quote behind
      else .keep [next] quote behind
    | [] =>
      if quote = .none && c = '"' then .keep [] .double rest
      else if quote = .none && c = '\'' then .keep [] .single rest
      else if quote = .double && c = '"' then .keep [] .none rest
      else if c = '$' then .dollar rest
      else .keep [c] quote rest

/-- The front of a text that keeps its quotes and escapes. -/
def textFront (escape : Char) (quote : Quote) (c : Char) (rest : List Char) : Front :=
  if quote = .single then .keep [c] (if c = '\'' then .none else .single) rest
  else match if c = escape then rest else [] with
    | next :: behind => .keep [c, next] quote behind
    | [] =>
      if c = '"' then .keep [c] (if quote = .none then .double else .none) rest
      else if c = '\'' then .keep [c] (if quote = .none then .single else quote) rest
      else if c = '$' then .dollar rest
      else .keep [c] quote rest

variable {rest cs rest' : List Char} {escape c : Char} {quote quote' : Quote}

theorem wordFront_keep_length (h : wordFront escape quote c rest = .keep cs quote' rest') :
    rest'.length ≤ rest.length := by
  unfold wordFront at h
  split at h
  · split at h <;> cases h <;> exact Nat.le_refl _
  · split at h
    · rename_i heq
      split at heq
      · subst heq; split at h <;> cases h <;> simp
      · cases heq
    · repeat' split at h
      all_goals cases h
      all_goals exact Nat.le_refl _

theorem textFront_keep_length (h : textFront escape quote c rest = .keep cs quote' rest') :
    rest'.length ≤ rest.length := by
  unfold textFront at h
  split at h
  · cases h; exact Nat.le_refl _
  · split at h
    · rename_i heq
      split at heq
      · subst heq; cases h; simp
      · cases heq
    · repeat' split at h
      all_goals cases h
      all_goals exact Nat.le_refl _

theorem wordFront_dollar (h : wordFront escape quote c rest = .dollar rest') : rest' = rest := by
  unfold wordFront at h
  split at h
  · split at h <;> cases h
  · split at h
    · split at h <;> cases h
    · repeat' split at h
      all_goals cases h
      rfl

theorem textFront_dollar (h : textFront escape quote c rest = .dollar rest') : rest' = rest := by
  unfold textFront at h
  split at h
  · cases h
  · split at h
    · cases h
    · repeat' split at h
      all_goals cases h
      rfl

/-- A word without its quotes and escapes; dollar signs stand for themselves. -/
def unquoteFrom (escape : Char) (quote : Quote) (cs : List Char) : List Char :=
  match cs with
  | [] => []
  | c :: rest =>
    match h : wordFront escape quote c rest with
    | .keep kept quote' rest' =>
      have := wordFront_keep_length h
      kept ++ unquoteFrom escape quote' rest'
    | .dollar rest' =>
      have := wordFront_dollar h
      '$' :: unquoteFrom escape quote rest'
termination_by cs.length
decreasing_by all_goals grind

/-- A word without its quotes and escapes; dollar signs stand for themselves. -/
def unquote (escape : Char) (word : String) : String :=
  String.ofList (unquoteFrom escape .none word.toList)

/-! ### References -/

/-- May a name start with `c`? -/
def isNameStart (c : Char) : Bool := c = '_' || Text.isLetter c

/-- May a name hold `c`? -/
def isNameChar (c : Char) : Bool := c = '_' || Text.isAlphanumeric c

/-- The text up to the closing brace of a brace that was opened before it, with `depth` further
braces open, and the text behind that closing brace. -/
def splitBrace? (depth : Nat) : List Char → Option (List Char × List Char)
  | [] => none
  | c :: rest =>
    if c = '\x7b' then (splitBrace? (depth + 1) rest).map fun (body, rest') => (c :: body, rest')
    else if c = '\x7d' then
      match depth with
      | 0 => some ([], rest)
      | depth + 1 => (splitBrace? depth rest).map fun (body, rest') => (c :: body, rest')
    else (splitBrace? depth rest).map fun (body, rest') => (c :: body, rest')

theorem splitBrace?_length {depth : Nat} {body : List Char}
    (h : splitBrace? depth cs = some (body, rest)) : body.length + rest.length < cs.length := by
  induction cs generalizing depth body rest with
  | nil => cases h
  | cons c cs ih =>
    have hlonger {depth : Nat} (h : (splitBrace? depth cs).map (fun s => (c :: s.1, s.2)) =
        some (body, rest)) : body.length + rest.length < cs.length + 1 := by
      obtain ⟨⟨b, r⟩, hb, he⟩ := Option.map_eq_some_iff.1 h
      cases he
      have := ih hb
      simp only [List.length_cons]
      omega
    unfold splitBrace? at h
    split at h
    · exact hlonger h
    · split at h
      · split at h
        · cases h; simp
        · exact hlonger h
      · exact hlonger h

/-- What a dollar sign starts. -/
inductive Reference where
  /-- Nothing: the sign stands for itself. -/
  | none
  /-- A name without braces, and the text behind it. -/
  | name (name rest : List Char)
  /-- An opening brace that is never closed: all of the text stands for itself. -/
  | unclosed
  /-- What stands between braces, and the text behind them. -/
  | braces (body rest : List Char)

/-- The reference that starts with a dollar sign before `cs`. -/
def reference : List Char → Reference
  | [] => .none
  | c :: rest =>
    if isNameStart c then
      .name ((c :: rest).takeWhile isNameChar) ((c :: rest).dropWhile isNameChar)
    else if c = '\x7b' then
      match splitBrace? 0 rest with
      | some (body, rest') => .braces body rest'
      | .none => .unclosed
    else .none

/-- What to do with a variable between braces. -/
inductive Modifier where
  | default
  | alternative
  | required
  deriving DecidableEq, Repr

/-- The modifier behind a name, whether an empty value counts as none, and the word behind it. -/
def modifier? : List Char → Option (Modifier × Bool × List Char)
  | ':' :: '-' :: word => some (.default, true, word)
  | ':' :: '+' :: word => some (.alternative, true, word)
  | ':' :: '?' :: word => some (.required, true, word)
  | '-' :: word => some (.default, false, word)
  | '+' :: word => some (.alternative, false, word)
  | '?' :: word => some (.required, false, word)
  | _ => none

theorem modifier?_length {word : List Char} {m : Modifier} {b : Bool}
    (h : modifier? cs = some (m, b, word)) : word.length < cs.length := by
  unfold modifier? at h
  split at h <;> cases h <;> simp only [List.length_cons] <;> omega

theorem reference_name_length {name : List Char} (h : reference cs = .name name rest) :
    rest.length ≤ cs.length := by
  unfold reference at h
  split at h
  · cases h
  · split at h
    · cases h; exact (List.dropWhile_suffix isNameChar).length_le
    · split at h
      · split at h <;> cases h
      · cases h

theorem reference_braces_length {body : List Char} (h : reference cs = .braces body rest) :
    body.length + rest.length < cs.length := by
  unfold reference at h
  split at h
  · cases h
  · split at h
    · cases h
    · split at h
      · split at h
        · rename_i hb
          cases h
          have := splitBrace?_length hb
          simp only [List.length_cons]
          omega
        · cases h
      · cases h

/-! ### Reading -/

/-- How the quotes and escapes of a text are read. -/
inductive Mode where
  /-- They are kept. -/
  | text
  /-- They are removed. -/
  | word
  deriving DecidableEq, Repr

/-- The front of a text in a mode. -/
def Mode.front : Mode → Char → Quote → Char → List Char → Front
  | .text => textFront
  | .word => wordFront

theorem Mode.front_keep_length {mode : Mode}
    (h : mode.front escape quote c rest = .keep cs quote' rest') : rest'.length ≤ rest.length := by
  cases mode
  · exact textFront_keep_length h
  · exact wordFront_keep_length h

theorem Mode.front_dollar {mode : Mode} (h : mode.front escape quote c rest = .dollar rest') :
    rest' = rest := by
  cases mode
  · exact textFront_dollar h
  · exact wordFront_dollar h

/-- Reads a text whose front stands inside `quote`. The word of a modifier is read on its own, with
its quotes removed. -/
def read (mode : Mode) (escape : Char) (quote : Quote) (cs : List Char) : Template :=
  match cs with
  | [] => .done
  | c :: rest =>
    match h : mode.front escape quote c rest with
    | .keep kept quote' rest' =>
      have := Mode.front_keep_length h
      chars kept (read mode escape quote' rest')
    | .dollar behind =>
      have := Mode.front_dollar h
      match hr : reference behind with
      | .none => .char '$' (read mode escape quote behind)
      | .unclosed => chars ('$' :: behind) .done
      | .name name rest' =>
        have := reference_name_length hr
        .plain (String.ofList name) (read mode escape quote rest')
      | .braces body rest' =>
        have := reference_braces_length hr
        let name := String.ofList (body.takeWhile isNameChar)
        have := (List.dropWhile_suffix (l := body) isNameChar).length_le
        match body.dropWhile isNameChar, hm : modifier? (body.dropWhile isNameChar) with
        | [], _ => .plain name (read mode escape quote rest')
        | _, some (.default, orEmpty, word) =>
          have := modifier?_length hm
          .default name orEmpty (read .word escape .none word) (read mode escape quote rest')
        | _, some (.alternative, orEmpty, word) =>
          have := modifier?_length hm
          .alternative name orEmpty (read .word escape .none word) (read mode escape quote rest')
        | _, some (.required, orEmpty, word) =>
          .required name orEmpty (String.ofList (unquoteFrom escape .none word))
            (read mode escape quote rest')
        | _, none => chars ('$' :: '\x7b' :: body ++ ['\x7d']) (read mode escape quote rest')
termination_by cs.length
decreasing_by all_goals simp_all <;> omega

/-- Reads a text whose quotes and escapes are kept. -/
def ofText (escape : Char) (text : String) : Template := read .text escape .none text.toList

/-- Reads a word whose quotes and escapes are removed. -/
def ofWord (escape : Char) (word : String) : Template := read .word escape .none word.toList

/-! ### Expanding -/

/-- A variable that must have a value has none. -/
structure Unset where
  name : String
  /-- What the reference says about it. -/
  message : String
  deriving DecidableEq, Repr

/-- The result of an expansion: the names of plain references without a value, in order, and the
text or the required variable that stopped it. -/
structure Expansion where
  missing : List String
  result : Except Unset (List Char)

/-- An expansion that misses nothing. -/
def Expansion.ok (cs : List Char) : Expansion := ⟨[], .ok cs⟩

/-- One expansion and then another, unless the first one stopped. -/
def Expansion.append (first second : Expansion) : Expansion :=
  match first.result with
  | .error fault => ⟨first.missing, .error fault⟩
  | .ok cs => ⟨first.missing ++ second.missing, second.result.map (cs ++ ·)⟩

/-- Does a lookup count as no value? -/
def isAbsent (orEmpty : Bool) : Option String → Bool
  | none => true
  | some value => orEmpty && value.isEmpty

/-- The variables that a template may look up. -/
abbrev Lookup := String → Option String

/-- What a plain reference expands to. -/
def Expansion.ofPlain (name : String) : Option String → Expansion
  | some value => .ok value.toList
  | none => ⟨[name], .ok []⟩

/-- What a required reference without a value expands to. Unless `strict`, that is nothing. -/
def Expansion.ofRequired (strict : Bool) (name message : String) : Expansion :=
  if strict then
    ⟨[], .error ⟨name, if message.isEmpty then s!"{name}: parameter not set" else message⟩⟩
  else .ok []

/-- The text of a value that is there. -/
def Expansion.ofValue (value : Option String) : Expansion := .ok (value.getD "").toList

/-- Expands a template. Unless `strict`, a required variable without a value expands to nothing. -/
def expand (lookup : Lookup) (strict : Bool) : Template → Expansion
  | .done => .ok []
  | .char c rest => (Expansion.ok [c]).append (rest.expand lookup strict)
  | .plain name rest => (Expansion.ofPlain name (lookup name)).append (rest.expand lookup strict)
  | .default name orEmpty word rest =>
    let value := lookup name
    (if isAbsent orEmpty value then word.expand lookup strict else Expansion.ofValue value).append
      (rest.expand lookup strict)
  | .alternative name orEmpty word rest =>
    (if isAbsent orEmpty (lookup name) then .ok [] else word.expand lookup strict).append
      (rest.expand lookup strict)
  | .required name orEmpty message rest =>
    let value := lookup name
    (if isAbsent orEmpty value then Expansion.ofRequired strict name message
      else Expansion.ofValue value).append (rest.expand lookup strict)

/-- The text of a template when no variable is enforced: a required one without a value stands for
nothing. -/
def value (lookup : Lookup) : Template → List Char
  | .done => []
  | .char c rest => c :: rest.value lookup
  | .plain name rest => ((lookup name).getD "").toList ++ rest.value lookup
  | .default name orEmpty word rest =>
    (if isAbsent orEmpty (lookup name) then word.value lookup
      else ((lookup name).getD "").toList) ++ rest.value lookup
  | .alternative name orEmpty word rest =>
    (if isAbsent orEmpty (lookup name) then [] else word.value lookup) ++ rest.value lookup
  | .required name orEmpty _ rest =>
    (if isAbsent orEmpty (lookup name) then [] else ((lookup name).getD "").toList) ++
      rest.value lookup

theorem Expansion.append_eq_ok {first second : Expansion}
    (h : (first.append second).result = .ok cs) :
    ∃ a b, first.result = .ok a ∧ second.result = .ok b ∧ cs = a ++ b := by
  unfold Expansion.append at h
  cases hf : first.result with
  | error fault => simp [hf] at h
  | ok a =>
    cases hs : second.result with
    | error fault => simp [hf, hs, Except.map] at h
    | ok b =>
      simp only [hf, hs, Except.map, Except.ok.injEq] at h
      exact ⟨a, b, rfl, rfl, h.symm⟩

/-- An expansion that succeeds gives the text of the template. -/
theorem value_of_expand {lookup : Lookup} {strict : Bool} {t : Template}
    (h : (t.expand lookup strict).result = .ok cs) : t.value lookup = cs := by
  induction t generalizing cs with
  | done => cases h; rfl
  | char c rest ih =>
    obtain ⟨a, b, ha, hb, rfl⟩ := Expansion.append_eq_ok h
    cases ha
    simp [value, ih hb]
  | plain name rest ih =>
    obtain ⟨a, b, ha, hb, rfl⟩ := Expansion.append_eq_ok h
    unfold Expansion.ofPlain at ha
    split at ha <;> cases ha <;> simp [value, ih hb, *]
  | default name orEmpty word rest ihw ih =>
    obtain ⟨a, b, ha, hb, rfl⟩ := Expansion.append_eq_ok h
    simp only [value, ih hb, List.append_cancel_right_eq]
    split at ha
    · rename_i hl
      rw [if_pos hl, ihw ha]
    · rename_i hl
      cases ha
      rw [if_neg hl]
  | alternative name orEmpty word rest ihw ih =>
    obtain ⟨a, b, ha, hb, rfl⟩ := Expansion.append_eq_ok h
    simp only [value, ih hb, List.append_cancel_right_eq]
    split at ha
    · rename_i hl
      cases ha
      rw [if_pos hl]
    · rename_i hl
      rw [if_neg hl, ihw ha]
  | required name orEmpty message rest ih =>
    obtain ⟨a, b, ha, hb, rfl⟩ := Expansion.append_eq_ok h
    simp only [value, ih hb, List.append_cancel_right_eq]
    split at ha
    · rename_i hl
      rw [if_pos hl]
      unfold Expansion.ofRequired at ha
      split at ha <;> cases ha
      rfl
    · rename_i hl
      cases ha
      rw [if_neg hl]

/-- The names that an expansion looks up when no variable has a value, in order. -/
def names : Template → List String
  | .done => []
  | .char _ rest => rest.names
  | .plain name rest => name :: rest.names
  | .default name _ word rest => name :: word.names ++ rest.names
  | .alternative name _ _ rest => name :: rest.names
  | .required name _ _ rest => name :: rest.names

/-- The variables that a text refers to. -/
def references (escape : Char) (text : String) : List String := (ofText escape text).names

end Template

end Dockerfile
