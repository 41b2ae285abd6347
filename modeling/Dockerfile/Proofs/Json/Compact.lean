import Dockerfile.Json.Reader
import Dockerfile.Json.Writer
import Dockerfile.Proofs.Text

/-!
# Compact JSON

The compact text of a value can be read off a longer text in one way only
(`writeCompact_append_inj`): strings end at the first quote that is not escaped, where the reader
stops too (`readString_escaped`), numbers end before the first character that is no digit, and
arrays and objects end with their brackets. Hence no two values have one compact text
(`compact_injective`).
-/

namespace Dockerfile.Json

/-! ### Strings -/

theorem hexDigits_succ {width : Nat} (h : 0 < width) (n : Nat) :
    Text.hexDigits (width + 1) n =
      Text.hexDigits width (n / 16) ++ [Nat.digitChar (n % 16)] := by
  unfold Text.hexDigits
  by_cases hn : n < 16
  · rw [Nat.toDigits_of_lt_base hn, Nat.div_eq_of_lt hn, Nat.mod_eq_of_lt hn]
    cases width with
    | zero => cases h
    | succ width =>
      simp [Nat.toDigits_of_lt_base, List.replicate_succ']
  · rw [Nat.toDigits_of_base_le (by decide) (by omega)]
    simp

theorem hexValue?_digitChar : ∀ k < 16, Reader.hexValue? (Nat.digitChar k) = some k := by decide

variable {rest rest' : List Char} {v w : Json} {n : Nat}

/-- The digits of a code unit. -/
theorem exists_hexDigits (h : n < 0x10000) : ∃ a b c d,
    Text.hexDigits 4 n = [Nat.digitChar a, Nat.digitChar b, Nat.digitChar c, Nat.digitChar d] ∧
      a < 16 ∧ b < 16 ∧ c < 16 ∧ d < 16 ∧ ((a * 16 + b) * 16 + c) * 16 + d = n := by
  refine ⟨n / 16 / 16 / 16, n / 16 / 16 % 16, n / 16 % 16, n % 16, ?_, ?_⟩
  · have hone : Text.hexDigits 1 (n / 16 / 16 / 16) = [Nat.digitChar (n / 16 / 16 / 16)] := by
      unfold Text.hexDigits
      rw [Nat.toDigits_of_lt_base (by omega)]
      rfl
    rw [hexDigits_succ (by decide), hexDigits_succ (by decide), hexDigits_succ (by decide), hone]
    rfl
  · omega

theorem hexUnit?_digitChar {a b c d : Nat} (ha : a < 16) (hb : b < 16) (hc : c < 16)
    (hd : d < 16) :
    Reader.hexUnit? (Nat.digitChar a) (Nat.digitChar b) (Nat.digitChar c) (Nat.digitChar d) =
      some (((a * 16 + b) * 16 + c) * 16 + d) := by
  unfold Reader.hexUnit?
  rw [hexValue?_digitChar a ha, hexValue?_digitChar b hb, hexValue?_digitChar c hc,
    hexValue?_digitChar d hd]
  rfl

theorem readString_backslash {e c : Char} (he : Reader.escaped? e = some c)
    (done rest : List Char) :
    Reader.readString done ('\\' :: e :: rest) = Reader.readString (c :: done) rest := by
  have hu : e ≠ 'u' := by
    rintro rfl
    cases he
  rw [Reader.readString.eq_def]
  split <;> grind

/-- A code unit that is no first half of a pair, whatever comes behind it. -/
theorem readString_unit (hn : n < 0x10000) (hhigh : Reader.isHighUnit n = false) (done : List Char)
    (next : Char) (rest : List Char) :
    Reader.readString done ('\\' :: 'u' :: Text.hexDigits 4 n ++ next :: rest) =
      Reader.readString (Reader.unitChar n :: done) (next :: rest) := by
  obtain ⟨a, b, c, d, hdigits, ha, hb, hc, hd, rfl⟩ := exists_hexDigits hn
  have hunit := hexUnit?_digitChar ha hb hc hd
  rw [hdigits]
  simp only [List.cons_append, List.nil_append]
  rw [Reader.readString.eq_def]
  split <;> grind

/-- Reading the code of a character gives the character. -/
theorem readString_escapeChar (done : List Char) (c next : Char) (rest : List Char) :
    Reader.readString done (escapeChar c ++ next :: rest) =
      Reader.readString (c :: done) (next :: rest) := by
  have hcode : ∀ {n : Nat}, c.toNat = n → c = Char.ofNat n := by
    rintro n rfl
    exact (Char.ofNat_toNat c).symm
  unfold escapeChar
  split
  · subst_vars
    exact readString_backslash rfl done _
  split
  · subst_vars
    exact readString_backslash rfl done _
  split
  · subst_vars
    exact readString_backslash rfl done _
  split
  · subst_vars
    exact readString_backslash rfl done _
  split
  · subst_vars
    exact readString_backslash rfl done _
  split
  · rename_i h
    rw [hcode h]
    exact readString_backslash rfl done _
  split
  · rename_i h
    rw [hcode h]
    exact readString_backslash rfl done _
  split
  · rename_i h
    have hhigh : Reader.isHighUnit c.toNat = false := by
      simp [Reader.isHighUnit]
      omega
    have hchar : Reader.unitChar c.toNat = c := by
      simp [Reader.unitChar, Reader.isHighUnit, Reader.isLowUnit]
      omega
    rw [readString_unit (by omega) hhigh, hchar]
  · rw [Reader.readString.eq_def]
    split <;> simp_all

/-- A string whose characters are written by codes that are read as they are is read up to its
closing quote. -/
theorem readString_flatMap {code : Char → List Char}
    (h : ∀ done c next rest, Reader.readString done (code c ++ next :: rest) =
      Reader.readString (c :: done) (next :: rest)) (done s rest : List Char) :
    Reader.readString done (s.flatMap code ++ '"' :: rest) =
      .ok (String.ofList (done.reverse ++ s), rest) := by
  induction s generalizing done with
  | nil => simp [Reader.readString]
  | cons c s ih =>
    -- A code is never the end of the text, so that the character behind it can be named.
    obtain ⟨next, more, hmore⟩ : ∃ next more, s.flatMap code ++ '"' :: rest = next :: more :=
      List.exists_cons_of_ne_nil (by simp)
    rw [List.flatMap_cons, List.append_assoc, hmore, h, ← hmore, ih, List.reverse_cons,
      List.append_assoc, List.singleton_append]

/-- A string that is written is read up to its closing quote. -/
theorem readString_escaped (done s rest : List Char) :
    Reader.readString done (s.flatMap escapeChar ++ '"' :: rest) =
      .ok (String.ofList (done.reverse ++ s), rest) :=
  readString_flatMap readString_escapeChar done s rest

theorem writeString_append_inj {s t : String} (h : writeString s ++ rest = writeString t ++ rest') :
    s = t ∧ rest = rest' := by
  simp only [writeString, List.cons_append, List.append_assoc, List.nil_append,
    List.cons.injEq, true_and] at h
  have hs := readString_escaped [] s.toList rest
  rw [h, readString_escaped] at hs
  simpa [eq_comm] using hs

/-! ### Numbers -/

theorem writeInt_ofNat (n : Nat) : writeInt (.ofNat n) = Nat.toDigits 10 n := by
  simp [writeInt, ToString.toString, Int.repr, Nat.toList_repr]

theorem writeInt_negSucc (n : Nat) : writeInt (.negSucc n) = '-' :: Nat.toDigits 10 (n + 1) := by
  simp [writeInt, ToString.toString, Int.repr, Nat.toList_repr, String.toList_append]

theorem exists_digit (n : Nat) : ∃ c digits, Nat.toDigits 10 n = c :: digits ∧ c.isDigit := by
  cases h : Nat.toDigits 10 n with
  | nil => exact absurd h Nat.toDigits_ne_nil
  | cons c digits =>
    have hmem : c ∈ Nat.toDigits 10 n := by simp [h]
    exact ⟨c, digits, rfl, Nat.isDigit_of_mem_toDigits (by decide) (by decide) hmem⟩

theorem toDigits_append_ne_minus {text : List Char} (h : Nat.toDigits 10 n ++ rest = '-' :: text) :
    False := by
  obtain ⟨c, digits, hn, hc⟩ := exists_digit n
  rw [hn, List.cons_append, List.cons.injEq] at h
  rw [h.1] at hc
  exact absurd hc (by decide)

theorem writeInt_append_inj {m n : Int} (hrest : Stops Char.isDigit rest)
    (hrest' : Stops Char.isDigit rest') (h : writeInt m ++ rest = writeInt n ++ rest') :
    m = n ∧ rest = rest' := by
  cases m with
  | ofNat m =>
    cases n with
    | ofNat n =>
      rw [writeInt_ofNat, writeInt_ofNat] at h
      obtain ⟨rfl, hr⟩ := toDigits_append_inj hrest hrest' h
      exact ⟨rfl, hr⟩
    | negSucc n =>
      rw [writeInt_ofNat, writeInt_negSucc] at h
      exact (toDigits_append_ne_minus h).elim
  | negSucc m =>
    cases n with
    | ofNat n =>
      rw [writeInt_negSucc, writeInt_ofNat] at h
      exact (toDigits_append_ne_minus h.symm).elim
    | negSucc n =>
      rw [writeInt_negSucc, writeInt_negSucc, List.cons_append, List.cons_append,
        List.cons.injEq] at h
      obtain ⟨hn, hr⟩ := toDigits_append_inj hrest hrest' h.2
      exact ⟨by rw [Nat.succ.inj hn], hr⟩

/-! ### Lists of texts -/

/-- Texts with commas between them. -/
def commaSeparated : List (List Char) → List Char
  | [] => []
  | [text] => text
  | text :: rest => text ++ ',' :: commaSeparated rest

/-- The part of a comma-separated text behind its first member. -/
def commaBehind (texts : List (List Char)) : List Char :=
  if texts.isEmpty then [] else ',' :: commaSeparated texts

theorem commaSeparated_cons (text : List Char) (rest : List (List Char)) :
    commaSeparated (text :: rest) = text ++ commaBehind rest := by
  cases rest with
  | nil => simp [commaSeparated, commaBehind]
  | cons => rfl

/-- Members that can be told apart, up to a closing bracket that none of them starts with. -/
theorem commaSeparated_append_inj {α : Type} {f : α → List Char} {close : Char}
    (hclose : close.isDigit = false) (hcomma : close ≠ ',')
    (hlead : ∀ a rest text, f a ++ rest ≠ close :: text) {l l' : List α}
    (hf : ∀ a ∈ l, ∀ b rest rest', Stops Char.isDigit rest → Stops Char.isDigit rest' →
      f a ++ rest = f b ++ rest' → a = b ∧ rest = rest')
    (h : commaSeparated (l.map f) ++ close :: rest = commaSeparated (l'.map f) ++ close :: rest') :
    l = l' ∧ rest = rest' := by
  have hstops : ∀ (texts : List (List Char)) (rest : List Char),
      Stops Char.isDigit (commaBehind texts ++ close :: rest) := by
    intro texts rest c hc
    cases texts with
    | nil =>
      cases hc
      exact hclose
    | cons =>
      cases hc
      decide
  induction l generalizing l' with
  | nil =>
    cases l' with
    | nil =>
      cases h
      exact ⟨rfl, rfl⟩
    | cons b l' =>
      rw [List.map_cons, commaSeparated_cons, List.append_assoc] at h
      exact (hlead b _ _ h.symm).elim
  | cons a l ih =>
    cases l' with
    | nil =>
      rw [List.map_cons, commaSeparated_cons, List.append_assoc] at h
      exact (hlead a _ _ h).elim
    | cons b l' =>
      rw [List.map_cons, List.map_cons, commaSeparated_cons, commaSeparated_cons,
        List.append_assoc, List.append_assoc] at h
      obtain ⟨rfl, hbehind⟩ := hf a List.mem_cons_self b _ _ (hstops _ _) (hstops _ _) h
      -- What is left is closed on both sides, or goes on behind a comma on both sides.
      cases l with
      | nil =>
        cases l' with
        | nil =>
          cases hbehind
          exact ⟨rfl, rfl⟩
        | cons => exact absurd (List.cons.inj hbehind).1 hcomma
      | cons c l =>
        cases l' with
        | nil => exact absurd (List.cons.inj hbehind).1.symm hcomma
        | cons c' l' =>
          obtain ⟨hl, hr⟩ := ih (fun a ha => hf a (List.mem_cons_of_mem _ ha))
            (List.cons.inj hbehind).2
          exact ⟨by rw [hl], hr⟩

/-! ### Values -/

/-- Induction over a value: over the items of an array and the values of an object's fields. -/
@[elab_as_elim]
theorem induct {P : Json → Prop} (null : P .null) (bool : ∀ b, P (.bool b)) (int : ∀ n, P (.int n))
    (str : ∀ s, P (.str s)) (arr : ∀ items, (∀ v ∈ items, P v) → P (.arr items))
    (obj : ∀ fields, (∀ field ∈ fields, P field.2) → P (.obj fields)) (v : Json) : P v :=
  @Json.rec P (fun items => ∀ v ∈ items, P v) (fun fields => ∀ field ∈ fields, P field.2)
    (fun field => P field.2) null bool int str arr obj (by simp)
    (fun _ _ hv hrest => List.forall_mem_cons.2 ⟨hv, hrest⟩) (by simp)
    (fun _ _ hfield hrest => List.forall_mem_cons.2 ⟨hfield, hrest⟩) (fun _ _ hv => hv) v

/-- The text of a field. -/
def writeField (field : String × Json) : List Char :=
  writeString field.1 ++ ':' :: writeCompact field.2

theorem writeItems_eq (items : List Json) :
    writeItems items = commaSeparated (items.map writeCompact) := by
  induction items with
  | nil => rfl
  | cons v rest ih =>
    cases rest with
    | nil => rfl
    | cons w rest =>
      show writeCompact v ++ ',' :: writeItems (w :: rest) = _
      rw [ih]
      rfl

theorem writeFields_eq (fields : List (String × Json)) :
    writeFields fields = commaSeparated (fields.map writeField) := by
  induction fields with
  | nil => rfl
  | cons field rest ih =>
    cases rest with
    | nil => rfl
    | cons other rest =>
      show writeField field ++ ',' :: writeFields (other :: rest) = _
      rw [ih]
      rfl

/-- The shapes of values. -/
inductive Shape where
  | null | bool | int | str | arr | obj
  deriving DecidableEq

/-- The shape of a value. -/
def shape : Json → Shape
  | .null => .null
  | .bool _ => .bool
  | .int _ => .int
  | .str _ => .str
  | .arr _ => .arr
  | .obj _ => .obj

/-- The shape of the values whose text starts with a character. -/
def shapeOf? (c : Char) : Option Shape :=
  if c.isDigit then some .int
  else match c with
    | 'n' => some .null
    | 't' | 'f' => some .bool
    | '-' => some .int
    | '"' => some .str
    | '[' => some .arr
    | '\x7b' => some .obj
    | _ => none

/-- The first character of a text tells the shape of the value. -/
theorem exists_lead (v : Json) :
    ∃ c text, writeCompact v = c :: text ∧ shapeOf? c = some v.shape := by
  cases v with
  | null => exact ⟨_, _, rfl, rfl⟩
  | bool b => cases b <;> exact ⟨_, _, rfl, rfl⟩
  | int n =>
    cases n with
    | ofNat n =>
      obtain ⟨c, digits, hn, hc⟩ := exists_digit n
      exact ⟨c, digits, (writeInt_ofNat n).trans hn, by simp [shapeOf?, hc, shape]⟩
    | negSucc n => exact ⟨_, _, writeInt_negSucc n, rfl⟩
  | str | arr | obj => exact ⟨_, _, rfl, rfl⟩

theorem shape_eq_of_append (h : writeCompact v ++ rest = writeCompact w ++ rest') :
    v.shape = w.shape := by
  obtain ⟨c, text, hv, hc⟩ := exists_lead v
  obtain ⟨c', text', hw, hc'⟩ := exists_lead w
  rw [hv, hw, List.cons_append, List.cons_append, List.cons.injEq] at h
  rw [h.1, hc'] at hc
  exact (Option.some.inj hc).symm

theorem writeCompact_append_ne {c : Char} (hc : shapeOf? c = none) (rest text : List Char) :
    writeCompact v ++ rest ≠ c :: text := by
  intro h
  obtain ⟨lead, more, hv, hlead⟩ := exists_lead v
  rw [hv, List.cons_append, List.cons.injEq] at h
  rw [h.1, hc] at hlead
  cases hlead

/-- The text of a value can be read off a text that does not go on with a digit. -/
theorem writeCompact_append_inj (hrest : Stops Char.isDigit rest)
    (hrest' : Stops Char.isDigit rest') (h : writeCompact v ++ rest = writeCompact w ++ rest') :
    v = w ∧ rest = rest' := by
  have hshape := shape_eq_of_append h
  induction v using Json.induct generalizing w rest rest' with
  | null =>
    cases w with
    | null => exact ⟨rfl, List.append_cancel_left h⟩
    | _ => cases hshape
  | bool b =>
    cases w with
    | bool b' =>
      cases b <;> cases b' <;> simp_all [writeCompact]
    | _ => cases hshape
  | int n =>
    cases w with
    | int m =>
      obtain ⟨rfl, hr⟩ := writeInt_append_inj hrest hrest' h
      exact ⟨rfl, hr⟩
    | _ => cases hshape
  | str s =>
    cases w with
    | str t =>
      obtain ⟨rfl, hr⟩ := writeString_append_inj h
      exact ⟨rfl, hr⟩
    | _ => cases hshape
  | arr items ih =>
    cases w with
    | arr items' =>
      simp only [writeCompact, writeItems_eq, List.cons_append, List.append_assoc,
        List.nil_append, List.cons.injEq, true_and] at h
      obtain ⟨rfl, hr⟩ := commaSeparated_append_inj (by decide) (by decide)
        (fun v => writeCompact_append_ne (by decide))
        (fun v hv w rest rest' hrest hrest' h => ih v hv hrest hrest' h (shape_eq_of_append h)) h
      exact ⟨rfl, hr⟩
    | _ => cases hshape
  | obj fields ih =>
    cases w with
    | obj fields' =>
      simp only [writeCompact, writeFields_eq, List.cons_append, List.append_assoc,
        List.nil_append, List.cons.injEq, true_and] at h
      have hfields : ∀ field ∈ fields, ∀ field' rest rest', Stops Char.isDigit rest →
          Stops Char.isDigit rest' → writeField field ++ rest = writeField field' ++ rest' →
          field = field' ∧ rest = rest' := by
        intro field hfield field' rest rest' hrest hrest' h
        simp only [writeField, List.append_assoc, List.cons_append] at h
        obtain ⟨hname, hvalue⟩ := writeString_append_inj h
        have hvalue := (List.cons.inj hvalue).2
        obtain ⟨hv, hr⟩ := ih field hfield hrest hrest' hvalue (shape_eq_of_append hvalue)
        exact ⟨Prod.ext hname hv, hr⟩
      obtain ⟨rfl, hr⟩ := commaSeparated_append_inj (by decide) (by decide)
        (fun field rest text h => by cases h) hfields h
      exact ⟨rfl, hr⟩
    | _ => cases hshape

theorem compact_injective (h : v.compact = w.compact) : v = w := by
  have hstops : Stops Char.isDigit [] := by simp [Stops]
  have htext : writeCompact v ++ [] = writeCompact w ++ [] := by
    rw [List.append_nil, List.append_nil]
    exact String.ofList_inj.1 h
  exact (writeCompact_append_inj hstops hstops htext).1

end Dockerfile.Json
