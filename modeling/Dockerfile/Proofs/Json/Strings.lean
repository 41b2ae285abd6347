import Dockerfile.Proofs.Json.Compact

/-!
# Arrays of strings

Strings in brackets, with a comma and a space between them, are a usual way to write a list of
arguments (`encodeStrings`). Characters beyond ASCII may be written as they are or as code units, a
character beyond the first 65536 as a pair of them. Either way the reader gives the strings back
(`read_encodeStrings`).
-/

namespace Dockerfile.Json

/-! ### Writing -/

/-- A character as one code unit or as a pair of them. -/
def codeUnits (c : Char) : List Nat :=
  if c.toNat < 0x10000 then [c.toNat]
  else [0xD800 + (c.toNat - 0x10000) / 0x400, 0xDC00 + (c.toNat - 0x10000) % 0x400]

/-- One character of a JSON string. With `ascii`, only printable ASCII is written as it is. -/
def encodeChar (ascii : Bool) (c : Char) : List Char :=
  if ascii && 0x7F ≤ c.toNat then (codeUnits c).flatMap fun n => '\\' :: 'u' :: Text.hexDigits 4 n
  else escapeChar c

/-- A text between double quotes. -/
def encodeString (ascii : Bool) (s : String) : List Char :=
  '"' :: s.toList.flatMap (encodeChar ascii) ++ ['"']

/-- Texts with a comma and a space between them. -/
def encodeItems (ascii : Bool) : List String → List Char
  | [] => []
  | s :: rest => encodeString ascii s ++ rest.flatMap fun t => ',' :: ' ' :: encodeString ascii t

/-- An array of texts. -/
def encodeStrings (ascii : Bool) (items : List String) : String :=
  String.ofList ('[' :: encodeItems ascii items ++ [']'])

theorem toList_encodeStrings (ascii : Bool) (items : List String) :
    (encodeStrings ascii items).toList = '[' :: (encodeItems ascii items ++ [']']) := by
  rw [encodeStrings, String.toList_ofList]
  rfl

/-! ### Strings -/

/-- Two code units that make a pair. -/
theorem readString_pair {high low : Nat} (hhigh : Reader.isHighUnit high)
    (hlow : Reader.isLowUnit low) (done : List Char) (next : Char) (rest : List Char) :
    Reader.readString done ('\\' :: 'u' :: Text.hexDigits 4 high ++
        ('\\' :: 'u' :: Text.hexDigits 4 low ++ next :: rest)) =
      Reader.readString (Reader.joinUnits high low :: done) (next :: rest) := by
  simp only [Reader.isHighUnit, Reader.isLowUnit, Bool.and_eq_true, decide_eq_true_eq] at hhigh hlow
  obtain ⟨a, b, c, d, hdigits, ha, hb, hc, hd, hval⟩ := exists_hexDigits (n := high) (by omega)
  obtain ⟨a', b', c', d', hdigits', ha', hb', hc', hd', hval'⟩ :=
    exists_hexDigits (n := low) (by omega)
  have hunit := hexUnit?_digitChar ha hb hc hd
  have hunit' := hexUnit?_digitChar ha' hb' hc' hd'
  rw [hval] at hunit
  rw [hval'] at hunit'
  rw [hdigits, hdigits']
  simp only [List.cons_append, List.nil_append]
  rw [Reader.readString, hunit]
  dsimp only
  rw [if_pos, hunit']
  · dsimp only
    rw [if_pos]
    simp [Reader.isLowUnit, hlow]
  · simp [Reader.isHighUnit, hhigh]

/-- Reading the code of a character gives the character. -/
theorem readString_encodeChar (ascii : Bool) (done : List Char) (c next : Char)
    (rest : List Char) :
    Reader.readString done (encodeChar ascii c ++ next :: rest) =
      Reader.readString (c :: done) (next :: rest) := by
  unfold encodeChar
  split
  · have hvalid : c.toNat < 0xD800 ∨ 0xDFFF < c.toNat ∧ c.toNat < 0x110000 := c.valid
    unfold codeUnits
    split
    · rename_i hsmall
      have hhigh : Reader.isHighUnit c.toNat = false := by
        simp only [Reader.isHighUnit, Bool.and_eq_false_iff, decide_eq_false_iff_not]
        omega
      have hchar : Reader.unitChar c.toNat = c := by
        unfold Reader.unitChar Reader.isHighUnit Reader.isLowUnit
        rw [if_neg, Char.ofNat_toNat]
        simp only [Bool.or_eq_true, Bool.and_eq_true, decide_eq_true_eq]
        omega
      rw [List.flatMap_singleton, readString_unit hsmall hhigh, hchar]
    · rename_i hlarge
      have hchar : Reader.joinUnits (0xD800 + (c.toNat - 0x10000) / 0x400)
          (0xDC00 + (c.toNat - 0x10000) % 0x400) = c := by
        unfold Reader.joinUnits
        rw [show 0x10000 + (0xD800 + (c.toNat - 0x10000) / 0x400 - 0xD800) * 0x400 +
          (0xDC00 + (c.toNat - 0x10000) % 0x400 - 0xDC00) = c.toNat by omega, Char.ofNat_toNat]
      rw [List.flatMap_cons, List.flatMap_singleton, List.append_assoc, readString_pair, hchar]
      · simp only [Reader.isHighUnit, Bool.and_eq_true, decide_eq_true_eq]
        omega
      · simp only [Reader.isLowUnit, Bool.and_eq_true, decide_eq_true_eq]
        omega
  · exact readString_escapeChar done c next rest

/-- A string that is written is read up to its closing quote. -/
theorem readString_encoded (ascii : Bool) (s : String) (rest : List Char) :
    Reader.readString [] (s.toList.flatMap (encodeChar ascii) ++ '"' :: rest) = .ok (s, rest) := by
  rw [readString_flatMap (readString_encodeChar ascii), List.reverse_nil, List.nil_append,
    String.ofList_toList]

/-! ### Arrays -/

namespace Reader

variable {frames outer : List Frame} {item : Item} {items : List Item}

theorem run_string {cs rest : List Char} {s : String} (h : readString [] cs = .ok (s, rest)) :
    run .value frames ('"' :: cs) = run (.after (.str s)) frames rest := by
  rw [run.eq_def]
  dsimp only
  split
  case h_1 cs' heq =>
    obtain rfl := (List.cons.inj heq).2
    split
    · rename_i hread
      cases h.symm.trans hread
      rfl
    · rename_i hread
      cases h.symm.trans hread
  case h_2 heq => cases heq
  case h_3 heq => cases heq
  case h_4 hquote _ _ => exact (hquote cs rfl).elim

theorem run_done (cs : List Char) : run (.after item) [] cs = .ok (item, cs) := by
  rw [run.eq_def]

theorem run_empty (rest : List Char) :
    run .value frames ('[' :: ']' :: rest) = run (.after (.arr [])) frames rest := by
  rw [run.eq_def]
  rfl

theorem run_open (cs : List Char) :
    run .value frames ('[' :: '"' :: cs) = run .value (.array [] :: frames) ('"' :: cs) := by
  rw [run.eq_def]
  rfl

theorem run_close (rest : List Char) :
    run (.after item) (.array items :: outer) (']' :: rest) =
      run (.after (.arr (item :: items).reverse)) outer rest := by
  rw [run.eq_def]
  rfl

theorem run_comma (cs : List Char) :
    run (.after item) (.array items :: outer) (',' :: ' ' :: '"' :: cs) =
      run .value (.array (item :: items) :: outer) ('"' :: cs) := by
  rw [run.eq_def]
  rfl

/-- The rest of an array behind one of its strings. -/
theorem run_items (ascii : Bool) (more : List String) :
    run (.after item) [.array items]
        (more.flatMap (fun t => ',' :: ' ' :: encodeString ascii t) ++ [']']) =
      .ok (.arr (items.reverse ++ item :: more.map .str), []) := by
  induction more generalizing item items with
  | nil =>
    rw [List.flatMap_nil, List.nil_append, run_close, run_done]
    simp
  | cons t more ih =>
    have htext : (t :: more).flatMap (fun t => ',' :: ' ' :: encodeString ascii t) ++ [']'] =
        ',' :: ' ' :: '"' :: (t.toList.flatMap (encodeChar ascii) ++
          '"' :: (more.flatMap (fun t => ',' :: ' ' :: encodeString ascii t) ++ [']'])) := by
      simp [encodeString]
    rw [htext, run_comma, run_string (readString_encoded ascii t _), ih]
    simp

/-- An array of strings is read as it was written. -/
theorem read_encodeStrings (ascii : Bool) (items : List String) :
    read (encodeStrings ascii items) = .ok (.arr (items.map .str)) := by
  have hrun : run .value [] ('[' :: encodeItems ascii items ++ [']']) =
      .ok (.arr (items.map .str), []) := by
    cases items with
    | nil => exact (run_empty []).trans (run_done [])
    | cons s more =>
      have htext : '[' :: encodeItems ascii (s :: more) ++ [']'] =
          '[' :: '"' :: (s.toList.flatMap (encodeChar ascii) ++
            '"' :: (more.flatMap (fun t => ',' :: ' ' :: encodeString ascii t) ++ [']'])) := by
        simp [encodeItems, encodeString]
      rw [htext, run_open, run_string (readString_encoded ascii s _), run_items]
      rfl
  unfold read encodeStrings
  rw [String.toList_ofList, show skip ('[' :: encodeItems ascii items ++ [']']) =
    '[' :: encodeItems ascii items ++ [']'] from rfl, hrun]
  rfl

theorem strings?_map_str (items : List String) :
    Item.strings? (.arr (items.map .str)) = some items := by
  induction items with
  | nil => rfl
  | cons s items ih =>
    unfold Item.strings? at ih ⊢
    dsimp only at ih ⊢
    rw [List.map_cons, List.mapM_cons, ih]
    rfl

end Reader

end Dockerfile.Json
