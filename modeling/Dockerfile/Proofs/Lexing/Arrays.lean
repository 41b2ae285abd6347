import Dockerfile.Proofs.Json.Strings
import Dockerfile.Proofs.Lexing.Lines

/-!
# Written arrays

An array of strings that is written as JSON (`Json.encodeStrings`) is one token, whichever character
escapes (`isArray_encodeStrings`, `steps_array`): every escape that is written is one that an array
may hold, no line ends inside it, and its brackets and quotes are found where they were put.
-/

namespace Dockerfile

open Template (IsEscape)

namespace Lexer

open Json

variable {e : Char} {cs rest : List Char}

/-! ### Text within a line -/

/-- Where other text comes before the next line end, no lines are joined. -/
theorem continues_of_notMem {front : List Char} (hline : '\n' ∉ front) {d : Char} (hd : isSolid d)
    (c : Char) (back : List Char) : continues e (c :: (front ++ d :: back)) = false := by
  obtain ⟨x, behind, hdrop, hx⟩ : ∃ x behind,
      (front ++ d :: back).dropWhile isBlank = x :: behind ∧ x ≠ '\n' := by
    induction front with
    | nil =>
      exact ⟨d, back, List.dropWhile_cons_of_neg (by simp [not_isBlank_of_isSolid hd]),
        (ne_of_isSolid hd).1⟩
    | cons b front ih =>
      rw [List.mem_cons, not_or] at hline
      obtain ⟨hb, hfront⟩ := hline
      by_cases hblank : isBlank b
      · rw [List.cons_append, List.dropWhile_cons_of_pos hblank]
        exact ih hfront
      · exact ⟨b, front ++ d :: back, List.dropWhile_cons_of_neg hblank, Ne.symm hb⟩
  rw [continues, continuation?, hdrop]
  simp [hx]

theorem ne_escape (he : IsEscape e) {c : Char} (hc : c ≠ '\\' && c ≠ '\x60') : c ≠ e := by
  rcases he with rfl | rfl <;> simp_all

/-- Text without line ends is kept. -/
theorem dropBreaks_of_notMem (h : '\n' ∉ cs) : dropBreaks e cs = cs := by
  unfold dropBreaks
  induction cs with
  | nil => rfl
  | cons c cs ih =>
    rw [List.mem_cons, not_or] at h
    obtain ⟨-, hcs⟩ := h
    have hwhole : breaksLine e (c :: cs) = false := by
      rw [breaksLine, Bool.and_eq_false_iff, beq_eq_false_iff_ne]
      refine .inr fun hhead => hcs ?_
      exact (List.dropWhile_sublist isBlank).mem (List.mem_of_head? hhead)
    rw [dropBreaksFrom, hwhole, ih hcs]
    rfl

/-! ### Strings of an array -/

theorem isHex_digitChar : ∀ k < 16, isHex (Nat.digitChar k) := by decide

/-- A code unit is four digits. -/
theorem hexAhead_hexDigits {n : Nat} (hn : n < 0x10000) (rest : List Char) :
    hexAhead (Text.hexDigits 4 n ++ rest) := by
  obtain ⟨a, b, c, d, hdigits, ha, hb, hc, hd, -⟩ := exists_hexDigits hn
  rw [hdigits]
  simp [hexAhead, isHex_digitChar _ ha, isHex_digitChar _ hb, isHex_digitChar _ hc,
    isHex_digitChar _ hd]

/-- What the code of a character can be: a short escape, code units, or the character. -/
theorem encodeChar_cases (ascii : Bool) (c : Char) :
    (∃ d, encodeChar ascii c = ['\\', d] ∧ isArrayEscape d ∧ d ≠ 'u') ∨
    (∃ units : List Nat, (∀ n ∈ units, n < 0x10000) ∧
      encodeChar ascii c = units.flatMap fun n => '\\' :: 'u' :: Text.hexDigits 4 n) ∨
    encodeChar ascii c = [c] ∧ c ≠ '\n' ∧ c ≠ '"' ∧ c ≠ '\\' := by
  unfold encodeChar
  split
  · refine .inr (.inl ⟨codeUnits c, fun n hn => ?_, rfl⟩)
    have hvalid : c.toNat < 0xD800 ∨ 0xDFFF < c.toNat ∧ c.toNat < 0x110000 := c.valid
    unfold codeUnits at hn
    split at hn <;> simp at hn <;> omega
  · unfold escapeChar
    split
    · exact .inl ⟨'"', rfl, by decide⟩
    split
    · exact .inl ⟨'\\', rfl, by decide⟩
    split
    · exact .inl ⟨'n', rfl, by decide⟩
    split
    · exact .inl ⟨'r', rfl, by decide⟩
    split
    · exact .inl ⟨'t', rfl, by decide⟩
    split
    · exact .inl ⟨'f', rfl, by decide⟩
    split
    · exact .inl ⟨'b', rfl, by decide⟩
    split
    · refine .inr (.inl ⟨[c.toNat], ?_, (List.flatMap_singleton _ _).symm⟩)
      simp only [List.mem_singleton, forall_eq]
      omega
    · exact .inr (.inr ⟨rfl, by assumption, by assumption, by assumption⟩)

/-- Text that can stand in a string of an array: it is within a line, and the string ends behind
it. -/
structure Quotable (e : Char) (cs : List Char) : Prop where
  newline_notMem : '\n' ∉ cs
  arrayString_eq : ∀ rest, arrayString e false (cs ++ '"' :: rest) = .ok (cs ++ ['"'], rest)

namespace Quotable

theorem nil (he : IsEscape e) : Quotable e [] := by
  refine ⟨List.not_mem_nil, fun rest => ?_⟩
  have hquote : '"' ≠ e := ne_escape he rfl
  rw [List.nil_append, arrayString.eq_def]
  simp [continues, continuation?_of_ne hquote]

theorem cons {c : Char} (h : Quotable e cs) (hc : c ≠ '\n' ∧ c ≠ '"' ∧ c ≠ '\\') :
    Quotable e (c :: cs) := by
  refine ⟨by simp [h.newline_notMem, Ne.symm hc.1], fun rest => ?_⟩
  have hwhole := continues_of_notMem (e := e) h.newline_notMem (d := '"') rfl c rest
  rw [List.cons_append, arrayString.eq_def]
  simp [hwhole, hc, h.arrayString_eq rest, consResult, consSpan]

theorem run {run : List Char} (h : Quotable e cs)
    (hrun : ∀ c ∈ run, c ≠ '\n' ∧ c ≠ '"' ∧ c ≠ '\\') : Quotable e (run ++ cs) := by
  induction run with
  | nil => exact h
  | cons c run ih =>
    obtain ⟨hc, hrun⟩ := List.forall_mem_cons.1 hrun
    exact (ih hrun).cons hc

theorem escape {d : Char} (h : Quotable e cs) (hd : isArrayEscape d)
    (hu : d = 'u' → ∀ rest, hexAhead (cs ++ rest)) : Quotable e ('\\' :: d :: cs) := by
  have hline : '\n' ∉ d :: cs := by
    rw [List.mem_cons, not_or]
    refine ⟨?_, h.newline_notMem⟩
    rintro rfl
    cases hd
  refine ⟨by simpa using hline, fun rest => ?_⟩
  have hwhole := continues_of_notMem (e := e) hline (d := '"') rfl '\\' rest
  have hhex : (d = 'u' && !hexAhead (cs ++ '"' :: rest)) = false := by
    rw [Bool.and_eq_false_iff, decide_eq_false_iff_not, Bool.not_eq_false']
    exact (Decidable.em (d = 'u')).symm.imp_right fun hd => hu hd _
  rw [List.cons_append] at hwhole
  rw [List.cons_append, List.cons_append, arrayString.eq_def]
  simp [hwhole, hhex, hd, h.arrayString_eq rest, consResult, consSpan]

/-- A code unit. -/
theorem unit {n : Nat} (h : Quotable e cs) (hn : n < 0x10000) :
    Quotable e ('\\' :: 'u' :: Text.hexDigits 4 n ++ cs) := by
  obtain ⟨a, b, c, d, hdigits, ha, hb, hc, hd, -⟩ := exists_hexDigits hn
  have hplain : ∀ k < 16, Nat.digitChar k ≠ '\n' ∧ Nat.digitChar k ≠ '"' ∧
      Nat.digitChar k ≠ '\\' := by decide
  have hrun : ∀ x ∈ Text.hexDigits 4 n, x ≠ '\n' ∧ x ≠ '"' ∧ x ≠ '\\' := by
    rw [hdigits]
    simp [hplain a ha, hplain b hb, hplain c hc, hplain d hd]
  have hahead : ∀ rest, hexAhead (Text.hexDigits 4 n ++ cs ++ rest) := by
    intro rest
    rw [List.append_assoc]
    exact hexAhead_hexDigits hn (cs ++ rest)
  exact (h.run hrun).escape rfl fun _ => hahead

/-- The code of a character. -/
theorem char (h : Quotable e cs) (ascii : Bool) (c : Char) :
    Quotable e (encodeChar ascii c ++ cs) := by
  rcases encodeChar_cases ascii c with ⟨d, hcode, hd, hu⟩ | ⟨units, hunits, hcode⟩ | ⟨hcode, hc⟩
  · rw [hcode]
    exact h.escape hd fun hd => (hu hd).elim
  · rw [hcode]
    clear hcode
    induction units with
    | nil => exact h
    | cons n units ih =>
      obtain ⟨hn, hunits⟩ := List.forall_mem_cons.1 hunits
      rw [List.flatMap_cons, List.append_assoc]
      exact (ih hunits).unit hn
  · rw [hcode]
    exact h.cons hc

end Quotable

/-- The codes of the characters of a text. -/
theorem quotable_encoded (he : IsEscape e) (ascii : Bool) (s : List Char) :
    Quotable e (s.flatMap (encodeChar ascii)) := by
  induction s with
  | nil => exact .nil he
  | cons c s ih => exact ih.char ascii c

/-! ### Arrays -/

theorem newline_notMem_encodeString (ascii : Bool) (s : String) :
    '\n' ∉ encodeString ascii s := by
  simp [encodeString, (quotable_encoded (.inl rfl) ascii s.toList).newline_notMem]

theorem newline_notMem_encodeItems (ascii : Bool) (items : List String) :
    '\n' ∉ encodeItems ascii items := by
  cases items with
  | nil => exact List.not_mem_nil
  | cons s more => simp [encodeItems, newline_notMem_encodeString]

/-- A string of an array that goes on within its line. -/
theorem segment_encodeString (he : IsEscape e) (ascii : Bool) (s : String) (depth : Nat)
    (cs : List Char) : segment e depth (encodeString ascii s ++ cs) =
      prependSegment (encodeString ascii s) (segment e depth cs) := by
  have hquote : '"' ≠ e := ne_escape he rfl
  have hwhole : ∀ cs, continues e ('"' :: cs) = false := by
    simp [continues, continuation?_of_ne hquote]
  have hstring := (quotable_encoded he ascii s.toList).arrayString_eq cs
  have htext : encodeString ascii s ++ cs =
      '"' :: (s.toList.flatMap (encodeChar ascii) ++ '"' :: cs) := by
    simp [encodeString]
  rw [htext, segment_string (by simp [hwhole]) hstring]
  rfl

theorem segment_close (he : IsEscape e) (cs : List Char) :
    segment e 1 (']' :: cs) = .ok ⟨[']'], 0, cs⟩ := by
  have hbracket : ']' ≠ e := ne_escape he rfl
  rw [segment.eq_def]
  simp [continues, continuation?_of_ne hbracket]

theorem segment_cons {c : Char} (hc : c ≠ '\n' ∧ c ≠ '"' ∧ c ≠ '[' ∧ c ≠ ']') (he : c ≠ e)
    (depth : Nat) (cs : List Char) :
    segment e depth (c :: cs) = prependSegment [c] (segment e depth cs) := by
  rw [segment.eq_def]
  simp [continues, continuation?_of_ne he, hc]

/-- The items of an array, up to its closing bracket. -/
theorem segment_encodeItems (he : IsEscape e) (ascii : Bool) (items : List String)
    (cs : List Char) : segment e 1 (encodeItems ascii items ++ ']' :: cs) =
      .ok ⟨encodeItems ascii items ++ [']'], 0, cs⟩ := by
  have hmore : ∀ more : List String,
      segment e 1 (more.flatMap (fun t => ',' :: ' ' :: encodeString ascii t) ++ ']' :: cs) =
        .ok ⟨more.flatMap (fun t => ',' :: ' ' :: encodeString ascii t) ++ [']'], 0, cs⟩ := by
    intro more
    induction more with
    | nil => exact segment_close he cs
    | cons t more ih =>
      rw [List.flatMap_cons, List.append_assoc, List.cons_append, List.cons_append,
        segment_cons (by decide) (ne_escape he rfl), segment_cons (by decide) (ne_escape he rfl),
        segment_encodeString he, ih]
      simp [prependSegment]
  cases items with
  | nil => exact segment_close he cs
  | cons s more =>
    rw [encodeItems, List.append_assoc, segment_encodeString he, hmore]
    simp [prependSegment]

/-- Is a text one array for the lexer, whichever character escapes? It stands between brackets and
within a line, and the array ends at its last bracket. -/
def IsArray (text : String) : Prop :=
  ∃ body, text.toList = '[' :: (body ++ [']']) ∧ '\n' ∉ body ∧
    ∀ e, IsEscape e → ∀ cs, segment e 1 (body ++ ']' :: cs) = .ok ⟨body ++ [']'], 0, cs⟩

theorem isArray_encodeStrings (ascii : Bool) (items : List String) :
    IsArray (encodeStrings ascii items) :=
  ⟨encodeItems ascii items, toList_encodeStrings ascii items, newline_notMem_encodeItems ascii items,
    fun _ he => segment_encodeItems he ascii items⟩

theorem IsArray.newline_notMem {text : String} (h : IsArray text) : '\n' ∉ text.toList := by
  obtain ⟨body, htext, hline, -⟩ := h
  simp [htext, hline]

/-- An array where one may start is one token. -/
theorem steps_array (he : IsEscape e) {w : Words} (hword : w.word = [])
    (hallow : w.allowArray) {text : String} (harray : IsArray text) (p : Position)
    (cs : List Char) :
    Steps ⟨.argument (.words w), e, p, text.toList ++ cs⟩ [⟨.string, text, p⟩]
      ⟨.argument (.words (w.extend text.toList)), e, p.after text.toList, cs⟩ := by
  have hkept := dropBreaks_of_notMem (e := e) harray.newline_notMem
  obtain ⟨body, htext, -, hsegment⟩ := harray
  replace htext : text.toList = ['['] ++ (body ++ [']']) := htext
  have hcut := hsegment e he cs
  rw [List.append_cons] at hcut
  have hmove := Move.array (.first (by rw [hword]; rfl) hallow) hcut (.inl rfl)
  rw [← htext, hkept] at hmove
  have hsteps := Steps.of_move he hmove rfl p
  rw [placed_arrayPieces, hkept, String.ofList_toList, if_neg (by simp [htext])] at hsteps
  exact hsteps

end Lexer

end Dockerfile
