import Dockerfile.Graph
import Dockerfile.Text

/-!
# Texts that can be told apart

A run of characters of a class ends where the first other character stands, so a text that starts
with such a run has one reading. Decimal numbers are the main case: behind a number that is followed
by no digit, both the number and the rest of the text can be read off, and a number that is written
is read back (`decimalIndex?_toString`). The parts that a text is cut into make it up, and a
separator stands in one of them only if it is another one that the text is cut at
(`Text.cut?_eq_some_iff`, `Text.cutLast?_eq_some_iff`). Characters with one form stay in small
letters (`Text.mem_lowerAfter`). A text with no white space at its ends is kept where white space is
cut off (`Text.stripChars_of_ends`).
-/

namespace Dockerfile

/-- Does a text not go on with a character of a class? -/
def Stops (P : Char → Bool) (rest : List Char) : Prop := ∀ c ∈ rest.head?, P c = false

theorem takeWhile_append_of_stops {P : Char → Bool} {run rest : List Char} (hrun : ∀ c ∈ run, P c)
    (hrest : Stops P rest) : (run ++ rest).takeWhile P = run := by
  rw [List.takeWhile_append_of_pos hrun]
  cases rest with
  | nil => simp
  | cons c rest => simp [hrest c rfl]

theorem append_inj_of_stops {P : Char → Bool} {run run' rest rest' : List Char}
    (hrun : ∀ c ∈ run, P c) (hrun' : ∀ c ∈ run', P c) (hrest : Stops P rest)
    (hrest' : Stops P rest') (h : run ++ rest = run' ++ rest') : run = run' ∧ rest = rest' := by
  have hsame : run = run' := by
    rw [← takeWhile_append_of_stops hrun hrest, h, takeWhile_append_of_stops hrun' hrest']
  subst hsame
  exact ⟨rfl, List.append_cancel_left h⟩

/-- The digits of a number can be read off a text. -/
theorem toDigits_append_inj {n m : Nat} {rest rest' : List Char} (hrest : Stops Char.isDigit rest)
    (hrest' : Stops Char.isDigit rest')
    (h : Nat.toDigits 10 n ++ rest = Nat.toDigits 10 m ++ rest') : n = m ∧ rest = rest' := by
  have hdigits : ∀ (k : Nat), ∀ c ∈ Nat.toDigits 10 k, c.isDigit := fun _ _ hc =>
    Nat.isDigit_of_mem_toDigits (by decide) (by decide) hc
  obtain ⟨hn, hr⟩ := append_inj_of_stops (hdigits n) (hdigits m) hrest hrest' h
  refine ⟨?_, hr⟩
  rw [← Nat.ofDigitChars_ten_toDigits (n := n), hn, Nat.ofDigitChars_ten_toDigits]

theorem toList_render (id : OperationId) :
    id.render.toList = 's' :: (Nat.toDigits 10 id.stage ++ '.' :: Nat.toDigits 10 id.position) := by
  simp [OperationId.render, ToString.toString, Nat.toList_repr, String.toList_append]

/-- No two operations have one name. -/
theorem render_injective {a b : OperationId} (h : a.render = b.render) : a = b := by
  have hl := congrArg String.toList h
  rw [toList_render, toList_render, List.cons.injEq] at hl
  have hdot : ∀ rest : List Char, Stops Char.isDigit ('.' :: rest) := by
    rintro rest c ⟨⟩
    decide
  obtain ⟨hstage, hrest⟩ := toDigits_append_inj (hdot _) (hdot _) hl.2
  have hend : Stops Char.isDigit [] := by simp [Stops]
  rw [List.cons.injEq, ← List.append_nil (Nat.toDigits 10 a.position),
    ← List.append_nil (Nat.toDigits 10 b.position)] at hrest
  obtain ⟨hposition, -⟩ := toDigits_append_inj hend hend hrest.2
  obtain ⟨_, _⟩ := a
  obtain ⟨_, _⟩ := b
  simp_all

/-! ### Cutting and small letters -/

namespace Text

variable {separator : Char} {before behind : List Char}

theorem cut?_eq_some {cs : List Char} (h : cut? separator cs = some (before, behind)) :
    cs = before ++ separator :: behind ∧ separator ∉ before := by
  induction cs generalizing before with
  | nil => cases h
  | cons c cs ih =>
    unfold cut? at h
    split at h
    · rename_i hc
      cases h
      simp [hc]
    · rename_i hc
      obtain ⟨⟨b, r⟩, hb, heq⟩ := Option.map_eq_some_iff.1 h
      cases heq
      obtain ⟨rfl, hmem⟩ := ih hb
      exact ⟨rfl, by simp [Ne.symm hc, hmem]⟩

/-- A text is cut where the part without the separator ends. -/
theorem cut?_eq (separator : Char) (cs : List Char) :
    cut? separator cs = (cs.dropWhile (· != separator)).tail?.map
      fun behind => (cs.takeWhile (· != separator), behind) := by
  induction cs with
  | nil => rfl
  | cons c cs ih =>
    by_cases h : c = separator
    · simp [cut?, h]
    · simp [cut?, h, ih, Function.comp_def]

section Cuts

variable {separator : Char} {cs before behind : List Char}

theorem cut?_eq_some_iff :
    cut? separator cs = some (before, behind) ↔
      cs = before ++ separator :: behind ∧ separator ∉ before := by
  refine ⟨cut?_eq_some, ?_⟩
  rintro ⟨rfl, h⟩
  induction before with
  | nil => simp [cut?]
  | cons c before ih =>
    rw [List.mem_cons, not_or] at h
    simp [cut?, Ne.symm h.1, ih h.2]

theorem cut?_eq_none_iff : cut? separator cs = none ↔ separator ∉ cs := by
  induction cs with
  | nil => simp [cut?]
  | cons c cs ih =>
    unfold cut?
    split
    · simp [*]
    · rename_i hc
      simp [Ne.symm hc, ih]

theorem cutLast?_eq_none_iff : cutLast? separator cs = none ↔ separator ∉ cs := by
  induction cs with
  | nil => simp [cutLast?]
  | cons c cs ih =>
    unfold cutLast?
    cases hcut : cutLast? separator cs with
    | some parts =>
      have hmem : separator ∈ cs := by simpa [hcut] using ih
      simp [hmem]
    | none => simp [ih.1 hcut, eq_comm]

theorem cutLast?_eq_some_iff :
    cutLast? separator cs = some (before, behind) ↔
      cs = before ++ separator :: behind ∧ separator ∉ behind := by
  constructor
  · intro h
    induction cs generalizing before with
    | nil => cases h
    | cons c cs ih =>
      unfold cutLast? at h
      split at h
      · rename_i hcut
        cases h
        obtain ⟨rfl, hbehind⟩ := ih hcut
        exact ⟨rfl, hbehind⟩
      · rename_i hcut
        split at h
        · rename_i hc
          cases h
          exact ⟨by rw [hc]; rfl, cutLast?_eq_none_iff.1 hcut⟩
        · cases h
  · rintro ⟨rfl, h⟩
    induction before with
    | nil => simp [cutLast?, cutLast?_eq_none_iff.2 h]
    | cons c before ih => simp [cutLast?, ih]

end Cuts

theorem cutString_eq_takeWhile (separator : Char) (s : String) :
    cutString separator s = (String.ofList (s.toList.takeWhile (· != separator)),
      (s.toList.dropWhile (· != separator)).tail?.map String.ofList) := by
  unfold cutString
  rw [cut?_eq]
  cases hdrop : s.toList.dropWhile (· != separator) with
  | nil =>
    have htake : s.toList.takeWhile (· != separator) = s.toList := by
      simpa [hdrop] using List.takeWhile_append_dropWhile (p := (· != separator)) (l := s.toList)
    simp [htake]
  | cons c behind => simp

theorem cutString_eq {s name value : String} (h : cutString separator s = (name, some value)) :
    s.toList = name.toList ++ separator :: value.toList ∧ separator ∉ name.toList := by
  unfold cutString at h
  split at h
  · rename_i hcut
    cases h
    simpa using cut?_eq_some hcut
  · cases h

theorem cutOutsideBraces?_eq_some {depth : Int} {cs : List Char}
    (h : cutOutsideBraces? separator depth cs = some (before, behind)) :
    cs = before ++ separator :: behind := by
  induction cs generalizing depth before with
  | nil => cases h
  | cons c cs ih =>
    have hgo : ∀ depth, (cutOutsideBraces? separator depth cs).map
        (fun parts => (c :: parts.1, parts.2)) = some (before, behind) →
        c :: cs = before ++ separator :: behind := by
      intro depth hmap
      obtain ⟨⟨b, r⟩, hb, heq⟩ := Option.map_eq_some_iff.1 hmap
      cases heq
      rw [ih hb]
      rfl
    unfold cutOutsideBraces? at h
    dsimp only at h
    split at h
    · exact hgo _ h
    · split at h
      · exact hgo _ h
      · split at h
        · rename_i hsep
          rw [Bool.and_eq_true, decide_eq_true_eq] at hsep
          cases h
          rw [hsep.1]
          rfl
        · exact hgo _ h

/-- A character of which there is only one form stays in a text in small letters. -/
theorem mem_lowerAfter {c : Char} (hascii : c.toNat < 128) (hlower : c.toLower = c) {cs : List Char}
    (h : c ∈ cs) : c ∈ lowerAfter before cs := by
  induction cs generalizing before with
  | nil => cases h
  | cons c' cs ih =>
    rw [lowerAfter, List.mem_append]
    rcases List.mem_cons.1 h with rfl | h
    · refine Or.inl ?_
      rw [lowerChar, if_pos hascii, hlower]
      exact List.mem_cons_self
    · exact Or.inr (ih h)

/-! ### Texts without a character -/

section Absence

variable {x : Char}

theorem notMem_of_all {p : Char → Bool} {cs : List Char} (hx : p x = false) (h : cs.all p) :
    x ∉ cs := by
  intro hmem
  have := List.all_eq_true.1 h x hmem
  rw [hx] at this
  cases this

/-- A line feed at the end apart, a text has only the characters of its form. -/
theorem notMem_of_wholeLine {p : List Char → Bool} {cs : List Char} (hx : x ≠ '\n')
    (hp : ∀ cs, p cs → x ∉ cs) (h : wholeLine p cs) : x ∉ cs := by
  unfold wholeLine at h
  rw [Bool.or_eq_true, Bool.and_eq_true, beq_iff_eq] at h
  rcases h with h | ⟨hlast, h⟩
  · exact hp cs h
  · obtain ⟨front, rfl⟩ := List.getLast?_eq_some_iff.1 hlast
    rw [List.dropLast_concat] at h
    rw [List.mem_append, List.mem_singleton, not_or]
    exact ⟨hp front h, hx⟩

theorem notMem_of_decimalIndex? {s : String} {n : Nat} (hx : isDecimal x = false)
    (h : decimalIndex? s = some n) : x ∉ s.toList := by
  unfold decimalIndex? at h
  split at h
  · rename_i hdigits
    rw [Bool.and_eq_true] at hdigits
    exact notMem_of_all hx hdigits.2
  · cases h

theorem notMem_of_cut? {cs : List Char} (h : cut? separator cs = some (before, behind))
    (hx : x ≠ separator) (hbefore : x ∉ before) (hbehind : x ∉ behind) : x ∉ cs := by
  rw [(cut?_eq_some h).1, List.mem_append, List.mem_cons]
  simp [hx, hbefore, hbehind]

/-- A character of which there is only one form stays in a text in capitals. -/
theorem mem_upperChars (hascii : x.toNat < 128) (hupper : x.toUpper = x) {cs : List Char}
    (h : x ∈ cs) : x ∈ upperChars cs := by
  refine List.mem_flatMap.2 ⟨x, h, ?_⟩
  rw [upperChar, if_pos hascii, hupper]
  exact List.mem_cons_self

theorem notMem_of_splitWhen {p : Char → Bool} {cs : List Char} (hx : p x = false)
    (h : ∀ part ∈ splitWhen p cs, x ∉ part) : x ∉ cs := by
  induction cs with
  | nil => simp
  | cons c cs ih =>
    unfold splitWhen at h
    split at h
    · rename_i hc
      rw [List.mem_cons, not_or]
      refine ⟨?_, ih fun part hpart => h part (List.mem_cons_of_mem _ hpart)⟩
      rintro rfl
      rw [hx] at hc
      cases hc
    · split at h
      · rename_i hparts
        rw [hparts] at ih
        have hc := h [c] List.mem_cons_self
        rw [List.mem_singleton] at hc
        simp [hc, ih]
      · rename_i part parts hparts
        have hfirst := h (c :: part) List.mem_cons_self
        rw [List.mem_cons, not_or] at hfirst ⊢
        refine ⟨hfirst.1, ih fun other hother => ?_⟩
        rw [hparts] at hother
        rcases List.mem_cons.1 hother with rfl | hother
        · exact hfirst.2
        · exact h other (List.mem_cons_of_mem _ hother)

end Absence

end Text

/-! ### Numbers that are read back -/

theorem digitValue?_of_isDigit {c : Char} (h : c.isDigit) :
    Text.digitValue? c = some (c.toNat - '0'.toNat) := by
  have hle : c.toNat ≤ 57 := by
    simp only [Char.isDigit, Bool.and_eq_true, decide_eq_true_eq] at h
    exact UInt32.le_iff_toNat_le.1 h.2
  rw [Text.digitValue?, if_pos (by omega), if_pos h]

theorem readDigits?_of_isDigit {cs : List Char} (h : ∀ c ∈ cs, c.isDigit) (acc : Nat) :
    Text.readDigits? acc cs = some (Nat.ofDigitChars 10 cs acc) := by
  induction cs generalizing acc with
  | nil => rfl
  | cons c rest ih =>
    have hc : c.isDigit := h c List.mem_cons_self
    have hne : c ≠ '_' := by
      rintro rfl
      cases hc
    rw [Text.readDigits?, digitValue?_of_isDigit hc, Option.bind_some,
      ih fun d hd => h d (List.mem_cons_of_mem c hd), Nat.ofDigitChars_cons]
    exact fun _ _ hcons _ => hne hcons

/-- The decimal text of a number is read as the number. -/
theorem decimalIndex?_toString (n : Nat) : Text.decimalIndex? (toString n) = some n := by
  have hdigits : ∀ c ∈ Nat.toDigits 10 n, c.isDigit := fun c hc =>
    Nat.isDigit_of_mem_toDigits (by decide) (by decide) hc
  have hlist : (toString n).toList = Nat.toDigits 10 n := Nat.toList_repr
  have hempty : (toString n).isEmpty = false := by
    rw [Bool.eq_false_iff]
    intro h
    rw [String.isEmpty_iff] at h
    rw [h] at hlist
    exact Nat.toDigits_ne_nil hlist.symm
  have hall : (Nat.toDigits 10 n).all Text.isDecimal := by
    rw [List.all_eq_true]
    intro c hc
    rw [Text.isDecimal, digitValue?_of_isDigit (hdigits c hc)]
    rfl
  have hread : Text.readNat? (Nat.toDigits 10 n) = some n := by
    obtain ⟨c, rest, hcons⟩ := List.exists_cons_of_ne_nil (Nat.toDigits_ne_nil (n := n) (b := 10))
    have hn := Nat.ofDigitChars_ten_toDigits (n := n)
    rw [hcons] at hdigits hn ⊢
    rw [Text.readNat?, digitValue?_of_isDigit (hdigits c List.mem_cons_self), Option.bind_some,
      readDigits?_of_isDigit fun d hd => hdigits d (List.mem_cons_of_mem c hd)]
    rw [Nat.ofDigitChars_cons] at hn
    rw [← hn]
    simp
  rw [Text.decimalIndex?, hempty, hlist, hall, hread]
  rfl

/-! ### White space -/

theorem Text.stripChars_of_ends {c : Char} {cs : List Char} (hc : isSpace c = false)
    (hlast : ∀ d ∈ (c :: cs).getLast?, isSpace d = false) : stripChars (c :: cs) = c :: cs := by
  have hend : ((c :: cs).reverse).dropWhile isSpace = (c :: cs).reverse := by
    rw [← List.head?_reverse] at hlast
    generalize (c :: cs).reverse = back at hlast
    cases back with
    | nil => rfl
    | cons d back => exact List.dropWhile_cons_of_neg (by simp [hlast d rfl])
  rw [stripChars, List.dropWhile_cons_of_neg (by simp [hc]), stripEnd, hend, List.reverse_reverse]

theorem Text.isInfix_stripChars (cs : List Char) : stripChars cs <:+: cs := by
  have hfront := List.reverse_prefix.2 (List.dropWhile_suffix isSpace (l :=
    (cs.dropWhile isSpace).reverse))
  rw [List.reverse_reverse] at hfront
  exact hfront.isInfix.trans (List.dropWhile_suffix isSpace).isInfix

theorem Text.head?_stripChars {c : Char} (hc : isSpace c = false) (cs : List Char) :
    (stripChars (c :: cs)).head? = some c := by
  rw [stripChars, List.dropWhile_cons_of_neg (by simp [hc]), stripEnd, List.head?_reverse,
    List.reverse_cons, List.dropWhile_append]
  split
  · rw [List.dropWhile_cons_of_neg (by simp [hc])]
    rfl
  · exact List.getLast?_concat

end Dockerfile
