import Dockerfile.Proofs.Template
import Dockerfile.Proofs.Text
import Dockerfile.Token.Lexer
import Mathlib.Data.List.TakeWhile

/-!
# Cuts

The lexer cuts spans off the text ahead. A span and the text behind it make up the text. How far a
span goes can depend on the text behind it, but not on all of it: two texts ahead that `Agree` up to
the end of a line, or up to a blank before the next word, have the same spans before that place.
-/

namespace Dockerfile

open Template (IsEscape)

theorem stops_dropWhile (P : Char → Bool) (cs : List Char) : Stops P (cs.dropWhile P) := by
  intro c hc
  have hhead := List.head?_dropWhile_not P cs
  rw [hc] at hhead
  exact hhead

theorem dropWhile_append_of_stops {P : Char → Bool} {run rest : List Char} (hrun : ∀ c ∈ run, P c)
    (hrest : Stops P rest) : (run ++ rest).dropWhile P = rest := by
  rw [List.dropWhile_append_of_pos hrun]
  cases rest with
  | nil => rfl
  | cons c rest => simp [hrest c rfl]

namespace Lexer

/-! ### Texts that agree -/

/-- Is a character neither white space nor the start of a comment? -/
def isSolid (c : Char) : Bool := !isBlank c && c ≠ '\n' && c ≠ '#'

/-- Texts that are the same up to the end of a line, or up to a blank before solid characters. -/
inductive Agree : List Char → List Char → Prop where
  | line (t t' : List Char) : Agree ('\n' :: t) ('\n' :: t')
  | blank {b c c' : Char} {t t' : List Char} (hb : isBlank b) (hc : isSolid c) (hc' : isSolid c') :
    Agree (b :: c :: t) (b :: c' :: t')
  | cons (c : Char) {y y' : List Char} (h : Agree y y') : Agree (c :: y) (c :: y')

theorem not_isBlank_of_isEscape {escape : Char} (h : IsEscape escape) :
    isBlank escape = false := by
  rcases h with rfl | rfl <;> decide

theorem ne_newline_of_isEscape {escape : Char} (h : IsEscape escape) : escape ≠ '\n' := by
  rcases h with rfl | rfl <;> decide

theorem isSolid_of_isEscape {escape : Char} (h : IsEscape escape) : isSolid escape := by
  rcases h with rfl | rfl <;> decide

theorem not_isBlank_of_isSolid {c : Char} (h : isSolid c) : isBlank c = false := by
  rw [isSolid, Bool.and_eq_true, Bool.and_eq_true, Bool.not_eq_true'] at h
  exact h.1.1

theorem ne_of_isSolid {c : Char} (h : isSolid c) : c ≠ '\n' ∧ c ≠ '#' := by
  rw [isSolid, Bool.and_eq_true, Bool.and_eq_true, decide_eq_true_eq, decide_eq_true_eq] at h
  exact ⟨h.1.2, h.2⟩

namespace Agree

variable {y y' : List Char}

theorem prepend (h : Agree y y') (span : List Char) : Agree (span ++ y) (span ++ y') := by
  induction span with
  | nil => exact h
  | cons c span ih => exact .cons c ih

theorem head (h : Agree y y') : ∃ c t t', y = c :: t ∧ y' = c :: t' := by
  cases h with
  | line t t' => exact ⟨_, t, t', rfl, rfl⟩
  | blank hb hc hc' => exact ⟨_, _, _, rfl, rfl⟩
  | cons c h => exact ⟨c, _, _, rfl, rfl⟩

theorem head?_eq (h : Agree y y') : y.head? = y'.head? := by
  obtain ⟨c, t, t', rfl, rfl⟩ := h.head
  rfl

theorem tail {c : Char} {t t' : List Char} (h : Agree (c :: t) (c :: t')) :
    c = '\n' ∨ isBlank c ∨ Agree t t' := by
  cases h with
  | line t t' => exact .inl rfl
  | blank hb hc hc' => exact .inr (.inl hb)
  | cons c h => exact .inr (.inr h)

theorem stops {P : Char → Bool} (h : Agree y y') (hy : Stops P y) : Stops P y' := by
  unfold Stops
  rw [← h.head?_eq]
  exact hy

/-- A run of a class without white space is the same. -/
theorem takeWhile_eq {P : Char → Bool} (hline : P '\n' = false)
    (hblank : ∀ b, isBlank b → P b = false) (h : Agree y y') : y.takeWhile P = y'.takeWhile P := by
  induction h with
  | line t t' => simp [hline]
  | blank hb hc hc' => simp [hblank _ hb]
  | cons c h ih => rw [List.takeWhile_cons, List.takeWhile_cons, ih]

/-- Behind leading blanks, both texts go on with the end of a line, with a comment or with
neither. -/
theorem behind_blanks (h : Agree y y') : ∃ c c' t t', y.dropWhile isBlank = c :: t ∧
    y'.dropWhile isBlank = c' :: t' ∧ (c = c' ∨ isSolid c ∧ isSolid c') := by
  induction h with
  | line t t' => exact ⟨'\n', '\n', t, t', rfl, rfl, .inl rfl⟩
  | @blank b c c' t t' hb hc hc' =>
    refine ⟨c, c', t, t', ?_, ?_, .inr ⟨hc, hc'⟩⟩
    · simp [hb, not_isBlank_of_isSolid hc]
    · simp [hb, not_isBlank_of_isSolid hc']
  | @cons c y y' h ih =>
    by_cases hc : isBlank c
    · rw [List.dropWhile_cons_of_pos hc, List.dropWhile_cons_of_pos hc]
      exact ih
    · rw [List.dropWhile_cons_of_neg hc, List.dropWhile_cons_of_neg hc]
      exact ⟨c, c, y, y', rfl, rfl, .inl rfl⟩

theorem continues_eq {escape : Char} (hescape : IsEscape escape) (h : Agree y y') :
    continues escape y = continues escape y' := by
  have hline := ne_newline_of_isEscape hescape
  have hblank := not_isBlank_of_isEscape hescape
  unfold continues
  cases h with
  | line t t' => simp [continuation?, hline.symm]
  | @blank b c c' t t' hb hc hc' =>
    have hb' : b ≠ escape := by
      rintro rfl
      rw [hblank] at hb
      cases hb
    simp [continuation?, hb']
  | @cons c y y' h =>
    obtain ⟨d, d', t, t', hd, hd', hsame⟩ := h.behind_blanks
    have hiff : d = '\n' ↔ d' = '\n' := by
      rcases hsame with rfl | ⟨hs, hs'⟩
      · rfl
      · simp [(ne_of_isSolid hs).1, (ne_of_isSolid hs').1]
    by_cases hc : c = escape
    · by_cases hnl : d = '\n'
      · simp [continuation?, hc, hd, hd', hnl, hiff.1 hnl]
      · simp [continuation?, hc, hd, hd', hnl, mt hiff.2 hnl]
    · simp [continuation?, hc]

theorem startsVariable_eq (h : Agree y y') : startsVariable y = startsVariable y' := by
  obtain ⟨c, t, t', rfl, rfl⟩ := h.head
  rfl

theorem hexAhead_eq (h : Agree y y') : hexAhead y = hexAhead y' := by
  have hblank : ∀ b, isBlank b → isHex b = false := by
    intro b hb
    rw [isBlank, Bool.or_eq_true, Bool.or_eq_true, decide_eq_true_eq, decide_eq_true_eq,
      decide_eq_true_eq] at hb
    rcases hb with (rfl | rfl) | rfl <;> decide
  rw [hexAhead, hexAhead, h.takeWhile_eq (by decide) hblank]

end Agree

/-! ### Joints -/

section Cuts

variable {escape : Char} {cs span rest rest' : List Char}

/-- A span that joins two lines ends with the line end, or it is the end of the text. -/
theorem continuation?_eq_some (h : continuation? escape cs = some (span, rest)) :
    cs = span ++ rest ∧ ∃ blanks, (∀ b ∈ blanks, isBlank b) ∧
      (span = escape :: blanks ++ ['\n'] ∨ span = escape :: blanks ∧ rest = []) := by
  cases cs with
  | nil => cases h
  | cons c cs =>
    have hcs := List.takeWhile_append_dropWhile (p := isBlank) (l := cs)
    rw [continuation?] at h
    split at h
    · rename_i hc
      subst hc
      split at h
      · rename_i hdrop
        split at h
        · cases h
        · cases h
          refine ⟨by simp, cs, fun b hb => ?_, .inr ⟨rfl, rfl⟩⟩
          rw [hdrop, List.append_nil] at hcs
          rw [← hcs] at hb
          exact List.mem_takeWhile_imp hb
      · rename_i d behind hdrop
        split at h
        · rename_i hd
          subst hd
          cases h
          refine ⟨?_, cs.takeWhile isBlank, fun b hb => List.mem_takeWhile_imp hb, .inl rfl⟩
          rw [hdrop] at hcs
          simpa using hcs.symm
        · cases h
    · cases h

theorem continuation?_joint {blanks : List Char} (hblanks : ∀ b ∈ blanks, isBlank b)
    (rest : List Char) : continuation? escape (escape :: blanks ++ '\n' :: rest) =
      some (escape :: blanks ++ ['\n'], rest) := by
  have hdrop : (blanks ++ '\n' :: rest).dropWhile isBlank = '\n' :: rest := by
    rw [List.dropWhile_append_of_pos hblanks]
    rfl
  have htake : (blanks ++ '\n' :: rest).takeWhile isBlank = blanks :=
    takeWhile_append_of_stops hblanks (by rintro c ⟨⟩; rfl)
  rw [List.cons_append, continuation?, if_pos rfl, hdrop, htake]
  simp

/-- A joint before a text is one before every other text that goes on. -/
theorem continuation?_replace (h : continuation? escape cs = some (span, rest)) (hrest : rest ≠ [])
    (rest' : List Char) : continuation? escape (span ++ rest') = some (span, rest') := by
  obtain ⟨-, blanks, hblanks, rfl | ⟨-, rfl⟩⟩ := continuation?_eq_some h
  · rw [List.append_assoc]
    exact continuation?_joint hblanks rest'
  · exact absurd rfl hrest

/-! ### Keywords and words -/

theorem keyword_append (escape : Char) (cs : List Char) :
    (keyword escape cs).1 ++ (keyword escape cs).2 = cs := by
  fun_induction keyword escape cs with
  | case1 | case2 => rfl
  | case3 c rest h ih => exact congrArg (c :: ·) ih

theorem keyword_newline_notMem (escape : Char) (cs : List Char) :
    '\n' ∉ (keyword escape cs).1 := by
  fun_induction keyword escape cs with
  | case1 | case2 => simp
  | case3 c rest h ih =>
    simp only [Bool.or_eq_true, decide_eq_true_eq, not_or] at h
    rw [consSpan, List.mem_cons, not_or]
    exact ⟨Ne.symm h.1.2, ih⟩

theorem keyword_agree (hescape : IsEscape escape)
    (h : keyword escape cs = (span, rest)) (hagree : Agree rest rest') :
    keyword escape (span ++ rest') = (span, rest') := by
  fun_induction keyword escape cs generalizing span with
  | case1 =>
    cases h
    cases hagree
  | case2 c cs hstop =>
    cases h
    obtain ⟨d, t, t', hd, rfl⟩ := hagree.head
    cases hd
    rw [hagree.continues_eq hescape] at hstop
    rw [List.nil_append, keyword, if_pos hstop]
  | case3 c cs hstop ih =>
    have happend := keyword_append escape cs
    generalize hcut : keyword escape cs = cut at h ih happend
    obtain ⟨tail, behind⟩ := cut
    cases h
    dsimp only at happend
    subst happend
    rw [(Agree.cons c (hagree.prepend tail)).continues_eq hescape] at hstop
    rw [List.cons_append, keyword, if_neg hstop, ih rfl]
    rfl

theorem literal_append (escape : Char) (cs : List Char) :
    (literal escape cs).1 ++ (literal escape cs).2 = cs := by
  fun_induction literal escape cs with
  | case1 | case2 | case3 | case4 => rfl
  | case5 d behind hgo hwhole ih => exact congrArg (fun cs => escape :: d :: cs) ih
  | case6 c rest hgo hc ih => exact congrArg (c :: ·) ih

theorem literal_newline_notMem (hescape : IsEscape escape) (cs : List Char) :
    '\n' ∉ (literal escape cs).1 := by
  have hline := ne_newline_of_isEscape hescape
  fun_induction literal escape cs with
  | case1 | case2 | case3 => simp
  | case4 hgo hwhole => simpa using hline.symm
  | case5 d behind hgo hwhole ih =>
    have hd : d ≠ '\n' := by
      rintro rfl
      exact hwhole (by simp [continues, continuation?, isBlank])
    simp [consSpan, hline.symm, hd.symm, ih]
  | case6 c rest hgo hc ih =>
    simp only [Bool.or_eq_true, decide_eq_true_eq, not_or] at hgo
    simp [consSpan, Ne.symm hgo.1.1.2, ih]

theorem literal_agree (hescape : IsEscape escape)
    (h : literal escape cs = (span, rest)) (hagree : Agree rest rest') :
    literal escape (span ++ rest') = (span, rest') := by
  have hstops : ∀ {c : Char} {t t' : List Char}, Agree (c :: t) (c :: t') →
      (isBlank c || c = '\n' || isQuote c || (c = '$' && startsVariable t)) =
        (isBlank c || c = '\n' || isQuote c || (c = '$' && startsVariable t')) := by
    intro c t t' hagree
    rcases hagree.tail with rfl | hblank | htail
    · simp
    · simp [hblank]
    · rw [htail.startsVariable_eq]
  fun_induction literal escape cs generalizing span with
  | case1 =>
    cases h
    cases hagree
  | case2 c cs hstop =>
    cases h
    obtain ⟨d, t, t', hd, rfl⟩ := hagree.head
    cases hd
    rw [hstops hagree] at hstop
    rw [List.nil_append, literal.eq_def]
    dsimp only
    rw [if_pos hstop]
  | case3 cs hgo hjoint =>
    cases h
    obtain ⟨d, t, t', hd, rfl⟩ := hagree.head
    cases hd
    rw [hstops hagree] at hgo
    rw [hagree.continues_eq hescape] at hjoint
    rw [List.nil_append, literal.eq_def]
    dsimp only
    rw [if_neg hgo, if_pos rfl, if_pos hjoint]
  | case4 hgo hwhole =>
    cases h
    cases hagree
  | case5 d behind hgo hwhole ih =>
    have happend := literal_append escape behind
    generalize literal escape behind = cut at h ih happend
    obtain ⟨tail, others⟩ := cut
    cases h
    dsimp only [consSpan] at happend hagree ih ⊢
    subst happend
    have hcons := Agree.cons escape (Agree.cons d (hagree.prepend tail))
    rw [hstops hcons] at hgo
    rw [hcons.continues_eq hescape] at hwhole
    rw [List.cons_append, List.cons_append, literal, if_neg hgo, if_pos rfl, if_neg hwhole, ih rfl]
    rfl
  | case6 c cs hgo hc ih =>
    have happend := literal_append escape cs
    generalize literal escape cs = cut at h ih happend
    obtain ⟨tail, others⟩ := cut
    cases h
    dsimp only at happend
    subst happend
    rw [hstops (Agree.cons c (hagree.prepend tail))] at hgo
    rw [List.cons_append, literal.eq_def]
    dsimp only at ih ⊢
    rw [if_neg hgo, if_neg hc, ih rfl]
    rfl

/-! ### Variables -/

theorem map_consSpan_eq_some {c : Char} {cut : Option (List Char × List Char)}
    (h : cut.map (consSpan c) = some (span, rest)) :
    ∃ tail, cut = some (tail, rest) ∧ span = c :: tail := by
  obtain ⟨⟨tail, behind⟩, hcut, h⟩ := Option.map_eq_some_iff.1 h
  cases h
  exact ⟨tail, hcut, rfl⟩

/-- Text in braces is the same whatever follows. -/
theorem braces?_replace {depth : Nat} (h : braces? depth cs = some (span, rest)) :
    cs = span ++ rest ∧ '\n' ∉ span ∧
      ∀ rest', braces? depth (span ++ rest') = some (span, rest') := by
  fun_induction braces? depth cs generalizing span with
  | case1 | case2 => cases h
  | case3 depth cs hline ih =>
    obtain ⟨tail, htail, rfl⟩ := map_consSpan_eq_some h
    obtain ⟨rfl, hnotMem, hreplace⟩ := ih htail
    refine ⟨rfl, by simp [hnotMem], fun rest' => ?_⟩
    rw [List.cons_append, braces?, if_neg hline, if_pos rfl, hreplace]
    rfl
  | case4 depth cs hdepth hline hopen =>
    cases h
    refine ⟨rfl, by decide, fun rest' => ?_⟩
    rw [List.cons_append, braces?, if_neg hline, if_neg hopen, if_pos rfl, if_pos hdepth]
    rfl
  | case5 depth cs hline hopen hdepth ih =>
    obtain ⟨tail, htail, rfl⟩ := map_consSpan_eq_some h
    obtain ⟨rfl, hnotMem, hreplace⟩ := ih htail
    refine ⟨rfl, by simp [hnotMem], fun rest' => ?_⟩
    rw [List.cons_append, braces?, if_neg hline, if_neg hopen, if_pos rfl, if_neg hdepth, hreplace]
    rfl
  | case6 depth c cs hline hopen hclose ih =>
    obtain ⟨tail, htail, rfl⟩ := map_consSpan_eq_some h
    obtain ⟨rfl, hnotMem, hreplace⟩ := ih htail
    refine ⟨rfl, by simp [hnotMem, Ne.symm hline], fun rest' => ?_⟩
    rw [List.cons_append, braces?, if_neg hline, if_neg hopen, if_neg hclose, hreplace]
    rfl

theorem reference?_eq_some (h : reference? cs = some (span, rest)) :
    cs = span ++ rest ∧ '\n' ∉ span := by
  unfold reference? at h
  split at h
  · cases h
    exact ⟨rfl, by simp⟩
  · split at h
    · rename_i c cs hc
      subst hc
      obtain ⟨tail, htail, rfl⟩ := map_consSpan_eq_some h
      obtain ⟨rfl, hnotMem, -⟩ := braces?_replace htail
      exact ⟨rfl, by simp [hnotMem]⟩
    · cases h
      refine ⟨List.takeWhile_append_dropWhile.symm, fun hmem => ?_⟩
      have hname := List.mem_takeWhile_imp hmem
      cases hname

theorem reference?_agree (h : reference? cs = some (span, rest)) (hagree : Agree rest rest') :
    reference? (span ++ rest') = some (span, rest') := by
  unfold reference? at h
  split at h
  · cases h
    cases hagree
  · rename_i c cs
    split at h
    · rename_i hc
      obtain ⟨tail, htail, rfl⟩ := map_consSpan_eq_some h
      rw [List.cons_append, reference?, if_pos hc, (braces?_replace htail).2.2]
      rfl
    · rename_i hc
      cases h
      have hname : ∀ x ∈ (c :: cs).takeWhile Template.isNameChar, Template.isNameChar x :=
        fun x hx => List.mem_takeWhile_imp hx
      have hstops := hagree.stops (stops_dropWhile Template.isNameChar (c :: cs))
      have hprepend := hagree.prepend ((c :: cs).takeWhile Template.isNameChar)
      rw [List.takeWhile_append_dropWhile] at hprepend
      obtain ⟨d, t, t', hd, hcons⟩ := hprepend.head
      cases hd
      rw [hcons, reference?, if_neg hc, ← hcons, takeWhile_append_of_stops hname hstops,
        dropWhile_append_of_stops hname hstops]

/-! ### Quoted texts -/

theorem getLast?_cons_of_some {c d : Char} {tail : List Char} (h : tail.getLast? = some d) :
    (c :: tail).getLast? = some d := by
  rw [List.getLast?_cons, h]
  rfl

/-- A quoted text ends with its quote, and it is the same before a text that agrees. -/
theorem quoted?_eq_some {quote : Char} {joined : Bool} (hescape : IsEscape escape)
    (h : quoted? escape quote joined cs = some (span, rest)) :
    cs = span ++ rest ∧ span.getLast? = some quote ∧ ∀ rest', Agree rest rest' →
      quoted? escape quote joined (span ++ rest') = some (span, rest') := by
  fun_induction quoted? escape quote joined cs generalizing span with
  | case1 => cases h
  | case2 cs ih =>
    obtain ⟨tail, htail, rfl⟩ := map_consSpan_eq_some h
    obtain ⟨rfl, hlast, hsame⟩ := ih htail
    refine ⟨rfl, getLast?_cons_of_some hlast, fun rest' hagree => ?_⟩
    rw [List.cons_append, quoted?.eq_def]
    simp [hsame rest' hagree, consSpan]
  | case3 => cases h
  | case4 joined c cs hline hjoint ih =>
    obtain ⟨tail, htail, rfl⟩ := map_consSpan_eq_some h
    obtain ⟨rfl, hlast, hsame⟩ := ih htail
    refine ⟨rfl, getLast?_cons_of_some hlast, fun rest' hagree => ?_⟩
    rw [(Agree.cons c (hagree.prepend tail)).continues_eq hescape] at hjoint
    rw [List.cons_append, quoted?.eq_def]
    simp [hline, hjoint, hsame rest' hagree, consSpan]
  | case5 joined cs hline hwhole =>
    cases h
    refine ⟨rfl, rfl, fun rest' hagree => ?_⟩
    rw [(Agree.cons quote hagree).continues_eq hescape] at hwhole
    rw [List.cons_append, quoted?.eq_def]
    simp [hline, hwhole]
  | case6 => cases h
  | case7 joined c hline hquote htakes d cs hwhole ih =>
    obtain ⟨⟨tail, behind⟩, htail, h⟩ := Option.map_eq_some_iff.1 h
    cases h
    obtain ⟨rfl, hlast, hsame⟩ := ih htail
    refine ⟨rfl, getLast?_cons_of_some (getLast?_cons_of_some hlast), fun rest' hagree => ?_⟩
    rw [(Agree.cons c (.cons d (hagree.prepend tail))).continues_eq hescape] at hwhole
    have htail' : quoted? escape quote false (tail ++ rest') = some (tail, rest') :=
      hsame rest' hagree
    rw [List.cons_append, quoted?.eq_def]
    simp only [hline, hwhole, hquote, htakes, if_false, if_true, consSpan, List.cons_append, htail',
      Bool.false_eq_true, Option.map_some]
  | case8 joined c cs hline hwhole hquote htakes ih =>
    obtain ⟨tail, htail, rfl⟩ := map_consSpan_eq_some h
    obtain ⟨rfl, hlast, hsame⟩ := ih htail
    refine ⟨rfl, getLast?_cons_of_some hlast, fun rest' hagree => ?_⟩
    rw [(Agree.cons c (hagree.prepend tail)).continues_eq hescape] at hwhole
    rw [List.cons_append, quoted?.eq_def]
    simp only [hline, hwhole, hquote, htakes, if_false, consSpan, hsame rest' hagree,
      Bool.false_eq_true, Option.map_some]

/-! ### Arrays -/

/-- A string of an array ends with its quote, and it is the same before a text that agrees. -/
theorem arrayString_eq_ok {joined : Bool} (hescape : IsEscape escape)
    (h : arrayString escape joined cs = .ok (span, rest)) :
    cs = span ++ rest ∧ span.getLast? = some '"' ∧ ∀ rest', Agree rest rest' →
      arrayString escape joined (span ++ rest') = .ok (span, rest') := by
  fun_induction arrayString escape joined cs generalizing span with
  | case1 => cases h
  | case2 cs ih =>
    obtain ⟨tail, htail, rfl⟩ := consResult_eq_ok h
    obtain ⟨rfl, hlast, hsame⟩ := ih htail
    refine ⟨rfl, getLast?_cons_of_some hlast, fun rest' hagree => ?_⟩
    rw [List.cons_append, arrayString.eq_def]
    simp only [if_true, hsame rest' hagree]
    rfl
  | case3 => cases h
  | case4 joined c cs hline hjoint ih =>
    obtain ⟨tail, htail, rfl⟩ := consResult_eq_ok h
    obtain ⟨rfl, hlast, hsame⟩ := ih htail
    refine ⟨rfl, getLast?_cons_of_some hlast, fun rest' hagree => ?_⟩
    rw [(Agree.cons c (hagree.prepend tail)).continues_eq hescape] at hjoint
    rw [List.cons_append, arrayString.eq_def]
    simp only [hline, hjoint, if_true, if_false, hsame rest' hagree]
    rfl
  | case5 joined cs hline hwhole =>
    cases h
    refine ⟨rfl, rfl, fun rest' hagree => ?_⟩
    rw [(Agree.cons '"' hagree).continues_eq hescape] at hwhole
    rw [List.cons_append, arrayString.eq_def]
    simp [hwhole]
  | case6 | case7 => cases h
  | case8 joined d cs hhex hknown hline hquote hwhole ih =>
    obtain ⟨front, hfront, rfl⟩ := consResult_eq_ok h
    obtain ⟨tail, htail, rfl⟩ := consResult_eq_ok hfront
    obtain ⟨rfl, hlast, hsame⟩ := ih htail
    refine ⟨rfl, getLast?_cons_of_some (getLast?_cons_of_some hlast), fun rest' hagree => ?_⟩
    rw [(Agree.cons '\\' (.cons d (hagree.prepend tail))).continues_eq hescape] at hwhole
    rw [(hagree.prepend tail).hexAhead_eq] at hhex
    rw [List.cons_append, List.cons_append, arrayString.eq_def]
    simp only [hline, hwhole, hquote, hhex, hknown, if_true, if_false, hsame rest' hagree,
      Bool.false_eq_true]
    rfl
  | case9 => cases h
  | case10 joined c cs hline hwhole hquote hslash ih =>
    obtain ⟨tail, htail, rfl⟩ := consResult_eq_ok h
    obtain ⟨rfl, hlast, hsame⟩ := ih htail
    refine ⟨rfl, getLast?_cons_of_some hlast, fun rest' hagree => ?_⟩
    rw [(Agree.cons c (hagree.prepend tail)).continues_eq hescape] at hwhole
    rw [List.cons_append, arrayString.eq_def]
    simp only [hline, hwhole, hquote, hslash, if_false, hsame rest' hagree, Bool.false_eq_true]
    rfl

theorem prependSegment_eq_ok {text : List Char} {result : Except SpanFault Segment}
    {piece : Segment} (h : prependSegment text result = .ok piece) :
    ∃ span, result = .ok ⟨span, piece.depth, piece.rest⟩ ∧ piece.span = text ++ span := by
  cases result with
  | error fault => cases h
  | ok tail =>
    cases h
    exact ⟨tail.span, rfl, rfl⟩

theorem segment_string {depth : Nat} {string : List Char}
    (hgo : ¬ (('"' = '\n' : Bool) || continues escape ('"' :: cs)) = true)
    (hstring : arrayString escape false cs = .ok (string, rest)) :
    segment escape depth ('"' :: cs) =
      prependSegment ('"' :: string) (segment escape depth rest) := by
  rw [segment.eq_def]
  dsimp only
  rw [if_neg hgo, if_pos rfl]
  split
  · rename_i hfault
    cases hstring.symm.trans hfault
  · rename_i hcut
    cases hstring.symm.trans hcut
    rfl

theorem getLast?_append_ne {c : Char} {front tail : List Char} (hfront : front.getLast? ≠ some c)
    (htail : tail.getLast? ≠ some c) : (front ++ tail).getLast? ≠ some c := by
  rw [List.getLast?_append]
  cases h : tail.getLast? with
  | none => exact hfront
  | some d => rwa [h] at htail

/-- A piece of an array does not end with a line end, and it is the same before a text that
agrees. -/
theorem segment_eq_ok {depth depth' : Nat} (hescape : IsEscape escape)
    (h : segment escape depth cs = .ok ⟨span, depth', rest⟩) :
    cs = span ++ rest ∧ span.getLast? ≠ some '\n' ∧ ∀ rest', Agree rest rest' →
      segment escape depth (span ++ rest') = .ok ⟨span, depth', rest'⟩ := by
  fun_induction segment escape depth cs generalizing span with
  | case1 =>
    cases h
    refine ⟨rfl, by simp, fun rest' hagree => ?_⟩
    cases hagree
  | case2 depth c cs hstop =>
    cases h
    refine ⟨rfl, by simp, fun rest' hagree => ?_⟩
    obtain ⟨d, t, t', hd, rfl⟩ := hagree.head
    cases hd
    rw [hagree.continues_eq hescape] at hstop
    rw [List.nil_append, segment.eq_def]
    simp only [hstop, if_true]
  | case3 => cases h
  | case4 depth cs string behind hstring _ hgo ih =>
    obtain ⟨tail, htail, hspan⟩ := prependSegment_eq_ok h
    obtain rfl : span = '"' :: string ++ tail := hspan
    obtain ⟨rfl, hlast, hstringSame⟩ := arrayString_eq_ok hescape hstring
    obtain ⟨rfl, hend, hsame⟩ := ih htail
    refine ⟨by simp, getLast?_append_ne ?_ hend, fun rest' hagree => ?_⟩
    · rw [getLast?_cons_of_some hlast]
      decide
    · -- The string is cut alike, as the texts behind it agree, and so is the rest of the segment.
      have hagree' := hagree.prepend tail
      rw [(Agree.cons '"' (hagree'.prepend string)).continues_eq hescape] at hgo
      rw [List.append_assoc, List.cons_append, segment_string hgo (hstringSame _ hagree'),
        hsame rest' hagree]
      rfl
  | case5 depth cs hgo hquote ih =>
    obtain ⟨tail, htail, hspan⟩ := prependSegment_eq_ok h
    obtain rfl : span = '[' :: tail := hspan
    obtain ⟨rfl, hend, hsame⟩ := ih htail
    refine ⟨rfl, getLast?_append_ne (show ['['].getLast? ≠ some '\n' by decide) hend,
      fun rest' hagree => ?_⟩
    rw [(Agree.cons '[' (hagree.prepend tail)).continues_eq hescape] at hgo
    rw [List.cons_append, segment.eq_def]
    dsimp only
    rw [if_neg hgo, if_neg hquote, if_pos rfl, hsame rest' hagree]
    rfl
  | case6 depth cs hdepth hgo hquote hopen =>
    cases h
    refine ⟨rfl, by decide, fun rest' hagree => ?_⟩
    rw [(Agree.cons ']' hagree).continues_eq hescape] at hgo
    rw [List.cons_append, segment.eq_def]
    dsimp only
    rw [List.nil_append, if_neg hgo, if_neg hquote, if_neg hopen, if_pos rfl, if_pos hdepth]
  | case7 depth cs hdepth hgo hquote hopen ih =>
    obtain ⟨tail, htail, hspan⟩ := prependSegment_eq_ok h
    obtain rfl : span = ']' :: tail := hspan
    obtain ⟨rfl, hend, hsame⟩ := ih htail
    refine ⟨rfl, getLast?_append_ne (show [']'].getLast? ≠ some '\n' by decide) hend,
      fun rest' hagree => ?_⟩
    rw [(Agree.cons ']' (hagree.prepend tail)).continues_eq hescape] at hgo
    rw [List.cons_append, segment.eq_def]
    dsimp only
    rw [if_neg hgo, if_neg hquote, if_neg hopen, if_pos rfl, if_neg hdepth, hsame rest' hagree]
    rfl
  | case8 depth c cs hgo hquote hopen hclose ih =>
    obtain ⟨tail, htail, hspan⟩ := prependSegment_eq_ok h
    obtain rfl : span = c :: tail := hspan
    obtain ⟨rfl, hend, hsame⟩ := ih htail
    have hline : [c].getLast? ≠ some '\n' := by
      simp only [Bool.or_eq_true, decide_eq_true_eq, not_or] at hgo
      simpa using hgo.1
    refine ⟨rfl, getLast?_append_ne hline hend, fun rest' hagree => ?_⟩
    rw [(Agree.cons c (hagree.prepend tail)).continues_eq hescape] at hgo
    rw [List.cons_append, segment.eq_def]
    dsimp only
    rw [if_neg hgo, if_neg hquote, if_neg hopen, if_neg hclose, hsame rest' hagree]
    rfl

end Cuts

end Lexer

end Dockerfile
