import Dockerfile.Instruction.Reader
import Dockerfile.Proofs.Lexing.Arrays
import Dockerfile.Proofs.Lexing.Brackets
import Dockerfile.Proofs.Lexing.Starts

/-!
# Escapes in arrays

Within a line, the lexer refuses an escape just where an array starts and one of its strings holds a
backslash that no escape of an array follows (`scan_refuses_iff`). The strings are the ones that are
found from the bracket on (`InBrackets`, `StringText`). What stands behind them plays no part, so a
command that starts with a bracket is refused too, though it is not taken for an array when the
instruction is read (`scan_refuses_test`).
-/

namespace Dockerfile

open Template (IsEscape)

namespace Lexer

variable {e : Char} {cs rest : List Char}

/-! ### Escapes that are refused -/

/-- Is a result the fault of an escape? -/
def Refuses {α : Type} (result : Except SpanFault α) : Prop :=
  ∃ fault, result = .error fault ∧ fault.cause.kind = "invalid-escape"

theorem not_refuses_ok {α : Type} (a : α) : ¬ Refuses (.ok a : Except SpanFault α) := by
  rintro ⟨fault, h, -⟩
  cases h

theorem refuses_error_iff {α : Type} {fault : SpanFault} :
    Refuses (.error fault : Except SpanFault α) ↔ fault.cause.kind = "invalid-escape" := by
  constructor
  · rintro ⟨_, h, hkind⟩
    cases h
    exact hkind
  · exact fun h => ⟨fault, rfl, h⟩

@[simp] theorem refuses_consResult {c : Char} {result : Except SpanFault (List Char × List Char)} :
    Refuses (consResult c result) ↔ Refuses result := by
  cases result with
  | ok cut => exact iff_of_false (not_refuses_ok _) (not_refuses_ok _)
  | error fault => rw [consResult, refuses_error_iff, refuses_error_iff]

@[simp] theorem refuses_prependSegment {text : List Char} {result : Except SpanFault Segment} :
    Refuses (prependSegment text result) ↔ Refuses result := by
  cases result with
  | ok piece => exact iff_of_false (not_refuses_ok _) (not_refuses_ok _)
  | error fault => rw [prependSegment, refuses_error_iff, refuses_error_iff]

theorem cause_inString (quote : Char) (fault : SpanFault) :
    (fault.inString quote).cause = fault.cause := by
  unfold SpanFault.inString
  split <;> rfl

/-- Where no line ends ahead and lines are joined, only blanks are left. -/
theorem continuation?_of_notMem {span : List Char} (h : continuation? e cs = some (span, rest))
    (hline : '\n' ∉ cs) : rest = [] ∧ ∃ blanks, cs = e :: blanks ∧ ∀ b ∈ blanks, isBlank b := by
  obtain ⟨hcs, blanks, hblanks, hspan | ⟨hspan, hrest⟩⟩ := continuation?_eq_some h
  · exact (hline (by simp [hcs, hspan])).elim
  · rw [hspan, hrest, List.append_nil] at hcs
    exact ⟨hrest, blanks, hcs, hblanks⟩

theorem blanks_of_continues {c : Char} (h : continues e (c :: cs)) (hline : '\n' ∉ c :: cs) :
    c = e ∧ ∀ b ∈ cs, isBlank b := by
  obtain ⟨cut, hcut⟩ := Option.isSome_iff_exists.1 h
  obtain ⟨-, blanks, hcs, hblanks⟩ := continuation?_of_notMem hcut hline
  cases hcs
  exact ⟨rfl, hblanks⟩

/-! ### Strings -/

/-- Does a text behind a backslash make it an escape of an array? -/
def opensEscape : List Char → Bool
  | [] => false
  | d :: behind => isArrayEscape d && (d ≠ 'u' || hexAhead behind)

/-- Text between the quotes of a string of an array. -/
inductive StringText : List Char → Prop where
  | nil : StringText []
  | char {c : Char} {cs : List Char} (hc : c ≠ '"' ∧ c ≠ '\\') (h : StringText cs) :
    StringText (c :: cs)
  | escape {d : Char} {cs : List Char} (hd : opensEscape (d :: cs)) (h : StringText cs) :
    StringText ('\\' :: d :: cs)

/-- Behind an opening quote comes a backslash that is no escape of an array, before the string
ends. It does not join lines either. -/
def Misescaped (e : Char) (cs : List Char) : Prop :=
  ∃ s behind, cs = s ++ '\\' :: behind ∧ StringText s ∧ opensEscape behind = false ∧
    continues e ('\\' :: behind) = false

theorem hexAhead_append {s : List Char} (h : hexAhead s) (behind : List Char) :
    hexAhead (s ++ behind) := by
  rw [hexAhead, decide_eq_true_eq] at h ⊢
  rw [List.takeWhile_append]
  split
  · rw [List.length_append]
    omega
  · exact h

/-- Whether a backslash is an escape is known before the next character that is no digit. -/
theorem opensEscape_append {c : Char} (hc : isHex c = false) (d : Char) (s behind : List Char) :
    opensEscape (d :: (s ++ c :: behind)) = opensEscape (d :: s) := by
  have hhex : hexAhead (s ++ c :: behind) = hexAhead s := by
    rw [hexAhead, hexAhead, List.takeWhile_append, List.takeWhile_cons_of_neg (by simp [hc]),
      List.append_nil]
    split
    · rename_i hall
      rw [hall]
    · rfl
  rw [opensEscape, opensEscape, hhex]

theorem opensEscape_of_isArrayEscape {d : Char} {behind : List Char} (hknown : isArrayEscape d)
    (hhex : ¬ (d = 'u' && !hexAhead behind) = true) : opensEscape (d :: behind) := by
  simp only [opensEscape, hknown]
  simpa [or_iff_not_imp_left] using hhex

/-- How a string with a backslash that is no escape starts. -/
theorem misescaped_cons_iff {c : Char} : Misescaped e (c :: cs) ↔
    (c ≠ '"' ∧ c ≠ '\\') ∧ Misescaped e cs ∨
    c = '\\' ∧ opensEscape cs = false ∧ continues e ('\\' :: cs) = false ∨
    c = '\\' ∧ ∃ d behind, cs = d :: behind ∧ opensEscape (d :: behind) ∧ Misescaped e behind := by
  constructor
  · rintro ⟨s, behind, hcs, hs, hbad⟩
    cases hs with
    | nil =>
      cases hcs
      exact .inr (.inl ⟨rfl, hbad⟩)
    | char hc hs =>
      cases hcs
      exact .inl ⟨hc, _, behind, rfl, hs, hbad⟩
    | @escape d s hd hs =>
      cases hcs
      rw [← opensEscape_append (c := '\\') rfl d s behind] at hd
      exact .inr (.inr ⟨rfl, d, _, rfl, hd, s, behind, rfl, hs, hbad⟩)
  · rintro (⟨hc, s, behind, rfl, hs, hbad⟩ | ⟨rfl, hbad⟩ |
      ⟨rfl, d, _, rfl, hd, s, behind, rfl, hs, hbad⟩)
    · exact ⟨c :: s, behind, rfl, .char hc hs, hbad⟩
    · exact ⟨[], cs, rfl, .nil, hbad⟩
    · rw [opensEscape_append rfl] at hd
      exact ⟨'\\' :: d :: s, behind, rfl, .escape hd hs, hbad⟩

/-- Within a line, a string is refused just for a backslash that is no escape. -/
theorem arrayString_refuses_iff (hline : '\n' ∉ cs) (joined : Bool) :
    Refuses (arrayString e joined cs) ↔ Misescaped e cs := by
  fun_induction arrayString e joined cs with
  | case1 =>
    refine iff_of_false (fun h => absurd (refuses_error_iff.1 h) (by decide)) ?_
    rintro ⟨s, behind, hcs, -⟩
    exact List.append_ne_nil_of_right_ne_nil s (List.cons_ne_nil _ _) hcs.symm
  | case2 | case3 => exact (hline List.mem_cons_self).elim
  | case4 joined c cs _ hjoint ih =>
    obtain ⟨rfl, hblanks⟩ := blanks_of_continues hjoint hline
    rw [List.mem_cons, not_or] at hline
    have hcs : ¬ Misescaped c cs := by
      rintro ⟨s, behind, rfl, -⟩
      cases hblanks '\\' (by simp)
    rw [refuses_consResult, ih hline.2]
    refine iff_of_false hcs fun h => ?_
    rcases misescaped_cons_iff.1 h with ⟨-, h⟩ | ⟨rfl, -, hwhole⟩ | ⟨-, d, behind, rfl, hd, -⟩
    · exact hcs h
    · rw [hjoint] at hwhole
      cases hwhole
    · have hblank := hblanks d List.mem_cons_self
      rw [isBlank, Bool.or_eq_true, Bool.or_eq_true, decide_eq_true_eq, decide_eq_true_eq,
        decide_eq_true_eq] at hblank
      rcases hblank with (rfl | rfl) | rfl <;> cases hd
  | case5 joined cs =>
    refine iff_of_false (not_refuses_ok _) fun h => ?_
    rcases misescaped_cons_iff.1 h with ⟨⟨hne, -⟩, -⟩ | ⟨hc, -⟩ | ⟨hc, -⟩
    · exact hne rfl
    · cases hc
    · cases hc
  | case6 joined hne hquote hwhole =>
    exact iff_of_true (refuses_error_iff.2 rfl)
      (misescaped_cons_iff.2 (.inr (.inl ⟨rfl, rfl, by simpa using hwhole⟩)))
  | case7 joined d behind hhex hne hquote hwhole =>
    rw [Bool.and_eq_true, decide_eq_true_eq, Bool.not_eq_true'] at hhex
    obtain ⟨rfl, hhex⟩ := hhex
    refine iff_of_true (refuses_error_iff.2 rfl)
      (misescaped_cons_iff.2 (.inr (.inl ⟨rfl, ?_, by simpa using hwhole⟩)))
    simp [opensEscape, hhex]
  | case8 joined d behind hhex hknown hne hquote hwhole ih =>
    have hopens := opensEscape_of_isArrayEscape hknown hhex
    rw [refuses_consResult, refuses_consResult, ih (by simp_all), misescaped_cons_iff]
    simp [hopens]
  | case9 joined d behind hhex hknown hne hquote hwhole =>
    refine iff_of_true (refuses_error_iff.2 rfl)
      (misescaped_cons_iff.2 (.inr (.inl ⟨rfl, ?_, by simpa using hwhole⟩)))
    simp [opensEscape, hknown]
  | case10 joined c cs _ _ hquote hslash ih =>
    rw [refuses_consResult, ih (by simp_all), misescaped_cons_iff]
    simp [hquote, hslash]

/-- Within a line, a string ends at its closing quote. -/
theorem exists_of_arrayString_ok {joined : Bool} {span : List Char} (hline : '\n' ∉ cs)
    (h : arrayString e joined cs = .ok (span, rest)) :
    ∃ s, cs = s ++ '"' :: rest ∧ StringText s := by
  fun_induction arrayString e joined cs generalizing span with
  | case1 => cases h
  | case2 => exact (hline List.mem_cons_self).elim
  | case3 => cases h
  | case4 joined c cs _ hjoint ih =>
    obtain ⟨tail, htail, -⟩ := consResult_eq_ok h
    obtain ⟨s, rfl, -⟩ := ih (List.not_mem_of_not_mem_cons hline) htail
    obtain ⟨-, hblanks⟩ := blanks_of_continues hjoint hline
    cases hblanks '"' (by simp)
  | case5 =>
    cases h
    exact ⟨[], rfl, .nil⟩
  | case6 | case7 => cases h
  | case8 joined d behind hhex hknown _ _ _ ih =>
    obtain ⟨front, hfront, -⟩ := consResult_eq_ok h
    obtain ⟨tail, htail, -⟩ := consResult_eq_ok hfront
    obtain ⟨s, rfl, hs⟩ := ih (by simp_all) htail
    have hopens := opensEscape_of_isArrayEscape hknown hhex
    rw [opensEscape_append rfl] at hopens
    exact ⟨'\\' :: d :: s, rfl, .escape hopens hs⟩
  | case9 => cases h
  | case10 joined c cs _ _ hquote hslash ih =>
    obtain ⟨tail, htail, -⟩ := consResult_eq_ok h
    obtain ⟨s, rfl, hs⟩ := ih (by simp_all) htail
    exact ⟨c :: s, rfl, .char ⟨hquote, hslash⟩ hs⟩

/-- Within a line, text between quotes can stand in a string. -/
theorem StringText.quotable (he : IsEscape e) (h : StringText cs) (hline : '\n' ∉ cs) :
    Quotable e cs := by
  induction h with
  | nil => exact .nil he
  | char hc _ ih =>
    rw [List.mem_cons, not_or] at hline
    exact (ih hline.2).cons ⟨Ne.symm hline.1, hc⟩
  | escape hd _ ih =>
    rw [opensEscape, Bool.and_eq_true, Bool.or_eq_true, decide_eq_true_eq] at hd
    refine (ih (by simp_all)).escape hd.1 fun hu => hexAhead_append (hd.2.resolve_left ?_)
    exact fun hne => hne hu

/-! ### Brackets -/

/-- Text inside `n` open brackets, up to a place where some are open still and no string is. -/
inductive InBrackets : Nat → List Char → Prop where
  | nil {n : Nat} : InBrackets n []
  | string {n : Nat} {s cs : List Char} (hs : StringText s) (h : InBrackets n cs) :
    InBrackets n ('"' :: s ++ '"' :: cs)
  | opening {n : Nat} {cs : List Char} (h : InBrackets (n + 1) cs) : InBrackets n ('[' :: cs)
  | closing {n : Nat} {cs : List Char} (hn : 1 < n) (h : InBrackets (n - 1) cs) :
    InBrackets n (']' :: cs)
  | char {n : Nat} {c : Char} {cs : List Char} (hc : c ≠ '"' ∧ c ≠ '[' ∧ c ≠ ']')
    (h : InBrackets n cs) : InBrackets n (c :: cs)

/-- Inside `n` open brackets a string starts that holds a backslash that is no escape. -/
def MisescapedIn (e : Char) (n : Nat) (cs : List Char) : Prop :=
  ∃ before more, cs = before ++ '"' :: more ∧ InBrackets n before ∧ Misescaped e more

section Brackets

variable {n : Nat}

theorem misescapedIn_quote_iff : MisescapedIn e n ('"' :: cs) ↔ Misescaped e cs ∨
    ∃ s rest, cs = s ++ '"' :: rest ∧ StringText s ∧ MisescapedIn e n rest := by
  constructor
  · rintro ⟨before, more, hcs, hbefore, hmore⟩
    cases hbefore with
    | nil =>
      cases hcs
      exact .inl hmore
    | @string _ s before hs hbefore =>
      rw [List.append_assoc, List.cons_append] at hcs
      cases hcs
      exact .inr ⟨s, _, rfl, hs, before, more, rfl, hbefore, hmore⟩
    | opening | closing => cases hcs
    | char hc =>
      cases hcs
      exact (hc.1 rfl).elim
  · rintro (hmore | ⟨s, rest, rfl, hs, before, more, rfl, hbefore, hmore⟩)
    · exact ⟨[], cs, rfl, .nil, hmore⟩
    · exact ⟨'"' :: s ++ '"' :: before, more, by simp, .string hs hbefore, hmore⟩

theorem misescapedIn_opening_iff :
    MisescapedIn e n ('[' :: cs) ↔ MisescapedIn e (n + 1) cs := by
  constructor
  · rintro ⟨before, more, hcs, hbefore, hmore⟩
    cases hbefore with
    | nil | string => cases hcs
    | opening hbefore =>
      cases hcs
      exact ⟨_, more, rfl, hbefore, hmore⟩
    | closing => cases hcs
    | char hc =>
      cases hcs
      exact (hc.2.1 rfl).elim
  · rintro ⟨before, more, rfl, hbefore, hmore⟩
    exact ⟨'[' :: before, more, rfl, .opening hbefore, hmore⟩

theorem misescapedIn_closing_iff :
    MisescapedIn e n (']' :: cs) ↔ 1 < n ∧ MisescapedIn e (n - 1) cs := by
  constructor
  · rintro ⟨before, more, hcs, hbefore, hmore⟩
    cases hbefore with
    | nil | string | opening => cases hcs
    | closing hn hbefore =>
      cases hcs
      exact ⟨hn, _, more, rfl, hbefore, hmore⟩
    | char hc =>
      cases hcs
      exact (hc.2.2 rfl).elim
  · rintro ⟨hn, before, more, rfl, hbefore, hmore⟩
    exact ⟨']' :: before, more, rfl, .closing hn hbefore, hmore⟩

theorem misescapedIn_char_iff {c : Char} (hc : c ≠ '"' ∧ c ≠ '[' ∧ c ≠ ']') :
    MisescapedIn e n (c :: cs) ↔ MisescapedIn e n cs := by
  constructor
  · rintro ⟨before, more, hcs, hbefore, hmore⟩
    cases hbefore with
    | nil | string =>
      cases hcs
      exact (hc.1 rfl).elim
    | opening =>
      cases hcs
      exact (hc.2.1 rfl).elim
    | closing =>
      cases hcs
      exact (hc.2.2 rfl).elim
    | char _ hbefore =>
      cases hcs
      exact ⟨_, more, rfl, hbefore, hmore⟩
  · rintro ⟨before, more, rfl, hbefore, hmore⟩
    exact ⟨c :: before, more, rfl, .char hc hbefore, hmore⟩

/-- Within a line, a piece of an array is refused just for a string with a backslash that is no
escape. -/
theorem segment_refuses_iff (he : IsEscape e) (hline : '\n' ∉ cs) :
    Refuses (segment e n cs) ↔ MisescapedIn e n cs := by
  fun_induction segment e n cs with
  | case1 =>
    refine iff_of_false (not_refuses_ok _) ?_
    rintro ⟨before, more, hcs, -⟩
    exact List.append_ne_nil_of_right_ne_nil before (List.cons_ne_nil _ _) hcs.symm
  | case2 n c cs hstop =>
    refine iff_of_false (not_refuses_ok _) ?_
    rw [Bool.or_eq_true, decide_eq_true_eq] at hstop
    have hc : c ≠ '\n' := fun hc => hline (hc ▸ List.mem_cons_self)
    obtain ⟨rfl, hblanks⟩ := blanks_of_continues (hstop.resolve_left hc) hline
    rintro ⟨before, more, hcs, -⟩
    have hquote : '"' ∈ c :: cs := by simp [hcs]
    rcases List.mem_cons.1 hquote with rfl | hquote
    · rcases he with he | he <;> cases he
    · cases hblanks '"' hquote
  | case3 n cs fault hfault hgo =>
    rw [List.mem_cons, not_or] at hline
    have hstring := arrayString_refuses_iff (e := e) hline.2 false
    rw [hfault, refuses_error_iff] at hstring
    rw [refuses_error_iff, cause_inString, misescapedIn_quote_iff, hstring, or_iff_left]
    rintro ⟨s, rest, rfl, hs, -⟩
    have hs := hs.quotable he fun hmem => hline.2 (List.mem_append_left _ hmem)
    cases (hs.arrayString_eq rest).symm.trans hfault
  | case4 n cs string behind hstring _ hgo ih =>
    rw [List.mem_cons, not_or] at hline
    obtain ⟨s, hcs, hs⟩ := exists_of_arrayString_ok hline.2 hstring
    have hbehind : '\n' ∉ behind := fun hmem => hline.2 (hcs ▸ by simp [hmem])
    rw [refuses_prependSegment, ih hbehind, misescapedIn_quote_iff]
    constructor
    · exact fun h => .inr ⟨s, behind, hcs, hs, h⟩
    · rintro (h | ⟨s', rest, rfl, hs', h⟩)
      · rw [← arrayString_refuses_iff hline.2 false, hstring] at h
        exact (not_refuses_ok _ h).elim
      · have hs' := hs'.quotable he fun hmem => hline.2 (List.mem_append_left _ hmem)
        cases (hs'.arrayString_eq rest).symm.trans hstring
        exact h
  | case5 n cs hgo hquote ih =>
    rw [refuses_prependSegment, ih (by simp_all), misescapedIn_opening_iff]
  | case6 n cs hdepth hgo hquote hopen =>
    refine iff_of_false (not_refuses_ok _) fun h => ?_
    have := (misescapedIn_closing_iff.1 h).1
    omega
  | case7 n cs hdepth hgo hquote hopen ih =>
    rw [refuses_prependSegment, ih (by simp_all), misescapedIn_closing_iff]
    simp only [not_le.1 hdepth, true_and]
  | case8 n c cs hgo hquote hopen hclose ih =>
    rw [refuses_prependSegment, ih (by simp_all), misescapedIn_char_iff ⟨hquote, hopen, hclose⟩]

end Brackets

/-! ### Lines -/

/-- Are lines joined somewhere in a text? -/
def joinsLines (e : Char) : List Char → Bool
  | [] => false
  | c :: rest => continues e (c :: rest) || joinsLines e rest

/-- Is the machine among words, and not inside an array? -/
def Mode.isWords : Mode → Bool
  | .argument (.words _) => true
  | _ => false

theorem Mode.exists_of_isWords {m : Mode} (h : m.isWords) : ∃ w, m = .argument (.words w) := by
  cases m with
  | line | continued => cases h
  | argument a =>
    cases a with
    | words w => exact ⟨w, rfl⟩
    | array => cases h

theorem Mode.isLine_of_isWords {m : Mode} (h : m.isWords) : m.isLine = false := by
  obtain ⟨w, rfl⟩ := Mode.exists_of_isWords h
  rfl

/-- Is the machine among words, or at the end of the text? -/
def State.IsPlain (s : State) : Prop := s.mode.isWords ∨ s.mode.isLine = false ∧ s.rest = []

section Steps

variable {s t : State} {tokens : List Token} {w : Words} {fault : Fault}

/-- Without a line end the arguments are left only at the end of the text. -/
theorem State.IsPlain.step (hs : s.IsPlain) (he : IsEscape s.escape)
    (hline : '\n' ∉ s.rest) (h : step s = .next tokens t) : t.IsPlain := by
  obtain ⟨pieces, skip, hmove, -⟩ := move_of_step he h
  obtain ⟨m, e, p, cs⟩ := s
  obtain ⟨m', e', p', rest⟩ := t
  dsimp only [State.IsPlain] at hs hline hmove ⊢
  cases hmove with
  | indent | lineEnd | comment | lastComment | keyword => rcases hs with hs | ⟨hs, -⟩ <;> cases hs
  | lineDone => exact (hline List.mem_cons_self).elim
  | joint w hcut => exact .inr ⟨rfl, (continuation?_of_notMem hcut hline).1⟩
  | arrayJoint ha hcut hdepth hjoint =>
    refine .inr ⟨rfl, (continuation?_of_notMem hjoint fun hmem => hline ?_).1⟩
    exact List.mem_append_right _ hmem
  | resume =>
    rcases hs with hs | ⟨-, rfl⟩
    · cases hs
    · exact .inr ⟨rfl, rfl⟩
  | blankLine | commentLine => exact (hline (by simp)).elim
  | lastCommentLine => exact .inr ⟨rfl, rfl⟩
  | _ => exact .inl rfl

theorem Steps.isPlain (h : Steps s tokens t) (hs : s.IsPlain) (he : IsEscape s.escape)
    (hline : '\n' ∉ s.rest) : t.IsPlain ∧ '\n' ∉ t.rest ∧ ∀ x ∈ tokens, x.kind ≠ .newline := by
  induction h with
  | refl s => exact ⟨hs, hline, List.forall_mem_nil _⟩
  | @cons s u t tokens more hstep _ ih =>
    have hu := hs.step he hline hstep
    obtain ⟨pieces, skip, hmove, rfl, -⟩ := move_of_step he hstep
    rw [hmove.covered_eq, List.append_assoc, List.mem_append, List.mem_append, not_or,
      not_or] at hline
    obtain ⟨ht, hrest, hmore⟩ := ih hu (hmove.isEscape he) hline.2.2
    refine ⟨ht, hrest, List.forall_mem_append.2 ⟨fun x hx hkind => hline.1 ?_, hmore⟩⟩
    obtain ⟨front, y, back, rfl, rfl⟩ := exists_of_mem_placed hx
    have hspan := hmove.newline_mem_span (x := y) (by simp) hkind
    simp [hspan]

/-- Does a step stop for an escape? -/
def Step.Refuses (step : Step) : Prop :=
  ∃ fault, step = .stopped fault ∧ fault.cause.kind = "invalid-escape"

theorem arrayStep_refuses_iff {depth : Nat} {lead : List Char} :
    (arrayStep s w depth lead cs).Refuses ↔ Refuses (segment s.escape depth cs) := by
  unfold arrayStep
  cases segment s.escape depth cs with
  | error fault =>
    rw [refuses_error_iff]
    constructor
    · rintro ⟨_, h, hkind⟩
      cases h
      exact hkind
    · exact fun hkind => ⟨_, rfl, hkind⟩
  | ok piece =>
    refine iff_of_false ?_ (not_refuses_ok _)
    rintro ⟨fault, h, -⟩
    dsimp only at h
    split at h
    · cases h
    · split at h <;> cases h

theorem step_refuses_of_segment (he : IsEscape e) (h : Refuses (segment e 1 cs))
    (p : Position) : (step ⟨.argument (.words ⟨true, []⟩), e, p, '[' :: cs⟩).Refuses := by
  have hstep : step ⟨.argument (.words ⟨true, []⟩), e, p, '[' :: cs⟩ =
      arrayStep ⟨.argument (.words ⟨true, []⟩), e, p, '[' :: cs⟩ ⟨true, []⟩ 1 ['['] cs :=
    wordsStep_array he rfl rfl cs
  rw [hstep]
  exact arrayStep_refuses_iff.2 h

/-- Among words only an array is refused for an escape. -/
theorem exists_of_wordsStep_refuses (h : (wordsStep s w cs).Refuses) :
    ∃ body, cs = '[' :: body ∧ w = ⟨true, []⟩ ∧ Refuses (segment s.escape 1 body) := by
  obtain ⟨fault, h, hkind⟩ := h
  cases cs with
  | nil => cases h
  | cons c cs =>
    rcases wordsStep_cons s.mode s.escape s.rest w c cs with hnext | ⟨rfl, hw, harray⟩ |
      ⟨cause, hcause, hstop⟩
    · obtain ⟨_, _, hnext⟩ := hnext s.position
      cases hnext.symm.trans h
    · have hstopped := (harray s.position).symm.trans h
      exact ⟨cs, rfl, hw, arrayStep_refuses_iff.1 ⟨fault, hstopped, hkind⟩⟩
    · cases (hstop s.position).symm.trans h
      exact (hcause hkind).elim

/-- Within a line, an escape is refused behind a bracket that starts an array. -/
theorem exists_bracket_of_refused (he : IsEscape s.escape) (hs : s.mode.isWords)
    (hline : '\n' ∉ s.rest) (h : (scanFrom s).fault = some fault)
    (hkind : fault.cause.kind = "invalid-escape") : ∃ tokens q body,
      Steps s tokens ⟨.argument (.words ⟨true, []⟩), s.escape, q, '[' :: body⟩ ∧
      (∀ x ∈ tokens, x.kind ≠ .newline) ∧ MisescapedIn s.escape 1 body := by
  obtain ⟨tokens, t, hsteps, ⟨token, -, hscan⟩ | ⟨fault', hstopped, hscan⟩⟩ := exists_steps s
  · rw [hscan] at h
    cases h
  rw [hscan] at h
  cases h
  obtain ⟨hplain, hrest, hnewline⟩ := hsteps.isPlain (.inl hs) he hline
  obtain ⟨hescape, -, -⟩ := hsteps.isInside he (Mode.isLine_of_isWords hs) hnewline
  obtain ⟨m, _, q, rest⟩ := t
  obtain rfl : _ = s.escape := hescape
  rcases hplain with hwords | ⟨-, hnil⟩
  · obtain ⟨w, rfl⟩ := Mode.exists_of_isWords hwords
    obtain ⟨body, rfl, rfl, hbody⟩ := exists_of_wordsStep_refuses ⟨fault, hstopped, hkind⟩
    rw [segment_refuses_iff he (List.not_mem_of_not_mem_cons hrest)] at hbody
    exact ⟨tokens, q, body, hsteps, hnewline, hbody⟩
  · cases (scanFrom_of_stopped hstopped).symm.trans (scanFrom_nil he hnil)

/-- A text within a line is refused for an escape just where an array starts and one of its strings
holds a backslash that is no escape. -/
theorem scanFrom_refuses_iff {e : Char} (he : IsEscape e) {p : Position}
    (hline : '\n' ∉ cs) :
    (∃ fault, (scanFrom ⟨.argument (.words ⟨true, []⟩), e, p, cs⟩).fault = some fault ∧
      fault.cause.kind = "invalid-escape") ↔
    ∃ body, StartsArray e cs body ∧ MisescapedIn e 1 body := by
  constructor
  · rintro ⟨fault, hfault, hkind⟩
    obtain ⟨tokens, q, body, hsteps, hnewline, hbody⟩ :=
      exists_bracket_of_refused he rfl hline hfault hkind
    exact ⟨body, (startsArray_iff he).2 ⟨p, tokens, q, hnewline, hsteps⟩, hbody⟩
  · rintro ⟨body, hstarts, hbody⟩
    obtain ⟨q, tokens, q', -, hsteps⟩ := (startsArray_iff he).1 hstarts
    obtain ⟨tokens, q', hsteps⟩ := hsteps.elsewhere he p
    obtain ⟨-, hrest, -⟩ := hsteps.isPlain (.inl rfl) he hline
    rw [← segment_refuses_iff he (List.not_mem_of_not_mem_cons hrest)] at hbody
    obtain ⟨fault, hstopped, hkind⟩ := step_refuses_of_segment he hbody q'
    refine ⟨fault, ?_, hkind⟩
    rw [scanFrom_of_steps hsteps, scanFrom_of_stopped hstopped]

end Steps

end Lexer

open Lexer

/-- A command within a line is refused for an escape if and only if an array starts in it and a
string in the brackets of the array holds a backslash that is no escape of an array. -/
theorem scan_refuses_iff {t : String} (h : '\n' ∉ t.toList) :
    (∃ fault, (Token.scan ("RUN " ++ t)).fault = some fault ∧
      fault.cause.kind = "invalid-escape") ↔
    ∃ before more, StartsArray '\\' (' ' :: t.toList) (before ++ '"' :: more) ∧
      InBrackets 1 before ∧ Misescaped '\\' more := by
  have htext : Text.feedsOfPairs ("RUN " ++ t).toList =
      Kind.run.name.toList ++ ' ' :: t.toList := by
    rw [feedsOfPairs_of_notMem (by simp [h]), String.toList_append]
    rfl
  have hfront := scanFrom_of_steps (steps_keyword (e := '\\') (.inl rfl)
    Kind.run.isAlpha_of_mem_name Kind.run.name_ne_nil true .start t.toList)
  have hfault := congrArg Scan.fault hfront
  rw [Token.scan, htext]
  rw [show State.start _ = ⟨.line true, '\\', .start, _⟩ from rfl, hfault,
    scanFrom_refuses_iff (.inl rfl) (by simp [h])]
  constructor
  · rintro ⟨_, hstarts, before, more, rfl, hbefore, hmore⟩
    exact ⟨before, more, hstarts, hbefore, hmore⟩
  · rintro ⟨before, more, hstarts, hbefore, hmore⟩
    exact ⟨_, hstarts, before, more, rfl, hbefore, hmore⟩

theorem scan_refuses_nested :
    (∃ before more, StartsArray '\\' " --mount=x [ \"a\\\"]\", [ \"\\q\" ] ]".toList
      (before ++ '"' :: more) ∧ InBrackets 1 before ∧ Misescaped '\\' more) ∧
    ¬ ∃ before more, StartsArray '\\' " x [ \"\\q\" ]".toList (before ++ '"' :: more) ∧
      InBrackets 1 before ∧ Misescaped '\\' more := by
  constructor
  · exact (scan_refuses_iff (t := "--mount=x [ \"a\\\"]\", [ \"\\q\" ] ]") (by decide)).1
      ⟨⟨.badEscape (some 'q'), ⟨1, 28⟩⟩, by decide +kernel, rfl⟩
  · rw [show " x [ \"\\q\" ]".toList = ' ' :: "x [ \"\\q\" ]".toList from rfl,
      ← scan_refuses_iff (by decide)]
    rintro ⟨fault, hfault, -⟩
    have hnone : (Token.scan ("RUN " ++ "x [ \"\\q\" ]")).fault = none := by decide +kernel
    cases hnone.symm.trans hfault

/-- A command that starts with a bracket and is no array is refused for its escape. -/
theorem scan_refuses_test :
    let t := "[ -f \"a\\.b\" ]"
    joinsLines '\\' t.toList = false ∧
      Instruction.looksLikeArray (Text.stripChars t.toList) = false ∧
      (Token.scan ("RUN " ++ t)).fault.map (·.cause.kind) = some "invalid-escape" := by
  decide +kernel

end Dockerfile
