import Dockerfile.Proofs.CommandArrays

/-!
# What a text comes to

A text is a document, or the lexer stops in it, or a line of it is refused, and never for a token
that stands where the reader does not expect it. One outcome is left: an integer with more digits
than `Text.integerLimit` in an array stops the reader and counts as neither (`parse_outcome`). So
many digits in a row are needed for it (`hasOverlong_of_read`), and an array with so many is enough,
behind every text that ends at the end of a line and in every instruction with a command
(`parse_overlongArray`).
-/

namespace Dockerfile

namespace Json.Reader

/-- Are there `n` digits in a row, and are they too many for an integer? -/
def HasOverlong (n : Nat) (cs : List Char) : Prop :=
  Text.integerLimit < n ∧ ∃ digits, digits <:+: cs ∧ digits.length = n ∧ ∀ c ∈ digits, c.isDigit

variable {cs rest : List Char} {c : Char} {item : Item} {n : Nat}

namespace HasOverlong

theorem of_isInfix (h : HasOverlong n rest) (hrest : rest <:+: cs) : HasOverlong n cs := by
  obtain ⟨hlimit, digits, hdigits, hall⟩ := h
  exact ⟨hlimit, digits, hdigits.trans hrest, hall⟩

theorem cons (h : HasOverlong n cs) (c : Char) : HasOverlong n (c :: cs) :=
  h.of_isInfix (List.suffix_cons c cs).isInfix

theorem of_endOf (h : HasOverlong n rest) (hend : EndOf rest cs) : HasOverlong n cs := by
  obtain ⟨c, behind, rfl, hrest⟩ := hend
  exact (h.of_isInfix hrest.isInfix).cons c

theorem of_skip (h : HasOverlong n (skip cs)) : HasOverlong n cs :=
  h.of_isInfix (List.dropWhile_suffix isBlank).isInfix

theorem of_skip_eq (h : HasOverlong n rest) (hskip : skip cs = c :: rest) : HasOverlong n cs := by
  refine of_skip ?_
  rw [hskip]
  exact h.cons c

end HasOverlong

theorem readString_ne_overlong (done cs : List Char) :
    readString done cs ≠ .error (.overlong n) := by
  fun_induction readString done cs <;> simp_all

/-- A number is read as it is written. -/
theorem isInfix_of_readScalar? {text : String} (h : readScalar? cs = some (.number text, rest)) :
    text.toList <:+: cs := by
  unfold readScalar? at h
  split at h
  case h_4 =>
    obtain ⟨behind, -, heq⟩ := Option.map_eq_some_iff.1 h
    cases heq
    rw [String.toList_ofList]
    exact (List.take_prefix _ _).isInfix
  all_goals cases h

theorem hasOverlong_of_readScalar? (h : readScalar? cs = some (item, rest))
    (hlong : item.overlong? = some n) : HasOverlong n cs := by
  cases item with
  | number text =>
    unfold Item.overlong? at hlong
    dsimp only at hlong
    generalize hdigits : (if text.toList.head? = some '-' then text.toList.tail else text.toList) =
      digits at hlong
    have hpart : digits <:+: text.toList := by
      rw [← hdigits]
      split
      · exact (List.tail_suffix _).isInfix
      · exact List.infix_rfl
    obtain ⟨hall, hlength⟩ := Option.ite_none_right_eq_some.1 hlong
    rw [Bool.and_eq_true, List.all_eq_true, decide_eq_true_eq] at hall
    cases hlength
    exact ⟨hall.2, digits, hpart.trans (isInfix_of_readScalar? h), rfl, hall.1⟩
  | _ => cases hlong

theorem hasOverlong_of_run {phase : Phase} {frames : List Frame}
    (h : run phase frames cs = .error (.overlong n)) : HasOverlong n cs := by
  fun_induction run phase frames cs with
  | case1 _ _ _ _ hread _ ih => exact ((ih h).of_endOf (endOf_readString hread)).cons _
  | case2 _ _ _ hread | case12 _ _ _ _ hread =>
    cases h
    exact absurd hread (readString_ne_overlong _ _)
  | case3 _ _ _ _ hskip ih | case5 _ _ _ _ hskip ih => exact ((ih h).of_skip_eq hskip).cons _
  | case4 _ _ _ _ ih | case6 _ _ _ _ ih => exact (ih h).of_skip.cons _
  | case7 _ _ _ _ _ _ _ hread _ _ hlong =>
    cases h
    exact hasOverlong_of_readScalar? hread hlong
  | case8 _ _ _ _ _ _ _ hread _ _ ih => exact (ih h).of_endOf (endOf_readScalar? hread)
  | case10 _ _ _ _ _ hread _ _ _ hskip _ ih =>
    have hvalue := (ih h).of_skip.of_skip_eq hskip
    exact (hvalue.of_endOf (endOf_readString hread)).cons _
  | case15 _ _ _ _ _ _ hskip ih | case18 _ _ _ _ _ _ _ hskip ih => exact (ih h).of_skip_eq hskip
  | case16 _ _ _ _ _ _ hskip _ ih | case19 _ _ _ _ _ _ _ hskip _ ih =>
    exact (ih h).of_skip.of_skip_eq hskip
  | _ => cases h

/-- The digits of an integer that is too long stand in the text. -/
theorem hasOverlong_of_read {text : String} (h : read text = .error (.overlong n)) :
    HasOverlong n text.toList := by
  unfold read at h
  cases hrun : run .value [] (skip text.toList) with
  | error fault =>
    rw [hrun] at h
    cases h
    exact (hasOverlong_of_run hrun).of_skip
  | ok result =>
    rw [hrun] at h
    change (if (skip result.2).isEmpty then _ else _) = _ at h
    split at h <;> cases h

/-! ### Arrays with an integer that is too long -/

/-- An array that starts with an integer of `n + 1` nines. -/
def overlongArray (n : Nat) : String :=
  String.ofList ('[' :: '9' :: (List.replicate n '9' ++ [',', '1', ']']))

theorem readScalar?_nines (n : Nat) (cs : List Char) :
    readScalar? ('9' :: (List.replicate n '9' ++ ',' :: cs)) =
      some (.number (String.ofList ('9' :: List.replicate n '9')), ',' :: cs) := by
  have hdigits : (List.replicate n '9' ++ ',' :: cs).dropWhile Char.isDigit = ',' :: cs := by
    rw [List.dropWhile_append_of_pos (by simp)]
    rfl
  have hnumber : skipNumber? ('9' :: (List.replicate n '9' ++ ',' :: cs)) = some (',' :: cs) := by
    change some (skipExponent (skipFraction (List.dropWhile Char.isDigit _))) = _
    rw [hdigits]
    rfl
  simp [readScalar?, hnumber, Nat.add_right_comm]

theorem run_nines (frames : List Frame) (hn : Text.integerLimit ≤ n) (cs : List Char) :
    run .value frames ('9' :: (List.replicate n '9' ++ ',' :: cs)) =
      .error (.overlong (n + 1)) := by
  have hread := readScalar?_nines n cs
  have hlong : (Item.number (String.ofList ('9' :: List.replicate n '9'))).overlong? =
      some (n + 1) := by
    simp [Item.overlong?, Nat.lt_succ_of_le hn]
  rw [run.eq_def]
  dsimp only
  split
  case h_1 heq | h_2 heq | h_3 heq => cases heq
  case h_4 =>
    split
    · rename_i hitem
      cases hread.symm.trans hitem
      rw [hlong]
    · rename_i hnone
      cases hread.symm.trans hnone

theorem read_overlongArray (hn : Text.integerLimit ≤ n) :
    read (overlongArray n) = .error (.overlong (n + 1)) := by
  have hopen (cs : List Char) : run .value [] ('[' :: '9' :: cs) =
      run .value [.array []] ('9' :: cs) := by
    rw [run.eq_def]
    rfl
  have htext : skip (overlongArray n).toList =
      '[' :: '9' :: (List.replicate n '9' ++ ',' :: ['1', ']']) := by
    rw [overlongArray, String.toList_ofList]
    rfl
  rw [read, htext, hopen, run_nines _ hn]
  rfl

end Json.Reader

open Json.Reader (overlongArray)

theorem Lexer.isArray_overlongArray (n : Nat) : IsArray (overlongArray n) := by
  have hplain : ∀ c ∈ '9' :: (List.replicate n '9' ++ [',', '1']), c = '9' ∨ c = ',' ∨ c = '1' := by
    simp only [List.mem_append, List.mem_replicate, List.mem_cons, List.not_mem_nil]
    tauto
  refine ⟨'9' :: (List.replicate n '9' ++ [',', '1']), by simp [overlongArray],
    fun hmem => by simpa using hplain _ hmem, fun e he cs => ?_⟩
  generalize '9' :: (List.replicate n '9' ++ [',', '1']) = body at hplain
  induction body with
  | nil => exact segment_close he cs
  | cons c body ih =>
    obtain ⟨hc, hbody⟩ := List.forall_mem_cons.1 hplain
    rw [List.cons_append, segment_cons (by rcases hc with rfl | rfl | rfl <;> decide)
      (by rcases hc with rfl | rfl | rfl <;> exact ne_escape he rfl), ih hbody]
    rfl

theorem Instruction.commandOf_overlongArray {n : Nat} (hn : Text.integerLimit ≤ n) :
    commandOf (overlongArray n) = .error (.overlong (n + 1)) := by
  have hinner : Text.stripChars ('9' :: (List.replicate n '9' ++ [',', '1'])) =
      '9' :: (List.replicate n '9' ++ [',', '1']) := by
    refine Text.stripChars_of_ends rfl ?_
    simp [List.getLast?_cons, show Text.isSpace '1' = false by decide]
  have hlooks : looksLikeArray (overlongArray n).toList := by
    have htext : (overlongArray n).toList =
        '[' :: ('9' :: (List.replicate n '9' ++ [',', '1']) ++ [']']) := by
      simp [overlongArray]
    rw [htext]
    unfold looksLikeArray
    rw [List.drop_succ_cons, List.drop_zero, List.dropLast_concat, hinner]
    simp [List.getLast?_cons]
  rw [commandOf, if_pos hlooks, Json.Reader.read_overlongArray hn]

/-! ### Outcomes -/

namespace Document

/-- An array with an integer that is too long can follow any text, and is then the outcome. -/
theorem parse_overlongArray {front : String} {d : Document} (h : parse front = .ok d)
    (hend : (Token.scan front).endsLine) (form : CommandForm) {n : Nat}
    (hn : Text.integerLimit ≤ n) :
    parse (front ++ form.opening ++ " " ++ overlongArray n) = .error (.overlong (n + 1)) := by
  obtain ⟨p, q, hparse⟩ := parse_array h hend form (Lexer.isArray_overlongArray n)
  rw [hparse, Instruction.commandOf_overlongArray hn]
  rfl

/-- A text is a document, or the lexer stops in it, or a line of it is refused, for another cause
than a token where none is expected; or else there are too many digits in a row in one of its lines,
and the reader stops at them. -/
theorem parse_outcome (source : String) :
    (∃ d, parse source = .ok d ∧ (Token.scan source).fault = none) ∨
      (∃ fault, parse source = .error (.lexical fault) ∧
        (Token.scan source).fault = some fault) ∨
      (∃ fault, parse source = .error (.grammatical fault) ∧
        fault.cause.kind ≠ "unexpected-token") ∨
      ∃ n line, parse source = .error (.overlong n) ∧
        .line line ∈ Entry.ofScan (Token.scan source) ∧
        Json.Reader.HasOverlong n line.raw.toList := by
  rcases parse_cases source with hdocument | hlexical | ⟨line, refusal, hparse, hline, escape, hof⟩
  · exact .inl hdocument
  · exact .inr (.inl hlexical)
  · have hcause := Instruction.ofText_ofLine escape line refusal hof
    obtain ⟨cause, position⟩ := refusal
    cases cause with
    | overlong n =>
      obtain ⟨array, hpart, hread⟩ := hcause
      have hdigits := (Json.Reader.hasOverlong_of_read hread).of_isInfix hpart
      exact .inr (.inr (.inr ⟨n, line, hparse, hline, hdigits⟩))
    | _ => exact .inr (.inr (.inl ⟨_, hparse, hcause.kind_ne⟩))

/-- A command with one digit too many is no document and no fault of the lexer or of the line. -/
theorem parse_outcome_overlong :
    parse ("FROM x\nCMD " ++ overlongArray 4300) = .error (.overlong 4301) := by
  have hfront : (parse "FROM x\n").toOption.isSome && (Token.scan "FROM x\n").endsLine := by
    decide +kernel
  rw [Bool.and_eq_true, Option.isSome_iff_exists] at hfront
  obtain ⟨⟨d, hd⟩, hend⟩ := hfront
  have htext : "FROM x\nCMD " = "FROM x\n" ++ CommandForm.cmd.opening ++ " " := by decide +kernel
  rw [htext]
  exact parse_overlongArray (Lower.eq_ok_of_toOption hd) hend .cmd (by decide)

end Document

end Dockerfile
