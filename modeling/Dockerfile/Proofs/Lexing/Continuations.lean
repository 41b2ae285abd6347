import Dockerfile.Proofs.Lexing.Borders

/-!
# Continued lines

Among the arguments of an instruction a line may be broken behind white space and continued on the
next line. What is read is the same but for the places behind the break (`parse_continued`).
-/

namespace Dockerfile

open Template (IsEscape)
open Text (feedsOfPairs)

/-- The place of what stands at `p`, if the line is broken at `b`. -/
def Position.brokenAt (b p : Position) : Position :=
  if p.line = b.line ∧ b.column ≤ p.column then ⟨p.line + 1, p.column - b.column + 1⟩
  else if b.line < p.line then ⟨p.line + 1, p.column⟩
  else p

namespace Lexer

variable {m m' : Mode} {e e' : Char} {cs skip rest : List Char} {pieces : List Piece}

/-! ### Places behind a break -/

/-- What stands before the break stays where it is. -/
theorem brokenAt_of_before (p : Position) {behind : List Char} (h : behind ≠ []) :
    (p.after behind).brokenAt p = p := by
  have hline := line_after p behind
  have hnot : ¬ (p.line = (p.after behind).line ∧ (p.after behind).column ≤ p.column) := by
    rintro ⟨hsame, hcolumn⟩
    have hcount : behind.count '\n' = 0 := by omega
    rw [after_of_notMem p (List.count_eq_zero.1 hcount)] at hcolumn
    have hlength := List.length_pos_iff.2 h
    dsimp only at hcolumn
    omega
  rw [Position.brokenAt, if_neg hnot, if_neg (by omega)]

/-- What stands behind the break stands behind the start of the next line. -/
theorem relocates_brokenAt (b : Position) : Relocates b.brokenAt b ⟨b.line + 1, 1⟩ := by
  intro u
  obtain ⟨line, hline, -, ⟨rfl, -⟩ | ⟨others, rfl, -⟩⟩ := exists_line u
  · rw [after_of_notMem b hline, after_of_notMem _ hline, Position.brokenAt]
    dsimp only
    rw [if_pos ⟨rfl, Nat.le_add_right _ _⟩]
    congr 1
    omega
  · have hnext (p : Position) : p.after (line ++ '\n' :: others) =
        (Position.mk (p.line + 1) 1).after others := by
      rw [Position.after_append, after_of_notMem p hline]
      rfl
    have hlater := line_after ⟨b.line + 1, 1⟩ others
    have hbelow := after_below ⟨b.line + 1, 1⟩ 1 others
    dsimp only at hlater hbelow
    rw [hnext, hnext, Position.brokenAt, if_neg (by omega), if_pos (by omega), hbelow]

/-! ### Finding a step -/

variable {x : Token} {front back : List Token} {c : Char}

/-- A token of a text is made by a step. -/
theorem exists_step_of_mem {s : State} (h : (scanFrom s).tokens = front ++ x :: back)
    (hx : x.kind ≠ .eof) :
    ∃ before t earlier later u, Steps s before t ∧ step t = .next (earlier ++ x :: later) u ∧
      front = before ++ earlier ∧ back = later ++ (scanFrom u).tokens := by
  fun_induction scanFrom s generalizing front with
  | case1 s token hstep =>
    obtain ⟨-, rfl⟩ := step_finished hstep
    obtain ⟨-, hx'⟩ := List.append_eq_singleton_iff.1 h.symm |>.resolve_right (by simp)
    cases hx'
    exact (hx rfl).elim
  | case2 s fault hstep => simp at h
  | case3 s tokens t hstep _ scan =>
    rename_i ih
    rcases List.append_eq_append_iff.1 h with ⟨middle, rfl, hscan⟩ | ⟨middle, rfl, hscan⟩
    · obtain ⟨before, u, earlier, later, v, hsteps, hu, rfl, hback⟩ := ih hscan
      exact ⟨tokens ++ before, u, earlier, later, v, .cons hstep hsteps, hu, by simp, hback⟩
    · cases middle with
      | nil =>
        rw [List.append_nil] at hstep
        obtain ⟨before, u, earlier, later, v, hsteps, hu, hnil, hback⟩ :=
          ih (show scan.tokens = [] ++ x :: back from hscan.symm)
        refine ⟨front ++ before, u, earlier, later, v, .cons hstep hsteps, hu, ?_, hback⟩
        rw [List.append_assoc, ← hnil, List.append_nil]
      | cons y middle =>
        cases hscan
        exact ⟨[], s, front, middle, t, .refl s, hstep, rfl, rfl⟩

/-- White space is a token of its own, at the start of a line or among words. -/
theorem Move.whitespace (h : Move m e cs pieces skip m' e' rest) {p : Position}
    (hx : x ∈ placed p pieces) (hkind : x.kind = .whitespace) : ∃ blanks, blanks ≠ [] ∧
      (∀ b ∈ blanks, isBlank b) ∧ Stops isBlank rest ∧ cs = blanks ++ rest ∧
      pieces = [.plain .whitespace blanks] ∧ skip = [] ∧ e' = e ∧
      ((∃ window, m = .line window ∧ m' = .line window) ∨
        ∃ w, m = .argument (.words w) ∧ m' = .argument (.words w.finish)) := by
  obtain ⟨front, y, back, hpieces, rfl⟩ := exists_of_mem_placed hx
  have hy : y ∈ pieces := by rw [hpieces]; simp
  have hyk : y.kind = .whitespace := hkind
  have harray {span : List Char} (hmem : y ∈ arrayPieces e span) : False := by
    rw [(mem_arrayPieces.1 hmem).1] at hyk
    cases hyk
  cases h with
  | indent hne hall hstops => exact ⟨_, hne, hall, hstops, rfl, rfl, rfl, rfl, .inl ⟨_, rfl, rfl⟩⟩
  | blanks w hne hall hstops => exact ⟨_, hne, hall, hstops, rfl, rfl, rfl, rfl, .inr ⟨w, rfl, rfl⟩⟩
  | array => exact (harray hy).elim
  | arrayJoint =>
    rcases List.mem_append.1 hy with hy | hy
    · exact (harray hy).elim
    · rw [List.mem_singleton.1 hy] at hyk
      cases hyk
  | comment =>
    rcases List.mem_cons.1 hy with rfl | hy
    · cases hyk
    · rw [List.mem_singleton.1 hy] at hyk
      cases hyk
  | resume | blankLine => cases hy
  | _ =>
    rw [List.mem_singleton.1 hy] at hyk
    cases hyk

/-- At the start of a line there is no piece of a word. -/
theorem head?_tokens_line (he : IsEscape e) (window : Bool) (p : Position)
    (cs : List Char) : ∃ y, (scanFrom ⟨.line window, e, p, cs⟩).tokens.head? = some y ∧
      y.kind ≠ .string ∧ y.kind ≠ .reference := by
  cases hstep : step ⟨.line window, e, p, cs⟩ with
  | finished token =>
    obtain ⟨-, rfl⟩ := step_finished hstep
    rw [scanFrom_of_finished hstep]
    exact ⟨_, rfl, by simp, by simp⟩
  | stopped fault => exact (lineStep_ne_stopped hstep).elim
  | next tokens t =>
    obtain ⟨pieces, skip, hmove, rfl, -⟩ := move_of_step he hstep
    obtain ⟨mode, e', p', rest⟩ := t
    rw [scanFrom_of_step hstep]
    dsimp only at hmove
    cases hmove with
    | _ => exact ⟨_, rfl, by simp [Piece.token, Piece.plain], by simp [Piece.token, Piece.plain]⟩

/-- White space before a piece of a word is read among words. -/
theorem exists_steps_whitespace {source : String}
    (htokens : (Token.scan source).tokens = front ++ x :: back) (hx : x.kind = .whitespace)
    (hnext : ∀ y ∈ back.head?, y.kind = .string ∨ y.kind = .reference) : ∃ w p blanks rest,
      Steps (.start (feedsOfPairs source.toList)) front
        ⟨.argument (.words w), Document.escapeOf source, p, blanks ++ rest⟩ ∧
      blanks ≠ [] ∧ (∀ b ∈ blanks, isBlank b) ∧ Stops isBlank rest ∧
      x = ⟨.whitespace, String.ofList blanks, p⟩ ∧
      back = (scanFrom ⟨.argument (.words w.finish), Document.escapeOf source, p.after blanks,
        rest⟩).tokens := by
  obtain ⟨before, s, earlier, later, t, hsteps, hstep, rfl, rfl⟩ :=
    exists_step_of_mem htokens (by rw [hx]; decide)
  have he := hsteps.isEscape (.inl rfl)
  obtain ⟨pieces, skip, hmove, hplaced, hposition⟩ := move_of_step he hstep
  obtain ⟨blanks, hne, hblanks, hstops, hrest, rfl, rfl, hescape, hmodes⟩ :=
    hmove.whitespace (by rw [← hplaced]; simp) hx
  obtain ⟨rfl, hone⟩ : earlier = [] ∧
      x :: later = placed s.position [.plain .whitespace blanks] := by
    cases earlier with
    | nil => exact ⟨rfl, hplaced⟩
    | cons y earlier => simp [placed] at hplaced
  cases hone
  obtain ⟨mode, e, p, cs⟩ := s
  obtain ⟨mode', e', p', rest⟩ := t
  dsimp only at hrest hescape hmodes hposition he
  subst hescape hrest
  rcases hmodes with ⟨window, rfl, rfl⟩ | ⟨w, rfl, rfl⟩
  · obtain ⟨y, hy, hstring, hreference⟩ := head?_tokens_line he window p' rest
    exact (hnext y hy).elim (fun h => (hstring h).elim) fun h => (hreference h).elim
  · have hsettled := escape_of_steps hsteps Mode.noConfusion
    dsimp only at hsettled
    subst hsettled hposition
    refine ⟨w, p, blanks, rest, ?_, hne, hblanks, hstops, rfl, ?_⟩
    · rwa [List.append_nil]
    · simp [Piece.plain, placed]

section

variable (he : IsEscape e)

include he

/-- Behind white space among words, a piece of a word starts with a solid character or with a sharp
sign. -/
theorem isSolid_of_next {w : Words} {p : Position} (hstops : Stops isBlank cs)
    (hhash : cs.head? ≠ some '#')
    (hnext : ∀ y ∈ (scanFrom ⟨.argument (.words w), e, p, cs⟩).tokens.head?,
      y.kind = .string ∨ y.kind = .reference) : ∃ c rest, cs = c :: rest ∧ isSolid c := by
  cases cs with
  | nil =>
    rw [scanFrom_nil (s := ⟨.argument (.words w), e, p, []⟩) he rfl] at hnext
    have heof := hnext _ rfl
    simp at heof
  | cons c cs =>
    refine ⟨c, cs, rfl, ?_⟩
    have hline : c ≠ '\n' := by
      rintro rfl
      rw [scanFrom_of_step (step_of_move he (.lineDone w e cs) p)] at hnext
      have hend := hnext _ rfl
      simp [Piece.token, Piece.plain] at hend
    have hsharp : c ≠ '#' := fun h => hhash (by rw [h]; rfl)
    simp [isSolid, hstops c rfl, hline, hsharp]

/-! ### Breaking a line -/

theorem agree_blanks {blanks : List Char} (hne : blanks ≠ []) (hblanks : ∀ b ∈ blanks, isBlank b)
    (hc : isSolid c) (rest rest' : List Char) :
    Agree (blanks ++ c :: rest) (blanks ++ e :: rest') := by
  obtain ⟨front, b, rfl⟩ := List.eq_nil_or_concat blanks |>.resolve_left hne
  have hb : isBlank b := hblanks b (by simp)
  rw [List.concat_eq_append, List.append_assoc, List.append_assoc]
  exact Agree.prepend (.blank hb hc (isSolid_of_isEscape he)) front

theorem steps_blanks (w : Words) (p : Position) {blanks : List Char} (hne : blanks ≠ [])
    (hblanks : ∀ b ∈ blanks, isBlank b) (hstops : Stops isBlank rest) :
    Steps ⟨.argument (.words w), e, p, blanks ++ rest⟩ [⟨.whitespace, String.ofList blanks, p⟩]
      ⟨.argument (.words w.finish), e, p.after blanks, rest⟩ :=
  .of_move he (.blanks w hne hblanks hstops) rfl p

/-- A joined line among words, before a solid character. -/
theorem steps_joint (w : Words) (p : Position) (hc : isSolid c) (rest : List Char) :
    Steps ⟨.argument (.words w), e, p, e :: '\n' :: c :: rest⟩
      [⟨.continuation, String.ofList [e, '\n'], p⟩]
      ⟨.argument (.words w), e, p.after [e, '\n'], c :: rest⟩ := by
  have hjoint : Move (.argument (.words w)) e ([e, '\n'] ++ c :: rest)
      [.plain .continuation [e, '\n']] [] (.continued (.words w)) e (c :: rest) :=
    .joint w (continuation?_joint (List.forall_mem_nil _) (c :: rest))
  have hresume : Move (.continued (.words w)) e (c :: rest) [] [] (.argument (.words w)) e
      (c :: rest) := by
    refine .resume _ e ?_
    rw [List.dropWhile_cons_of_neg (by simp [not_isBlank_of_isSolid hc])]
    rintro d ⟨⟩
    exact ne_of_isSolid hc
  have hback := Steps.of_move he hresume (List.nil_append (c :: rest)).symm (p.after [e, '\n'])
  exact (Steps.of_move he hjoint rfl p).trans hback

theorem after_joint (p : Position) : p.after [e, '\n'] = ⟨p.line + 1, 1⟩ := by
  rw [Position.after_cons, Position.next, if_neg (ne_newline_of_isEscape he)]
  rfl

theorem feedsOfPairs_joint (u v : List Char) :
    feedsOfPairs (u ++ [e, '\n'] ++ v) =
      feedsOfPairs u ++ [e, '\n'] ++ feedsOfPairs v := by
  have hjoint : feedsOfPairs [e, '\n'] = [e, '\n'] := by
    rcases he with rfl | rfl <;> decide
  have hhead : [e, '\n'].head? ≠ some '\n' := by simpa using ne_newline_of_isEscape he
  rw [feedsOfPairs_append (.inl (by simp)), feedsOfPairs_append (.inr hhead), hjoint]

end

theorem head?_feedsOfPairs (hc : c ≠ '\n') (h : (feedsOfPairs cs).head? = some c) :
    cs.head? = some c := by
  cases cs with
  | nil => cases h
  | cons d cs =>
    rw [feedsOfPairs] at h
    split at h
    · rename_i hpair
      rw [Bool.and_eq_true, beq_iff_eq] at hpair
      obtain ⟨cs, rfl⟩ := List.head?_eq_some_iff.1 hpair.2
      exact (hc (Option.some.inj h).symm).elim
    · exact h

/-- A place of a text is behind the first of two parts only where these meet. -/
theorem eq_of_after_eq {u v passed rest : List Char}
    (h : feedsOfPairs (u ++ v) = passed ++ rest)
    (hplace : Position.start.after passed = Position.start.after (feedsOfPairs u)) :
    passed = feedsOfPairs u ∧ rest = feedsOfPairs v := by
  by_cases hpair : u.getLast? = some '\r' ∧ v.head? = some '\n'
  · -- A pair of characters that makes one line end is not cut in two.
    obtain ⟨hlast, hfirst⟩ := hpair
    obtain ⟨u, rfl⟩ := List.getLast?_eq_some_iff.1 hlast
    obtain ⟨v, rfl⟩ := List.head?_eq_some_iff.1 hfirst
    have hu : feedsOfPairs (u ++ ['\r']) = feedsOfPairs u ++ ['\r'] :=
      feedsOfPairs_append (.inr (by simp))
    have huv : feedsOfPairs (u ++ ['\r'] ++ '\n' :: v) =
        feedsOfPairs u ++ '\n' :: feedsOfPairs v := by
      rw [List.append_assoc, feedsOfPairs_append (.inr (by simp))]
      simp [feedsOfPairs]
    rw [huv] at h
    rw [hu] at hplace
    rcases List.append_eq_append_iff.1 h with ⟨middle, rfl, hmiddle⟩ | ⟨middle, hfront, -⟩
    · cases middle with
      | nil =>
        rw [List.append_nil, Position.after_append] at hplace
        cases eq_nil_of_after_eq hplace.symm
      | cons c middle =>
        obtain ⟨rfl, -⟩ := List.cons_eq_cons.1 hmiddle
        have hline := congrArg Position.line hplace
        rw [line_after, line_after, List.count_append, List.count_append,
          List.count_cons_self] at hline
        simp at hline
    · rw [hfront, List.append_assoc, Position.after_append] at hplace
      have hnil := eq_nil_of_after_eq hplace.symm
      simp at hnil
  · rw [not_and_or] at hpair
    rw [feedsOfPairs_append hpair] at h
    rcases List.append_eq_append_iff.1 h with ⟨middle, rfl, hrest⟩ | ⟨middle, hu, hrest⟩
    · rw [Position.after_append] at hplace
      obtain rfl := eq_nil_of_after_eq hplace
      exact ⟨List.append_nil _, hrest.symm⟩
    · rw [hu, Position.after_append] at hplace
      obtain rfl := eq_nil_of_after_eq hplace.symm
      exact ⟨by rw [hu, List.append_nil], hrest⟩

/-- Up to white space before a piece of a word, a text is read in the same steps whether its line is
broken there or not. -/
theorem exists_steps_break {u v : String}
    (htokens : (Token.scan (u ++ v)).tokens = front ++ x :: back) (hx : x.kind = .whitespace)
    (hnext : ∀ y ∈ back.head?, y.kind = .string ∨ y.kind = .reference)
    (hhash : v.toList.head? ≠ some '#')
    (hplace : x.position.after x.text.toList = Position.start.after (feedsOfPairs u.toList))
    (he : IsEscape (Document.escapeOf (u ++ v))) : ∃ tokens w q c rest,
      q = Position.start.after (feedsOfPairs u.toList) ∧ isSolid c ∧
      feedsOfPairs v.toList = c :: rest ∧
      (∀ y ∈ tokens, ∃ behind, behind ≠ [] ∧ q = y.position.after behind) ∧
      Steps (.start (feedsOfPairs (u ++ v).toList)) tokens
        ⟨.argument (.words w), Document.escapeOf (u ++ v), q, c :: rest⟩ ∧
      Steps (.start (feedsOfPairs u.toList ++
          ([Document.escapeOf (u ++ v), '\n'] ++ feedsOfPairs v.toList))) tokens
        ⟨.argument (.words w), Document.escapeOf (u ++ v), q,
          Document.escapeOf (u ++ v) :: '\n' :: c :: rest⟩ := by
  obtain ⟨w, p, blanks, rest, hsteps, hne, hblanks, hstops, rfl, rfl⟩ :=
    exists_steps_whitespace htokens hx hnext
  generalize Document.escapeOf (u ++ v) = e at *
  obtain ⟨passed, hpassed, hp, hbefore⟩ := hsteps.positions (.inl rfl)
  change feedsOfPairs (u ++ v).toList = passed ++ (blanks ++ rest) at hpassed
  change p = Position.start.after passed at hp
  have hborder : Position.start.after (passed ++ blanks) =
      Position.start.after (feedsOfPairs u.toList) := by
    rw [← hplace, Position.after_append, String.toList_ofList, hp]
  obtain ⟨hu, hv⟩ : passed ++ blanks = feedsOfPairs u.toList ∧
      rest = feedsOfPairs v.toList := by
    rw [String.toList_append, ← List.append_assoc] at hpassed
    exact eq_of_after_eq hpassed hborder
  have hhash' : rest.head? ≠ some '#' := by
    rw [hv]
    exact fun h => hhash (head?_feedsOfPairs (by decide) h)
  obtain ⟨c, rest, rfl, hc⟩ := isSolid_of_next he hstops hhash' hnext
  obtain ⟨passed', hpassed', -, hsame⟩ :=
    hsteps.agree (.inl rfl) (agree_blanks he hne hblanks hc rest ('\n' :: c :: rest))
  obtain rfl : passed = passed' := List.append_cancel_right (hpassed.symm.trans hpassed')
  have hstops' : Stops isBlank (e :: '\n' :: c :: rest) := by
    rintro d ⟨⟩
    exact not_isBlank_of_isEscape he
  refine ⟨_, w.finish, p.after blanks, c, rest, ?_, hc, hv.symm, ?_,
    hsteps.trans (steps_blanks he w p hne hblanks hstops), ?_⟩
  · rw [← hborder, Position.after_append, hp]
  · intro y hy
    rcases List.mem_append.1 hy with hy | hy
    · obtain ⟨front, behind, rfl, hy, -⟩ := hbefore y hy
      refine ⟨behind ++ blanks, by simp [hne], ?_⟩
      rw [hp, hy, ← Position.after_append, ← Position.after_append, List.append_assoc]
      rfl
    · rw [List.mem_singleton.1 hy]
      exact ⟨blanks, hne, rfl⟩
  · rw [← hu, ← hv, List.append_assoc]
    exact hsame.trans (steps_blanks he w p hne hblanks hstops')

end Lexer

namespace Document

open Lexer

/-- A line that is broken behind white space, before a piece of a word, and continued on the next
line is read like one that is not. -/
theorem parse_continued {u v : String} {front back : List Token} {x : Token}
    (htokens : (Token.scan (u ++ v)).tokens = front ++ x :: back) (hx : x.kind = .whitespace)
    (hnext : ∀ y ∈ back.head?, y.kind = .string ∨ y.kind = .reference)
    (hhash : v.toList.head? ≠ some '#')
    (hplace : x.position.after x.text.toList = Position.start.after (Text.feedsOfPairs u.toList)) :
    parse (u ++ String.ofList [escapeOf (u ++ v), '\n'] ++ v) =
      mapBoth
        (SourceFault.relocate (Position.start.after (Text.feedsOfPairs u.toList)).brokenAt)
        (Document.relocate (Position.start.after (Text.feedsOfPairs u.toList)).brokenAt)
        (parse (u ++ v)) := by
  have he : IsEscape (escapeOf (u ++ v)) :=
    isEscape_escapeOf (Entry.directives (Entry.ofScan (Token.scan (u ++ v))))
  obtain ⟨tokens, w, q, c, rest, hq, hc, hv, hbefore, hold, hnew⟩ :=
    exists_steps_break htokens hx hnext hhash hplace he
  rw [← hq]
  generalize escapeOf (u ++ v) = e at *
  have hscan : Token.scan (u ++ String.ofList [e, '\n'] ++ v) =
      scanFrom (.start (feedsOfPairs u.toList ++
        ([e, '\n'] ++ feedsOfPairs v.toList))) := by
    rw [Token.scan, String.toList_append, String.toList_append, String.toList_ofList,
      feedsOfPairs_joint he, List.append_assoc]
  have hmoved := scanFrom_relocate (s := ⟨.argument (.words w), e, q, c :: rest⟩) he
    (relocates_brokenAt q)
  rw [← after_joint he] at hmoved
  obtain ⟨entries, draft, hfeeds, hfits, -⟩ :=
    hold.exists_feeds (.inl rfl) (fits_start _)
  obtain ⟨d, rfl⟩ := hfits.inside rfl
  have hextra : Entry.Feeds (some d) [⟨.continuation, String.ofList [e, '\n'], q⟩] [] (some d) :=
    fun _ _ => rfl
  refine parse_insert (scanFrom_of_steps hold) ?_ ?_ hfeeds hextra (List.forall_mem_nil _)
    (.inl rfl)
  · rw [hscan, scanFrom_of_steps (hnew.trans (steps_joint he w q hc rest)), ← hmoved,
      List.append_assoc]
  · intro y hy
    obtain ⟨behind, hne, rfl⟩ := hbefore y hy
    exact brokenAt_of_before y.position hne

/-- An instruction that is broken before a variable. -/
theorem parse_continued_reference : ∃ d, parse ("FROM a\nRUN x " ++ "$y\n") = .ok d ∧
    parse "FROM a\nRUN x \\\n$y\n" = .ok (d.relocate (Position.brokenAt ⟨2, 7⟩)) := by
  have htokens : (Token.scan ("FROM a\nRUN x " ++ "$y\n")).tokens =
      [⟨.instruction, "FROM", ⟨1, 1⟩⟩, ⟨.whitespace, " ", ⟨1, 5⟩⟩, ⟨.string, "a", ⟨1, 6⟩⟩,
        ⟨.newline, "\n", ⟨1, 7⟩⟩, ⟨.instruction, "RUN", ⟨2, 1⟩⟩, ⟨.whitespace, " ", ⟨2, 4⟩⟩,
        ⟨.string, "x", ⟨2, 5⟩⟩] ++
      ⟨.whitespace, " ", ⟨2, 6⟩⟩ ::
      [⟨.reference, "$y", ⟨2, 7⟩⟩, ⟨.newline, "\n", ⟨2, 9⟩⟩, ⟨.eof, "", ⟨3, 1⟩⟩] := by
    decide +kernel
  have hbroken := parse_continued htokens rfl (by simp) (by decide +kernel) (by decide +kernel)
  have htext : "FROM a\nRUN x " ++ String.ofList [escapeOf ("FROM a\nRUN x " ++ "$y\n"), '\n'] ++
      "$y\n" = "FROM a\nRUN x \\\n$y\n" := by
    decide +kernel
  have hplace : Position.start.after (feedsOfPairs "FROM a\nRUN x ".toList) = ⟨2, 7⟩ := by
    decide +kernel
  rw [htext, hplace] at hbroken
  have hsome : (parse ("FROM a\nRUN x " ++ "$y\n")).toOption.isSome := by decide +kernel
  cases hd : parse ("FROM a\nRUN x " ++ "$y\n") with
  | error fault =>
    rw [hd] at hsome
    cases hsome
  | ok d =>
    rw [hd] at hbroken
    exact ⟨d, rfl, hbroken⟩

end Document

end Dockerfile
