import Dockerfile.Proofs.Lexing.Entries
import Dockerfile.Proofs.Relocation
import Mathlib.Data.List.Basic

/-!
# Borders between lines

What the lexer makes of a text does not depend on all that follows it. Texts that agree are read in
the same steps up to where they differ (`Steps.agree`), and lines that are read without a fault are
read in the same steps whatever follows them (`exists_steps_lines`). Nor does it depend on where the
text stands (`scanFrom_relocate`).
-/

namespace Dockerfile

open Template (IsEscape)

namespace Lexer

variable {m m' : Mode} {e e' : Char} {cs skip rest rest' : List Char} {pieces : List Piece}

/-! ### Texts that agree -/

variable {p p' : Position} {s t : State} {cs : List Char} {fault : Fault} {tokens : List Token}
  {f : Position → Position}

theorem startsLiteral_agree (he : IsEscape e) {cs' : List Char} (h : Agree cs cs')
    (w : Words) : startsLiteral e w cs = startsLiteral e w cs' := by
  have hcontinues := h.continues_eq he
  obtain ⟨c, t, t', rfl, rfl⟩ := h.head
  rw [startsLiteral, startsLiteral, hcontinues]
  rcases h.tail with rfl | hblank | htail
  · rfl
  · simp [hblank]
  · rw [htail.startsVariable_eq]

/-- A move is the same before a text that agrees. -/
theorem Move.agree (he : IsEscape e) (h : Move m e cs pieces skip m' e' rest)
    (hagree : Agree rest rest') :
    Move m e (covered pieces ++ skip ++ rest') pieces skip m' e' rest' := by
  have hne : rest ≠ [] := by
    obtain ⟨c, t, t', rfl, -⟩ := hagree.head
    exact List.cons_ne_nil c t
  cases h with
  | indent hblanks hall hstops =>
    simpa [Piece.plain] using Move.indent hblanks hall (hagree.stops hstops)
  | lineEnd window => simpa [Piece.plain] using Move.lineEnd window e rest'
  | comment window _ htext => simpa [Piece.plain] using Move.comment window e htext rest'
  | lastComment => exact (hne rfl).elim
  | @keyword window _ span _ hhead hcut =>
    rw [(hagree.prepend span).head?_eq] at hhead
    simpa [Piece.plain] using Move.keyword window hhead (keyword_agree he hcut hagree)
  | lineDone w => simpa [Piece.plain] using Move.lineDone w e rest'
  | joint w hcut => simpa [Piece.plain] using Move.joint w (continuation?_replace hcut hne rest')
  | blanks w hblanks hall hstops =>
    simpa [Piece.plain] using Move.blanks w hblanks hall (hagree.stops hstops)
  | @quoted w _ quote span _ hquote hwhole hcut =>
    obtain ⟨-, -, hsame⟩ := quoted?_eq_some he hcut
    rw [((hagree.prepend span).cons quote).continues_eq he] at hwhole
    simpa using Move.quoted w hquote hwhole (hsame rest' hagree)
  | @reference w _ span _ hstart hcut =>
    rw [(hagree.prepend span).startsVariable_eq] at hstart
    simpa [Piece.plain] using Move.reference w hstart (reference?_agree hcut hagree)
  | @literal w _ span _ hstart hcut =>
    rw [startsLiteral_agree he (hagree.prepend span)] at hstart
    simpa [Piece.plain] using Move.literal w hstart (literal_agree he hcut hagree)
  | @array a w _ depth depth' lead span _ ha hcut hend =>
    obtain ⟨-, -, hsame⟩ := segment_eq_ok he hcut
    rw [hagree.continues_eq he] at hend
    simpa using Move.array ha (hsame rest' hagree) hend
  | @arrayJoint a w _ depth depth' lead span joint _ ha hcut hdepth hjoint =>
    obtain ⟨-, -, hsame⟩ := segment_eq_ok he hcut
    simpa [Piece.plain] using Move.arrayJoint ha (hsame _ (hagree.prepend joint)) hdepth
      (continuation?_replace hjoint hne rest')
  | resume a _ hcs =>
    refine Move.resume a e ?_
    obtain ⟨c, c', t, t', hc, hc', hsame⟩ := hagree.behind_blanks
    rw [hc] at hcs
    rw [covered_nil, List.nil_append, List.nil_append, hc']
    rintro d ⟨⟩
    rcases hsame with rfl | ⟨-, hsolid⟩
    · exact hcs c rfl
    · exact ne_of_isSolid hsolid
  | blankLine a _ hblanks => simpa using Move.blankLine a e hblanks rest'
  | commentLine a _ hblanks htext => simpa using Move.commentLine a e hblanks htext rest'
  | lastCommentLine => exact (hne rfl).elim

/-- Steps are the same before a text that agrees. -/
theorem Steps.agree (h : Steps s tokens t) (he : IsEscape s.escape)
    (hagree : Agree t.rest rest') : ∃ passed,
      s.rest = passed ++ t.rest ∧ t.position = s.position.after passed ∧
      Steps { s with rest := passed ++ rest' } tokens { t with rest := rest' } := by
  induction h with
  | refl s => exact ⟨[], rfl, rfl, .refl _⟩
  | @cons s t u tokens more hstep _ ih =>
    obtain ⟨pieces, skip, hmove, rfl, hposition⟩ := move_of_step he hstep
    obtain ⟨passed, hrest, hend, hmore⟩ := ih (hmove.isEscape he) hagree
    have hagree' : Agree t.rest (passed ++ rest') := by
      rw [hrest]
      exact hagree.prepend passed
    have hstep' := step_of_move he (hmove.agree he hagree') s.position
    rw [← hposition] at hstep'
    refine ⟨covered pieces ++ skip ++ passed, ?_, ?_, ?_⟩
    · rw [hmove.covered_eq, hrest, List.append_assoc, List.append_assoc, List.append_assoc]
    · rw [hend, hposition, ← Position.after_append]
    · rw [List.append_assoc (covered pieces ++ skip)]
      exact .cons hstep' hmore

/-! ### Lines that are complete -/

/-- Is the machine at the start of a line, be it a new one or one that is continued? -/
def Mode.isBorder : Mode → Bool
  | .line _ => true
  | .argument _ => false
  | .continued _ => true

theorem getLast?_ne_newline {span : List Char} (h : '\n' ∉ span) : span.getLast? ≠ some '\n' :=
  fun hlast => h (List.mem_of_getLast? hlast)

theorem newline_notMem_of_blanks {blanks : List Char} (h : ∀ b ∈ blanks, isBlank b) :
    '\n' ∉ blanks :=
  fun hmem => absurd (h _ hmem) (by decide)

/-- What joins lines at the end of a text that ends with a line end goes up to it. -/
theorem continuation?_complete (he : IsEscape e) {span : List Char}
    (h : continuation? e (span ++ []) = some (span, [])) (hlast : span.getLast? = some '\n')
    (more : List Char) :
    continuation? e (span ++ more) = some (span, more) ∧ Agree (span ++ []) (span ++ more) := by
  obtain ⟨-, blanks, hblanks, rfl | ⟨rfl, -⟩⟩ := continuation?_eq_some h
  · rw [List.append_assoc, List.append_assoc]
    refine ⟨continuation?_joint hblanks more, ?_⟩
    exact Agree.prepend (.line [] more) (e :: blanks)
  · refine absurd hlast (getLast?_ne_newline ?_)
    rw [List.mem_cons, not_or]
    exact ⟨(ne_newline_of_isEscape he).symm, newline_notMem_of_blanks hblanks⟩

/-- A move that takes the last line end of a text takes no more if the text goes on, and it goes to
the start of a line. -/
theorem Move.complete (he : IsEscape e) (h : Move m e cs pieces skip m' e' [])
    (hlast : cs.getLast? = some '\n') :
    m'.isBorder ∧ ∀ more, Move m e (cs ++ more) pieces skip m' e' more := by
  have hno {span : List Char} {P : Prop} (hspan : '\n' ∉ span)
      (h : span.getLast? = some '\n') : P :=
    absurd h (getLast?_ne_newline hspan)
  cases h with
  | indent _ hblanks =>
    rw [List.append_nil] at hlast
    exact hno (newline_notMem_of_blanks hblanks) hlast
  | lineEnd window => exact ⟨rfl, fun more => .lineEnd window e more⟩
  | comment window _ htext =>
    refine ⟨rfl, fun more => ?_⟩
    simpa using Move.comment window e htext more
  | lastComment _ _ htext => exact hno (by simpa using htext) hlast
  | @keyword _ _ span _ _ hcut =>
    have hspan := keyword_newline_notMem e (span ++ [])
    rw [hcut] at hspan
    rw [List.append_nil] at hlast
    exact hno hspan hlast
  | lineDone w => exact ⟨rfl, fun more => .lineDone w e more⟩
  | joint w hcut =>
    rw [List.append_nil] at hlast
    refine ⟨rfl, fun more => ?_⟩
    rw [List.append_nil]
    exact .joint w (continuation?_complete he hcut hlast more).1
  | blanks w _ hblanks =>
    rw [List.append_nil] at hlast
    exact hno (newline_notMem_of_blanks hblanks) hlast
  | @quoted _ _ quote span _ hquote _ hcut =>
    -- A quoted text ends with its quote.
    obtain ⟨-, hend, -⟩ := quoted?_eq_some he hcut
    rw [List.append_nil, getLast?_cons_of_some hend, Option.some.injEq] at hlast
    rw [hlast] at hquote
    cases hquote
  | reference w _ hcut =>
    obtain ⟨-, hspan⟩ := reference?_eq_some hcut
    rw [List.append_nil] at hlast
    exact hno (by simpa using hspan) hlast
  | @literal _ _ span _ _ hcut =>
    have hspan := literal_newline_notMem he (span ++ [])
    rw [hcut] at hspan
    rw [List.append_nil] at hlast
    exact hno hspan hlast
  | @array _ _ _ _ _ lead span _ ha hcut =>
    obtain ⟨-, hspan, -⟩ := segment_eq_ok he hcut
    rw [List.append_nil] at hlast
    refine absurd hlast (getLast?_append_ne ?_ hspan)
    cases ha <;> simp
  | @arrayJoint a w _ depth depth' lead span joint _ ha hcut hdepth hjoint =>
    obtain ⟨-, blanks, hblanks, hspan⟩ := continuation?_eq_some hjoint
    have hne : joint ≠ [] := by
      rcases hspan with rfl | ⟨rfl, -⟩ <;> simp
    have hend : joint.getLast? = some '\n' := by
      rwa [List.append_nil, List.getLast?_append_of_ne_nil _ hne] at hlast
    obtain ⟨-, -, hsame⟩ := segment_eq_ok he hcut
    refine ⟨rfl, fun more => ?_⟩
    obtain ⟨hmore, hagree⟩ := continuation?_complete he hjoint hend more
    simpa using Move.arrayJoint ha (hsame _ hagree) hdepth hmore
  | resume => cases hlast
  | blankLine a _ hblanks =>
    refine ⟨rfl, fun more => ?_⟩
    simpa using Move.blankLine a e hblanks more
  | commentLine a _ hblanks htext =>
    refine ⟨rfl, fun more => ?_⟩
    simpa using Move.commentLine a e hblanks htext more
  | lastCommentLine a _ hblanks htext =>
    refine hno ?_ hlast
    rw [List.mem_append, not_or]
    exact ⟨newline_notMem_of_blanks hblanks, by simpa using htext⟩

/-- At the end of a text there is only the end. -/
theorem scanFrom_nil (he : IsEscape s.escape) (h : s.rest = []) :
    scanFrom s = ⟨[⟨.eof, "", s.position⟩], none⟩ := by
  obtain ⟨mode, e, p, cs⟩ := s
  obtain rfl : cs = [] := h
  have hargument (a : Argument) : scanFrom ⟨.argument a, e, p, []⟩ = ⟨[⟨.eof, "", p⟩], none⟩ := by
    cases a with
    | words w => exact scanFrom_of_finished rfl
    | array depth w =>
      have hcut : segment e depth ([] ++ []) = .ok ⟨[], depth, []⟩ := by
        rw [List.append_nil, segment.eq_def]
      have hmove : Move (.argument (.array depth w)) e [] [] []
          (.argument (.words (w.extend (dropBreaks e [])))) e [] :=
        .array (.later depth w) hcut (.inr rfl)
      rw [scanFrom_of_step (step_of_move he hmove p), scanFrom_of_finished rfl]
      rfl
  cases mode with
  | line window => exact scanFrom_of_finished rfl
  | argument a => exact hargument a
  | continued a =>
    have hmove : Move (.continued a) e [] [] [] (.argument a) e [] := .resume a e (by simp)
    rw [scanFrom_of_step (step_of_move he hmove p)]
    exact congrArg (fun scan : Scan => Scan.mk ([] ++ scan.tokens) scan.fault) (hargument a)

theorem agree_of_getLast? {lines : List Char} (h : lines.getLast? = some '\n') (more : List Char) :
    Agree lines (lines ++ more) := by
  obtain ⟨front, rfl⟩ := List.getLast?_eq_some_iff.1 h
  rw [List.append_assoc]
  exact Agree.prepend (.line [] more) front

/-- Lines that are read without a fault are read in the same steps whatever follows them, up to the
start of a line. -/
theorem exists_steps_lines (s : State) (he : IsEscape s.escape)
    (hfault : (scanFrom s).fault = none) (hlast : s.rest.getLast? = some '\n') : ∃ tokens t,
      Steps s tokens t ∧ t.rest = [] ∧ t.mode.isBorder ∧
      ∀ more, Steps { s with rest := s.rest ++ more } tokens { t with rest := more } := by
  fun_induction scanFrom s with
  | case1 s token h =>
    rw [(step_finished h).1] at hlast
    cases hlast
  | case2 s fault h => cases hfault
  | case3 s tokens t h _ scan ih =>
    obtain ⟨pieces, skip, hmove, rfl, hposition⟩ := move_of_step he h
    have hrest := hmove.covered_eq
    -- Only the move that takes the last line end could have gone on; before it the rests agree.
    by_cases hnil : t.rest = []
    · rw [hnil] at hmove
      obtain ⟨hborder, hcomplete⟩ := hmove.complete he hlast
      refine ⟨_, t, .single h, hnil, hborder, fun more => .single ?_⟩
      rw [step_of_move he (hcomplete more) s.position, ← hposition]
    · rw [hrest, List.getLast?_append_of_ne_nil _ hnil] at hlast
      obtain ⟨others, u, hmore, hu, hborder, hsame⟩ := ih (hmove.isEscape he) hfault hlast
      refine ⟨_, u, .cons h hmore, hu, hborder, fun more => ?_⟩
      have hstep := step_of_move he (hmove.agree he (agree_of_getLast? hlast more)) s.position
      rw [← hposition, ← List.append_assoc, ← hrest] at hstep
      exact .cons hstep (hsame more)

/-! ### Places -/

theorem line_after (p : Position) (cs : List Char) :
    (p.after cs).line = p.line + cs.count '\n' := by
  induction cs generalizing p with
  | nil => rfl
  | cons c cs ih =>
    rw [Position.after_cons, ih, Position.next]
    by_cases hc : c = '\n'
    · rw [if_pos hc, hc, List.count_cons_self]
      dsimp only
      omega
    · rw [if_neg hc, List.count_cons_of_ne hc]

theorem after_of_notMem (p : Position) (h : '\n' ∉ cs) :
    p.after cs = ⟨p.line, p.column + cs.length⟩ := by
  induction cs generalizing p with
  | nil => rfl
  | cons c cs ih =>
    rw [List.mem_cons, not_or] at h
    rw [Position.after_cons, ih _ h.2, Position.next, if_neg (Ne.symm h.1), List.length_cons,
      Nat.add_assoc, Nat.add_comm 1]

/-- Two places of a text are different. -/
theorem eq_nil_of_after_eq (h : p.after cs = p) : cs = [] := by
  by_cases hline : '\n' ∈ cs
  · have hcount := line_after p cs
    have hpos := List.count_pos_iff.2 hline
    rw [h] at hcount
    omega
  · rw [after_of_notMem p hline] at h
    have hcolumn := congrArg Position.column h
    dsimp only at hcolumn
    exact List.length_eq_zero_iff.1 (by omega)

/-- A text that stands some lines below ends as many lines below. -/
theorem after_below (p : Position) (k : Nat) (cs : List Char) :
    (Position.mk (p.line + k) p.column).after cs =
      ⟨(p.after cs).line + k, (p.after cs).column⟩ := by
  induction cs generalizing p with
  | nil => rfl
  | cons c cs ih =>
    have hnext : (Position.mk (p.line + k) p.column).next c =
        ⟨(p.next c).line + k, (p.next c).column⟩ := by
      unfold Position.next
      split
      · rw [Nat.add_right_comm]
      · rfl
    rw [Position.after_cons, Position.after_cons, hnext, ih]

theorem exists_of_mem_placed {x : Token} (h : x ∈ placed p pieces) :
    ∃ front y back, pieces = front ++ y :: back ∧ x = y.token (p.after (covered front)) := by
  induction pieces generalizing p with
  | nil => cases h
  | cons y pieces ih =>
    rcases List.mem_cons.1 h with rfl | h
    · exact ⟨[], y, pieces, rfl, rfl⟩
    · obtain ⟨front, z, back, rfl, rfl⟩ := ih h
      refine ⟨y :: front, z, back, rfl, ?_⟩
      rw [← Position.after_append]
      rfl

/-- Only behind a piece of no text there must be more text. -/
theorem Move.rest_ne_nil (h : Move m e cs pieces skip m' e' rest) {x : Piece} (hx : x ∈ pieces)
    (hspan : x.span = []) : rest ≠ [] := by
  have harray {span : List Char} (hx : x ∈ arrayPieces e span) : rest ≠ [] := by
    obtain ⟨rfl, hne⟩ := mem_arrayPieces.1 hx
    exact (hne hspan).elim
  have hjoint {joint : List Char} (hcut : continuation? e (joint ++ rest) = some (joint, rest))
      (hjoint : joint = []) : rest ≠ [] := by
    rintro rfl
    rw [hjoint] at hcut
    cases hcut
  cases h with
  | indent hne =>
    rw [List.mem_singleton.1 hx] at hspan
    exact (hne hspan).elim
  | @keyword _ _ span _ hhead =>
    rw [List.mem_singleton.1 hx] at hspan
    obtain rfl : span = [] := hspan
    rintro rfl
    cases hhead
  | joint w hcut =>
    rw [List.mem_singleton.1 hx] at hspan
    exact hjoint hcut hspan
  | blanks w hne =>
    rw [List.mem_singleton.1 hx] at hspan
    exact (hne hspan).elim
  | @literal _ _ span _ hstart =>
    rw [List.mem_singleton.1 hx] at hspan
    obtain rfl : span = [] := hspan
    rintro rfl
    cases hstart
  | array => exact harray hx
  | arrayJoint ha hsegment hdepth hcut =>
    rcases List.mem_append.1 hx with hx | hx
    · exact harray hx
    · rw [List.mem_singleton.1 hx] at hspan
      exact hjoint hcut hspan
  | comment =>
    rcases List.mem_cons.1 hx with rfl | hx
    · cases hspan
    · rw [List.mem_singleton.1 hx] at hspan
      cases hspan
  | resume | blankLine => cases hx
  | _ =>
    rw [List.mem_singleton.1 hx] at hspan
    cases hspan

/-- A token stands at a place of the text that is passed, and where nothing is left of the text, it
stands before the end. -/
theorem Steps.positions (h : Steps s tokens t) (he : IsEscape s.escape) :
    ∃ passed, s.rest = passed ++ t.rest ∧
      t.position = s.position.after passed ∧ ∀ x ∈ tokens, ∃ before behind,
        passed = before ++ behind ∧ x.position = s.position.after before ∧
        (behind = [] → t.rest ≠ []) := by
  induction h with
  | refl s => exact ⟨[], rfl, rfl, by simp⟩
  | @cons s t u tokens more hstep _ ih =>
    obtain ⟨pieces, skip, hmove, rfl, hposition⟩ := move_of_step he hstep
    obtain ⟨passed, hrest, hend, hmore⟩ := ih (hmove.isEscape he)
    refine ⟨covered pieces ++ skip ++ passed, ?_, ?_, fun x hx => ?_⟩
    · rw [hmove.covered_eq, hrest, List.append_assoc (covered pieces ++ skip)]
    · rw [hend, hposition, ← Position.after_append]
    · rcases List.mem_append.1 hx with hx | hx
      · obtain ⟨front, y, back, rfl, rfl⟩ := exists_of_mem_placed hx
        refine ⟨covered front ++ y.gap, y.span ++ covered back ++ skip ++ passed, by simp, ?_, ?_⟩
        · rw [Position.after_append]
          rfl
        · -- Only the tokens of a move that leaves something to read can be empty.
          intro hnil
          simp only [List.append_eq_nil_iff] at hnil
          have hne := hmove.rest_ne_nil (by simp) hnil.1.1.1
          rwa [hrest, hnil.2, List.nil_append] at hne
      · obtain ⟨before, behind, rfl, hx, hne⟩ := hmore x hx
        refine ⟨covered pieces ++ skip ++ before, behind, by simp, ?_, hne⟩
        rw [hx, hposition, ← Position.after_append]

/-! ### Where directives count -/

theorem window_of_directiveIn {window : Bool} {text : List Char}
    (h : Mode.line (directiveIn window text).isSome = .line true) : window = true := by
  cases window with
  | true => rfl
  | false => cases h

/-- Directives count only where they counted before, and no keyword was read. -/
theorem Move.of_window (h : Move m e cs pieces skip m' e' rest) (hm : m' = .line true) :
    m = .line true ∧ ∀ x ∈ pieces, x.kind ≠ .instruction := by
  cases h with
  | indent =>
    cases hm
    exact ⟨rfl, by simp [Piece.plain]⟩
  | comment | lastComment =>
    obtain rfl := window_of_directiveIn hm
    exact ⟨rfl, by simp [Piece.plain]⟩
  | _ => cases hm

theorem Steps.not_hasKeyword (h : Steps s tokens t) (he : IsEscape s.escape)
    (hmode : t.mode = .line true) : s.mode = .line true ∧ ¬ HasKeyword tokens := by
  induction h with
  | refl s => exact ⟨hmode, by simp [HasKeyword]⟩
  | @cons s t u tokens more hstep _ ih =>
    obtain ⟨pieces, skip, hmove, rfl, -⟩ := move_of_step he hstep
    obtain ⟨ht, hmore⟩ := ih (hmove.isEscape he) hmode
    obtain ⟨hs, hpieces⟩ := hmove.of_window ht
    refine ⟨hs, ?_⟩
    rintro ⟨x, hx, hkind⟩
    rcases List.mem_append.1 hx with hx | hx
    · obtain ⟨front, y, back, rfl, rfl⟩ := exists_of_mem_placed hx
      exact hpieces y (by simp) hkind
    · exact hmore ⟨x, hx, hkind⟩

/-! ### Line ends -/

theorem feedsOfPairs_append {a b : List Char}
    (h : a.getLast? ≠ some '\r' ∨ b.head? ≠ some '\n') :
    Text.feedsOfPairs (a ++ b) = Text.feedsOfPairs a ++ Text.feedsOfPairs b := by
  induction a with
  | nil => rfl
  | cons c a ih =>
    cases a with
    | nil =>
      have hlone : ¬ (c = '\r' && b.head? == some '\n') := by
        rw [Bool.and_eq_true, decide_eq_true_eq, beq_iff_eq]
        rintro ⟨rfl, hhead⟩
        exact h.elim (fun hlast => hlast rfl) fun hfirst => hfirst hhead
      rw [List.cons_append, List.nil_append, Text.feedsOfPairs, if_neg hlone]
      simp [Text.feedsOfPairs]
    | cons d a =>
      rw [List.getLast?_cons_cons] at h
      rw [List.cons_append, Text.feedsOfPairs, Text.feedsOfPairs, ih h,
        show (d :: a ++ b).head? = (d :: a).head? from rfl]
      split <;> rfl

theorem feedsOfPairs_of_notMem (h : '\n' ∉ cs) : Text.feedsOfPairs cs = cs := by
  induction cs with
  | nil => rfl
  | cons c cs ih =>
    rw [List.mem_cons, not_or] at h
    have hlone : ¬ (c = '\r' && cs.head? == some '\n') := by
      rw [Bool.and_eq_true, beq_iff_eq]
      rintro ⟨-, hhead⟩
      exact h.2 (List.mem_of_mem_head? hhead)
    rw [Text.feedsOfPairs, if_neg hlone, ih h.2]

/-! ### The same text elsewhere -/

/-- Every place behind a place has one behind another place. -/
def Relocates (f : Position → Position) (p p' : Position) : Prop := ∀ u, f (p.after u) = p'.after u

theorem Relocates.after (h : Relocates f p p') (span : List Char) :
    Relocates f (p.after span) (p'.after span) := by
  intro u
  rw [← Position.after_append, h, Position.after_append]

theorem placed_relocate (h : Relocates f p p') (pieces : List Piece) :
    (placed p pieces).map (Token.relocate f) = placed p' pieces := by
  induction pieces generalizing p p' with
  | nil => rfl
  | cons x pieces ih =>
    rw [placed, placed, List.map_cons, ih (h.after x.whole), Token.relocate]
    refine congrArg (fun q => Token.mk x.kind (String.ofList x.text) q :: _) (h x.gap)

theorem arrayStep_stopped {w : Words} {depth : Nat} {lead rest : List Char}
    (h : arrayStep ⟨m, e, p, rest⟩ w depth lead cs = .stopped fault) :
    ∃ before, fault.position = p.after before ∧
      ∀ p', arrayStep ⟨m, e, p', rest⟩ w depth lead cs =
        .stopped ⟨fault.cause, p'.after before⟩ := by
  unfold arrayStep at h ⊢
  dsimp only at h ⊢
  split at h
  · rename_i spanFault hsegment
    cases h
    exact ⟨lead ++ spanFault.before, rfl, fun p' => rfl⟩
  · split at h
    · cases h
    · split at h
      · cases h
      · cases h

theorem wordsStep_stopped {w : Words} {rest : List Char}
    (h : wordsStep ⟨m, e, p, rest⟩ w cs = .stopped fault) :
    ∃ before, fault.position = p.after before ∧
      ∀ p', wordsStep ⟨m, e, p', rest⟩ w cs = .stopped ⟨fault.cause, p'.after before⟩ := by
  cases cs with
  | nil => cases h
  | cons c cs =>
    rcases wordsStep_cons m e rest w c cs with hnext | ⟨-, -, harray⟩ | ⟨cause, -, hstop⟩
    · obtain ⟨_, _, hnext⟩ := hnext p
      cases hnext.symm.trans h
    · obtain ⟨before, hposition, hall⟩ := arrayStep_stopped ((harray p).symm.trans h)
      exact ⟨before, hposition, fun p' => (harray p').trans (hall p')⟩
    · cases (hstop p).symm.trans h
      exact ⟨[], rfl, hstop⟩

theorem lineStep_ne_stopped {window : Bool} : lineStep s window cs ≠ .stopped fault := by
  intro h
  cases cs with
  | nil => cases h
  | cons c cs =>
    obtain ⟨_, _, hnext⟩ := lineStep_cons s window c cs
    cases hnext.symm.trans h

/-- A step stops for the same cause wherever the text stands. -/
theorem step_stopped (h : step ⟨m, e, p, cs⟩ = .stopped fault) :
    ∃ before, fault.position = p.after before ∧
      ∀ p', step ⟨m, e, p', cs⟩ = .stopped ⟨fault.cause, p'.after before⟩ := by
  cases m with
  | line window => exact (lineStep_ne_stopped h).elim
  | argument a =>
    cases a with
    | words w => exact wordsStep_stopped h
    | array depth w => exact arrayStep_stopped h
  | continued a =>
    obtain ⟨_, _, hnext⟩ := continuedStep_next ⟨.continued a, e, p, cs⟩ a
    cases hnext.symm.trans h

/-- The tokens of a text that stands elsewhere are the same elsewhere. -/
theorem scanFrom_relocate {s : State} (he : IsEscape s.escape) {p' : Position}
    (h : Relocates f s.position p') :
    scanFrom { s with position := p' } = (scanFrom s).relocate f := by
  fun_induction scanFrom s generalizing p' with
  | case1 s token hstep =>
    obtain ⟨hrest, rfl⟩ := step_finished hstep
    have hnil : scanFrom { s with position := p' } = ⟨[⟨.eof, "", p'⟩], none⟩ :=
      scanFrom_nil he hrest
    rw [hnil]
    exact congrArg (fun q => Scan.mk [Token.mk .eof "" q] none) (h []).symm
  | case2 s fault hstep =>
    obtain ⟨before, hposition, hstopped⟩ := step_stopped hstep
    rw [scanFrom_of_stopped (hstopped p'), ← h, ← hposition]
    rfl
  | case3 s tokens t hstep _ scan ih =>
    obtain ⟨pieces, skip, hmove, rfl, hposition⟩ := move_of_step he hstep
    have hlater : Relocates f t.position (p'.after (covered pieces ++ skip)) := by
      rw [hposition]
      exact h.after _
    rw [scanFrom_of_step (step_of_move he hmove p'), ← placed_relocate h,
      ih (hmove.isEscape he) hlater, Scan.relocate, Scan.relocate, List.map_append]

end Lexer

/-! ### More tokens in between -/

namespace Document

open Lexer

theorem instructions_insert (escape : Char) (entries more : List Entry) {silent : List Entry}
    (h : ∀ x ∈ silent, x.isSilent) :
    instructions escape (entries ++ (silent ++ more)) =
      instructions escape (entries ++ more) := by
  induction entries with
  | nil =>
    induction silent with
    | nil => rfl
    | cons x silent ih =>
      obtain ⟨hx, hsilent⟩ := List.forall_mem_cons.1 h
      cases x with
      | comment | lineEnd => exact ih hsilent
      | _ => cases hx
  | cons entry entries ih =>
    cases entry with
    | comment | lineEnd => exact ih
    | line l =>
      rw [List.cons_append, List.cons_append, instructions, instructions, ih]
    | stray | broken => rfl

/-- Comments and line ends behind the first line change nothing. -/
theorem ofEntries_insert {entries : List Entry} (more : List Entry) {silent : List Entry}
    (h : ∀ x ∈ silent, x.isSilent) (hline : silent = [] ∨ HasLine entries) :
    ofEntries (entries ++ (silent ++ more)) = ofEntries (entries ++ more) := by
  have hdirectives : Entry.directives (entries ++ (silent ++ more)) =
      Entry.directives (entries ++ more) := by
    rcases hline with rfl | hline
    · rfl
    · rw [Entry.directives, directivesFrom_append (.inl hline), Entry.directives,
        directivesFrom_append (.inl hline)]
  unfold ofEntries
  dsimp only
  rw [hdirectives, instructions_insert _ _ _ h]

/-- A text is read like another one if it has the same tokens, with some in between that make only
comments and line ends, and with those behind them elsewhere. -/
theorem parse_insert {f : Position → Position} {source source' : String} {scan : Scan}
    {tokens extra : List Token} {entries silent : List Entry} {draft : Option LogicalLine.Draft}
    (hold : Token.scan source = ⟨tokens ++ scan.tokens, scan.fault⟩)
    (hnew : Token.scan source' =
      ⟨tokens ++ (extra ++ (scan.relocate f).tokens), (scan.relocate f).fault⟩)
    (hfixed : ∀ x ∈ tokens, f x.position = x.position)
    (hfeeds : Entry.Feeds none tokens entries draft) (hextra : Entry.Feeds draft extra silent draft)
    (hsilent : ∀ x ∈ silent, x.isSilent) (hline : silent = [] ∨ HasLine entries) :
    parse source' = mapBoth (SourceFault.relocate f) (Document.relocate f) (parse source) := by
  have htokens : tokens.map (Token.relocate f) = tokens := by
    refine (List.map_congr_left fun x hx => ?_).trans (List.map_id tokens)
    rw [Token.relocate, hfixed x hx]
    rfl
  have hmoved : (Token.scan source).relocate f =
      ⟨tokens ++ (scan.relocate f).tokens, (scan.relocate f).fault⟩ := by
    rw [hold, Scan.relocate, List.map_append, htokens]
    rfl
  unfold parse
  rw [← ofEntries_relocate, ← Entry.ofScan_relocate, hmoved, hnew, Entry.ofScan,
    Entry.ofScan, hfeeds, hfeeds, hextra]
  exact ofEntries_insert _ hsilent hline

end Document

end Dockerfile
