import Dockerfile.Proofs.Lexing.Agreement

/-!
# Lines that follow

A text that ends at the end of a line can go on with an instruction. What was read of the text is
read again, and the instruction is read with the escape character of the text, at the place where
the text ends (`parse_append`). Keywords and words of letters are cut out of a line as they are
(`steps_keyword`, `steps_word`).
-/

namespace Dockerfile

open Template (IsEscape)
open Text (feedsOfPairs)

namespace Lexer

open Entry

variable {m m' : Mode} {e e' : Char} {cs skip rest : List Char} {pieces : List Piece}

/-! ### Where a line ends -/

/-- Is the last thing before the end of a text the end of a line? -/
def Scan.endsLine (scan : Scan) : Bool := scan.tokens.dropLast.getLast?.all (·.kind = .newline)

/-- A line end is the last that a move takes, and a line starts behind it. -/
theorem Move.of_newline (h : Move m e cs pieces skip m' e' rest) {x : Piece}
    (hx : pieces.getLast? = some x) (hkind : x.kind = .newline) :
    m'.isLine ∧ (covered pieces ++ skip).getLast? = some '\n' := by
  cases h with
  | lineEnd => exact ⟨rfl, rfl⟩
  | @comment _ _ text =>
    refine ⟨rfl, ?_⟩
    rw [covered_cons, covered_cons, covered_nil, List.append_nil, List.append_nil]
    exact List.getLast?_concat
  | lineDone => exact ⟨rfl, rfl⟩
  | array =>
    unfold arrayPieces at hx
    split at hx
    · cases hx
    · cases hx
      cases hkind
  | arrayJoint =>
    rw [List.getLast?_concat] at hx
    cases hx
    cases hkind
  | resume | blankLine => cases hx
  | _ =>
    cases hx
    cases hkind

/-- At the start of a line every move makes something. -/
theorem Move.ne_nil (h : Move m e cs pieces skip m' e' rest) (hm : m.isLine) : pieces ≠ [] := by
  cases h with
  | indent | lineEnd | comment | lastComment | keyword => simp
  | _ => cases hm

theorem Steps.eq_of_isLine {s t : State} (h : Steps s [] t) (he : IsEscape s.escape)
    (hs : s.mode.isLine) : s = t := by
  generalize htokens : ([] : List Token) = tokens at h
  cases h with
  | refl => rfl
  | cons hstep _ =>
    obtain ⟨pieces, skip, hmove, rfl, -⟩ := move_of_step he hstep
    obtain ⟨hnil, -⟩ := List.append_eq_nil_iff.1 htokens.symm
    cases pieces with
    | nil => exact (hmove.ne_nil hs rfl).elim
    | cons x pieces => cases hnil

theorem exists_of_getLast?_placed {p : Position} {x : Token}
    (h : (placed p pieces).getLast? = some x) :
    ∃ piece, pieces.getLast? = some piece ∧ piece.kind = x.kind := by
  rcases pieces.eq_nil_or_concat' with rfl | ⟨front, piece, rfl⟩
  · cases h
  · rw [placed_append] at h
    obtain rfl := Option.some.inj (List.getLast?_concat.symm.trans h)
    exact ⟨piece, List.getLast?_concat, rfl⟩

/-- Behind a line end some text is passed that ends with it, and a line starts. -/
theorem Steps.of_newline {s t : State} {tokens : List Token} (h : Steps s tokens t)
    (he : IsEscape s.escape) {x : Token} (hx : tokens.getLast? = some x)
    (hkind : x.kind = .newline) :
    t.mode.isLine ∧ ∃ passed, s.rest = passed ++ t.rest ∧ passed.getLast? = some '\n' := by
  induction h with
  | refl s => cases hx
  | @cons s u t tokens more hstep hsteps ih =>
    obtain ⟨pieces, skip, hmove, rfl, -⟩ := move_of_step he hstep
    have he' := hmove.isEscape he
    rw [List.getLast?_append] at hx
    cases hmore : more.getLast? with
    | some y =>
      rw [hmore] at hx
      obtain ⟨hline, passed, hpassed, hlast⟩ := ih he' (hmore.trans hx)
      refine ⟨hline, covered pieces ++ skip ++ passed, ?_, ?_⟩
      · rw [hmove.covered_eq, hpassed, List.append_assoc, List.append_assoc, List.append_assoc]
      · rw [List.getLast?_append, hlast]
        rfl
    | none =>
      obtain rfl := List.getLast?_eq_none_iff.1 hmore
      obtain ⟨piece, hpiece, hsame⟩ := exists_of_getLast?_placed hx
      obtain ⟨hline, hlast⟩ := hmove.of_newline hpiece (hsame.trans hkind)
      obtain rfl := hsteps.eq_of_isLine he' hline
      exact ⟨hline, _, hmove.covered_eq, hlast⟩

/-- A text that ends at the end of a line is read in the same steps whatever follows it, up to the
start of a line. -/
theorem exists_steps_front {front : List Char} (hfault : (scanFrom (.start front)).fault = none)
    (hend : (scanFrom (.start front)).endsLine) : ∃ tokens window e, ∀ more,
      Steps (.start (front ++ more)) tokens
        ⟨.line window, e, Position.start.after front, more⟩ := by
  obtain ⟨tokens, t, hsteps, ⟨token, hfinished, hscan⟩ | ⟨fault, -, hscan⟩⟩ :=
    exists_steps (.start front)
  · rw [Scan.endsLine, hscan, List.dropLast_concat] at hend
    obtain ⟨hnil, -⟩ := step_finished hfinished
    cases hlast : tokens.getLast? with
    | none =>
      obtain rfl := List.getLast?_eq_none_iff.1 hlast
      obtain rfl := hsteps.eq_of_isLine (.inl rfl) rfl
      obtain rfl : front = [] := hnil
      exact ⟨[], true, _, fun more => .refl _⟩
    | some x =>
      rw [hlast, Option.all_some, decide_eq_true_eq] at hend
      obtain ⟨-, passed, hpassed, hnewline⟩ := hsteps.of_newline (.inl rfl) hlast hend
      obtain rfl : front = passed := by rwa [hnil, List.append_nil] at hpassed
      obtain ⟨tokens', u, hsteps', hnil', -, hmore⟩ :=
        exists_steps_lines (.start front) (.inl rfl) hfault hnewline
      have hsame : tokens' ++ [⟨.eof, "", u.position⟩] = tokens ++ [token] := by
        have := scanFrom_of_steps hsteps'
        rw [hscan, scanFrom_nil (hsteps'.isEscape (.inl rfl)) hnil'] at this
        exact (congrArg Scan.tokens this).symm
      obtain ⟨rfl, -⟩ := List.append_inj' hsame rfl
      obtain ⟨hline, -⟩ := hsteps'.of_newline (.inl rfl) hlast hend
      obtain ⟨before, hbefore, hposition, -⟩ := hsteps'.positions (.inl rfl)
      obtain rfl : front = before := by rwa [hnil', List.append_nil] at hbefore
      obtain ⟨mode, e, p, rest⟩ := u
      cases mode with
      | line window =>
        obtain rfl : p = Position.start.after front := hposition
        exact ⟨tokens', window, e, hmore⟩
      | _ => cases hline
  · rw [hscan] at hfault
    cases hfault

/-! ### The next keyword -/

theorem head?_feedsOfPairs_of_isSolid (h : cs.head?.any isSolid) :
    (feedsOfPairs cs).head?.any isSolid := by
  cases cs with
  | nil => cases h
  | cons c cs =>
    have hlone : ¬ (c = '\r' && cs.head? == some '\n') := by
      rw [Bool.and_eq_true, decide_eq_true_eq]
      rintro ⟨rfl, -⟩
      cases h
    rw [feedsOfPairs, if_neg hlone]
    exact h

/-- A solid character at the start of a line starts a keyword, and that ends the directives. -/
theorem exists_steps_keyword (he : IsEscape e) (window : Bool) (p : Position)
    (h : cs.head?.any isSolid) : ∃ token t,
      Steps ⟨.line window, e, p, cs⟩ [token] t ∧ t.mode.isLine = false ∧ t.escape = e ∧
      ∀ behind, directivesFrom behind (ofScan (scanFrom ⟨.line window, e, p, cs⟩)) = [] := by
  have hcut := keyword_append e cs
  generalize hspan : keyword e cs = cut at hcut
  obtain ⟨span, rest⟩ := cut
  obtain rfl : cs = span ++ rest := hcut.symm
  have hsteps := Steps.of_move he (.keyword window h hspan) rfl p
  refine ⟨_, _, hsteps, rfl, rfl, fun behind => ?_⟩
  rw [scanFrom_of_steps hsteps]
  exact directivesFrom_open behind _ _ _

/-! ### Words of letters -/

variable {word : List Char}

theorem ne_of_isAlpha {c d : Char} (hc : c.isAlpha) (hd : d.isAlpha = false) : c ≠ d := by
  rintro rfl
  rw [hc] at hd
  cases hd

theorem isSolid_of_isAlpha {c : Char} (h : c.isAlpha) : isSolid c := by
  simp [isSolid, isBlank, ne_of_isAlpha h]

theorem ne_escape_of_isAlpha {c : Char} (he : IsEscape e) (h : c.isAlpha) : c ≠ e := by
  refine ne_of_isAlpha h ?_
  rcases he with rfl | rfl <;> decide

theorem head?_letters (h : ∀ c ∈ word, c.isAlpha) (hne : word ≠ []) (cs : List Char) :
    (word ++ cs).head?.any isSolid := by
  cases word with
  | nil => exact (hne rfl).elim
  | cons c word => exact isSolid_of_isAlpha (h c List.mem_cons_self)

section

variable (he : IsEscape e) (h : ∀ c ∈ word, c.isAlpha)

include he h

theorem keyword_letters (cs : List Char) : keyword e (word ++ ' ' :: cs) = (word, ' ' :: cs) := by
  induction word with
  | nil => simp [keyword, isBlank]
  | cons c word ih =>
    obtain ⟨hc, hword⟩ := List.forall_mem_cons.1 h
    have hsolid := isSolid_of_isAlpha hc
    rw [List.cons_append, keyword, not_isBlank_of_isSolid hsolid, continues,
      continuation?_of_ne (ne_escape_of_isAlpha he hc), ih hword]
    simp [(ne_of_isSolid hsolid).1, consSpan]

theorem literal_letters (cs : List Char) : literal e (word ++ ' ' :: cs) = (word, ' ' :: cs) := by
  induction word with
  | nil =>
    rw [List.nil_append, literal.eq_def]
    simp [isBlank]
  | cons c word ih =>
    obtain ⟨hc, hword⟩ := List.forall_mem_cons.1 h
    have hsolid := isSolid_of_isAlpha hc
    rw [List.cons_append, literal.eq_def]
    simp [not_isBlank_of_isSolid hsolid, ne_of_isSolid hsolid, isQuote, ne_of_isAlpha hc,
      ne_escape_of_isAlpha he hc, ih hword, consSpan]

/-- A keyword of letters. -/
theorem steps_keyword (hne : word ≠ []) (window : Bool) (p : Position) (cs : List Char) :
    Steps ⟨.line window, e, p, word ++ ' ' :: cs⟩ [⟨.instruction, String.ofList word, p⟩]
      ⟨.argument (.words ⟨true, []⟩), e, p.after word, ' ' :: cs⟩ :=
  .of_move he (.keyword window (head?_letters h hne (' ' :: cs)) (keyword_letters he h cs)) rfl p

/-- A word of letters. -/
theorem steps_word (hne : word ≠ []) (w : Words) (p : Position) (cs : List Char) :
    Steps ⟨.argument (.words w), e, p, word ++ ' ' :: cs⟩ [⟨.string, String.ofList word, p⟩]
      ⟨.argument (.words (w.extend word)), e, p.after word, ' ' :: cs⟩ := by
  refine .of_move he (.literal w ?_ (literal_letters he h cs)) rfl p
  cases word with
  | nil => exact (hne rfl).elim
  | cons c word =>
    have hc := h c List.mem_cons_self
    have hsolid := isSolid_of_isAlpha hc
    simp [startsLiteral, continues, continuation?_of_ne (ne_escape_of_isAlpha he hc),
      not_isBlank_of_isSolid hsolid, ne_of_isSolid hsolid, isQuote, ne_of_isAlpha hc]

end

theorem stops_letters (h : ∀ c ∈ word, c.isAlpha) (hne : word ≠ []) (cs : List Char) :
    Stops isBlank (word ++ cs) := by
  cases word with
  | nil => exact (hne rfl).elim
  | cons c word =>
    rintro d ⟨⟩
    exact not_isBlank_of_isSolid (isSolid_of_isAlpha (h c List.mem_cons_self))

/-- A space alone. -/
theorem steps_space (he : IsEscape e) (w : Words) (p : Position)
    (h : Stops isBlank cs) :
    Steps ⟨.argument (.words w), e, p, ' ' :: cs⟩ [⟨.whitespace, " ", p⟩]
      ⟨.argument (.words w.finish), e, p.after [' '], cs⟩ :=
  .of_move he (.blanks w (List.cons_ne_nil ' ' []) (by simp [isBlank]) h) rfl p

/-- A space among words, with the blanks behind it. -/
theorem exists_steps_space (he : IsEscape e) (cs : List Char) : ∃ blanks rest,
    (' ' :: cs = blanks ++ rest) ∧ (∀ b ∈ blanks, isBlank b) ∧ Stops isBlank rest ∧
    ∀ w p, Steps ⟨.argument (.words w), e, p, ' ' :: cs⟩ [⟨.whitespace, String.ofList blanks, p⟩]
      ⟨.argument (.words w.finish), e, p.after blanks, rest⟩ := by
  obtain ⟨blanks, rest, hsplit, hblanks, hstops, htake, -⟩ := exists_blanks (' ' :: cs)
  have hne : blanks ≠ [] := by
    rintro rfl
    cases htake
  refine ⟨blanks, rest, hsplit, hblanks, hstops, fun w p => ?_⟩
  rw [hsplit]
  exact .of_move he (.blanks w hne hblanks hstops) rfl p

theorem feedsOfPairs_argument {word : List Char} (h : ∀ c ∈ word, c.isAlpha) (cs : List Char) :
    feedsOfPairs (word ++ ' ' :: cs) = word ++ ' ' :: feedsOfPairs cs := by
  have hline : '\n' ∉ word ++ [' '] := by
    intro hmem
    rcases List.mem_append.1 hmem with hmem | hmem
    · exact ne_of_isAlpha (h _ hmem) rfl rfl
    · cases List.mem_singleton.1 hmem
  have hlast : (word ++ [' ']).getLast? ≠ some '\r' := by
    rw [List.getLast?_concat]
    decide
  rw [List.append_cons, feedsOfPairs_append (.inl hlast), feedsOfPairs_of_notMem hline,
    ← List.append_cons]

end Lexer

namespace Kind

theorem isAlpha_of_mem_name (kind : Kind) : ∀ c ∈ kind.name.toList, c.isAlpha := by
  have hall : kind.name.toList.all Char.isAlpha := by cases kind <;> decide
  exact List.all_eq_true.1 hall

theorem name_ne_nil (kind : Kind) : kind.name.toList ≠ [] := by
  cases kind <;> decide

/-- An array may follow the name of a kind. -/
theorem leavesArray_name (kind : Kind) : Lexer.leavesArray kind.name.toList := by
  cases kind <;> decide

theorem ofKeyword?_name (kind : Kind) : ofKeyword? kind.name = some kind := by
  cases kind <;> decide +kernel

end Kind

/-! ### Documents that go on -/

namespace Document

open Lexer

theorem instructions_append {escape : Char} {entries : List Entry} {is : List Instruction}
    (h : instructions escape entries = .ok is) (more : List Entry) :
    instructions escape (entries ++ more) = (is ++ ·) <$> instructions escape more := by
  induction entries generalizing is with
  | nil =>
    cases h
    rw [List.nil_append]
    exact (LawfulFunctor.id_map _).symm
  | cons entry entries ih =>
    cases entry with
    | comment | lineEnd => exact ih h
    | line line =>
      rw [instructions] at h
      rw [List.cons_append, instructions]
      cases hline : Instruction.ofLine escape line with
      | error fault =>
        rw [hline] at h
        cases h
      | ok i =>
        rw [hline] at h
        cases hothers : instructions escape entries with
        | error fault =>
          rw [hothers] at h
          cases h
        | ok others =>
          rw [hothers] at h
          cases h
          dsimp only
          rw [ih hothers, ← LawfulFunctor.comp_map]
          rfl
    | stray | broken => cases h

variable {front : String} {d : Document}

section

variable (h : parse front = .ok d) (hend : (Token.scan front).endsLine)

include h hend

/-- A text that ends at the end of a line can go on with an instruction: its tokens are the same,
and the instruction is read with its escape character, at the place where it ends. -/
theorem exists_scan_append :
    ∃ window tokens entries,
      Entry.Feeds none tokens entries none ∧
      Token.scan front = ⟨tokens ++ [⟨.eof, "", Position.start.after
        (feedsOfPairs front.toList)⟩], none⟩ ∧
      ∀ more : String, more.toList.head?.any isSolid →
        Entry.directives (Entry.ofScan (Token.scan (front ++ more))) = Entry.directives entries ∧
        Token.scan (front ++ more) =
          let scan := scanFrom ⟨.line window, d.escape,
            Position.start.after (feedsOfPairs front.toList), feedsOfPairs more.toList⟩
          ⟨tokens ++ scan.tokens, scan.fault⟩ := by
  have hfault := scan_fault_of_parse h
  obtain ⟨tokens, window, e, hsteps⟩ := exists_steps_front hfault hend
  have he : IsEscape e := (hsteps []).isEscape (.inl rfl)
  generalize Position.start.after (feedsOfPairs front.toList) = p at hsteps ⊢
  have hold : Token.scan front = ⟨tokens ++ [⟨.eof, "", p⟩], none⟩ := by
    have hnil : scanFrom ⟨.line window, e, p, []⟩ = ⟨[⟨.eof, "", p⟩], none⟩ := scanFrom_nil he rfl
    have hfront := scanFrom_of_steps (hsteps [])
    rwa [List.append_nil, hnil] at hfront
  obtain ⟨entries, draft, hfeeds, hfits, -⟩ := (hsteps []).exists_feeds (.inl rfl) (fits_start _)
  obtain rfl := hfits.line
  refine ⟨window, tokens, entries, hfeeds, hold, fun more hmore => ?_⟩
  have hhead : more.toList.head? ≠ some '\n' := by
    intro hhead
    rw [hhead] at hmore
    cases hmore
  have hnew := scanFrom_of_steps (hsteps (feedsOfPairs more.toList))
  rw [← feedsOfPairs_append (.inr hhead), ← String.toList_append] at hnew
  obtain ⟨token, t, hkeyword, hmode, hescape, hdirectives⟩ :=
    exists_steps_keyword he window p (head?_feedsOfPairs_of_isSolid hmore)
  have hsame : Entry.directives (Entry.ofScan (Token.scan (front ++ more))) =
      Entry.directives entries := by
    rw [Token.scan, hnew, Entry.ofScan, hfeeds]
    exact directivesFrom_append (.inr hdirectives) false
  -- The lexer has the escape character of the whole text at the keyword.
  have hchar : e = d.escape := by
    have hall := (hsteps (feedsOfPairs more.toList)).trans hkeyword
    rw [← feedsOfPairs_append (.inr hhead), ← String.toList_append] at hall
    have hlast : t.escape = escapeOf (front ++ more) := escape_of_steps hall fun hline => by
      rw [hline] at hmode
      cases hmode
    obtain ⟨is, -, rfl⟩ := ofEntries_eq_ok h
    show e = Entry.escapeOf (Entry.directives (Entry.ofScan (Token.scan front)))
    rw [← hescape, hlast, escapeOf, hsame, hold, Entry.ofScan, hfeeds]
    exact congrArg (fun entries => Entry.escapeOf (Entry.directives entries))
      (List.append_nil entries).symm
  rw [← hchar]
  exact ⟨hsame, hnew⟩

/-- An instruction behind a text that ends at the end of a line is read like the first of a text
with the same escape character, and what was read of the text is read again. -/
theorem parse_append {more : String} (hmore : more.toList.head?.any isSolid) :
    ∃ window, parse (front ++ more) =
      (fun is => ofInstructions d.directives d.escape (d.all ++ is)) <$>
        instructions d.escape (Entry.ofScan (scanFrom ⟨.line window, d.escape,
          Position.start.after (feedsOfPairs front.toList),
          feedsOfPairs more.toList⟩)) := by
  obtain ⟨window, tokens, entries, hfeeds, hold, hnew⟩ := exists_scan_append h hend
  obtain ⟨hsame, hscan⟩ := hnew more hmore
  have hentries : Entry.ofScan (Token.scan front) = entries := by
    rw [hold, Entry.ofScan, hfeeds]
    exact List.append_nil entries
  obtain ⟨is, his, rfl⟩ := ofEntries_eq_ok h
  rw [hentries] at his hscan ⊢
  refine ⟨window, ?_⟩
  rw [all_ofInstructions, parse, ofEntries, hsame, hscan, Entry.ofScan, hfeeds,
    instructions_append his, ← LawfulFunctor.comp_map]
  rfl

theorem parse_append_keyword (kind : Kind) (a : String) :
    ∃ window, parse (front ++ kind.name ++ " " ++ a) =
      (fun is => ofInstructions d.directives d.escape (d.all ++ is)) <$>
        instructions d.escape (Entry.ofScan (scanFrom ⟨.line window, d.escape,
          Position.start.after (feedsOfPairs front.toList),
          kind.name.toList ++ ' ' :: feedsOfPairs a.toList⟩)) := by
  have htext : (kind.name ++ " " ++ a).toList = kind.name.toList ++ ' ' :: a.toList := by simp
  have hhead := head?_letters kind.isAlpha_of_mem_name kind.name_ne_nil (' ' :: a.toList)
  rw [← htext] at hhead
  obtain ⟨window, hparse⟩ := parse_append h hend hhead
  rw [htext, feedsOfPairs_argument kind.isAlpha_of_mem_name, ← String.append_assoc,
    ← String.append_assoc] at hparse
  exact ⟨window, hparse⟩

/-- A text can go on with a line, which is read wherever it stands. -/
theorem parse_append_line {kind : Kind} {a : String} (ha : '\n' ∉ a.toList) {P : LogicalLine → Prop}
    (hline : ∀ window p, ∃ line, Entry.ofScan (scanFrom ⟨.line window, d.escape, p,
      kind.name.toList ++ ' ' :: a.toList⟩) = [.line line] ∧ P line) :
    ∃ line, P line ∧ parse (front ++ kind.name ++ " " ++ a) =
      match Instruction.ofLine d.escape line with
      | .error fault => .error (.ofLine fault)
      | .ok i => .ok (ofInstructions d.directives d.escape (d.all ++ [i])) := by
  obtain ⟨window, hparse⟩ := parse_append_keyword h hend kind a
  obtain ⟨line, hentries, hP⟩ := hline window (Position.start.after (feedsOfPairs front.toList))
  rw [feedsOfPairs_of_notMem ha, hentries, instructions] at hparse
  refine ⟨line, hP, hparse.trans ?_⟩
  cases Instruction.ofLine d.escape line <;> rfl

end

/-- An instruction that starts no stage belongs to the last one. -/
theorem ofInstructions_all_concat (h : parse front = .ok d) {i : Instruction}
    (hi : i.kind ≠ .base) : ofInstructions d.directives d.escape (d.all ++ [i]) = d.add i := by
  rw [ofInstructions_concat hi, ofInstructions_all h]

end Document

end Dockerfile
