import Dockerfile.Proofs.Lexing.Borders
import Dockerfile.Proofs.Lowering.Relocation
import Dockerfile.Proofs.Lowering.Run

/-!
# Lines that say nothing

Behind the first keyword of a text, a blank line or a comment may stand between any two lines:
between instructions, in an instruction that is continued, and in an array. What is read is the same
but for the places below it, and so is what the document is lowered to (`parse_insert_silentLine`).

Before the first keyword a comment can be a directive, and a blank line ends the directives.
-/

namespace Dockerfile

open Text (feedsOfPairs)

/-- The place of what stands at `p`, if a line is put below the first `k` lines. -/
def Position.below (k : Nat) (p : Position) : Position :=
  if k < p.line then ⟨p.line + 1, p.column⟩ else p

namespace Lexer

variable {m m' : Mode} {e e' : Char} {cs skip rest : List Char} {pieces : List Piece}

/-- A line of blanks, or of blanks and a comment. -/
inductive SilentLine : List Char → Prop where
  | blank {blanks : List Char} (hblanks : ∀ b ∈ blanks, isBlank b) : SilentLine (blanks ++ ['\n'])
  | comment {blanks text : List Char} (hblanks : ∀ b ∈ blanks, isBlank b) (htext : '\n' ∉ text) :
    SilentLine (blanks ++ ('#' :: text ++ ['\n']))

/-! ### Places below a line -/

theorem below_injective (k : Nat) : Function.Injective (Position.below k) := by
  rintro ⟨line, column⟩ ⟨line', column'⟩ h
  unfold Position.below at h
  dsimp only at h
  split at h <;> split at h <;> (injection h with hline hcolumn; rw [Position.mk.injEq]; omega)

/-- What stands below the line stands one line further down. -/
theorem relocates_below (k : Nat) (p : Position) (h : k < p.line) :
    Relocates (Position.below k) p ⟨p.line + 1, p.column⟩ := by
  intro u
  have hline := line_after p u
  rw [Position.below, if_pos (by omega), after_below p 1 u]

/-- What stands above the line stays where it is. -/
theorem below_of_le {k : Nat} {p : Position} (h : p.line ≤ k) : p.below k = p := by
  rw [Position.below, if_neg (by omega)]

/-! ### Line ends -/

theorem count_feedsOfPairs (cs : List Char) :
    (feedsOfPairs cs).count '\n' = cs.count '\n' := by
  induction cs with
  | nil => rfl
  | cons c cs ih =>
    rw [feedsOfPairs]
    split
    · rename_i hpair
      rw [Bool.and_eq_true, decide_eq_true_eq] at hpair
      rw [ih, hpair.1, List.count_cons_of_ne (by decide)]
    · rw [List.count_cons, List.count_cons, ih]

/-- Text before a line end keeps it, and may lose a character that makes a pair with it. -/
theorem exists_feedsOfPairs_line (text : List Char) : ∃ front, front <+: text ∧
    feedsOfPairs (text ++ ['\n']) = feedsOfPairs front ++ ['\n'] := by
  by_cases hlast : text.getLast? = some '\r'
  · obtain ⟨front, rfl⟩ := List.getLast?_eq_some_iff.1 hlast
    refine ⟨front, List.prefix_append front ['\r'], ?_⟩
    rw [List.append_assoc, feedsOfPairs_append (.inr (by simp))]
    rfl
  · exact ⟨text, List.prefix_refl text, feedsOfPairs_append (.inl hlast)⟩

theorem getLast?_feedsOfPairs (h : cs.getLast? = some '\n') :
    (feedsOfPairs cs).getLast? = some '\n' := by
  obtain ⟨text, rfl⟩ := List.getLast?_eq_some_iff.1 h
  obtain ⟨front, -, hfront⟩ := exists_feedsOfPairs_line text
  rw [hfront]
  exact List.getLast?_concat

theorem feedsOfPairs_append_of_getLast? (h : cs.getLast? = some '\n') (more : List Char) :
    feedsOfPairs (cs ++ more) = feedsOfPairs cs ++ feedsOfPairs more :=
  feedsOfPairs_append (.inl (by rw [h]; decide))

theorem column_after (h : cs.getLast? = some '\n') (p : Position) : (p.after cs).column = 1 := by
  obtain ⟨text, rfl⟩ := List.getLast?_eq_some_iff.1 h
  rw [Position.after_append]
  rfl

namespace SilentLine

theorem exists_text (h : SilentLine cs) : ∃ text, '\n' ∉ text ∧ cs = text ++ ['\n'] := by
  cases h with
  | @blank blanks hblanks => exact ⟨blanks, newline_notMem_of_blanks hblanks, rfl⟩
  | @comment blanks text hblanks htext =>
    refine ⟨blanks ++ '#' :: text, ?_, by simp⟩
    simpa [htext] using newline_notMem_of_blanks hblanks

theorem after_eq (h : SilentLine cs) (p : Position) : p.after cs = ⟨p.line + 1, 1⟩ := by
  obtain ⟨text, htext, rfl⟩ := h.exists_text
  rw [Position.after_append, after_of_notMem p htext]
  rfl

theorem feedsOfPairs (h : SilentLine cs) : SilentLine (feedsOfPairs cs) := by
  cases h with
  | @blank blanks hblanks =>
    obtain ⟨front, hsub, hline⟩ := exists_feedsOfPairs_line blanks
    have hfront : ∀ b ∈ front, isBlank b := fun b hb => hblanks b (hsub.subset hb)
    rw [hline, feedsOfPairs_of_notMem (newline_notMem_of_blanks hfront)]
    exact .blank hfront
  | @comment blanks text hblanks htext =>
    obtain ⟨front, hsub, hline⟩ := exists_feedsOfPairs_line text
    have hfront : '\n' ∉ front := fun hmem => htext (hsub.subset hmem)
    have hsharp : feedsOfPairs ('#' :: (text ++ ['\n'])) =
        '#' :: feedsOfPairs (text ++ ['\n']) :=
      feedsOfPairs_append (a := ['#']) (.inl (by decide))
    rw [feedsOfPairs_append (.inr (by simp)), List.cons_append, hsharp, hline,
      feedsOfPairs_of_notMem (newline_notMem_of_blanks hblanks), feedsOfPairs_of_notMem hfront]
    exact .comment hblanks hfront

end SilentLine

/-! ### Reading a line that says nothing -/

/-- Blanks at the start of a line. -/
theorem exists_steps_indent (he : Template.IsEscape e) (p : Position) {blanks : List Char}
    (hblanks : ∀ b ∈ blanks, isBlank b) (hstops : Stops isBlank rest) : ∃ tokens,
      Steps ⟨.line false, e, p, blanks ++ rest⟩ tokens ⟨.line false, e, p.after blanks, rest⟩ ∧
      Entry.Feeds none tokens [] none := by
  by_cases hne : blanks = []
  · subst hne
    exact ⟨[], .refl _, Entry.feeds_nil none⟩
  · exact ⟨_, .of_move he (.indent hne hblanks hstops) rfl p, fun _ _ => rfl⟩

/-- Between instructions such a line makes entries that say nothing. -/
theorem SilentLine.exists_steps_line (h : SilentLine cs) (he : Template.IsEscape e) (p : Position)
    (rest : List Char) : ∃ tokens entries,
      Steps ⟨.line false, e, p, cs ++ rest⟩ tokens ⟨.line false, e, p.after cs, rest⟩ ∧
      Entry.Feeds none tokens entries none ∧ ∀ x ∈ entries, x.isSilent := by
  cases h with
  | @blank blanks hblanks =>
    have hstops : Stops isBlank ('\n' :: rest) := by
      rintro c ⟨⟩
      decide
    obtain ⟨tokens, hsteps, hfeeds⟩ := exists_steps_indent he p hblanks hstops
    have hline : '\n' :: rest = ['\n'] ++ rest := rfl
    have hend := Steps.of_move he (.lineEnd false e rest) hline (p.after blanks)
    rw [List.append_assoc, Position.after_append]
    exact ⟨_, [.lineEnd], hsteps.trans hend, hfeeds.append fun _ _ => rfl,
      by simp [Entry.isSilent]⟩
  | @comment blanks text hblanks htext =>
    have hstops : Stops isBlank ('#' :: text ++ ['\n'] ++ rest) := by
      rintro c ⟨⟩
      decide
    obtain ⟨tokens, hsteps, hfeeds⟩ := exists_steps_indent he p hblanks hstops
    have hline : '#' :: text ++ '\n' :: rest = '#' :: text ++ ['\n'] ++ rest := by simp
    have hend := Steps.of_move he (.comment false e htext rest) hline (p.after blanks)
    rw [List.append_assoc, Position.after_append]
    exact ⟨_, [.comment _, .lineEnd], hsteps.trans hend, hfeeds.append fun _ _ => rfl,
      by simp [Entry.isSilent]⟩

/-- In an instruction such a line makes no entry. -/
theorem SilentLine.exists_steps_continued (h : SilentLine cs) (he : Template.IsEscape e)
    (a : Argument) (p : Position) (rest : List Char) : ∃ tokens,
      Steps ⟨.continued a, e, p, cs ++ rest⟩ tokens ⟨.continued a, e, p.after cs, rest⟩ ∧
      ∀ d, Entry.Feeds (some d) tokens [] (some d) := by
  cases h with
  | @blank blanks hblanks =>
    exact ⟨_, .of_move he (.blankLine a e hblanks rest) (by simp) p,
      fun d => Entry.feeds_nil (some d)⟩
  | @comment blanks text hblanks htext =>
    exact ⟨_, .of_move he (.commentLine a e hblanks htext rest) (by simp) p, fun d _ _ => rfl⟩

/-- At the start of a line where directives do not count, such a line leaves everything as it is. -/
theorem SilentLine.exists_steps (h : SilentLine cs) (he : Template.IsEscape e) (hm : m.isBorder)
    (hwindow : m ≠ .line true) {draft : Option LogicalLine.Draft} (hfits : Fits m draft)
    (p : Position) (rest : List Char) : ∃ tokens entries,
      Steps ⟨m, e, p, cs ++ rest⟩ tokens ⟨m, e, p.after cs, rest⟩ ∧
      Entry.Feeds draft tokens entries draft ∧ (∀ x ∈ entries, x.isSilent) ∧
      (m.isLine = false → entries = []) := by
  cases m with
  | line window =>
    cases window with
    | true => exact (hwindow rfl).elim
    | false =>
      obtain rfl := hfits.line
      obtain ⟨tokens, entries, hsteps, hfeeds, hsilent⟩ := h.exists_steps_line he p rest
      exact ⟨tokens, entries, hsteps, hfeeds, hsilent, Bool.noConfusion⟩
  | argument a => cases hm
  | continued a =>
    obtain ⟨d, rfl⟩ := hfits.inside rfl
    obtain ⟨tokens, hsteps, hfeeds⟩ := h.exists_steps_continued he a p rest
    exact ⟨tokens, [], hsteps, hfeeds d, List.forall_mem_nil _, fun _ => rfl⟩

/-! ### Lines above -/

/-- Lines with a keyword that are read without a fault are read in the same steps whatever follows
them, up to the start of the next line, where directives do not count. -/
theorem exists_steps_above {lines : List Char} (hlast : lines.getLast? = some '\n')
    (hfault : (scanFrom (.start lines)).fault = none)
    (hkeyword : HasKeyword (scanFrom (.start lines)).tokens) : ∃ tokens m e,
      HasKeyword tokens ∧ Template.IsEscape e ∧ m.isBorder ∧ m ≠ .line true ∧
      (∀ x ∈ tokens, x.position.line ≤ lines.count '\n') ∧
      ∀ more, Steps (.start (lines ++ more)) tokens ⟨m, e, ⟨lines.count '\n' + 1, 1⟩, more⟩ := by
  obtain ⟨tokens, t, hsteps, hnil, hborder, hmore⟩ :=
    exists_steps_lines (.start lines) (.inl rfl) hfault hlast
  have he := hsteps.isEscape (.inl rfl)
  have htokens : HasKeyword tokens := by
    obtain ⟨x, hx, hkind⟩ := hkeyword
    rw [scanFrom_of_steps hsteps, scanFrom_nil he hnil] at hx
    rcases List.mem_append.1 hx with hx | hx
    · exact ⟨x, hx, hkind⟩
    · rw [List.mem_singleton.1 hx] at hkind
      cases hkind
  have hwindow : t.mode ≠ .line true := fun hmode =>
    (hsteps.not_hasKeyword (.inl rfl) hmode).2 htokens
  obtain ⟨passed, hpassed, hposition, hplaces⟩ := hsteps.positions (.inl rfl)
  obtain rfl : lines = passed := by rwa [hnil, List.append_nil] at hpassed
  have hplace : t.position = ⟨lines.count '\n' + 1, 1⟩ := by
    rw [hposition, Nat.add_comm]
    exact congrArg₂ Position.mk (line_after Position.start lines)
      (column_after hlast Position.start)
  refine ⟨tokens, t.mode, t.escape, htokens, he, hborder, hwindow, ?_, ?_⟩
  · intro x hx
    -- Nothing is left to read, so the last line end stands behind the token.
    obtain ⟨before, behind, hsplit, hbefore, hbehind⟩ := hplaces x hx
    have hend : behind.getLast? = some '\n' := by
      rw [hsplit, List.getLast?_append_of_ne_nil _ fun h => hbehind h hnil] at hlast
      exact hlast
    have hcount := List.count_pos_iff.2 (List.mem_of_getLast? hend)
    have hline : x.position.line = 1 + before.count '\n' := by
      rw [hbefore]
      exact line_after Position.start before
    rw [hline, hsplit, List.count_append]
    omega
  · rw [← hplace]
    exact hmore

end Lexer

namespace Document

open Lexer

/-- Behind a keyword, a line that says nothing only moves what stands below it. -/
theorem parse_append_silentLine {s₁ c : String} (hlast : s₁.toList.getLast? = some '\n')
    (hfault : (Token.scan s₁).fault = none) (hkeyword : HasKeyword (Token.scan s₁).tokens)
    (hc : SilentLine c.toList) (s₂ : String) :
    parse (s₁ ++ c ++ s₂) =
      mapBoth (SourceFault.relocate (Position.below (s₁.toList.count '\n')))
        (Document.relocate (Position.below (s₁.toList.count '\n'))) (parse (s₁ ++ s₂)) := by
  obtain ⟨tokens, m, e, htokens, he, hborder, hwindow, habove, hsteps⟩ :=
    exists_steps_above (getLast?_feedsOfPairs hlast) hfault hkeyword
  rw [count_feedsOfPairs] at habove hsteps
  generalize hk : s₁.toList.count '\n' = k at *
  have hlast' : c.toList.getLast? = some '\n' := by
    obtain ⟨text, -, htext⟩ := hc.exists_text
    rw [htext]
    exact List.getLast?_concat
  have hold : Token.scan (s₁ ++ s₂) =
      scanFrom (.start (feedsOfPairs s₁.toList ++ feedsOfPairs s₂.toList)) := by
    rw [Token.scan, String.toList_append, feedsOfPairs_append_of_getLast? hlast]
  have hnew : Token.scan (s₁ ++ c ++ s₂) = scanFrom (.start (feedsOfPairs s₁.toList ++
      (feedsOfPairs c.toList ++ feedsOfPairs s₂.toList))) := by
    rw [Token.scan, String.toList_append, String.toList_append, List.append_assoc,
      feedsOfPairs_append_of_getLast? hlast, feedsOfPairs_append_of_getLast? hlast']
  obtain ⟨entries, draft, hfeeds, hfits, hline⟩ :=
    (hsteps (feedsOfPairs s₂.toList)).exists_feeds (.inl rfl) (fits_start _)
  obtain ⟨extra, silent, hextra, hnone, hsilent, hinside⟩ :=
    hc.feedsOfPairs.exists_steps he hborder hwindow hfits ⟨k + 1, 1⟩ (feedsOfPairs s₂.toList)
  have hmoved := scanFrom_relocate (s := ⟨m, e, ⟨k + 1, 1⟩, feedsOfPairs s₂.toList⟩) he
    (relocates_below k ⟨k + 1, 1⟩ (Nat.lt_succ_self k))
  rw [← hc.feedsOfPairs.after_eq ⟨k + 1, 1⟩] at hmoved
  refine parse_insert (hold.trans (scanFrom_of_steps (hsteps _))) ?_
    (fun x hx => below_of_le (habove x hx)) hfeeds hnone hsilent ?_
  · rw [hnew, scanFrom_of_steps ((hsteps _).trans hextra), ← hmoved, List.append_assoc]
  · by_cases hm : m.isLine
    · exact .inr (hline hm (.inr htokens))
    · exact .inl (hinside (Bool.eq_false_iff.2 hm))

/-- A blank line or a comment behind a line that is read without a fault, behind a keyword, moves
what stands below it and changes nothing else: not what is read, and not what it is lowered to. -/
theorem parse_insert_silentLine {s₁ s₂ c : String} (hlast : s₁.toList.getLast? = some '\n')
    (hfault : (Token.scan s₁).fault = none) (hkeyword : HasKeyword (Token.scan s₁).tokens)
    (hc : SilentLine c.toList) :
    parse (s₁ ++ c ++ s₂) =
        mapBoth (SourceFault.relocate (Position.below (s₁.toList.count '\n')))
          (Document.relocate (Position.below (s₁.toList.count '\n'))) (parse (s₁ ++ s₂)) ∧
      ∀ d d', parse (s₁ ++ s₂) = .ok d → parse (s₁ ++ c ++ s₂) = .ok d' →
        d'.check.resolution = d.check.resolution ∧ ∀ job resolution, d'.lower job resolution =
          (d.lower job resolution).relocate (Position.below (s₁.toList.count '\n'))
            (Graph.relocate (Position.below (s₁.toList.count '\n'))) := by
  have hinsert := parse_append_silentLine hlast hfault hkeyword hc s₂
  refine ⟨hinsert, fun d d' hd hd' => ?_⟩
  rw [hd, hd'] at hinsert
  cases hinsert
  exact ⟨check_resolution_relocate _ d, lower_relocate (below_injective _) d⟩

/-- A comment in a continued instruction, with an instruction below it. -/
theorem parse_insert_silentLine_continued : ∃ d g,
    parse ("FROM a\nRUN x \\\n" ++ " y\nUSER u\n") = .ok d ∧
    parse ("FROM a\nRUN x \\\n" ++ "  # c\n" ++ " y\nUSER u\n") =
      .ok (d.relocate (Position.below 2)) ∧
    (d.relocate (Position.below 2)).check.resolution = d.check.resolution ∧
    (d.lower ⟨[], none, none⟩ .empty).result = .ok g ∧
    ((d.relocate (Position.below 2)).lower ⟨[], none, none⟩ .empty).result =
      .ok (g.relocate (Position.below 2)) := by
  have hline : "  # c\n".toList = [' ', ' '] ++ ('#' :: [' ', 'c'] ++ ['\n']) := by decide +kernel
  have hc : SilentLine "  # c\n".toList := by
    rw [hline]
    exact .comment (by simp [isBlank]) (by simp)
  have hkeyword : ∃ x ∈ (Token.scan "FROM a\nRUN x \\\n").tokens, x.kind = .instruction := by
    decide +kernel
  obtain ⟨d, g, hd, hg, -⟩ := Lower.exists_lowered ("FROM a\nRUN x \\\n" ++ " y\nUSER u\n")
    ⟨[], none, none⟩ (fun _ => .empty) (fun _ => true) true (by decide +kernel)
  obtain ⟨hinsert, hsame⟩ := @parse_insert_silentLine _ " y\nUSER u\n" _ (by decide +kernel)
    (by decide +kernel) hkeyword hc
  have hcount : "FROM a\nRUN x \\\n".toList.count '\n' = 2 := by decide +kernel
  rw [hcount, hd] at hinsert
  rw [hcount] at hsame
  obtain ⟨hresolution, hlower⟩ := hsame d _ hd hinsert
  refine ⟨d, g, hd, hinsert, hresolution, hg, ?_⟩
  rw [hlower, Lower.Traced.relocate, hg]
  rfl

end Document

end Dockerfile
