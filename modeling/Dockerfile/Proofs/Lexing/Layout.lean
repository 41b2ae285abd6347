import Dockerfile.Proofs.Lexing.Continuations
import Dockerfile.Proofs.Lexing.Starts
import Dockerfile.Proofs.Reading
import Dockerfile.Proofs.Sequence

/-!
# The layout of a line

The argument text of a logical line is a lead and then its words, each with the gap behind it
(`LaidOut`). Gaps are blanks, and there is one wherever another word follows; a word stands at its
offset. A draft keeps this layout while tokens are added to it, so every line of a text has it, with
blanks as its lead. In the line of a trigger the lead goes up to its first word
(`LaidOut.nested`). What is cut out of the text of a line at the offset of a word, such as the text
of a command or an array, therefore starts with that word.
-/

namespace Dockerfile

open LogicalLine (Draft)

/-- A word and the gap behind it. -/
structure Cell where
  word : Word
  gap : List Char

/-- The text of a word and of the gap behind it. -/
def Cell.text (c : Cell) : List Char := c.word.text.toList ++ c.gap

namespace LogicalLine

/-- The argument text of a line is a lead and its words with the gaps behind them. -/
structure LaidOut (line : LogicalLine) (lead : List Char) (cells : List Cell) : Prop where
  words_eq : line.words = cells.map Cell.word
  raw_eq : line.raw.toList = lead ++ cells.flatMap Cell.text
  blank : ∀ c ∈ cells, ∀ b ∈ c.gap, Lexer.isBlank b
  /-- There is a gap between two words. -/
  apart : ∀ c ∈ cells.dropLast, c.gap ≠ []
  /-- A word starts at its offset. -/
  offset_eq : EachAfter (fun before c =>
    c.word.offset = (lead ++ before.flatMap Cell.text).length) cells

/-! ### Drafts -/

namespace Draft

/-- The layout of a draft: a word that can go on is the last one and has no gap behind it. -/
structure LaidOut (d : Draft) (lead : List Char) (cells : List Cell) : Prop where
  line : d.finish.LaidOut lead cells
  lead_blank : ∀ b ∈ lead, Lexer.isBlank b
  grows : d.inWord = true → ∃ front w, cells = front ++ [⟨w, []⟩]
  closed : d.inWord = false → ∀ c ∈ cells, c.gap ≠ []

variable {d : Draft} {lead : List Char} {cells : List Cell}

theorem laidOut_start (t : Token) : (start t).LaidOut [] [] where
  line := ⟨rfl, rfl, List.forall_mem_nil _, List.forall_mem_nil _, eachAfter_nil⟩
  lead_blank := List.forall_mem_nil _
  grows := by rintro ⟨⟩
  closed := fun _ => List.forall_mem_nil _

/-- White space makes the last gap longer, or the lead where there is no word. -/
theorem LaidOut.space (h : d.LaidOut lead cells) {text : String} (hne : text.toList ≠ [])
    (hblank : ∀ b ∈ text.toList, Lexer.isBlank b) :
    ∃ lead' cells', (d.space text).LaidOut lead' cells' := by
  obtain ⟨⟨hwords, hraw, hgaps, hapart, hoffset⟩, hlead, -, hclosed⟩ := h
  have hspace : (d.space text).finish.raw.toList = d.finish.raw.toList ++ text.toList :=
    String.toList_append
  rcases List.eq_nil_or_concat' cells with rfl | ⟨front, ⟨w, gap⟩, rfl⟩
  · refine ⟨lead ++ text.toList, [], ⟨hwords, ?_, hgaps, hapart, eachAfter_nil⟩,
      List.forall_mem_append.2 ⟨hlead, hblank⟩, by rintro ⟨⟩, fun _ => List.forall_mem_nil _⟩
    rw [hspace, hraw]
    simp
  · rw [List.dropLast_concat] at hapart
    obtain ⟨hfront, hw⟩ := eachAfter_concat.1 hoffset
    obtain ⟨hgaps, hgap⟩ := List.forall_mem_append.1 hgaps
    refine ⟨lead, front ++ [⟨w, gap ++ text.toList⟩], ⟨?_, ?_, ?_, ?_, ?_⟩, hlead, by rintro ⟨⟩,
      fun _ => ?_⟩
    · rw [List.map_append] at hwords ⊢
      exact hwords
    · rw [hspace, hraw]
      simp [Cell.text]
    · refine List.forall_mem_append.2 ⟨hgaps, List.forall_mem_singleton.2 ?_⟩
      exact List.forall_mem_append.2 ⟨hgap _ (List.mem_singleton_self _), hblank⟩
    · rwa [List.dropLast_concat]
    · exact eachAfter_concat.2 ⟨hfront, hw⟩
    · refine List.forall_mem_append.2 ⟨hapart, List.forall_mem_singleton.2 ?_⟩
      exact List.append_ne_nil_of_right_ne_nil gap hne

/-- A piece makes the last word longer, or is a new one behind the last gap. -/
theorem LaidOut.piece (h : d.LaidOut lead cells) (t : Token) :
    ∃ lead' cells', (d.piece t).LaidOut lead' cells' := by
  obtain ⟨⟨hwords, hraw, hgaps, hapart, hoffset⟩, hlead, hgrows, hclosed⟩ := h
  have hpiece : (d.piece t).finish.raw.toList = d.finish.raw.toList ++ t.text.toList :=
    String.toList_append
  cases hin : d.inWord with
  | false =>
    have hnew : (d.piece t).finish.words =
        d.finish.words ++ [⟨t.text, t.position, d.raw.length⟩] := by
      simp [Draft.piece, Draft.finish, hin]
    refine ⟨lead, cells ++ [⟨⟨t.text, t.position, d.raw.length⟩, []⟩], ⟨?_, ?_, ?_, ?_, ?_⟩,
      hlead, fun _ => ⟨_, _, rfl⟩, by rintro ⟨⟩⟩
    · rw [hnew, hwords]
      simp
    · rw [hpiece, hraw]
      simp [Cell.text]
    · exact List.forall_mem_append.2 ⟨hgaps, List.forall_mem_singleton.2 (List.forall_mem_nil _)⟩
    · rw [List.dropLast_concat]
      exact hclosed hin
    · refine eachAfter_concat.2 ⟨hoffset, ?_⟩
      rw [← hraw, String.length_toList]
      rfl
  | true =>
    obtain ⟨front, w, rfl⟩ := hgrows hin
    have hlast : d.words = w :: (front.map Cell.word).reverse := by
      rw [← List.reverse_reverse d.words]
      exact (congrArg List.reverse hwords).trans (by simp)
    have hnew : (d.piece t).finish.words =
        front.map Cell.word ++ [{ w with text := w.text ++ t.text }] := by
      simp [Draft.piece, Draft.finish, hin, hlast]
    rw [List.dropLast_concat] at hapart
    obtain ⟨hfront, hw⟩ := eachAfter_concat.1 hoffset
    refine ⟨lead, front ++ [⟨{ w with text := w.text ++ t.text }, []⟩], ⟨?_, ?_, ?_, ?_, ?_⟩,
      hlead, fun _ => ⟨_, _, rfl⟩, by rintro ⟨⟩⟩
    · rw [hnew]
      simp
    · rw [hpiece, hraw]
      simp [Cell.text]
    · obtain ⟨hgaps, -⟩ := List.forall_mem_append.1 hgaps
      exact List.forall_mem_append.2 ⟨hgaps, List.forall_mem_singleton.2 (List.forall_mem_nil _)⟩
    · rwa [List.dropLast_concat]
    · exact eachAfter_concat.2 ⟨hfront, hw⟩

end Draft

end LogicalLine

/-! ### White space -/

namespace Lexer

/-- White space in a text is some blanks. -/
theorem blanks_of_mem_scan {source : String} {x : Token} (hx : x ∈ (Token.scan source).tokens)
    (hkind : x.kind = .whitespace) : x.text.toList ≠ [] ∧ ∀ b ∈ x.text.toList, isBlank b := by
  obtain ⟨front, back, htokens⟩ := List.append_of_mem hx
  obtain ⟨_, s, earlier, later, t, hsteps, hstep, -, -⟩ :=
    exists_step_of_mem htokens (by rw [hkind]; decide)
  obtain ⟨pieces, skip, hmove, hplaced, -⟩ := move_of_step (hsteps.isEscape (.inl rfl)) hstep
  have hmem : x ∈ placed s.position pieces := by
    rw [← hplaced]
    simp
  obtain ⟨blanks, hne, hblanks, -, -, rfl, -⟩ := hmove.whitespace hmem hkind
  obtain rfl := List.mem_singleton.1 hmem
  simpa [Piece.plain, Piece.token] using And.intro hne hblanks

end Lexer

/-! ### Lines -/

namespace Entry

/-- What the tokens keep of a draft holds of the drafts of which the lines are made. -/
theorem exists_draft_of_mem_lines {P : Draft → Prop} (hstart : ∀ t, P (.start t))
    (hpiece : ∀ d t, P d → P (d.piece t)) {tokens : List Token}
    (hspace : ∀ d, ∀ t ∈ tokens, t.kind = .whitespace → P d → P (d.space t.text))
    {fault : Option Lexer.Fault} {draft : Option Draft} (hdraft : ∀ d ∈ draft, P d)
    {line : LogicalLine} (hline : line ∈ lines (ofTokensFrom fault draft tokens)) :
    ∃ d, P d ∧ d.finish = line := by
  have hends {draft : Option Draft} (hdraft : ∀ d ∈ draft, P d) {own : List LogicalLine}
      (hown : own.Sublist (draft.toList.map Draft.finish)) (hline : line ∈ own) :
      ∃ d, P d ∧ d.finish = line := by
    obtain ⟨d, hd, hfinish⟩ := List.mem_map.1 (hown.subset hline)
    exact ⟨d, hdraft d (Option.mem_toList.1 hd), hfinish⟩
  induction tokens generalizing draft with
  | nil => exact hends hdraft (lines_nil_sublist fault draft) hline
  | cons t tokens ih =>
    obtain ⟨ht, hspace⟩ := List.forall_mem_cons.1 (fun t ht d => hspace d t ht)
    rcases lines_cons fault draft t tokens with ⟨closed, draft', hturns, hlines⟩ | hlast
    · have hrest (hdraft' : ∀ d ∈ draft', P d)
          (hline : line ∈ lines (ofTokensFrom fault draft' tokens)) : ∃ d, P d ∧ d.finish = line :=
        ih (fun d t ht => hspace t ht d) hdraft' hline
      rw [hlines] at hline
      cases hturns with
      | skip => exact hrest nofun hline
      | start => exact hrest (by rintro d ⟨⟩; exact hstart t) hline
      | close d =>
        rcases List.mem_cons.1 hline with rfl | hline
        · exact ⟨d, hdraft d rfl, rfl⟩
        · exact hrest nofun hline
      | stay d => exact hrest hdraft hline
      | space d hkind => exact hrest (by rintro d' ⟨⟩; exact ht d hkind (hdraft d rfl)) hline
      | piece d => exact hrest (by rintro d' ⟨⟩; exact hpiece d t (hdraft d rfl)) hline
    · exact hends hdraft hlast hline

end Entry

namespace LogicalLine

variable {line : LogicalLine} {lead : List Char} {cells : List Cell}

/-- The line that stands behind the keyword of another one: its first word is the keyword. -/
def nested? (line : LogicalLine) : Option LogicalLine :=
  match line.words with
  | [] => none
  | head :: tail => some ⟨head.text, head.position, tail, line.raw⟩

/-- The line behind that many keywords. -/
def nestedBy? : Nat → LogicalLine → Option LogicalLine
  | 0, line => some line
  | depth + 1, line => line.nested?.bind (nestedBy? depth)

/-- A line behind a keyword is laid out as it was, with the keyword in its lead. -/
theorem LaidOut.nested (h : line.LaidOut lead cells) {inner : LogicalLine}
    (hinner : line.nested? = some inner) :
    ∃ cell rest, cells = cell :: rest ∧ inner.LaidOut (lead ++ cell.text) rest := by
  obtain ⟨hwords, hraw, hgaps, hapart, hoffset⟩ := h
  cases cells with
  | nil => simp [nested?, hwords] at hinner
  | cons cell rest =>
    rw [nested?, hwords, List.map_cons] at hinner
    cases hinner
    refine ⟨cell, rest, rfl, rfl, ?_, (List.forall_mem_cons.1 hgaps).2, ?_, ?_⟩
    · rw [hraw, List.flatMap_cons, List.append_assoc]
    · intro c hc
      refine hapart c ?_
      rw [List.dropLast_cons_of_ne_nil (List.ne_nil_of_mem (List.dropLast_subset rest hc))]
      exact List.mem_cons_of_mem cell hc
    · intro before c after hrest
      rw [hoffset (cell :: before) c after (congrArg (cell :: ·) hrest), List.flatMap_cons,
        List.append_assoc]

theorem LaidOut.nestedBy (h : line.LaidOut lead cells) {depth : Nat} {inner : LogicalLine}
    (hinner : nestedBy? depth line = some inner) :
    inner.LaidOut (lead ++ (cells.take depth).flatMap Cell.text) (cells.drop depth) := by
  induction depth generalizing line lead cells with
  | zero =>
    cases hinner
    simpa using h
  | succ depth ih =>
    obtain ⟨next, hnext, hinner⟩ := Option.bind_eq_some_iff.1 hinner
    obtain ⟨cell, rest, rfl, hrest⟩ := h.nested hnext
    simpa using ih hrest hinner

/-- The text from a word on is that word and what stands behind it. -/
theorem LaidOut.textFrom (h : line.LaidOut lead cells) {before after : List Cell} {c : Cell}
    (hcells : cells = before ++ c :: after) :
    line.textFrom c.word = String.ofList (Text.stripChars (c.text ++ after.flatMap Cell.text)) := by
  rw [LogicalLine.textFrom, h.raw_eq, h.offset_eq before c after hcells, hcells,
    List.flatMap_append, ← List.append_assoc, List.drop_left, List.flatMap_cons]

/-- A trigger is what the line behind its keyword is read as. -/
theorem ofLine_of_nested (escape : Char) (hkind : Kind.ofKeyword? line.keyword = some .onbuild)
    {inner : LogicalLine} (hinner : line.nested? = some inner) :
    Instruction.ofLine escape line =
      (fun i => ⟨line.position, .onbuild inner.position i.body (line.rest line.words)⟩) <$>
        Instruction.ofLine escape inner := by
  obtain ⟨keyword, position, words, raw⟩ := line
  cases words with
  | nil => cases hinner
  | cons head tail =>
    cases hinner
    rw [Instruction.ofLine, Instruction.readBody, hkind]
    dsimp only
    rw [Instruction.ofLine, ← LawfulFunctor.comp_map, ← LawfulFunctor.comp_map]
    rfl

/-- The argument text of a line is its words, each at its offset, with blanks before the first one,
between each two and behind the last one. A line behind keywords of it, which is what triggers are
read from, is laid out in the same way behind those keywords. The text from a word on is what stands
there. -/
theorem laidOut_of_mem_lines {source : String} {line : LogicalLine}
    (hline : line ∈ Entry.lines (Entry.ofScan (Token.scan source))) :
    ∃ lead cells, (∀ b ∈ lead, Lexer.isBlank b) ∧ line.LaidOut lead cells ∧
      ∀ depth inner, nestedBy? depth line = some inner →
        inner.LaidOut (lead ++ (cells.take depth).flatMap Cell.text) (cells.drop depth) ∧
        (∀ before c after, cells.drop depth = before ++ c :: after →
          inner.textFrom c.word =
            String.ofList (Text.stripChars (c.text ++ after.flatMap Cell.text))) ∧
        ∀ trigger, inner.nested? = some trigger →
          Kind.ofKeyword? inner.keyword = some .onbuild → ∀ escape,
            Instruction.ofLine escape inner =
              (fun i => ⟨inner.position,
                .onbuild trigger.position i.body (inner.rest inner.words)⟩) <$>
                Instruction.ofLine escape trigger := by
  obtain ⟨d, ⟨lead, cells, hd⟩, rfl⟩ := Entry.exists_draft_of_mem_lines
    (P := fun d => ∃ lead cells, d.LaidOut lead cells)
    (fun t => ⟨[], [], Draft.laidOut_start t⟩)
    (by
      rintro d t ⟨lead, cells, hd⟩
      exact hd.piece t)
    (by
      rintro d t ht hkind ⟨lead, cells, hd⟩
      obtain ⟨hne, hblank⟩ := Lexer.blanks_of_mem_scan ht hkind
      exact hd.space hne hblank)
    (by rintro d ⟨⟩) hline
  refine ⟨lead, cells, hd.lead_blank, hd.line, fun depth inner hinner => ?_⟩
  have hlaid := hd.line.nestedBy hinner
  exact ⟨hlaid, fun before c after => hlaid.textFrom,
    fun trigger htrigger hkind escape => ofLine_of_nested escape hkind htrigger⟩

/-- A trigger over several lines, with a comment between them, a quoted blank and a gap at its
end. -/
theorem laidOut_of_mem_lines_trigger :
    let line : LogicalLine := ⟨"onbuild", ⟨2, 1⟩,
      [⟨"RUN", ⟨2, 9⟩, 1⟩, ⟨"x=\"p q\"$y", ⟨4, 2⟩, 6⟩], " RUN  x=\"p q\"$y\t"⟩
    line ∈ Entry.lines
        (Entry.ofScan (Token.scan "FROM a\nonbuild RUN \\\n # c\n x=\"p q\"$y\t\n")) ∧
      ∃ lead cells, (∀ b ∈ lead, Lexer.isBlank b) ∧ line.LaidOut lead cells ∧
        ∃ inner, nestedBy? 1 line = some inner ∧ inner.keyword = "RUN" ∧
          inner.LaidOut (lead ++ (cells.take 1).flatMap Cell.text) (cells.drop 1) := by
  intro line
  have hline : line ∈ Entry.lines
      (Entry.ofScan (Token.scan "FROM a\nonbuild RUN \\\n # c\n x=\"p q\"$y\t\n")) := by
    decide +kernel
  obtain ⟨lead, cells, hlead, hlaid, hnested⟩ := laidOut_of_mem_lines hline
  exact ⟨hline, lead, cells, hlead, hlaid, _, rfl, rfl, (hnested 1 _ rfl).1⟩

end LogicalLine

end Dockerfile
