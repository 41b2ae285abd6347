import Dockerfile.Proofs.Lexing.Barred

/-!
# Drafts of lines

The tokens of the arguments of an instruction are added to its line one by one (`Draft.add`). The
same tokens behind another word make the same line behind that word (`foldl_add_behind`): the words
stand further back, and the text behind the word is the text of the line (`behindFirst_behind`).

A line that is read up to the end of the text is one entry, or a fault (`ofTokensFrom_scanFrom`).
Where no lines are joined, its text is the text that was read (`raw_scanFrom`).
-/

namespace Dockerfile

open LogicalLine (Draft)

/-! ### Lines behind a word -/

/-- A word further back in its line. -/
def Word.shift (n : Nat) (w : Word) : Word := { w with offset := n + w.offset }

namespace LogicalLine

/-- A line whose arguments stand behind another word. `lead` is the text up to the end of that
word. -/
def behind (first : Word) (lead : String) (line : LogicalLine) : LogicalLine :=
  ⟨line.keyword, line.position, first :: line.words.map (·.shift lead.length), lead ++ line.raw⟩

/-- The text of a line behind its first word. -/
def behindFirst (line : LogicalLine) : String := line.rest line.words.tail

/-- The text behind another word is the whole text. -/
theorem behindFirst_behind (first : Word) (lead : String) (line : LogicalLine) :
    (line.behind first lead).behindFirst = line.rest line.words := by
  show (line.behind first lead).rest (line.words.map (·.shift lead.length)) = _
  cases line.words with
  | nil => rfl
  | cons w words =>
    show String.ofList (Text.stripChars ((lead ++ line.raw).toList.drop
      (lead.length + w.offset))) = line.textFrom w
    rw [String.toList_append, ← List.drop_drop, ← String.length_toList, List.drop_left, textFrom]

namespace Draft

/-- A draft whose arguments stand behind another word. -/
def behind (first : Word) (lead : String) (d : Draft) : Draft :=
  { d with words := d.words.map (·.shift lead.length) ++ [first], raw := lead ++ d.raw }

/-- There is a word that can go on. -/
def Grown (d : Draft) : Prop := d.inWord = true → d.words ≠ []

theorem finish_behind (first : Word) (lead : String) (d : Draft) :
    (d.behind first lead).finish = d.finish.behind first lead := by
  simp [finish, behind, LogicalLine.behind]

theorem words_piece_ne_nil (d : Draft) (t : Token) : (d.piece t).words ≠ [] := by
  unfold piece
  dsimp only
  split
  · exact List.cons_ne_nil _ _
  · exact List.cons_ne_nil _ _

variable {d : Draft} {w : Word}

theorem Grown.space (text : String) : (d.space text).Grown := by
  rintro ⟨⟩

theorem Grown.piece (t : Token) : (d.piece t).Grown :=
  fun _ => words_piece_ne_nil d t

theorem Grown.add (h : d.Grown) (t : Token) : (d.add t).Grown := by
  unfold Draft.add
  split
  · exact .space _
  · exact .piece t
  · exact .piece t
  · exact h

theorem space_behind (first : Word) (lead : String) (d : Draft) (text : String) :
    (d.behind first lead).space text = (d.space text).behind first lead := by
  simp [space, behind, String.append_assoc]

theorem piece_behind (first : Word) (lead : String) (h : d.Grown) (t : Token) :
    (d.behind first lead).piece t = (d.piece t).behind first lead := by
  obtain ⟨keyword, position, words, inWord, raw⟩ := d
  cases inWord with
  | false => simp [piece, behind, Word.shift, String.append_assoc]
  | true =>
    obtain ⟨w, others, rfl⟩ := List.exists_cons_of_ne_nil (h rfl)
    simp [piece, behind, Word.shift, String.append_assoc]

theorem add_behind (first : Word) (lead : String) (h : d.Grown) (t : Token) :
    (d.behind first lead).add t = (d.add t).behind first lead := by
  unfold add
  split
  · exact space_behind first lead d _
  · exact piece_behind first lead h t
  · exact piece_behind first lead h t
  · rfl

/-- The same tokens behind another word make the same line behind that word. -/
theorem foldl_add_behind (first : Word) (lead : String) (h : d.Grown) (tokens : List Token) :
    tokens.foldl add (d.behind first lead) = (tokens.foldl add d).behind first lead := by
  induction tokens generalizing d with
  | nil => rfl
  | cons t tokens ih => rw [List.foldl_cons, List.foldl_cons, add_behind first lead h, ih (h.add t)]

/-- Tokens of the arguments leave the keyword and its place. -/
theorem keyword_foldl_add (d : Draft) (tokens : List Token) :
    (tokens.foldl add d).keyword = d.keyword ∧ (tokens.foldl add d).position = d.position := by
  induction tokens generalizing d with
  | nil => exact ⟨rfl, rfl⟩
  | cons t tokens ih =>
    have hadd : (d.add t).keyword = d.keyword ∧ (d.add t).position = d.position := by
      unfold add
      split <;> exact ⟨rfl, rfl⟩
    rw [List.foldl_cons, (ih _).1, (ih _).2]
    exact hadd

theorem add_of_isWordPiece (d : Draft) {t : Token} (h : Lexer.IsWordPiece t) :
    d.add t = d.piece t := by
  obtain ⟨kind, text, position⟩ := t
  rcases h with rfl | rfl <;> rfl

theorem exists_getLast?_piece (h : d.words.getLast? = some w) (t : Token) :
    ∃ w', (d.piece t).words.getLast? = some w' ∧ w'.offset = w.offset := by
  obtain ⟨keyword, position, words, inWord, raw⟩ := d
  cases words with
  | nil => cases h
  | cons v others =>
    cases inWord with
    | false => exact ⟨w, List.getLast?_cons_cons.trans h, rfl⟩
    | true =>
      cases others with
      | nil =>
        cases h
        exact ⟨_, rfl, rfl⟩
      | cons u others => exact ⟨w, List.getLast?_cons_cons.trans (List.getLast?_cons_cons ▸ h), rfl⟩

/-- The first word stays where it is. -/
theorem exists_getLast?_foldl_add (h : d.words.getLast? = some w) (tokens : List Token) :
    ∃ w', (tokens.foldl add d).words.getLast? = some w' ∧ w'.offset = w.offset := by
  induction tokens generalizing d w with
  | nil => exact ⟨w, h, rfl⟩
  | cons t tokens ih =>
    have hpiece := exists_getLast?_piece h t
    have hadd : ∃ w', (d.add t).words.getLast? = some w' ∧ w'.offset = w.offset := by
      unfold add
      split
      · exact ⟨w, h, rfl⟩
      · exact hpiece
      · exact hpiece
      · exact ⟨w, h, rfl⟩
    obtain ⟨w', hw', hsame⟩ := hadd
    obtain ⟨w'', hw'', hlast⟩ := ih hw'
    exact ⟨w'', hw'', hlast.trans hsame⟩

/-- The text of a line is the one from its first word. -/
theorem rest_finish (h : d.words.getLast? = some w) :
    d.finish.rest d.finish.words =
      String.ofList (Text.stripChars (d.raw.toList.drop w.offset)) := by
  obtain ⟨others, hwords⟩ := List.getLast?_eq_some_iff.1 h
  have hreverse : d.finish.words = w :: others.reverse := by
    rw [finish, hwords, List.reverse_append]
    rfl
  rw [hreverse]
  rfl

end Draft

end LogicalLine

/-! ### Lines to the end -/

namespace Lexer

variable {e : Char} {s : State}

/-- The number of line ends among the tokens of a text. -/
def Scan.lineEnds (scan : Scan) : Nat := scan.tokens.countP (·.kind = .newline)

/-- The kind of the fault at which the tokens of a text end. -/
def Scan.faultKind (scan : Scan) : Option String := scan.fault.map (·.cause.kind)

/-- Where no lines are joined, none are in a later part. -/
theorem joinsLines_append {front back : List Char} (h : joinsLines e (front ++ back) = false) :
    joinsLines e back = false := by
  induction front with
  | nil => exact h
  | cons c front ih =>
    rw [List.cons_append, joinsLines, Bool.or_eq_false_iff] at h
    exact ih h.2

theorem continues_of_joinsLines {cs : List Char} (h : joinsLines e cs = false) :
    continues e cs = false := by
  cases cs with
  | nil => rfl
  | cons c cs => exact (Bool.or_eq_false_iff.1 h).1

/-- Within a line without joints, the words are read up to the end, and the text of the line is what
is passed. -/
theorem Move.raw_add {m m' : Mode} {e' : Char} {cs skip rest : List Char} {pieces : List Piece}
    (h : Move m e cs pieces skip m' e' rest) (hm : m.isWords) (hline : '\n' ∉ cs)
    (hjoins : joinsLines e cs = false) (d : Draft) (p : Position) : m'.isWords ∧ e' = e ∧
      ((placed p pieces).foldl Draft.add d).raw =
        d.raw ++ String.ofList (covered pieces ++ skip) := by
  cases h with
  | indent => cases hm
  | lineEnd => cases hm
  | comment => cases hm
  | lastComment => cases hm
  | keyword => cases hm
  | resume => cases hm
  | blankLine => cases hm
  | commentLine => cases hm
  | lastCommentLine => cases hm
  | lineDone => exact (hline List.mem_cons_self).elim
  | joint _ hcut =>
    have hwhole := continues_of_joinsLines hjoins
    rw [continues, hcut] at hwhole
    cases hwhole
  | arrayJoint ha hcut hdepth hjoint =>
    have hwhole := continues_of_joinsLines (joinsLines_append hjoins)
    rw [continues, hjoint] at hwhole
    cases hwhole
  | blanks => exact ⟨rfl, rfl, by simp [placed, Piece.token, Piece.plain, Draft.add, Draft.space]⟩
  | @quoted _ _ quote span rest =>
    have hspan : '\n' ∉ quote :: span := fun hmem => hline (List.mem_append_left _ hmem)
    refine ⟨rfl, rfl, ?_⟩
    simp [placed, Piece.token, Draft.add, Draft.piece, dropBreaks_of_notMem hspan]
  | reference | literal =>
    exact ⟨rfl, rfl, by simp [placed, Piece.token, Piece.plain, Draft.add, Draft.piece]⟩
  | @array _ _ _ _ _ lead span rest ha =>
    have hspan : '\n' ∉ lead ++ span := fun hmem => hline (List.mem_append_left _ hmem)
    refine ⟨rfl, rfl, ?_⟩
    rw [placed_arrayPieces, dropBreaks_of_notMem hspan]
    cases ha with
    | first => simp [Draft.add, Draft.piece]
    | later => cases hm

theorem Steps.raw_foldl_add {t : State} {tokens : List Token} (h : Steps s tokens t)
    (he : Template.IsEscape s.escape) (hs : s.mode.isWords) (hline : '\n' ∉ s.rest)
    (hjoins : joinsLines s.escape s.rest = false) (d : Draft) : ∃ passed,
      s.rest = passed ++ t.rest ∧
        (tokens.foldl Draft.add d).raw = d.raw ++ String.ofList passed := by
  induction h generalizing d with
  | refl s => exact ⟨[], rfl, by simp⟩
  | @cons s u t tokens more hstep _ ih =>
    obtain ⟨pieces, skip, hmove, rfl, -⟩ := move_of_step he hstep
    obtain ⟨hu, hescape, hraw⟩ := hmove.raw_add hs hline hjoins d s.position
    rw [hmove.covered_eq] at hline hjoins ⊢
    obtain ⟨passed, hpassed, hmore⟩ := ih (hmove.isEscape he) hu
      (fun hmem => hline (List.mem_append_right _ hmem))
      (by rw [hescape]; exact joinsLines_append hjoins)
      ((placed s.position pieces).foldl Draft.add d)
    refine ⟨covered pieces ++ skip ++ passed, by rw [hpassed, List.append_assoc _ passed], ?_⟩
    rw [List.foldl_append, hmore, hraw, String.append_assoc, ← String.ofList_append]

/-- The text of a line without joints that is read to the end. -/
theorem raw_scanFrom (he : Template.IsEscape s.escape) (hs : s.mode.isWords)
    (hline : '\n' ∉ s.rest) (hjoins : joinsLines s.escape s.rest = false)
    (hfault : (scanFrom s).fault = none) (d : Draft) :
    ((scanFrom s).tokens.foldl Draft.add d).raw = d.raw ++ String.ofList s.rest := by
  obtain ⟨tokens, t, hsteps, ⟨token, hfinished, hscan⟩ | ⟨fault, -, hscan⟩⟩ := exists_steps s
  · obtain ⟨hnil, rfl⟩ := step_finished hfinished
    obtain ⟨passed, hpassed, hraw⟩ := hsteps.raw_foldl_add he hs hline hjoins d
    rw [hnil, List.append_nil] at hpassed
    rw [hscan, List.foldl_append, hpassed, ← hraw]
    rfl
  · rw [hscan] at hfault
    cases hfault

/-- The entry of a line that is read to the end of the text, or to a fault. -/
def lastEntry (scan : Scan) (d : Draft) : Entry :=
  match scan.fault with
  | some fault => .broken fault
  | none => .line (scan.tokens.foldl Draft.add d).finish

theorem ofTokensFrom_scanFrom (he : Template.IsEscape s.escape) (hs : s.mode.isLine = false)
    (hline : ∀ x ∈ (scanFrom s).tokens, x.kind ≠ .newline) (d : Draft) :
    Entry.ofTokensFrom (scanFrom s).fault (some d) (scanFrom s).tokens =
      [lastEntry (scanFrom s) d] := by
  obtain ⟨tokens, t, hsteps, ⟨token, hfinished, hscan⟩ | ⟨fault, -, hscan⟩⟩ := exists_steps s
  · obtain ⟨-, rfl⟩ := step_finished hfinished
    rw [hscan] at hline ⊢
    obtain ⟨-, -, hinside⟩ := hsteps.isInside he hs fun x hx => hline x (List.mem_append_left _ hx)
    rw [Entry.feeds_inside d hinside, lastEntry, List.foldl_append]
    rfl
  · rw [hscan] at hline ⊢
    obtain ⟨-, -, hinside⟩ := hsteps.isInside he hs hline
    have hfeeds := Entry.feeds_inside d hinside (some fault) []
    rwa [List.append_nil] at hfeeds

/-- Before a space, it does not matter whether the last word is finished. -/
theorem scanFrom_space (he : Template.IsEscape e) {v w : Words} (h : v.finish = w.finish)
    (p : Position) (cs : List Char) :
    scanFrom ⟨.argument (.words v), e, p, ' ' :: cs⟩ =
      scanFrom ⟨.argument (.words w), e, p, ' ' :: cs⟩ := by
  obtain ⟨blanks, rest, -, -, -, hsteps⟩ := exists_steps_space he cs
  rw [scanFrom_of_steps (hsteps v p), scanFrom_of_steps (hsteps w p), h]

end Lexer

end Dockerfile
