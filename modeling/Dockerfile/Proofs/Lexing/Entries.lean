import Dockerfile.Proofs.Lexing.Moves

/-!
# Entries of a run

The tokens of a text are grouped into entries as the lexer makes them: at the start of a line no
logical line is open, among arguments one is (`Fits`), and the tokens of some steps add entries and
leave a draft (`exists_feeds`). A line that is closed ends the directives of a file, so the escape
character behind the directives is the one that the lexer has among arguments (`escape_of_steps`).
-/

namespace Dockerfile

open LogicalLine (Draft)

namespace Entry

/-! ### Feeding tokens -/

/-- Is an entry a comment or the end of a line without an instruction? -/
def isSilent : Entry → Bool
  | .comment _ => true
  | .lineEnd => true
  | _ => false

/-- Tokens that add entries and turn a draft into another one, whatever follows them. -/
def Feeds (draft : Option Draft) (tokens : List Token) (entries : List Entry)
    (draft' : Option Draft) : Prop :=
  ∀ fault more, ofTokensFrom fault draft (tokens ++ more) =
    entries ++ ofTokensFrom fault draft' more

theorem feeds_nil (draft : Option Draft) : Feeds draft [] [] draft := fun _ _ => rfl

theorem Feeds.append {draft draft' draft'' : Option Draft} {tokens more : List Token}
    {entries others : List Entry} (h : Feeds draft tokens entries draft')
    (hmore : Feeds draft' more others draft'') :
    Feeds draft (tokens ++ more) (entries ++ others) draft'' := by
  intro fault rest
  rw [List.append_assoc, h, hmore, List.append_assoc]

end Entry

namespace Lexer

open Entry

/-- Is the machine at the start of a line? -/
def Mode.isLine : Mode → Bool
  | .line _ => true
  | .argument _ => false
  | .continued _ => false

/-- A logical line is being read just where the machine is among arguments. -/
def Fits (m : Mode) (draft : Option Draft) : Prop := draft.isNone = m.isLine

/-- Does a list of entries hold a logical line? -/
def HasLine (entries : List Entry) : Prop := ∃ line, Entry.line line ∈ entries

theorem HasLine.append_left {entries : List Entry} (others : List Entry) (h : HasLine entries) :
    HasLine (others ++ entries) := by
  obtain ⟨line, hline⟩ := h
  exact ⟨line, List.mem_append_right others hline⟩

variable {m m' : Mode} {e e' : Char} {cs skip rest : List Char} {pieces : List Piece}

theorem fits_start (text : List Char) : Fits (State.start text).mode none := rfl

variable {t s : State} {tokens : List Token} {draft : Option Draft} {text : List Char}

theorem Fits.line {window : Bool} (h : Fits (.line window) draft) : draft = none :=
  Option.isNone_iff_eq_none.1 h

theorem Fits.inside (h : Fits m draft) (hm : m.isLine = false) : ∃ d, draft = some d := by
  rw [Fits, hm] at h
  exact Option.isSome_iff_exists.1 (Option.isNone_eq_false_iff.1 h)

theorem feeds_arrayPieces (d : Draft) (span : List Char) (p : Position) :
    ∃ d', Feeds (some d) (placed p (arrayPieces e span)) [] (some d') := by
  unfold arrayPieces
  split
  · exact ⟨d, feeds_nil _⟩
  · exact ⟨_, fun _ _ => rfl⟩

/-- Is there the keyword of an instruction among some tokens? -/
def HasKeyword (tokens : List Token) : Prop := ∃ t ∈ tokens, t.kind = .instruction

/-- The tokens of a move at the start of a line. A keyword opens a line. -/
theorem Move.exists_feeds_line {window : Bool} (h : Move (.line window) e cs pieces skip m' e' rest)
    (p : Position) : ∃ entries draft, Feeds none (placed p pieces) entries draft ∧ Fits m' draft ∧
      (∀ x ∈ entries, x.isSilent) ∧ (HasKeyword (placed p pieces) → m'.isLine = false) := by
  cases h with
  | indent =>
    refine ⟨[], none, fun _ _ => rfl, rfl, List.forall_mem_nil _, ?_⟩
    simp [HasKeyword, placed, Piece.token, Piece.plain]
  | lineEnd =>
    refine ⟨[.lineEnd], none, fun _ _ => rfl, rfl, by simp [isSilent], ?_⟩
    simp [HasKeyword, placed, Piece.token, Piece.plain]
  | comment =>
    refine ⟨[.comment _, .lineEnd], none, fun _ _ => rfl, rfl, by simp [isSilent], ?_⟩
    simp [HasKeyword, placed, Piece.token, Piece.plain]
  | lastComment =>
    refine ⟨[.comment _], none, fun _ _ => rfl, rfl, by simp [isSilent], ?_⟩
    simp [HasKeyword, placed, Piece.token, Piece.plain]
  | keyword =>
    exact ⟨[], some (.start _), fun _ _ => rfl, rfl, List.forall_mem_nil _, fun _ => rfl⟩

/-- The tokens of a move among arguments. Where it leaves them, it closes a line. -/
theorem Move.exists_feeds_inside (h : Move m e cs pieces skip m' e' rest) (hm : m.isLine = false)
    (d : Draft) (p : Position) :
    (m'.isLine ∧ Feeds (some d) (placed p pieces) [.line d.finish] none) ∨
      ∃ d', Feeds (some d) (placed p pieces) [] (some d') ∧ m'.isLine = false := by
  cases h with
  | indent | lineEnd | comment | lastComment | keyword => cases hm
  | lineDone => exact .inl ⟨rfl, fun _ _ => rfl⟩
  | joint => exact .inr ⟨d, fun _ _ => rfl, rfl⟩
  | blanks | quoted | reference | literal => exact .inr ⟨_, fun _ _ => rfl, rfl⟩
  | @array _ _ _ _ _ lead span =>
    obtain ⟨d', hfeeds⟩ := feeds_arrayPieces (e := e) d (lead ++ span) p
    exact .inr ⟨d', hfeeds, rfl⟩
  | @arrayJoint _ _ _ _ _ lead span joint =>
    obtain ⟨d', hfeeds⟩ := feeds_arrayPieces (e := e) d (lead ++ span) p
    refine .inr ⟨d', ?_, rfl⟩
    rw [placed_append]
    exact hfeeds.append (fun _ _ => rfl)
  | resume | blankLine | commentLine | lastCommentLine => exact .inr ⟨d, fun _ _ => rfl, rfl⟩

/-- The tokens of some steps fit the modes. Behind a keyword the arguments are left only by closing
a line. -/
theorem Steps.exists_feeds (h : Steps s tokens t) (he : Template.IsEscape s.escape)
    (hfits : Fits s.mode draft) :
    ∃ entries draft', Feeds draft tokens entries draft' ∧ Fits t.mode draft' ∧
      (t.mode.isLine → s.mode.isLine = false ∨ HasKeyword tokens → HasLine entries) := by
  induction h generalizing draft with
  | refl s =>
    refine ⟨[], draft, feeds_nil draft, hfits, ?_⟩
    rintro hline (hinside | ⟨t, ht, -⟩)
    · rw [hline] at hinside
      cases hinside
    · cases ht
  | @cons s t u tokens more hstep _ ih =>
    obtain ⟨pieces, skip, hmove, rfl, -⟩ := move_of_step he hstep
    have he' := hmove.isEscape he
    cases hm : s.mode with
    | line window =>
      rw [hm] at hmove hfits
      obtain ⟨entries, draft', hfeeds, hfits', -, hkeyword⟩ := hmove.exists_feeds_line s.position
      obtain ⟨others, draft'', hmore, hfits'', hline⟩ := ih he' hfits'
      rw [hfits.line]
      refine ⟨_, draft'', hfeeds.append hmore, hfits'', ?_⟩
      rintro hu (hinside | ⟨token, htoken, hkind⟩)
      · cases hinside
      · refine HasLine.append_left entries (hline hu ?_)
        rcases List.mem_append.1 htoken with htoken | htoken
        · exact .inl (hkeyword ⟨token, htoken, hkind⟩)
        · exact .inr ⟨token, htoken, hkind⟩
    | _ =>
      have hinside : s.mode.isLine = false := by rw [hm]; rfl
      obtain ⟨d, rfl⟩ := hfits.inside hinside
      rcases hmove.exists_feeds_inside hinside d s.position with ⟨ht, hfeeds⟩ | ⟨d', hfeeds, ht⟩
      · obtain ⟨others, draft'', hmore, hfits'', -⟩ := ih he' (show Fits _ none from ht.symm)
        exact ⟨_, draft'', hfeeds.append hmore, hfits'', fun _ _ => ⟨_, List.mem_cons_self⟩⟩
      · obtain ⟨others, draft'', hmore, hfits'', hline⟩ :=
          ih he' (show Fits _ (some d') from ht.symm)
        exact ⟨_, draft'', hfeeds.append hmore, hfits'', fun hu _ => hline hu (.inl ht)⟩

/-! ### Directives -/

/-- The directives of a file end at a line, and before entries that hold none at their front. -/
theorem directivesFrom_append {entries more : List Entry}
    (h : HasLine entries ∨ ∀ behind, directivesFrom behind more = []) (behind : Bool) :
    directivesFrom behind (entries ++ more) = directivesFrom behind entries := by
  have hline {x : Entry} {rest : List Entry} (hx : ∀ line, Entry.line line ≠ x)
      (h : HasLine (x :: rest)) : HasLine rest := by
    obtain ⟨line, hline⟩ := h
    exact ⟨line, (List.mem_cons.1 hline).resolve_left (hx line)⟩
  fun_induction directivesFrom behind entries with
  | case1 behind t rest d hd ih =>
    rw [List.cons_append, directivesFrom, hd]
    exact congrArg _ (ih (h.imp_left (hline fun _ => Entry.noConfusion)))
  | case2 behind t rest hd => rw [List.cons_append, directivesFrom, hd]
  | case3 rest ih =>
    rw [List.cons_append, directivesFrom, if_pos rfl]
    exact ih (h.imp_left (hline fun _ => Entry.noConfusion))
  | case4 behind rest hbehind => rw [List.cons_append, directivesFrom, if_neg hbehind]
  | case5 entries behind hcomment hend =>
    cases entries with
    | nil =>
      rcases h with ⟨line, hline⟩ | h
      · cases hline
      · exact h behind
    | cons entry rest =>
      cases entry with
      | comment t => exact (hcomment t rest rfl).elim
      | lineEnd => exact (hend rest rfl).elim
      | _ => rfl

/-- An open line ends the directives. -/
theorem directivesFrom_open (behind : Bool) (fault : Option Fault) (d : Draft)
    (tokens : List Token) : directivesFrom behind (ofTokensFrom fault (some d) tokens) = [] := by
  induction tokens generalizing d with
  | nil =>
    unfold ofTokensFrom
    cases fault <;> rfl
  | cons t tokens ih =>
    unfold ofTokensFrom
    cases t.kind with
    | newline | eof | instruction => rfl
    | _ => exact ih _

/-- The escape character that directives leave where another one counted before them. -/
def escapeFrom (e : Char) (directives : List (Directive × Position)) : Char :=
  ((directives.filterMap fun d => d.1.escape?).getLast?).getD e

theorem escapeFrom_cons (e : Char) (d : Directive) (p : Position)
    (directives : List (Directive × Position)) :
    escapeFrom e ((d, p) :: directives) = escapeFrom (escapeBehind e (some d)) directives := by
  unfold escapeFrom escapeBehind
  rw [List.filterMap_cons, Option.bind_some]
  cases d.escape? with
  | none => rfl
  | some c =>
    dsimp only
    rw [List.getLast?_cons]
    rfl

theorem directivesFrom_of_directive {d : Directive} (h : directiveIn true text = some d)
    (behind : Bool) (p : Position) (entries : List Entry) :
    directivesFrom behind (.comment ⟨.comment, String.ofList text, p⟩ :: entries) =
      (d, p) :: directivesFrom true entries := by
  rw [directivesFrom, show Directive.parse? (String.ofList text) = some d from h]

theorem directivesFrom_of_comment (h : directiveIn true text = none) (behind : Bool) (p : Position)
    (entries : List Entry) :
    directivesFrom behind (.comment ⟨.comment, String.ofList text, p⟩ :: entries) = [] := by
  rw [directivesFrom, show Directive.parse? (String.ofList text) = none from h]

/-- Where directives count, the escape character that the directives ahead leave; elsewhere the
escape character as it is. -/
def State.finalEscape (s : State) : Char :=
  match s.mode with
  | .line true => escapeFrom s.escape (directives (ofScan (scanFrom s)))
  | _ => s.escape

/-- At the top of a text a comment may set the escape character. -/
theorem finalEscape_comment {p : Position} (hmode : t.mode = .line (directiveIn true text).isSome)
    (hescape : t.escape = escapeBehind e (directiveIn true text)) (entries : List Entry)
    (hentries : directivesFrom true entries = directives (ofScan (scanFrom t))) :
    t.finalEscape =
      escapeFrom e (directives (.comment ⟨.comment, String.ofList text, p⟩ :: entries)) := by
  cases hd : directiveIn true text with
  | none =>
    rw [hd] at hmode hescape
    rw [directives, directivesFrom_of_comment hd, State.finalEscape, hmode]
    exact hescape
  | some d =>
    rw [hd] at hmode hescape
    rw [directives, directivesFrom_of_directive hd, hentries, escapeFrom_cons, ← hescape,
      State.finalEscape, hmode]
    rfl

/-- A step does not change the final escape character. -/
theorem finalEscape_of_step (he : Template.IsEscape s.escape) (h : step s = .next tokens t) :
    t.finalEscape = s.finalEscape := by
  obtain ⟨pieces, skip, hmove, rfl, -⟩ := move_of_step he h
  have hscan := scanFrom_of_step h
  obtain ⟨mode, e, p, cs⟩ := s
  obtain ⟨mode', e', p', rest⟩ := t
  dsimp only at hmove
  cases mode with
  | line window =>
    cases window with
    | true =>
      have hfinal : State.finalEscape ⟨.line true, e, p, cs⟩ =
        escapeFrom e (directives (ofScan (scanFrom ⟨.line true, e, p, cs⟩))) := rfl
      rw [hfinal, hscan]
      cases hmove with
      | indent | lineEnd => rfl
      | comment => exact finalEscape_comment rfl rfl (.lineEnd :: _) rfl
      | lastComment =>
        refine finalEscape_comment rfl rfl _ ?_
        rw [scanFrom_of_finished
          (show step ⟨.line _, _, p', []⟩ = .finished ⟨.eof, "", p'⟩ from rfl)]
        rfl
      | keyword => exact (congrArg (escapeFrom e) (directivesFrom_open false _ _ _)).symm
    | false =>
      cases hmove with
      | _ => rfl
  | _ =>
    cases hmove with
    | _ => rfl

theorem finalEscape_of_steps (he : Template.IsEscape s.escape) (h : Steps s tokens t) :
    t.finalEscape = s.finalEscape := by
  induction h with
  | refl s => rfl
  | cons hstep hmore ih =>
    rw [ih ((Steps.single hstep).isEscape he), finalEscape_of_step he hstep]

/-- Behind the first lines of a text the escape character is the one that its directives leave. -/
theorem escape_of_steps {source : String}
    (h : Steps (.start (Text.feedsOfPairs source.toList)) tokens t) (hmode : t.mode ≠ .line true) :
    t.escape = Document.escapeOf source := by
  have hfinal := finalEscape_of_steps (.inl rfl) h
  rw [State.finalEscape] at hfinal
  split at hfinal
  · exact (hmode (by assumption)).elim
  · exact hfinal

end Lexer

end Dockerfile
