import Dockerfile.Proofs.Document
import Dockerfile.Proofs.Lexing.Cuts

/-!
# Moves

What one step of the lexer can do. A `Move` says which text a step passes and what it makes of it,
without saying where the text stands: its tokens are pieces that are placed later (`placed`). Every
step that goes on is a move (`move_of_step`), and every move is a step (`step_of_move`).

A text is read in a number of steps (`Steps`). What they pass and what they leave make it up, and
every token stands at a place that they pass.
-/

namespace Dockerfile.Lexer

open Template (IsEscape)

/-! ### Pieces -/

/-- A token that is not placed yet: the text that is passed before it, the span that it covers, and
its own text. -/
structure Piece where
  gap : List Char
  kind : Token.Kind
  span : List Char
  text : List Char

namespace Piece

/-- A piece whose text is its span. -/
def plain (kind : Token.Kind) (span : List Char) : Piece := ⟨[], kind, span, span⟩

/-- The text that a piece takes. -/
def whole (x : Piece) : List Char := x.gap ++ x.span

/-- The token of a piece whose text starts at a place. -/
def token (p : Position) (x : Piece) : Token := ⟨x.kind, String.ofList x.text, p.after x.gap⟩

end Piece

/-- The text that pieces take. -/
def covered (pieces : List Piece) : List Char := pieces.flatMap Piece.whole

/-- The tokens of pieces whose text starts at a place. -/
def placed (p : Position) : List Piece → List Token
  | [] => []
  | x :: rest => x.token p :: placed (p.after x.whole) rest

@[simp] theorem covered_nil : covered [] = [] := rfl

@[simp] theorem covered_cons (x : Piece) (pieces : List Piece) :
    covered (x :: pieces) = x.gap ++ x.span ++ covered pieces := rfl

@[simp] theorem covered_append (a b : List Piece) : covered (a ++ b) = covered a ++ covered b :=
  List.flatMap_append

theorem placed_append (p : Position) (a b : List Piece) :
    placed p (a ++ b) = placed p a ++ placed (p.after (covered a)) b := by
  induction a generalizing p with
  | nil => rfl
  | cons x a ih =>
    rw [List.cons_append, placed, placed, ih, ← Position.after_append]
    rfl

/-! ### Moves -/

/-- The directive that a comment is, in a place where directives count. -/
def directiveIn (window : Bool) (comment : List Char) : Option Directive :=
  if window then Directive.parse? (String.ofList comment) else none

/-- The escape character behind a comment. -/
def escapeBehind (escape : Char) (directive : Option Directive) : Char :=
  (directive.bind Directive.escape?).getD escape

theorem isEscape_escapeBehind {escape : Char} (h : IsEscape escape)
    (directive : Option Directive) : IsEscape (escapeBehind escape directive) := by
  unfold escapeBehind
  cases hbind : directive.bind Directive.escape? with
  | none => exact h
  | some c =>
    obtain ⟨d, -, hc⟩ := Option.bind_eq_some_iff.1 hbind
    exact Document.isEscape_of_directive hc

/-- Does a text among words start with plain characters? -/
def startsLiteral (escape : Char) (w : Words) : List Char → Bool
  | [] => false
  | c :: rest =>
    c ≠ '\n' && !continues escape (c :: rest) && !isBlank c &&
      !(c = '[' && w.word.isEmpty && w.allowArray) && !isQuote c &&
      !(c = '$' && startsVariable rest)

/-- Where a piece of an array is read: the words before it, the number of open brackets, and the
characters of the piece that are read already. -/
inductive InArray : Argument → Words → Nat → List Char → Prop where
  | first {w : Words} (hword : w.word.isEmpty) (hallow : w.allowArray) :
    InArray (.words w) w 1 ['[']
  | later (depth : Nat) (w : Words) : InArray (.array depth w) w depth []

/-- The piece of an array, unless it is empty. -/
def arrayPieces (escape : Char) (span : List Char) : List Piece :=
  if span.isEmpty then [] else [⟨[], .string, span, dropBreaks escape span⟩]

/-- What a step does in a mode, with an escape character, at a text: it makes pieces, passes more
text, and goes on in another mode, with another escape character, at the rest of the text. -/
inductive Move : Mode → Char → List Char → List Piece → List Char → Mode → Char → List Char →
    Prop where
  | indent {window : Bool} {e : Char} {blanks rest : List Char} (hne : blanks ≠ [])
    (hblanks : ∀ b ∈ blanks, isBlank b) (hrest : Stops isBlank rest) :
    Move (.line window) e (blanks ++ rest) [.plain .whitespace blanks] [] (.line window) e rest
  | lineEnd (window : Bool) (e : Char) (rest : List Char) :
    Move (.line window) e ('\n' :: rest) [.plain .newline ['\n']] [] (.line false) e rest
  | comment (window : Bool) (e : Char) {text : List Char} (htext : '\n' ∉ text) (rest : List Char) :
    Move (.line window) e ('#' :: text ++ '\n' :: rest)
      [.plain .comment ('#' :: text), .plain .newline ['\n']] []
      (.line (directiveIn window ('#' :: text)).isSome)
      (escapeBehind e (directiveIn window ('#' :: text))) rest
  | lastComment (window : Bool) (e : Char) {text : List Char} (htext : '\n' ∉ text) :
    Move (.line window) e ('#' :: text) [.plain .comment ('#' :: text)] []
      (.line (directiveIn window ('#' :: text)).isSome)
      (escapeBehind e (directiveIn window ('#' :: text))) []
  | keyword (window : Bool) {e : Char} {span rest : List Char}
    (hhead : (span ++ rest).head?.any isSolid) (hcut : keyword e (span ++ rest) = (span, rest)) :
    Move (.line window) e (span ++ rest) [.plain .instruction span] []
      (.argument (.words ⟨true, []⟩)) e rest
  | lineDone (w : Words) (e : Char) (rest : List Char) :
    Move (.argument (.words w)) e ('\n' :: rest) [.plain .newline ['\n']] [] (.line false) e rest
  | joint (w : Words) {e : Char} {span rest : List Char}
    (hcut : continuation? e (span ++ rest) = some (span, rest)) :
    Move (.argument (.words w)) e (span ++ rest) [.plain .continuation span] []
      (.continued (.words w)) e rest
  | blanks (w : Words) {e : Char} {blanks rest : List Char} (hne : blanks ≠ [])
    (hblanks : ∀ b ∈ blanks, isBlank b) (hrest : Stops isBlank rest) :
    Move (.argument (.words w)) e (blanks ++ rest) [.plain .whitespace blanks] []
      (.argument (.words w.finish)) e rest
  | quoted (w : Words) {e quote : Char} {span rest : List Char} (hquote : isQuote quote)
    (hwhole : continues e (quote :: (span ++ rest)) = false)
    (hcut : quoted? e quote false (span ++ rest) = some (span, rest)) :
    Move (.argument (.words w)) e (quote :: span ++ rest)
      [⟨[], .string, quote :: span, dropBreaks e (quote :: span)⟩] []
      (.argument (.words (w.extend (dropBreaks e (quote :: span))))) e rest
  | reference (w : Words) {e : Char} {span rest : List Char}
    (hstart : startsVariable (span ++ rest))
    (hcut : reference? (span ++ rest) = some (span, rest)) :
    Move (.argument (.words w)) e ('$' :: span ++ rest) [.plain .reference ('$' :: span)] []
      (.argument (.words (w.extend ('$' :: span)))) e rest
  | literal (w : Words) {e : Char} {span rest : List Char}
    (hstart : startsLiteral e w (span ++ rest)) (hcut : literal e (span ++ rest) = (span, rest)) :
    Move (.argument (.words w)) e (span ++ rest) [.plain .string span] []
      (.argument (.words (w.extend span))) e rest
  | array {a : Argument} {w : Words} {e : Char} {depth depth' : Nat} {lead span rest : List Char}
    (ha : InArray a w depth lead)
    (hcut : segment e depth (span ++ rest) = .ok ⟨span, depth', rest⟩)
    (hend : depth' = 0 ∨ continues e rest = false) :
    Move (.argument a) e (lead ++ span ++ rest) (arrayPieces e (lead ++ span)) []
      (.argument (.words (w.extend (dropBreaks e (lead ++ span))))) e rest
  | arrayJoint {a : Argument} {w : Words} {e : Char} {depth depth' : Nat}
    {lead span joint rest : List Char} (ha : InArray a w depth lead)
    (hcut : segment e depth (span ++ (joint ++ rest)) = .ok ⟨span, depth', joint ++ rest⟩)
    (hdepth : depth' ≠ 0) (hjoint : continuation? e (joint ++ rest) = some (joint, rest)) :
    Move (.argument a) e (lead ++ span ++ (joint ++ rest))
      (arrayPieces e (lead ++ span) ++ [.plain .continuation joint]) []
      (.continued (.array depth' (w.extend (dropBreaks e (lead ++ span))))) e rest
  | resume (a : Argument) (e : Char) {cs : List Char}
    (hcs : ∀ c ∈ (cs.dropWhile isBlank).head?, c ≠ '\n' ∧ c ≠ '#') :
    Move (.continued a) e cs [] [] (.argument a) e cs
  | blankLine (a : Argument) (e : Char) {blanks : List Char} (hblanks : ∀ b ∈ blanks, isBlank b)
    (rest : List Char) :
    Move (.continued a) e (blanks ++ '\n' :: rest) [] (blanks ++ ['\n']) (.continued a) e rest
  | commentLine (a : Argument) (e : Char) {blanks text : List Char}
    (hblanks : ∀ b ∈ blanks, isBlank b) (htext : '\n' ∉ text) (rest : List Char) :
    Move (.continued a) e (blanks ++ ('#' :: text ++ '\n' :: rest))
      [⟨blanks, .comment, '#' :: text, '#' :: text⟩] ['\n'] (.continued a) e rest
  | lastCommentLine (a : Argument) (e : Char) {blanks text : List Char}
    (hblanks : ∀ b ∈ blanks, isBlank b) (htext : '\n' ∉ text) :
    Move (.continued a) e (blanks ++ '#' :: text) [⟨blanks, .comment, '#' :: text, '#' :: text⟩] []
      (.continued a) e []

@[simp] theorem covered_arrayPieces (e : Char) (span : List Char) :
    covered (arrayPieces e span) = span := by
  unfold arrayPieces
  split
  · rename_i h
    rw [List.isEmpty_iff.1 h]
    rfl
  · simp

@[simp] theorem mem_arrayPieces {e : Char} {span : List Char} {x : Piece} :
    x ∈ arrayPieces e span ↔ x = ⟨[], .string, span, dropBreaks e span⟩ ∧ span ≠ [] := by
  unfold arrayPieces
  split <;> simp_all

theorem placed_arrayPieces (e : Char) (span : List Char) (p : Position) :
    placed p (arrayPieces e span) =
      if span.isEmpty then [] else [⟨.string, String.ofList (dropBreaks e span), p⟩] := by
  unfold arrayPieces
  split
  · rfl
  · rfl

variable {m m' : Mode} {e e' : Char} {cs skip rest : List Char} {pieces : List Piece}

/-- What a move takes and what it leaves make up its text. -/
theorem Move.covered_eq (h : Move m e cs pieces skip m' e' rest) :
    cs = covered pieces ++ skip ++ rest := by
  cases h <;> simp [Piece.plain]

theorem Move.isEscape (h : Move m e cs pieces skip m' e' rest) (he : IsEscape e) :
    IsEscape e' := by
  cases h with
  | comment | lastComment => exact isEscape_escapeBehind he _
  | _ => exact he

/-! ### Steps are moves -/

/-- The part of a text up to the end of its first line. -/
theorem exists_line (cs : List Char) : ∃ text, '\n' ∉ text ∧ cs.takeWhile (· ≠ '\n') = text ∧
    (cs = text ∧ cs.dropWhile (· ≠ '\n') = [] ∨
      ∃ rest, cs = text ++ '\n' :: rest ∧ cs.dropWhile (· ≠ '\n') = '\n' :: rest) := by
  have hsplit := List.takeWhile_append_dropWhile (p := (· ≠ '\n')) (l := cs)
  have hstops := stops_dropWhile (· ≠ '\n') cs
  refine ⟨cs.takeWhile (· ≠ '\n'), fun hmem => ?_, rfl, ?_⟩
  · simpa using List.mem_takeWhile_imp hmem
  · cases hdrop : cs.dropWhile (· ≠ '\n') with
    | nil =>
      rw [hdrop, List.append_nil] at hsplit
      exact .inl ⟨hsplit.symm, rfl⟩
    | cons c rest =>
      rw [hdrop] at hsplit hstops
      obtain rfl : c = '\n' := by simpa using hstops c rfl
      exact .inr ⟨rest, hsplit.symm, rfl⟩

/-- The blanks at the front of a text. -/
theorem exists_blanks (cs : List Char) : ∃ blanks rest, cs = blanks ++ rest ∧
    (∀ b ∈ blanks, isBlank b) ∧ Stops isBlank rest ∧ cs.takeWhile isBlank = blanks ∧
    cs.dropWhile isBlank = rest :=
  ⟨_, _, List.takeWhile_append_dropWhile.symm, fun _ hb => List.mem_takeWhile_imp hb,
    stops_dropWhile isBlank cs, rfl, rfl⟩

section Steps

variable {t : State} {tokens : List Token} {window : Bool} {w : Words} {p : Position}

/-- A step that goes on is some move. -/
def MovesTo (s : State) (tokens : List Token) (t : State) : Prop :=
  ∃ pieces skip, Move s.mode s.escape s.rest pieces skip t.mode t.escape t.rest ∧
    tokens = placed s.position pieces ∧ t.position = s.position.after (covered pieces ++ skip)

theorem movesTo_commentStep
    (h : commentStep ⟨.line window, e, p, '#' :: cs⟩ window ('#' :: cs) = .next tokens t) :
    MovesTo ⟨.line window, e, p, '#' :: cs⟩ tokens t := by
  obtain ⟨text, htext, htake, hdrop⟩ := exists_line cs
  have htake' : ('#' :: cs).takeWhile (· ≠ '\n') = '#' :: text := by
    rw [List.takeWhile_cons_of_pos (by decide), htake]
  have hdrop' : ('#' :: cs).dropWhile (· ≠ '\n') = cs.dropWhile (· ≠ '\n') :=
    List.dropWhile_cons_of_pos (by decide)
  unfold commentStep at h
  dsimp only at h
  rw [htake', hdrop'] at h
  rcases hdrop with ⟨rfl, hdrop⟩ | ⟨rest, rfl, hdrop⟩
  · rw [hdrop] at h
    cases h
    exact ⟨_, _, .lastComment window e htext, rfl, by simp [State.pass, Piece.plain]⟩
  · rw [hdrop] at h
    cases h
    exact ⟨_, _, .comment window e htext rest, rfl, by simp [State.pass, Piece.plain]⟩

theorem movesTo_lineStep
    (h : lineStep ⟨.line window, e, p, cs⟩ window cs = .next tokens t) :
    MovesTo ⟨.line window, e, p, cs⟩ tokens t := by
  cases cs with
  | nil => cases h
  | cons c cs =>
    rw [lineStep] at h
    split at h
    · rename_i hc
      obtain ⟨blanks, rest, rfl, hblanks, hrest, htake, hdrop⟩ := exists_blanks cs
      rw [htake, hdrop] at h
      cases h
      exact ⟨_, _, .indent (List.cons_ne_nil c blanks) (List.forall_mem_cons.2 ⟨hc, hblanks⟩) hrest,
        rfl, by simp [State.pass, Piece.plain]⟩
    · rename_i hblank
      split at h
      · rename_i hc
        subst hc
        cases h
        exact ⟨_, _, .lineEnd window e cs, rfl, rfl⟩
      · rename_i hline
        split at h
        · rename_i hc
          subst hc
          exact movesTo_commentStep h
        · rename_i hhash
          have hhead : (c :: cs).head?.any isSolid := by simp [isSolid, hblank, hline, hhash]
          have hcut := keyword_append e (c :: cs)
          dsimp only at h
          generalize hkeyword : Lexer.keyword e (c :: cs) = cut at h hcut
          obtain ⟨span, rest⟩ := cut
          cases h
          rw [← hcut] at hkeyword hhead ⊢
          exact ⟨_, _, .keyword window hhead hkeyword, rfl, by simp [State.pass, Piece.plain]⟩

theorem movesTo_arrayStep {a : Argument} {depth : Nat} {lead : List Char}
    (he : IsEscape e) (ha : InArray a w depth lead)
    (h : arrayStep ⟨.argument a, e, p, lead ++ cs⟩ w depth lead cs = .next tokens t) :
    MovesTo ⟨.argument a, e, p, lead ++ cs⟩ tokens t := by
  unfold arrayStep at h
  dsimp only at h
  split at h
  · cases h
  · rename_i piece hsegment
    obtain ⟨span, depth', rest⟩ := piece
    obtain ⟨rfl, -, -⟩ := segment_eq_ok he hsegment
    dsimp only at h
    rw [← placed_arrayPieces] at h
    rw [← List.append_assoc]
    split at h
    · rename_i hdepth
      cases h
      exact ⟨_, _, .array ha hsegment (.inl hdepth), rfl, by simp [State.pass]⟩
    · rename_i hdepth
      split at h
      · rename_i joint rest' hjoint
        obtain ⟨rfl, -⟩ := continuation?_eq_some hjoint
        cases h
        exact ⟨_, _, .arrayJoint ha hsegment hdepth hjoint,
          by simp [placed_append, placed, Piece.token, Piece.plain],
          by simp [State.pass, Piece.plain]⟩
      · rename_i hwhole
        cases h
        exact ⟨_, _, .array ha hsegment (.inr (by simp [continues, hwhole])), rfl,
          by simp [State.pass]⟩

theorem movesTo_wordsStep (he : IsEscape e)
    (h : wordsStep ⟨.argument (.words w), e, p, cs⟩ w cs = .next tokens t) :
    MovesTo ⟨.argument (.words w), e, p, cs⟩ tokens t := by
  cases cs with
  | nil => cases h
  | cons c cs =>
    rw [wordsStep] at h
    split at h
    · rename_i hc
      subst hc
      cases h
      exact ⟨_, _, .lineDone w e cs, rfl, rfl⟩
    · rename_i hline
      dsimp only at h
      split at h
      · rename_i span rest hjoint
        obtain ⟨hcs, -⟩ := continuation?_eq_some hjoint
        rw [hcs] at hjoint ⊢
        cases h
        exact ⟨_, _, .joint w hjoint, rfl, by simp [State.pass, Piece.plain]⟩
      · rename_i hwhole
        split at h
        · rename_i hc
          obtain ⟨blanks, rest, rfl, hblanks, hrest, htake, hdrop⟩ := exists_blanks cs
          rw [htake, hdrop] at h
          cases h
          exact ⟨_, _, .blanks w (List.cons_ne_nil c blanks)
            (List.forall_mem_cons.2 ⟨hc, hblanks⟩) hrest, rfl, by simp [State.pass, Piece.plain]⟩
        · rename_i hblank
          split at h
          · rename_i harray
            rw [Bool.and_eq_true, Bool.and_eq_true, decide_eq_true_eq] at harray
            obtain ⟨⟨rfl, hword⟩, hallow⟩ := harray
            exact movesTo_arrayStep he (.first hword hallow) h
          · rename_i harray
            split at h
            · rename_i hquote
              split at h
              · rename_i span rest hquoted
                obtain ⟨rfl, -, -⟩ := quoted?_eq_some he hquoted
                cases h
                exact ⟨_, _, .quoted w hquote (by simp [continues, hwhole]) hquoted, rfl,
                  by simp [State.pass]⟩
              · cases h
            · rename_i hquote
              split at h
              · rename_i hdollar
                rw [Bool.and_eq_true, decide_eq_true_eq] at hdollar
                obtain ⟨rfl, hstart⟩ := hdollar
                split at h
                · rename_i span rest hreference
                  obtain ⟨rfl, -⟩ := reference?_eq_some hreference
                  cases h
                  exact ⟨_, _, .reference w hstart hreference, rfl,
                    by simp [State.pass, Piece.plain]⟩
                · cases h
              · rename_i hdollar
                have hstart : startsLiteral e w (c :: cs) := by
                  simp [startsLiteral, hline, continues, hwhole, hblank, harray, hquote, hdollar]
                have hcut := literal_append e (c :: cs)
                generalize hliteral : Lexer.literal e (c :: cs) = cut at h hcut
                obtain ⟨span, rest⟩ := cut
                cases h
                rw [← hcut] at hliteral hstart ⊢
                exact ⟨_, _, .literal w hstart hliteral, rfl, by simp [State.pass, Piece.plain]⟩

theorem movesTo_continuedStep {a : Argument}
    (h : continuedStep ⟨.continued a, e, p, cs⟩ a = .next tokens t) :
    MovesTo ⟨.continued a, e, p, cs⟩ tokens t := by
  obtain ⟨blanks, behind, rfl, hblanks, hstops, htake, hdrop⟩ := exists_blanks cs
  unfold continuedStep at h
  dsimp only at h
  rw [htake, hdrop] at h
  cases behind with
  | nil =>
    cases h
    exact ⟨_, _, .resume a e (by rw [hdrop]; simp), rfl, rfl⟩
  | cons c rest =>
    dsimp only at h
    split at h
    · rename_i hc
      subst hc
      cases h
      exact ⟨_, _, .blankLine a e hblanks rest, rfl, by simp [State.pass]⟩
    · rename_i hline
      split at h
      · rename_i hc
        subst hc
        obtain ⟨text, htext, htake', hline'⟩ := exists_line rest
        have htake'' : ('#' :: rest).takeWhile (· ≠ '\n') = '#' :: text := by
          rw [List.takeWhile_cons_of_pos (by decide), htake']
        have hdrop'' : ('#' :: rest).dropWhile (· ≠ '\n') = rest.dropWhile (· ≠ '\n') :=
          List.dropWhile_cons_of_pos (by decide)
        rw [htake'', hdrop''] at h
        rcases hline' with ⟨rfl, hdrop'⟩ | ⟨behind, rfl, hdrop'⟩
        · rw [hdrop'] at h
          cases h
          exact ⟨_, _, .lastCommentLine a e hblanks htext, rfl, by simp [State.pass]⟩
        · rw [hdrop'] at h
          cases h
          exact ⟨_, _, .commentLine a e hblanks htext behind, rfl, by simp [State.pass]⟩
      · rename_i hhash
        cases h
        exact ⟨_, _, .resume a e (by simp [hdrop, hline, hhash]), rfl, rfl⟩

theorem move_of_step {s : State} (he : IsEscape s.escape) (h : step s = .next tokens t) :
    MovesTo s tokens t := by
  obtain ⟨mode, e, p, cs⟩ := s
  unfold step at h
  cases mode with
  | line window => exact movesTo_lineStep h
  | argument a =>
    cases a with
    | words w => exact movesTo_wordsStep he h
    | array depth w => exact movesTo_arrayStep he (.later depth w) h
  | continued a => exact movesTo_continuedStep h

/-! ### Moves are steps -/

theorem forall_ne_newline {text : List Char} (htext : '\n' ∉ text) :
    ∀ c ∈ text, (c ≠ '\n' : Bool) := by
  intro c hc
  exact decide_eq_true (fun h => htext (h ▸ hc))

theorem takeWhile_line {text : List Char} (htext : '\n' ∉ text) (rest : List Char) :
    (text ++ '\n' :: rest).takeWhile (· ≠ '\n') = text ∧
      (text ++ '\n' :: rest).dropWhile (· ≠ '\n') = '\n' :: rest := by
  have hall := forall_ne_newline htext
  have hstops : Stops (· ≠ '\n') ('\n' :: rest) := by
    rintro c ⟨⟩
    rfl
  exact ⟨takeWhile_append_of_stops hall hstops, dropWhile_append_of_stops hall hstops⟩

theorem takeWhile_lastLine {text : List Char} (htext : '\n' ∉ text) :
    text.takeWhile (· ≠ '\n') = text ∧ text.dropWhile (· ≠ '\n') = [] := by
  have hall := forall_ne_newline htext
  exact ⟨List.takeWhile_eq_self_iff.2 hall, List.dropWhile_eq_nil_iff.2 hall⟩

/-- The step of a move at the start of a line. -/
theorem lineStep_of_move (h : Move (.line window) e cs pieces skip m' e' rest) (p : Position) :
    lineStep ⟨.line window, e, p, cs⟩ window cs =
      .next (placed p pieces) ⟨m', e', p.after (covered pieces ++ skip), rest⟩ := by
  cases h with
  | @indent _ _ blanks _ hne hblanks hrest =>
    obtain ⟨b, others, rfl⟩ := List.exists_cons_of_ne_nil hne
    obtain ⟨hb, hothers⟩ := List.forall_mem_cons.1 hblanks
    rw [List.cons_append, lineStep, if_pos hb, takeWhile_append_of_stops hothers hrest,
      dropWhile_append_of_stops hothers hrest]
    simp [State.emit, State.pass, placed, Piece.token, Piece.plain]
  | lineEnd => rfl
  | @comment _ _ text htext rest =>
    have hline : '\n' ∉ '#' :: text := by simp [htext]
    obtain ⟨htake, hdrop⟩ := takeWhile_line hline rest
    have hstep : lineStep ⟨.line window, e, p, '#' :: text ++ '\n' :: rest⟩ window
          ('#' :: text ++ '\n' :: rest) =
        commentStep ⟨.line window, e, p, '#' :: text ++ '\n' :: rest⟩ window
          ('#' :: text ++ '\n' :: rest) := rfl
    rw [hstep, commentStep, htake, hdrop]
    simp [State.pass, placed, Piece.token, Piece.plain, Piece.whole, directiveIn, escapeBehind]
  | @lastComment _ _ text htext =>
    obtain ⟨htake, hdrop⟩ := takeWhile_lastLine (show '\n' ∉ '#' :: text by simp [htext])
    have hstep : lineStep ⟨.line window, e, p, '#' :: text⟩ window ('#' :: text) =
        commentStep ⟨.line window, e, p, '#' :: text⟩ window ('#' :: text) := rfl
    rw [hstep, commentStep, htake, hdrop]
    simp [State.pass, placed, Piece.token, Piece.plain, directiveIn, escapeBehind]
  | @keyword _ _ span rest hhead hcut =>
    cases hcs : span ++ rest with
    | nil =>
      rw [hcs] at hhead
      cases hhead
    | cons c cs =>
      rw [hcs] at hhead hcut
      have hc : isSolid c := hhead
      rw [lineStep, if_neg (by simp [not_isBlank_of_isSolid hc]), if_neg (ne_of_isSolid hc).1,
        if_neg (ne_of_isSolid hc).2, hcut]
      simp [State.emit, State.pass, placed, Piece.token, Piece.plain]

section Arrays

variable {depth depth' : Nat} {lead span joint rest : List Char}

theorem arrayStep_end {s : State}
    (hcut : segment s.escape depth (span ++ rest) = .ok ⟨span, depth', rest⟩)
    (hend : depth' = 0 ∨ continues s.escape rest = false) :
    arrayStep s w depth lead (span ++ rest) =
      .next (placed s.position (arrayPieces s.escape (lead ++ span)))
        (s.pass (.argument (.words (w.extend (dropBreaks s.escape (lead ++ span))))) (lead ++ span)
          rest) := by
  unfold arrayStep
  rw [hcut]
  dsimp only
  rw [← placed_arrayPieces]
  by_cases hdepth : depth' = 0
  · rw [if_pos hdepth]
  · have hnone : continuation? s.escape rest = none := by
      simpa [continues] using hend.resolve_left hdepth
    rw [if_neg hdepth, hnone]

theorem arrayStep_joint {s : State}
    (hcut : segment s.escape depth (span ++ (joint ++ rest)) = .ok ⟨span, depth', joint ++ rest⟩)
    (hdepth : depth' ≠ 0) (hjoint : continuation? s.escape (joint ++ rest) = some (joint, rest)) :
    arrayStep s w depth lead (span ++ (joint ++ rest)) =
      .next
        (placed s.position (arrayPieces s.escape (lead ++ span) ++ [.plain .continuation joint]))
        (s.pass (.continued (.array depth' (w.extend (dropBreaks s.escape (lead ++ span)))))
          (lead ++ span ++ joint) rest) := by
  unfold arrayStep
  rw [hcut]
  dsimp only
  rw [← placed_arrayPieces, if_neg hdepth, hjoint, placed_append]
  simp [placed, Piece.token, Piece.plain]

theorem continuation?_of_ne {c : Char} (h : c ≠ e) (cs : List Char) :
    continuation? e (c :: cs) = none := by
  rw [continuation?, if_neg h]

/-- Where an array may start, a bracket starts it. -/
theorem wordsStep_array {s : State} (he : IsEscape s.escape) (hword : w.word.isEmpty)
    (hallow : w.allowArray) (cs : List Char) :
    wordsStep s w ('[' :: cs) = arrayStep s w 1 ['['] cs := by
  have hne : '[' ≠ s.escape := by rcases he with h | h <;> rw [h] <;> decide
  rw [wordsStep, if_neg (by decide), continuation?_of_ne hne]
  simp [isBlank, hword, hallow]

end Arrays

/-- The step of a move among words. -/
theorem wordsStep_of_move (he : IsEscape e)
    (h : Move (.argument (.words w)) e cs pieces skip m' e' rest) (p : Position) :
    wordsStep ⟨.argument (.words w), e, p, cs⟩ w cs =
      .next (placed p pieces) ⟨m', e', p.after (covered pieces ++ skip), rest⟩ := by
  cases h with
  | lineDone => rfl
  | @joint _ _ span _ hcut =>
    obtain ⟨tail, rfl⟩ : ∃ tail, span = e :: tail := by
      obtain ⟨-, blanks, -, hspan | ⟨hspan, -⟩⟩ := continuation?_eq_some hcut
      · exact ⟨_, hspan⟩
      · exact ⟨_, hspan⟩
    rw [List.cons_append] at hcut ⊢
    rw [wordsStep, if_neg (ne_newline_of_isEscape he), hcut]
    simp [State.emit, State.pass, placed, Piece.token, Piece.plain]
  | @blanks _ _ blanks rest hne hblanks hrest =>
    obtain ⟨b, others, rfl⟩ := List.exists_cons_of_ne_nil hne
    obtain ⟨hb, hothers⟩ := List.forall_mem_cons.1 hblanks
    have hline : b ≠ '\n' := by
      rintro rfl
      cases hb
    have hescape : b ≠ e := by
      rintro rfl
      rw [not_isBlank_of_isEscape he] at hb
      cases hb
    rw [List.cons_append, wordsStep, if_neg hline, continuation?_of_ne hescape]
    dsimp only
    rw [if_pos hb, takeWhile_append_of_stops hothers hrest, dropWhile_append_of_stops hothers hrest]
    simp [State.emit, State.pass, placed, Piece.token, Piece.plain]
  | @quoted _ _ quote span rest hquote hwhole hcut =>
    have hplain : quote ≠ '\n' ∧ isBlank quote = false ∧ quote ≠ '[' := by
      rw [isQuote, Bool.or_eq_true, decide_eq_true_eq, decide_eq_true_eq] at hquote
      rcases hquote with rfl | rfl <;> decide
    have hnone : continuation? e (quote :: (span ++ rest)) = none := by
      simpa [continues] using hwhole
    rw [List.cons_append, wordsStep, if_neg hplain.1, hnone]
    simp only [hplain.2.1, hplain.2.2, hquote, hcut, Bool.false_eq_true, if_false, if_true,
      decide_false, Bool.false_and]
    simp [State.piece, State.pass, placed, Piece.token]
  | @reference _ _ span rest hstart hcut =>
    have hne : '$' ≠ e := by rcases he with rfl | rfl <;> decide
    rw [List.cons_append, wordsStep, if_neg (by decide), continuation?_of_ne hne]
    simp [isBlank, isQuote, hstart, hcut, State.piece, State.pass, placed, Piece.token, Piece.plain]
  | @literal _ _ span rest hstart hcut =>
    cases hcs : span ++ rest with
    | nil =>
      rw [hcs] at hstart
      cases hstart
    | cons c cs =>
      rw [hcs] at hstart hcut
      simp only [startsLiteral, Bool.and_eq_true, Bool.not_eq_true', decide_not,
        decide_eq_false_iff_not] at hstart
      obtain ⟨⟨⟨⟨⟨hline, hwhole⟩, hblank⟩, harray⟩, hquote⟩, hdollar⟩ := hstart
      have hnone : continuation? e (c :: cs) = none := by simpa [continues] using hwhole
      rw [wordsStep, if_neg hline, hnone]
      simp only [hblank, harray, hquote, hdollar, hcut, Bool.false_eq_true, if_false]
      simp [State.piece, State.pass, placed, Piece.token, Piece.plain]
  | array ha hcut hend =>
    cases ha with
    | first hword hallow =>
      rw [List.append_assoc, List.cons_append, wordsStep_array he hword hallow, List.nil_append,
        arrayStep_end hcut hend]
      simp [State.pass]
  | arrayJoint ha hcut hdepth hjoint =>
    cases ha with
    | first hword hallow =>
      rw [List.append_assoc, List.cons_append, wordsStep_array he hword hallow, List.nil_append,
        arrayStep_joint hcut hdepth hjoint]
      simp [State.pass, Piece.plain]

/-- The step of a move behind a joined line. -/
theorem continuedStep_of_move {a : Argument}
    (h : Move (.continued a) e cs pieces skip m' e' rest) (p : Position) :
    continuedStep ⟨.continued a, e, p, cs⟩ a =
      .next (placed p pieces) ⟨m', e', p.after (covered pieces ++ skip), rest⟩ := by
  have hcut : ∀ {blanks : List Char} (c : Char) (rest : List Char), (∀ b ∈ blanks, isBlank b) →
      isBlank c = false → (blanks ++ c :: rest).takeWhile isBlank = blanks ∧
        (blanks ++ c :: rest).dropWhile isBlank = c :: rest := by
    intro blanks c rest hblanks hc
    have hstops : Stops isBlank (c :: rest) := by
      rintro d ⟨⟩
      exact hc
    exact ⟨takeWhile_append_of_stops hblanks hstops, dropWhile_append_of_stops hblanks hstops⟩
  unfold continuedStep
  dsimp only
  cases h with
  | resume _ _ hcs =>
    cases hdrop : cs.dropWhile isBlank with
    | nil => rfl
    | cons c rest =>
      rw [hdrop] at hcs
      obtain ⟨hline, hhash⟩ := hcs c rfl
      dsimp only
      rw [if_neg hline, if_neg hhash]
      rfl
  | @blankLine _ _ blanks hblanks rest =>
    obtain ⟨htake, hdrop⟩ := hcut '\n' rest hblanks rfl
    rw [htake, hdrop]
    rfl
  | @commentLine _ _ blanks text hblanks htext rest =>
    have hline : '\n' ∉ '#' :: text := by simp [htext]
    obtain ⟨htake', hdrop'⟩ := takeWhile_line hline rest
    obtain ⟨htake, hdrop⟩ := hcut '#' (text ++ '\n' :: rest) hblanks rfl
    rw [List.cons_append] at htake' hdrop' ⊢
    rw [htake, hdrop]
    dsimp only
    rw [if_neg (by decide), if_pos rfl, htake', hdrop']
    simp [State.pass, placed, Piece.token]
  | @lastCommentLine _ _ blanks text hblanks htext =>
    obtain ⟨htake, hdrop⟩ := hcut '#' text hblanks rfl
    obtain ⟨htake', hdrop'⟩ := takeWhile_lastLine (show '\n' ∉ '#' :: text by simp [htext])
    rw [htake, hdrop]
    dsimp only
    rw [if_neg (by decide), if_pos rfl, htake', hdrop']
    simp [State.pass, placed, Piece.token]

/-- Every move is a step, wherever its text stands. -/
theorem step_of_move (he : IsEscape e) (h : Move m e cs pieces skip m' e' rest)
    (p : Position) : step ⟨m, e, p, cs⟩ =
      .next (placed p pieces) ⟨m', e', p.after (covered pieces ++ skip), rest⟩ := by
  cases m with
  | line window => exact lineStep_of_move h p
  | continued a => exact continuedStep_of_move h p
  | argument a =>
    cases a with
    | words w => exact wordsStep_of_move he h p
    | array depth w =>
      cases h with
      | @array _ _ _ _ _ _ span rest ha hcut hend =>
        cases ha
        show arrayStep _ w depth [] (span ++ rest) = _
        rw [arrayStep_end hcut hend]
        simp [State.pass]
      | @arrayJoint _ _ _ _ _ _ span joint rest ha hcut hdepth hjoint =>
        cases ha
        show arrayStep _ w depth [] (span ++ (joint ++ rest)) = _
        rw [arrayStep_joint hcut hdepth hjoint]
        simp [State.pass, Piece.plain]

end Steps

/-! ### Some steps -/

/-- Some steps one after the other, and the tokens that they make. -/
inductive Steps : State → List Token → State → Prop where
  | refl (s : State) : Steps s [] s
  | cons {s t u : State} {tokens more : List Token} (h : step s = .next tokens t)
    (hmore : Steps t more u) : Steps s (tokens ++ more) u

variable {s t : State} {tokens : List Token} {token : Token}

theorem Steps.single (h : step s = .next tokens t) : Steps s tokens t := by
  rw [← List.append_nil tokens]
  exact .cons h (.refl t)

/-- A move that passes some text is one step. -/
theorem Steps.of_move (he : IsEscape e) (h : Move m e cs pieces skip m' e' rest)
    {passed : List Char} (hcs : cs = passed ++ rest) (p : Position) :
    Steps ⟨m, e, p, passed ++ rest⟩ (placed p pieces) ⟨m', e', p.after passed, rest⟩ := by
  have hpassed : passed = covered pieces ++ skip :=
    List.append_cancel_right (hcs.symm.trans h.covered_eq)
  rw [← hcs, hpassed]
  exact .single (step_of_move he h p)

theorem Steps.trans {u : State} {more : List Token} (h : Steps s tokens t) (hmore : Steps t more u) :
    Steps s (tokens ++ more) u := by
  induction h with
  | refl s => exact hmore
  | cons hstep _ ih =>
    rw [List.append_assoc]
    exact .cons hstep (ih hmore)

theorem Steps.isEscape (h : Steps s tokens t) (he : IsEscape s.escape) :
    IsEscape t.escape := by
  induction h with
  | refl s => exact he
  | cons hstep _ ih =>
    obtain ⟨pieces, skip, hmove, -, -⟩ := move_of_step he hstep
    exact ih (hmove.isEscape he)

theorem scanFrom_of_step (h : step s = .next tokens t) :
    scanFrom s = ⟨tokens ++ (scanFrom t).tokens, (scanFrom t).fault⟩ := by
  rw [scanFrom]
  split
  · rename_i token hfinished
    cases h.symm.trans hfinished
  · rename_i fault hstopped
    cases h.symm.trans hstopped
  · rename_i tokens' t' hnext
    cases h.symm.trans hnext
    rfl

theorem scanFrom_of_finished (h : step s = .finished token) : scanFrom s = ⟨[token], none⟩ := by
  rw [scanFrom]
  split
  · rename_i token' hfinished
    cases h.symm.trans hfinished
    rfl
  · rename_i fault hstopped
    cases h.symm.trans hstopped
  · rename_i tokens t hnext
    cases h.symm.trans hnext

theorem scanFrom_of_stopped {fault : Fault} (h : step s = .stopped fault) :
    scanFrom s = ⟨[], some fault⟩ := by
  rw [scanFrom]
  split
  · rename_i token hfinished
    cases h.symm.trans hfinished
  · rename_i fault' hstopped
    cases h.symm.trans hstopped
    rfl
  · rename_i tokens t hnext
    cases h.symm.trans hnext

theorem scanFrom_of_steps (h : Steps s tokens t) :
    scanFrom s = ⟨tokens ++ (scanFrom t).tokens, (scanFrom t).fault⟩ := by
  induction h with
  | refl s => rfl
  | cons hstep _ ih => rw [scanFrom_of_step hstep, ih, List.append_assoc]

/-- A text is read in steps up to its end or to a fault. -/
theorem exists_steps (s : State) : ∃ tokens t, Steps s tokens t ∧
    ((∃ token, step t = .finished token ∧ scanFrom s = ⟨tokens ++ [token], none⟩) ∨
      ∃ fault, step t = .stopped fault ∧ scanFrom s = ⟨tokens, some fault⟩) := by
  fun_induction scanFrom s with
  | case1 s token h => exact ⟨[], s, .refl s, .inl ⟨token, h, rfl⟩⟩
  | case2 s fault h => exact ⟨[], s, .refl s, .inr ⟨fault, h, rfl⟩⟩
  | case3 s tokens t h _ scan ih =>
    obtain ⟨more, u, hmore, hlast⟩ := ih
    refine ⟨tokens ++ more, u, .cons h hmore, ?_⟩
    rcases hlast with ⟨token, hu, hscan⟩ | ⟨fault, hu, hscan⟩
    · exact .inl ⟨token, hu, by simp [scan, hscan]⟩
    · exact .inr ⟨fault, hu, by simp [scan, hscan]⟩

theorem arrayStep_ne_finished {w : Words} {depth : Nat} {lead cs : List Char} :
    arrayStep s w depth lead cs ≠ .finished token := by
  intro h
  unfold arrayStep at h
  split at h
  · cases h
  · dsimp only at h
    split at h
    · cases h
    · split at h
      · cases h
      · cases h

/-- At the start of a line a step goes on before every character. -/
theorem lineStep_cons (s : State) (window : Bool) (c : Char) (cs : List Char) :
    ∃ tokens t, lineStep s window (c :: cs) = .next tokens t := by
  simp only [lineStep]
  split
  · exact ⟨_, _, rfl⟩
  split
  · exact ⟨_, _, rfl⟩
  split
  · simp only [commentStep]
    split <;> exact ⟨_, _, rfl⟩
  · exact ⟨_, _, rfl⟩

theorem lineStep_finished {window : Bool} (h : lineStep s window cs = .finished token) :
    cs = [] ∧ token = ⟨.eof, "", s.position⟩ := by
  cases cs with
  | nil =>
    cases h
    exact ⟨rfl, rfl⟩
  | cons c cs =>
    obtain ⟨_, _, hnext⟩ := lineStep_cons s window c cs
    cases hnext.symm.trans h

/-- Before a character a step among words goes on, or reads an array, or stops at once, wherever the
text stands. -/
theorem wordsStep_cons (m : Mode) (e : Char) (rest : List Char) (w : Words) (c : Char)
    (cs : List Char) :
    (∀ p, ∃ tokens t, wordsStep ⟨m, e, p, rest⟩ w (c :: cs) = .next tokens t) ∨
      (c = '[' ∧ w = ⟨true, []⟩ ∧
        ∀ p, wordsStep ⟨m, e, p, rest⟩ w (c :: cs) = arrayStep ⟨m, e, p, rest⟩ w 1 ['['] cs) ∨
      ∃ cause, cause.kind ≠ "invalid-escape" ∧
        ∀ p, wordsStep ⟨m, e, p, rest⟩ w (c :: cs) = .stopped ⟨cause, p⟩ := by
  simp only [wordsStep]
  by_cases hline : c = '\n'
  · simp only [if_pos hline]
    exact .inl fun p => ⟨_, _, rfl⟩
  simp only [if_neg hline]
  cases continuation? e (c :: cs) with
  | some cut => exact .inl fun p => ⟨_, _, rfl⟩
  | none =>
    by_cases hblank : isBlank c
    · simp only [if_pos hblank]
      exact .inl fun p => ⟨_, _, rfl⟩
    simp only [if_neg hblank]
    by_cases harray : c = '[' && w.word.isEmpty && w.allowArray
    · simp only [if_pos harray]
      rw [Bool.and_eq_true, Bool.and_eq_true, decide_eq_true_eq, List.isEmpty_iff] at harray
      obtain ⟨⟨rfl, hword⟩, hallow⟩ := harray
      exact .inr (.inl ⟨rfl, by rw [← hword, ← hallow], fun p => rfl⟩)
    simp only [if_neg harray]
    by_cases hquote : isQuote c
    · simp only [if_pos hquote]
      cases quoted? e c false cs with
      | some cut => exact .inl fun p => ⟨_, _, rfl⟩
      | none => exact .inr (.inr ⟨.unclosedQuote c, by simp [Cause.kind], fun p => rfl⟩)
    simp only [if_neg hquote]
    by_cases hdollar : c = '$' && startsVariable cs
    · simp only [if_pos hdollar]
      cases reference? cs with
      | some cut => exact .inl fun p => ⟨_, _, rfl⟩
      | none => exact .inr (.inr ⟨.unclosedVariable, by simp [Cause.kind], fun p => rfl⟩)
    · simp only [if_neg hdollar]
      exact .inl fun p => ⟨_, _, rfl⟩

theorem wordsStep_finished {w : Words} (h : wordsStep s w cs = .finished token) :
    cs = [] ∧ token = ⟨.eof, "", s.position⟩ := by
  cases cs with
  | nil =>
    cases h
    exact ⟨rfl, rfl⟩
  | cons c cs =>
    rcases wordsStep_cons s.mode s.escape s.rest w c cs with hnext | ⟨-, -, harray⟩ | ⟨_, -, hstop⟩
    · obtain ⟨_, _, hnext⟩ := hnext s.position
      cases hnext.symm.trans h
    · exact absurd ((harray s.position).symm.trans h) arrayStep_ne_finished
    · cases (hstop s.position).symm.trans h

/-- Behind a continuation a step goes on. -/
theorem continuedStep_next (s : State) (a : Argument) :
    ∃ tokens t, continuedStep s a = .next tokens t := by
  simp only [continuedStep]
  split
  · exact ⟨_, _, rfl⟩
  split
  · exact ⟨_, _, rfl⟩
  split
  · split <;> exact ⟨_, _, rfl⟩
  · exact ⟨_, _, rfl⟩

/-- The machine finishes at the end of the text. -/
theorem step_finished (h : step s = .finished token) :
    s.rest = [] ∧ token = ⟨.eof, "", s.position⟩ := by
  obtain ⟨mode, e, p, cs⟩ := s
  cases mode with
  | line window => exact lineStep_finished h
  | argument a =>
    cases a with
    | words w => exact wordsStep_finished h
    | array depth w => exact (arrayStep_ne_finished h).elim
  | continued a =>
    obtain ⟨_, _, hnext⟩ := continuedStep_next ⟨.continued a, e, p, cs⟩ a
    cases hnext.symm.trans h

end Dockerfile.Lexer
