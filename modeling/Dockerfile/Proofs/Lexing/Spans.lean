import Dockerfile.Proofs.Lexing.Entries
import Dockerfile.Proofs.Sequence

/-!
# Spans of tokens

The tokens of a text stand for consecutive spans of it. Between two spans there are only blanks and
line ends, and those only where an instruction goes on behind a joined line (`Idle`). The text of a
token is its span, but for the pieces of words, which leave out what joins lines (`Tells`).

While a text is read, the pieces so far and a gap behind them make up what was read (`Reached`).
-/

namespace Dockerfile.Lexer

open Text (feedsOfPairs)

/-! ### What pieces tell -/

/-- A text without every escape character that stands, before blanks, in front of a line end. The
blanks are left out too. -/
inductive Dropped (e : Char) : List Char → List Char → Prop where
  | nil : Dropped e [] []
  | keep {c : Char} {span text : List Char}
    (hc : ∀ blanks rest, (∀ b ∈ blanks, isBlank b) → c :: span ≠ e :: blanks ++ '\n' :: rest)
    (h : Dropped e span text) : Dropped e (c :: span) (c :: text)
  | drop {blanks span text : List Char} (hblanks : ∀ b ∈ blanks, isBlank b)
    (h : Dropped e ('\n' :: span) text) : Dropped e (e :: blanks ++ '\n' :: span) text

/-- The text of a piece is its span, and that of a piece of a word is its span without what joins
lines. -/
def Tells (e : Char) (x : Piece) : Prop :=
  if x.kind = .string then Dropped e x.span x.text else x.text = x.span

variable {e : Char}

theorem breaksLine_eq_true {c : Char} {cs : List Char} (h : breaksLine e (c :: cs)) :
    c = e ∧ ∃ blanks rest, (∀ b ∈ blanks, isBlank b) ∧ cs = blanks ++ '\n' :: rest := by
  rw [breaksLine, Bool.and_eq_true, decide_eq_true_eq, beq_iff_eq] at h
  obtain ⟨blanks, rest, rfl, hblanks, -, -, hdrop⟩ := exists_blanks cs
  rw [hdrop] at h
  obtain ⟨rest, rfl⟩ := List.head?_eq_some_iff.1 h.2
  exact ⟨h.1, blanks, rest, hblanks, rfl⟩

theorem breaksLine_joint {blanks : List Char} (hblanks : ∀ b ∈ blanks, isBlank b)
    (rest : List Char) : breaksLine e (e :: blanks ++ '\n' :: rest) := by
  have hstops : Stops isBlank ('\n' :: rest) := by
    rintro c ⟨⟩
    rfl
  rw [List.cons_append, breaksLine, dropWhile_append_of_stops hblanks hstops]
  simp

theorem dropBreaksFrom_blanks (he : Template.IsEscape e) {blanks : List Char}
    (hblanks : ∀ b ∈ blanks, isBlank b) (rest : List Char) :
    dropBreaksFrom e true (blanks ++ '\n' :: rest) = '\n' :: dropBreaksFrom e false rest := by
  induction blanks with
  | nil =>
    have hline : breaksLine e ('\n' :: rest) = false := by
      simp [breaksLine, (ne_newline_of_isEscape he).symm]
    rw [List.nil_append, dropBreaksFrom, if_neg (by decide), hline, if_neg (by decide)]
  | cons b blanks ih =>
    obtain ⟨hb, hblanks⟩ := List.forall_mem_cons.1 hblanks
    rw [List.cons_append, dropBreaksFrom, hb, if_pos (by decide), ih hblanks]

theorem dropped_dropBreaks (he : Template.IsEscape e) (cs : List Char) :
    Dropped e cs (dropBreaks e cs) := by
  unfold dropBreaks
  induction hn : cs.length using Nat.strong_induction_on generalizing cs with
  | _ n ih =>
    cases cs with
    | nil => exact .nil
    | cons c cs =>
      rw [dropBreaksFrom, Bool.false_and, if_neg (by decide)]
      split
      · rename_i hbreaks
        obtain ⟨rfl, blanks, rest, hblanks, rfl⟩ := breaksLine_eq_true hbreaks
        rw [dropBreaksFrom_blanks he hblanks]
        refine .drop hblanks (.keep ?_ (ih _ ?_ rest rfl))
        · intro blanks' rest' _ heq
          exact ne_newline_of_isEscape he (List.head_eq_of_cons_eq heq).symm
        · rw [← hn]
          simp only [List.length_cons, List.length_append]
          omega
      · rename_i hwhole
        refine .keep ?_ (ih cs.length ?_ cs rfl)
        · intro blanks rest hblanks heq
          rw [heq] at hwhole
          exact hwhole (breaksLine_joint hblanks rest)
        · rw [← hn, List.length_cons]
          exact Nat.lt_succ_self _

theorem dropped_of_notMem {span : List Char} (h : '\n' ∉ span) : Dropped e span span := by
  induction span with
  | nil => exact .nil
  | cons c span ih =>
    refine .keep ?_ (ih fun hmem => h (List.mem_cons_of_mem c hmem))
    intro blanks rest _ heq
    exact h (heq ▸ by simp)

theorem tells_plain {kind : Token.Kind} (hkind : kind ≠ .string) (span : List Char) :
    Tells e (.plain kind span) := by
  rw [Tells, if_neg (show (Piece.plain kind span).kind ≠ .string from hkind)]
  rfl

/-- Where directives count no word is read, so the escape character does not matter there. -/
theorem Move.tells {m m' : Mode} {e' : Char} {cs skip rest : List Char} {pieces : List Piece}
    (h : Move m e cs pieces skip m' e' rest) (he : Template.IsEscape e) {final : Char}
    (hfinal : m.isLine = false → e = final) : ∀ x ∈ pieces, Tells final x := by
  have hplain (kind : Token.Kind) (span : List Char) (hkind : kind ≠ .string) :
      ∀ x ∈ [Piece.plain kind span], Tells final x :=
    List.forall_mem_singleton.2 (tells_plain hkind span)
  have harray (span : List Char) : ∀ x ∈ arrayPieces e span, Tells e x := by
    intro x hx
    rw [(mem_arrayPieces.1 hx).1]
    exact dropped_dropBreaks he span
  cases h with
  | indent | lineEnd => exact hplain _ _ (by decide)
  | comment =>
    exact List.forall_mem_cons.2 ⟨tells_plain (by decide) _, hplain _ _ (by decide)⟩
  | lastComment | keyword | lineDone | joint | blanks => exact hplain _ _ (by decide)
  | @quoted _ _ quote span =>
    obtain rfl := hfinal rfl
    exact List.forall_mem_singleton.2 (dropped_dropBreaks he (quote :: span))
  | reference => exact hplain _ _ (by decide)
  | @literal _ _ span rest _ hcut =>
    have hspan := literal_newline_notMem he (span ++ rest)
    rw [hcut] at hspan
    exact List.forall_mem_singleton.2 (dropped_of_notMem hspan)
  | array =>
    obtain rfl := hfinal rfl
    exact harray _
  | arrayJoint =>
    obtain rfl := hfinal rfl
    exact List.forall_mem_append.2 ⟨harray _, hplain _ _ (by decide)⟩
  | resume | blankLine => simp
  | commentLine | lastCommentLine => exact List.forall_mem_singleton.2 rfl

/-! ### Gaps -/

/-- The last keyword and the pieces behind it, none of which ends a line. -/
def InInstruction (before : List Piece) : Prop :=
  ∃ front x behind, before = front ++ x :: behind ∧ x.kind = .instruction ∧
    ∀ y ∈ behind, y.kind ≠ .newline

/-- The pieces in front end with a joined line and comments. -/
def BehindJoint (e : Char) (before : List Piece) : Prop :=
  ∃ front x behind, before = front ++ x :: behind ∧ x.kind = .continuation ∧
    (∃ blanks, (∀ b ∈ blanks, isBlank b) ∧ x.span = e :: blanks ++ ['\n']) ∧
    ∀ y ∈ behind, y.kind = .comment

/-- A gap behind some pieces: if there is any, it is made of blanks and line ends and stands in an
instruction, behind a joined line. -/
def Idle (e : Char) (before : List Piece) (gap : List Char) : Prop :=
  gap ≠ [] → (∀ c ∈ gap, isBlank c ∨ c = '\n') ∧ InInstruction before ∧ BehindJoint e before

variable {before pieces : List Piece} {gap skip cs rest : List Char} {m m' : Mode} {e' : Char}

theorem InInstruction.append (h : InInstruction before)
    (hpieces : ∀ x ∈ pieces, x.kind ≠ .newline) :
    InInstruction (before ++ pieces) := by
  obtain ⟨front, x, behind, rfl, hx, hbehind⟩ := h
  exact ⟨front, x, behind ++ pieces, by simp, hx, List.forall_mem_append.2 ⟨hbehind, hpieces⟩⟩

theorem BehindJoint.append (h : BehindJoint e before) (hpieces : ∀ x ∈ pieces, x.kind = .comment) :
    BehindJoint e (before ++ pieces) := by
  obtain ⟨front, x, behind, rfl, hx, hspan, hbehind⟩ := h
  exact ⟨front, x, behind ++ pieces, by simp, hx, hspan,
    List.forall_mem_append.2 ⟨hbehind, hpieces⟩⟩

theorem idle_nil : Idle e before [] := fun h => (h rfl).elim

theorem Idle.append (h : Idle e before gap) (hskip : Idle e before skip) :
    Idle e before (gap ++ skip) := by
  intro hne
  by_cases hgap : gap = []
  · rw [hgap] at hne ⊢
    exact hskip hne
  · obtain ⟨hall, hplace⟩ := h hgap
    refine ⟨List.forall_mem_append.2 ⟨hall, ?_⟩, hplace⟩
    by_cases hskip' : skip = []
    · simp [hskip']
    · exact (hskip hskip').1

/-- Pieces with a gap in front of the first one. -/
def attach (gap : List Char) : List Piece → List Piece
  | [] => []
  | x :: pieces => { x with gap := gap ++ x.gap } :: pieces

/-- The gap behind pieces, which is longer if there is no piece. -/
def gapBehind (gap : List Char) (pieces : List Piece) (skip : List Char) : List Char :=
  if pieces.isEmpty then gap ++ skip else skip

theorem placed_attach (p : Position) (gap : List Char) (pieces : List Piece) :
    placed p (attach gap pieces) = placed (p.after gap) pieces := by
  cases pieces with
  | nil => rfl
  | cons x pieces => simp [attach, placed, Piece.token, Piece.whole, Position.after_append]

theorem covered_attach (gap : List Char) (pieces : List Piece) (skip : List Char) :
    covered (attach gap pieces) ++ gapBehind gap pieces skip = gap ++ (covered pieces ++ skip) := by
  cases pieces with
  | nil => rfl
  | cons x pieces => simp [attach, gapBehind]

/-- The gap in front does not change what is said of a piece without its gap. -/
theorem forall_mem_attach {P : Piece → Prop} (hP : ∀ x gap, P x → P { x with gap := gap })
    (h : ∀ x ∈ pieces, P x) : ∀ x ∈ attach gap pieces, P x := by
  cases pieces with
  | nil => exact h
  | cons x pieces =>
    obtain ⟨hx, hpieces⟩ := List.forall_mem_cons.1 h
    exact List.forall_mem_cons.2 ⟨hP x _ hx, hpieces⟩

theorem eachAfter_idle_attach (hgap : Idle e before gap)
    (hfirst : ∀ x ∈ pieces.head?, Idle e before x.gap) (hothers : ∀ x ∈ pieces.tail, x.gap = []) :
    EachAfter (fun b x => Idle e (before ++ b) x.gap) (attach gap pieces) := by
  cases pieces with
  | nil => exact eachAfter_nil
  | cons x pieces =>
    intro b y after hsplit
    cases b with
    | nil =>
      rw [List.nil_append, attach, List.cons.injEq] at hsplit
      rw [← hsplit.1, List.append_nil]
      exact hgap.append (hfirst x rfl)
    | cons z b =>
      rw [List.cons_append, attach, List.cons.injEq] at hsplit
      rw [hothers y (by rw [List.tail_cons, hsplit.2]; simp)]
      exact idle_nil

theorem attach_concat (gap : List Char) (front : List Piece) (x : Piece) :
    ∃ front' gap', attach gap (front ++ [x]) = front' ++ [{ x with gap := gap' }] := by
  cases front with
  | nil => exact ⟨[], gap ++ x.gap, rfl⟩
  | cons y front => exact ⟨{ y with gap := gap ++ y.gap } :: front, x.gap, rfl⟩

/-! ### What moves add -/

theorem Move.kind_ne_eof (h : Move m e cs pieces skip m' e' rest) :
    ∀ x ∈ pieces, x.kind ≠ .eof := by
  cases h with
  | arrayJoint => exact List.forall_mem_append.2 ⟨by simp, by simp [Piece.plain]⟩
  | _ => simp [Piece.plain]

/-- Gaps and text between pieces are only where a line is continued. -/
theorem Move.gaps (h : Move m e cs pieces skip m' e' rest) :
    ((∀ x ∈ pieces, x.gap = []) ∧ skip = []) ∨
      ((∃ a, m = .continued a) ∧ cs ≠ [] ∧ (∀ x ∈ pieces, x.kind = .comment) ∧
        (∀ x ∈ pieces, ∀ c ∈ x.gap, isBlank c) ∧ pieces.tail = [] ∧
        ∀ c ∈ skip, isBlank c ∨ c = '\n') := by
  cases h with
  | arrayJoint => exact .inl ⟨List.forall_mem_append.2 ⟨by simp, by simp [Piece.plain]⟩, rfl⟩
  | blankLine a _ hblanks =>
    refine .inr ⟨⟨a, rfl⟩, by simp, by simp, by simp, rfl, ?_⟩
    exact List.forall_mem_append.2 ⟨fun c hc => .inl (hblanks c hc), by simp⟩
  | commentLine a _ hblanks =>
    exact .inr ⟨⟨a, rfl⟩, by simp, by simp, by simpa using hblanks, rfl, by simp⟩
  | lastCommentLine a _ hblanks =>
    exact .inr ⟨⟨a, rfl⟩, by simp, by simp, by simpa using hblanks, rfl, by simp⟩
  | _ => exact .inl ⟨by simp [Piece.plain], rfl⟩

/-- An instruction is entered by its keyword and left by a line end. -/
theorem Move.inside (h : Move m e cs pieces skip m' e' rest) (hm' : m'.isLine = false) :
    (∃ x, pieces = [x] ∧ x.kind = .instruction) ∨
      (m.isLine = false ∧ ∀ x ∈ pieces, x.kind ≠ .newline) := by
  cases h with
  | indent | lineEnd | comment | lastComment | lineDone => cases hm'
  | keyword => exact .inl ⟨_, rfl, rfl⟩
  | arrayJoint => exact .inr ⟨rfl, List.forall_mem_append.2 ⟨by simp, by simp [Piece.plain]⟩⟩
  | _ => exact .inr ⟨rfl, by simp [Piece.plain]⟩

/-- A line is continued behind a span that joins it with the next one. -/
theorem Move.joint_of_continued {a : Argument}
    (h : Move m e cs pieces skip (.continued a) e' rest) : m.isLine = false ∧
      (rest = [] ∨ (∃ front x, pieces = front ++ [x] ∧ x.kind = .continuation ∧
          ∃ blanks, (∀ b ∈ blanks, isBlank b) ∧ x.span = e :: blanks ++ ['\n']) ∨
        ((∃ a, m = .continued a) ∧ cs ≠ [] ∧ ∀ x ∈ pieces, x.kind = .comment)) := by
  cases h with
  | joint w hcut =>
    obtain ⟨-, blanks, hblanks, hspan | ⟨-, hrest⟩⟩ := continuation?_eq_some hcut
    · exact ⟨rfl, .inr (.inl ⟨[], _, rfl, rfl, blanks, hblanks, hspan⟩)⟩
    · exact ⟨rfl, .inl hrest⟩
  | arrayJoint ha hsegment hdepth hcut =>
    obtain ⟨-, blanks, hblanks, hspan | ⟨-, hrest⟩⟩ := continuation?_eq_some hcut
    · exact ⟨rfl, .inr (.inl ⟨_, _, rfl, rfl, blanks, hblanks, hspan⟩)⟩
    · exact ⟨rfl, .inl hrest⟩
  | blankLine | commentLine => exact ⟨rfl, .inr (.inr ⟨⟨a, rfl⟩, by simp, by simp⟩)⟩
  | lastCommentLine => exact ⟨rfl, .inl rfl⟩

/-! ### What is reached -/

theorem finalEscape_of_isLine {s : State} (h : s.mode.isLine = false) :
    s.finalEscape = s.escape := by
  unfold State.finalEscape
  split
  · rename_i hmode
    rw [hmode] at h
    cases h
  · rfl

/-- What was read of a text when a state is reached: pieces, and a gap behind them. -/
structure Reached (e : Char) (text : List Char) (pieces : List Piece) (gap : List Char)
    (s : State) : Prop where
  text_eq : text = covered pieces ++ gap ++ s.rest
  position_eq : s.position = Position.start.after (covered pieces ++ gap)
  isEscape : Template.IsEscape s.escape
  finalEscape_eq : s.finalEscape = e
  tells : ∀ x ∈ pieces, x.kind ≠ .eof ∧ Tells e x
  gaps : EachAfter (fun before x => Idle e before x.gap) pieces
  idle : Idle e pieces gap
  inside : s.mode.isLine = false → InInstruction pieces
  joint : ∀ a, s.mode = .continued a → s.rest ≠ [] → BehindJoint e pieces

namespace Reached

variable {text : List Char} {s t : State} {tokens : List Token}

section

variable (hs : Reached e text before gap s)

include hs

theorem escape_eq (hm : s.mode.isLine = false) : s.escape = e := by
  rw [← finalEscape_of_isLine hm, hs.finalEscape_eq]

/-- Blanks and line ends that are passed before the rest of a continued line. -/
theorem idle_of_continued (hm : ∃ a, s.mode = .continued a) (hrest : s.rest ≠ [])
    (hpieces : ∀ x ∈ pieces, x.kind = .comment) (hskip : ∀ c ∈ skip, isBlank c ∨ c = '\n') :
    Idle e (before ++ pieces) skip := by
  obtain ⟨a, ha⟩ := hm
  have hinside : InInstruction before := hs.inside (by rw [ha]; rfl)
  refine fun _ => ⟨hskip, hinside.append ?_, (hs.joint a ha hrest).append hpieces⟩
  intro x hx
  rw [hpieces x hx]
  decide

/-- The gaps of what a step adds. -/
theorem idle_of_move (h : Move s.mode s.escape s.rest pieces skip t.mode t.escape t.rest) :
    EachAfter (fun before x => Idle e before x.gap) (before ++ attach gap pieces) ∧
      Idle e (before ++ attach gap pieces) (gapBehind gap pieces skip) := by
  have hparts : (∀ x ∈ pieces.head?, Idle e before x.gap) ∧ (∀ x ∈ pieces.tail, x.gap = []) ∧
      Idle e (before ++ attach gap pieces) skip := by
    rcases h.gaps with ⟨hgap, rfl⟩ | ⟨hm, hrest, hcomments, hblanks, htail, hskip⟩
    · refine ⟨fun x hx => ?_, fun x hx => hgap x (List.mem_of_mem_tail hx), idle_nil⟩
      rw [hgap x (List.mem_of_mem_head? hx)]
      exact idle_nil
    · refine ⟨fun x hx => ?_, by simp [htail], ?_⟩
      · have hblank := hblanks x (List.mem_of_mem_head? hx)
        have hidle := hs.idle_of_continued hm hrest (List.forall_mem_nil _)
          (fun c hc => .inl (hblank c hc))
        rwa [List.append_nil] at hidle
      · exact hs.idle_of_continued hm hrest (forall_mem_attach (fun _ _ hx => hx) hcomments) hskip
  obtain ⟨hfirst, hothers, hskip⟩ := hparts
  refine ⟨hs.gaps.append (eachAfter_idle_attach hs.idle hfirst hothers), ?_⟩
  cases pieces with
  | nil =>
    rw [attach, List.append_nil] at hskip ⊢
    exact hs.idle.append hskip
  | cons x pieces => exact hskip

/-- A step reaches more. -/
theorem step (h : Lexer.step s = .next tokens t) :
    ∃ pieces gap', Reached e text (before ++ pieces) gap' t ∧
      tokens = placed (Position.start.after (covered before)) pieces := by
  obtain ⟨pieces, skip, hmove, rfl, hposition⟩ := move_of_step hs.isEscape h
  obtain ⟨hgaps, hidle⟩ := hs.idle_of_move hmove
  refine ⟨attach gap pieces, gapBehind gap pieces skip, ?_, ?_⟩
  · constructor
    case text_eq =>
      rw [covered_append, List.append_assoc (covered before), covered_attach, hs.text_eq,
        hmove.covered_eq]
      simp
    case position_eq =>
      rw [covered_append, List.append_assoc, covered_attach, hposition, hs.position_eq,
        ← Position.after_append, List.append_assoc]
    case isEscape => exact hmove.isEscape hs.isEscape
    case finalEscape_eq => rw [finalEscape_of_step hs.isEscape h, hs.finalEscape_eq]
    case tells =>
      refine List.forall_mem_append.2 ⟨hs.tells, forall_mem_attach (fun x gap hx => hx) ?_⟩
      exact fun x hx => ⟨hmove.kind_ne_eof x hx, hmove.tells hs.isEscape hs.escape_eq x hx⟩
    case gaps => exact hgaps
    case idle => exact hidle
    case inside =>
      intro ht
      rcases hmove.inside ht with ⟨x, rfl, hx⟩ | ⟨hm, hpieces⟩
      · exact ⟨before, _, [], rfl, hx, by simp⟩
      · exact (hs.inside hm).append (forall_mem_attach (fun _ _ hx => hx) hpieces)
    case joint =>
      intro a ha hrest
      rw [ha] at hmove
      -- The line was joined just now, or earlier with only comments in between.
      obtain ⟨hm, hnil | ⟨front, x, rfl, hx, hspan⟩ | ⟨⟨a', ha'⟩, hne, hcomments⟩⟩ :=
        hmove.joint_of_continued
      · exact (hrest hnil).elim
      · obtain ⟨front', gap', heq⟩ := attach_concat gap front x
        rw [hs.escape_eq hm] at hspan
        rw [heq, ← List.append_assoc]
        exact ⟨_, _, [], rfl, hx, hspan, by simp⟩
      · exact (hs.joint a' ha' hne).append (forall_mem_attach (fun _ _ hx => hx) hcomments)
  · rw [placed_attach, hs.position_eq, Position.after_append]

/-- What is reached in some steps. -/
theorem steps (h : Steps s tokens t) :
    ∃ pieces gap', Reached e text (before ++ pieces) gap' t ∧
      tokens = placed (Position.start.after (covered before)) pieces := by
  induction h generalizing before gap with
  | refl s =>
    refine ⟨[], gap, ?_, rfl⟩
    rwa [List.append_nil]
  | cons hstep hmore ih =>
    obtain ⟨pieces, gap', ht, rfl⟩ := hs.step hstep
    obtain ⟨others, gap'', hu, rfl⟩ := ih ht
    refine ⟨pieces ++ others, gap'', ?_, ?_⟩
    · rwa [← List.append_assoc]
    · rw [placed_append, covered_append, Position.after_append]

end

end Reached

theorem reached_start (source : String) :
    Reached (Document.escapeOf source) (feedsOfPairs source.toList) [] []
      (.start (feedsOfPairs source.toList)) where
  text_eq := rfl
  position_eq := rfl
  isEscape := .inl rfl
  finalEscape_eq := rfl
  tells := by simp
  gaps := eachAfter_nil
  idle := idle_nil
  inside := by
    intro h
    cases h
  joint := by
    intro a h
    cases h

/-! ### Whole texts -/

/-- The tokens of a text stand for pieces of it. -/
structure Spans (source : String) (pieces : List Piece) : Prop where
  tokens_eq : (Token.scan source).tokens = placed .start pieces
  text_eq : feedsOfPairs source.toList = covered pieces
  gaps : EachAfter (fun before x => Idle (Document.escapeOf source) before x.gap) pieces
  tells : ∀ x ∈ pieces, Tells (Document.escapeOf source) x
  /-- The last token is the only end. -/
  ends : ∃ front gap, pieces = front ++ [⟨gap, .eof, [], []⟩] ∧ ∀ x ∈ front, x.kind ≠ .eof

theorem exists_spans {source : String} (h : (Token.scan source).fault = none) :
    ∃ pieces, Spans source pieces := by
  obtain ⟨tokens, t, hsteps, ⟨token, hfinished, hscan⟩ | ⟨fault, -, hscan⟩⟩ :=
    exists_steps (.start (feedsOfPairs source.toList))
  · obtain ⟨pieces, gap, ht, rfl⟩ := (reached_start source).steps hsteps
    obtain ⟨hrest, rfl⟩ := step_finished hfinished
    rw [List.nil_append] at ht
    refine ⟨pieces ++ [⟨gap, .eof, [], []⟩], ?_⟩
    constructor
    case tokens_eq =>
      rw [Token.scan, hscan, placed_append, ht.position_eq, Position.after_append]
      rfl
    case text_eq =>
      rw [ht.text_eq, hrest]
      simp
    case gaps => exact eachAfter_concat.2 ⟨ht.gaps, ht.idle⟩
    case tells =>
      refine List.forall_mem_append.2 ⟨fun x hx => (ht.tells x hx).2, ?_⟩
      exact List.forall_mem_singleton.2 rfl
    case ends => exact ⟨pieces, gap, rfl, fun x hx => (ht.tells x hx).1⟩
  · rw [Token.scan, hscan] at h
    cases h

/-- Is a line of a text joined with the next one? -/
def Joins (e : Char) (text : List Char) : Prop :=
  ∃ front blanks behind, (∀ b ∈ blanks, isBlank b) ∧ text = front ++ (e :: blanks ++ '\n' :: behind)

theorem Joins.mono {part text : List Char} (h : Joins e part) (hpart : part <:+: text) :
    Joins e text := by
  obtain ⟨front, blanks, behind, hblanks, rfl⟩ := h
  obtain ⟨before, after, rfl⟩ := hpart
  exact ⟨before ++ front, blanks, behind ++ after, hblanks, by simp⟩

theorem Dropped.eq_of_not_joins {span text : List Char} (h : Dropped e span text)
    (hspan : ¬ Joins e span) : text = span := by
  induction h with
  | nil => rfl
  | keep _ _ ih => rw [ih fun hjoins => hspan (hjoins.mono (List.suffix_cons _ _).isInfix)]
  | @drop blanks span _ hblanks => exact (hspan ⟨[], blanks, span, hblanks, rfl⟩).elim

theorem span_infix_covered {x : Piece} (h : x ∈ pieces) : x.span <:+: covered pieces := by
  obtain ⟨front, behind, rfl⟩ := List.append_of_mem h
  exact ⟨covered front ++ x.gap, covered behind, by simp⟩

theorem flatMap_text_placed (p : Position) (pieces : List Piece) :
    (placed p pieces).flatMap (fun t => t.text.toList) = pieces.flatMap Piece.text := by
  induction pieces generalizing p with
  | nil => rfl
  | cons x pieces ih => simp [placed, Piece.token, ih]

/-- In a text none of whose lines are joined there are no gaps, and every token is its span. -/
theorem Spans.flatMap_text {source : String} (h : Spans source pieces)
    (hjoins : ¬ Joins (Document.escapeOf source) (feedsOfPairs source.toList)) :
    (Token.scan source).tokens.flatMap (fun t => t.text.toList) =
      feedsOfPairs source.toList := by
  rw [h.text_eq] at hjoins
  rw [h.tokens_eq, h.text_eq, flatMap_text_placed, covered]
  refine List.flatMap_congr fun x hx => ?_
  have hgap : x.gap = [] := by
    by_contra hne
    obtain ⟨before, after, rfl⟩ := List.append_of_mem hx
    obtain ⟨-, -, front, y, behind, rfl, -, ⟨blanks, hblanks, hspan⟩, -⟩ :=
      h.gaps before x after rfl hne
    refine hjoins (Joins.mono ⟨[], blanks, [], hblanks, rfl⟩ ?_)
    rw [List.nil_append, ← hspan]
    exact span_infix_covered (by simp)
  have htext : x.text = x.span := by
    have htells := h.tells x hx
    unfold Tells at htells
    split at htells
    · exact htells.eq_of_not_joins fun hspan => hjoins (hspan.mono (span_infix_covered hx))
    · exact htells
  rw [Piece.whole, hgap, htext, List.nil_append]

/-- Lexing loses nothing and reports true places. -/
theorem scan_spans {source : String} (h : (Token.scan source).fault = none) :
    ∃ pieces, Spans source pieces ∧
      (¬ Joins (Document.escapeOf source) (Text.feedsOfPairs source.toList) →
        (Token.scan source).tokens.flatMap (fun t => t.text.toList) =
          Text.feedsOfPairs source.toList) := by
  obtain ⟨pieces, hpieces⟩ := exists_spans h
  exact ⟨pieces, hpieces, hpieces.flatMap_text⟩

/-- A continued instruction with a comment, a blank line and a quoted text over two lines. -/
theorem scan_spans_continued :
    let source := "FROM a\nRUN x \\ \n  # c\n\n  \"p\\\n q\"$y\r\n"
    (Token.scan source).fault = none ∧
      ∃ pieces, Spans source pieces ∧
        (¬ Joins (Document.escapeOf source) (Text.feedsOfPairs source.toList) →
          (Token.scan source).tokens.flatMap (fun t => t.text.toList) =
            Text.feedsOfPairs source.toList) := by
  have hscan : (Token.scan "FROM a\nRUN x \\ \n  # c\n\n  \"p\\\n q\"$y\r\n").fault = none := by
    decide +kernel
  exact ⟨hscan, scan_spans hscan⟩

end Dockerfile.Lexer
