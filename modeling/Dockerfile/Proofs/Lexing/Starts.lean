import Dockerfile.Proofs.Lexing.Borders

/-!
# Where instructions start

The tokens of a text stand one behind the other, and behind the end of a line the next line begins
(`pairwise_scan`). An instruction goes up to the end of a line, so every instruction of a text starts
on a line of its own, in the order of the document (`pairwise_line_of_parse`). The place of an
instruction therefore says which instruction it is.
-/

namespace Dockerfile

namespace Token

/-- Does a token stand before a place? Its line is not behind that of the place, and where it ends
its line it is before it. -/
def Before (t : Token) (p : Position) : Prop :=
  t.position.line ≤ p.line ∧ (t.kind = .newline → t.position.line < p.line)

theorem Before.trans {t : Token} {p q : Position} (h : t.Before p) (hq : p.line ≤ q.line) :
    t.Before q :=
  ⟨h.1.trans hq, fun hkind => (h.2 hkind).trans_le hq⟩

end Token

namespace Lexer

/-! ### Tokens -/

theorem line_le_after (p : Position) (cs : List Char) : p.line ≤ (p.after cs).line := by
  rw [line_after]
  exact Nat.le_add_right _ _

theorem line_lt_after (p : Position) {cs : List Char} (h : '\n' ∈ cs) :
    p.line < (p.after cs).line := by
  rw [line_after]
  have hpos := List.count_pos_iff.2 h
  omega

/-- The end of a line is what a token of that kind covers. -/
theorem Move.newline_mem_span {m m' : Mode} {e e' : Char} {cs skip rest : List Char}
    {pieces : List Piece} (h : Move m e cs pieces skip m' e' rest) {x : Piece} (hx : x ∈ pieces)
    (hkind : x.kind = .newline) : '\n' ∈ x.span := by
  have harray {span : List Char} (hx : x ∈ arrayPieces e span) : '\n' ∈ x.span := by
    rw [(mem_arrayPieces.1 hx).1] at hkind
    cases hkind
  cases h with
  | lineEnd | lineDone =>
    rw [List.mem_singleton.1 hx]
    exact List.mem_singleton_self '\n'
  | comment =>
    rcases List.mem_cons.1 hx with rfl | hx
    · cases hkind
    · rw [List.mem_singleton.1 hx]
      exact List.mem_singleton_self '\n'
  | array => exact harray hx
  | arrayJoint =>
    rcases List.mem_append.1 hx with hx | hx
    · exact harray hx
    · rw [List.mem_singleton.1 hx] at hkind
      cases hkind
  | resume | blankLine => cases hx
  | _ =>
    rw [List.mem_singleton.1 hx] at hkind
    cases hkind

theorem before_placed {pieces : List Piece}
    (h : ∀ x ∈ pieces, x.kind = .newline → '\n' ∈ x.span) (p : Position) :
    (placed p pieces).Pairwise (fun a b => a.Before b.position) ∧
      ∀ t ∈ placed p pieces, p.line ≤ t.position.line ∧ t.Before (p.after (covered pieces)) := by
  induction pieces generalizing p with
  | nil => exact ⟨.nil, fun t ht => by cases ht⟩
  | cons x pieces ih =>
    obtain ⟨hpairwise, hall⟩ := ih (fun y hy => h y (List.mem_cons_of_mem x hy)) (p.after x.whole)
    have hx : (x.token p).Before (p.after x.whole) := by
      rw [Piece.whole, Position.after_append]
      refine ⟨line_le_after _ _, fun hkind => line_lt_after _ ?_⟩
      exact h x List.mem_cons_self hkind
    have hend : p.after (covered (x :: pieces)) = (p.after x.whole).after (covered pieces) := by
      rw [← Position.after_append]
      rfl
    refine ⟨List.pairwise_cons.2 ⟨fun t ht => hx.trans (hall t ht).1, hpairwise⟩, ?_⟩
    intro t ht
    rw [hend]
    rcases List.mem_cons.1 ht with rfl | ht
    · exact ⟨line_le_after p x.gap, hx.trans (line_le_after _ _)⟩
    · obtain ⟨hline, hbefore⟩ := hall t ht
      exact ⟨(line_le_after p x.whole).trans hline, hbefore⟩

/-- The tokens of some steps stand one behind the other, between the places of the two states. -/
theorem Steps.before {s t : State} {tokens : List Token} (h : Steps s tokens t)
    (he : Template.IsEscape s.escape) :
    tokens.Pairwise (fun a b => a.Before b.position) ∧ s.position.line ≤ t.position.line ∧
      ∀ x ∈ tokens, s.position.line ≤ x.position.line ∧ x.Before t.position := by
  induction h with
  | refl s => exact ⟨.nil, Nat.le_refl _, fun x hx => by cases hx⟩
  | @cons s t u tokens more hstep _ ih =>
    obtain ⟨pieces, skip, hmove, rfl, hposition⟩ := move_of_step he hstep
    obtain ⟨hpairwise, hline, hmore⟩ := ih (hmove.isEscape he)
    obtain ⟨hplaced, hfirst⟩ := before_placed (fun x hx => hmove.newline_mem_span hx) s.position
    have hpassed : (s.position.after (covered pieces)).line ≤ t.position.line := by
      rw [hposition, Position.after_append]
      exact line_le_after _ _
    have hstart : s.position.line ≤ t.position.line := (line_le_after _ _).trans hpassed
    refine ⟨List.pairwise_append.2 ⟨hplaced, hpairwise, ?_⟩, hstart.trans hline, ?_⟩
    · intro a ha b hb
      exact (hfirst a ha).2.trans (hpassed.trans (hmore b hb).1)
    · intro x hx
      rcases List.mem_append.1 hx with hx | hx
      · exact ⟨(hfirst x hx).1, (hfirst x hx).2.trans (hpassed.trans hline)⟩
      · exact ⟨hstart.trans (hmore x hx).1, (hmore x hx).2⟩

/-- The tokens of a text stand one behind the other. -/
theorem pairwise_scan (source : String) :
    (Token.scan source).tokens.Pairwise fun a b => a.Before b.position := by
  obtain ⟨tokens, t, hsteps, ⟨token, hfinished, hscan⟩ | ⟨fault, -, hscan⟩⟩ :=
    exists_steps (.start (Text.feedsOfPairs source.toList))
  · obtain ⟨hpairwise, -, hall⟩ := hsteps.before (.inl rfl)
    obtain ⟨-, rfl⟩ := step_finished hfinished
    rw [Token.scan, hscan]
    refine List.pairwise_append.2 ⟨hpairwise, List.pairwise_singleton _ _, fun a ha b hb => ?_⟩
    rw [List.mem_singleton.1 hb]
    exact (hall a ha).2
  · rw [Token.scan, hscan]
    exact (hsteps.before (.inl rfl)).1

end Lexer

/-! ### Lines -/

namespace Entry

open LogicalLine (Draft)

/-- The logical lines of some entries. -/
def lines : List Entry → List LogicalLine
  | [] => []
  | .line own :: rest => own :: lines rest
  | _ :: rest => lines rest

theorem lines_append (a b : List Entry) : lines (a ++ b) = lines a ++ lines b := by
  induction a with
  | nil => rfl
  | cons entry a ih =>
    cases entry with
    | line line => exact congrArg (line :: ·) ih
    | _ => exact ih

/-- What a token does to the line that is being read: the lines that it closes and the draft that it
leaves. -/
inductive Turns (t : Token) : Option Draft → List LogicalLine → Option Draft → Prop
  | skip (h : t.kind ≠ .instruction) : Turns t none [] none
  | start (h : t.kind = .instruction) : Turns t none [] (some (.start t))
  | close (d : Draft) (h : t.kind = .newline) : Turns t (some d) [d.finish] none
  | stay (d : Draft) (h : t.kind ≠ .instruction) : Turns t (some d) [] (some d)
  | space (d : Draft) (h : t.kind = .whitespace) : Turns t (some d) [] (some (d.space t.text))
  | piece (d : Draft) (h : t.kind ≠ .instruction) : Turns t (some d) [] (some (d.piece t))

/-- A token turns the draft into another one, unless it is the last that is read: the end of the
text, or a token that cannot stand where it does. -/
theorem exists_turns (t : Token) (draft : Option Draft) :
    (∃ entries draft', Feeds draft [t] entries draft' ∧ Turns t draft (lines entries) draft') ∨
      ∀ fault more, ofTokensFrom fault draft (t :: more) =
        if t.kind = .eof then draft.toList.map (.line ·.finish) else [stray t] := by
  obtain ⟨kind, text, position⟩ := t
  cases draft with
  | none =>
    cases kind with
    | whitespace => exact .inl ⟨[], none, fun _ _ => rfl, .skip nofun⟩
    | newline => exact .inl ⟨[.lineEnd], none, fun _ _ => rfl, .skip nofun⟩
    | comment => exact .inl ⟨[.comment _], none, fun _ _ => rfl, .skip nofun⟩
    | instruction => exact .inl ⟨[], some (.start _), fun _ _ => rfl, .start rfl⟩
    | _ => exact .inr fun _ _ => rfl
  | some d =>
    cases kind with
    | newline => exact .inl ⟨[.line d.finish], none, fun _ _ => rfl, .close d rfl⟩
    | continuation | comment => exact .inl ⟨[], some d, fun _ _ => rfl, .stay d nofun⟩
    | whitespace => exact .inl ⟨[], some (d.space text), fun _ _ => rfl, .space d rfl⟩
    | string | reference => exact .inl ⟨[], some (d.piece _), fun _ _ => rfl, .piece d nofun⟩
    | eof | instruction => exact .inr fun _ _ => rfl

/-- Where the tokens end, no line is left but the one that is being read. -/
theorem lines_nil_sublist (fault : Option Lexer.Fault) (draft : Option Draft) :
    (lines (ofTokensFrom fault draft [])).Sublist (draft.toList.map Draft.finish) := by
  cases draft <;> cases fault <;> simp [ofTokensFrom, lines]

/-- The lines of some tokens are those that the first one closes and those of the others, unless
nothing is read behind it. -/
theorem lines_cons (fault : Option Lexer.Fault) (draft : Option Draft) (t : Token)
    (tokens : List Token) :
    (∃ closed draft', Turns t draft closed draft' ∧
      lines (ofTokensFrom fault draft (t :: tokens)) =
        closed ++ lines (ofTokensFrom fault draft' tokens)) ∨
      (lines (ofTokensFrom fault draft (t :: tokens))).Sublist (draft.toList.map Draft.finish) := by
  rcases exists_turns t draft with ⟨entries, draft', hfeeds, hturns⟩ | hlast
  · have hsplit : ofTokensFrom fault draft (t :: tokens) =
        entries ++ ofTokensFrom fault draft' tokens := hfeeds fault tokens
    exact .inl ⟨lines entries, draft', hturns, by rw [hsplit, lines_append]⟩
  · rw [hlast]
    split
    · cases draft <;> exact .inr (List.Sublist.refl _)
    · exact .inr (List.nil_sublist _)

/-- The line that is being read is a single one. -/
theorem pairwise_of_sublist {draft : Option Draft} {first : Nat} {own : List LogicalLine}
    (hdraft : ∀ d ∈ draft, first ≤ d.position.line)
    (hown : own.Sublist (draft.toList.map Draft.finish)) :
    own.Pairwise (fun a b => a.position.line < b.position.line) ∧
      ∀ line ∈ own, first ≤ line.position.line := by
  cases draft with
  | none =>
    rw [List.sublist_nil.1 hown]
    exact ⟨.nil, nofun⟩
  | some d =>
    refine ⟨(List.pairwise_singleton _ _).sublist hown, fun line hline => ?_⟩
    rw [List.mem_singleton.1 (hown.subset hline)]
    exact hdraft d rfl

/-- The logical lines of tokens that stand one behind the other start on lines that go up, none of
them before the tokens and the draft. -/
theorem pairwise_lines {fault : Option Lexer.Fault} {tokens : List Token}
    (h : tokens.Pairwise fun a b => a.Before b.position) (draft : Option Draft)
    (first : Nat) (hdraft : ∀ d ∈ draft, first ≤ d.position.line ∧
      ∀ t ∈ tokens, d.position.line ≤ t.position.line)
    (hfirst : ∀ t ∈ tokens, first ≤ t.position.line) :
    (lines (ofTokensFrom fault draft tokens)).Pairwise
        (fun a b => a.position.line < b.position.line) ∧
      ∀ line ∈ lines (ofTokensFrom fault draft tokens), first ≤ line.position.line := by
  induction tokens generalizing draft first with
  | nil => exact pairwise_of_sublist (fun d hd => (hdraft d hd).1) (lines_nil_sublist fault draft)
  | cons t tokens ih =>
    obtain ⟨hnext, htokens⟩ := List.pairwise_cons.1 h
    obtain ⟨ht, hrest⟩ := List.forall_mem_cons.1 hfirst
    rcases lines_cons fault draft t tokens with ⟨closed, draft', hturns, hlines⟩ | hlast
    · -- A draft that is still open starts where it did.
      have hopen {d : Draft} (hd : d ∈ draft) (d' : Draft) (hd' : d'.position = d.position) :=
        ih htokens (some d') first (by
          rintro d'' ⟨⟩
          rw [hd']
          exact ⟨(hdraft d hd).1, (List.forall_mem_cons.1 (hdraft d hd).2).2⟩) hrest
      rw [hlines]
      cases hturns with
      | skip => exact ih htokens none first nofun hrest
      | start =>
        refine ih htokens (some (.start t)) first ?_ hrest
        rintro d ⟨⟩
        exact ⟨ht, fun u hu => (hnext u hu).1⟩
      | close d hkind =>
        obtain ⟨hd, hbehind⟩ := hdraft d rfl
        -- What follows starts below the end of the line, and the line starts above it.
        have hbelow : ∀ u ∈ tokens, d.position.line + 1 ≤ u.position.line := fun u hu =>
          (Nat.succ_le_succ (hbehind t List.mem_cons_self)).trans ((hnext u hu).2 hkind)
        obtain ⟨hpairwise, hall⟩ := ih htokens none (d.position.line + 1) nofun hbelow
        refine ⟨List.pairwise_cons.2 ⟨hall, hpairwise⟩, List.forall_mem_cons.2 ⟨hd, ?_⟩⟩
        exact fun line hline => hd.trans ((Nat.le_succ _).trans (hall line hline))
      | stay d => exact hopen rfl d rfl
      | space d => exact hopen rfl (d.space t.text) rfl
      | piece d => exact hopen rfl (d.piece t) rfl
    · exact pairwise_of_sublist (fun d hd => (hdraft d hd).1) hlast

end Entry

theorem Instruction.position_of_ofLine {escape : Char} {line : LogicalLine} {i : Instruction}
    (h : ofLine escape line = .ok i) : i.position = line.position := by
  unfold ofLine at h
  cases hbody : readBody escape line.raw line.keyword line.position line.words with
  | error fault =>
    rw [hbody] at h
    cases h
  | ok body =>
    rw [hbody] at h
    cases h
    rfl

namespace Document

/-- What a line tells of the instruction that it is read as, the lines tell of the instructions. -/
theorem map_instructions {α : Type} {f : Instruction → α} {g : LogicalLine → α} {escape : Char}
    (hread : ∀ line i, Instruction.ofLine escape line = .ok i → f i = g line)
    {entries : List Entry} {is : List Instruction} (h : instructions escape entries = .ok is) :
    is.map f = (Entry.lines entries).map g := by
  induction entries generalizing is with
  | nil =>
    cases h
    rfl
  | cons entry entries ih =>
    cases entry with
    | comment | lineEnd => exact ih h
    | line line =>
      unfold instructions at h
      split at h
      · cases h
      · rename_i i hline
        cases hothers : instructions escape entries with
        | error fault =>
          rw [hothers] at h
          cases h
        | ok others =>
          rw [hothers] at h
          cases h
          rw [List.map_cons, hread line i hline, ih hothers, Entry.lines, List.map_cons]
    | stray | broken => cases h

variable {source : String} {d : Document}

/-- Every instruction of a text starts on a line of its own, in the order of the document. -/
theorem pairwise_line_of_parse (h : parse source = .ok d) :
    (d.all.map Instruction.position).Pairwise fun p q => p.line < q.line := by
  obtain ⟨is, his, rfl⟩ := ofEntries_eq_ok h
  rw [all_ofInstructions, map_instructions (fun _ _ => Instruction.position_of_ofLine) his,
    List.pairwise_map]
  exact (Entry.pairwise_lines (Lexer.pairwise_scan source) none 0
    (fun d hd => by cases hd) (fun t _ => Nat.zero_le _)).1

/-- No two instructions of a text stand at one place. -/
theorem nodup_position_of_parse (h : parse source = .ok d) :
    (d.all.map Instruction.position).Nodup := by
  refine (pairwise_line_of_parse h).imp ?_
  rintro p q hlt rfl
  exact Nat.lt_irrefl _ hlt

end Document

end Dockerfile
