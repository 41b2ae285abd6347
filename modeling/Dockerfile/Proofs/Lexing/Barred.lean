import Dockerfile.Proofs.Lexing.ArrayEscapes

/-!
# Lines where no array may start

Behind a word that is neither a flag nor written in capitals no bracket starts an array. A line that
is read in this way (`State.bar`) is read in the same steps as one where arrays may start, up to the
first bracket that starts one (`scanFrom_bar`), and no escape on it is refused (`not_refused_of_bar`).
At that bracket both have the same words before them, and both go on with a word.
-/

namespace Dockerfile.Lexer

/-- The words before a place where no array may start. -/
def Words.bar (w : Words) : Words := { w with allowArray := false }

/-- Arguments among which no array may start. -/
def Argument.bar : Argument → Argument
  | .words w => .words w.bar
  | .array depth w => .array depth w.bar

/-- A mode in which no array may start on the line being read. -/
def Mode.bar : Mode → Mode
  | .line window => .line window
  | .argument a => .argument a.bar
  | .continued a => .continued a.bar

/-- A state in which no array may start on the line being read. -/
def State.bar (s : State) : State := { s with mode := s.mode.bar }

/-- A step to a state in which no array may start. -/
def Step.bar : Step → Step
  | .next tokens t => .next tokens t.bar
  | .finished token => .finished token
  | .stopped fault => .stopped fault

/-- A bracket that starts an array comes next. -/
def State.Opens (s : State) (body : List Char) : Prop :=
  s.mode = .argument (.words ⟨true, []⟩) ∧ s.rest = '[' :: body

variable {s t : State} {w : Words} {cs : List Char}

theorem Words.finish_bar (w : Words) : w.bar.finish = w.finish.bar := by
  unfold Words.finish
  split
  · rename_i hword
    rw [if_pos (show w.word.isEmpty from hword)]
  · rename_i hword
    rw [if_neg (show ¬ w.word.isEmpty from hword)]
    rfl

theorem bar_eq_self (h : s.mode.isLine) : s.bar = s := by
  obtain ⟨mode, e, p, cs⟩ := s
  cases mode with
  | line window => rfl
  | argument | continued => cases h

/-! ### One step -/

theorem arrayStep_bar (s : State) (w : Words) (depth : Nat) (lead cs : List Char) :
    arrayStep s.bar w.bar depth lead cs = (arrayStep s w depth lead cs).bar := by
  unfold arrayStep
  dsimp only [State.bar]
  split
  · rfl
  · split
    · rfl
    · split <;> rfl

theorem wordsStep_bar (h : ∀ body, cs = '[' :: body → w ≠ ⟨true, []⟩) :
    wordsStep s.bar w.bar cs = (wordsStep s w cs).bar := by
  cases cs with
  | nil => rfl
  | cons c cs =>
    have hopens : (c = '[' && w.word.isEmpty && w.allowArray) = false := by
      rw [Bool.eq_false_iff, Ne, Bool.and_eq_true, Bool.and_eq_true, decide_eq_true_eq,
        List.isEmpty_iff]
      rintro ⟨⟨rfl, hword⟩, hallow⟩
      refine h cs rfl ?_
      rw [← hword, ← hallow]
    have hbar : (c = '[' && w.bar.word.isEmpty && w.bar.allowArray) = false := Bool.and_false _
    rw [wordsStep, wordsStep, hopens, hbar]
    dsimp only [State.bar]
    split
    · rfl
    split
    · rfl
    split
    · rw [Words.finish_bar]
      rfl
    rw [if_neg Bool.false_ne_true, if_neg Bool.false_ne_true]
    split
    · split <;> rfl
    split
    · split <;> rfl
    · rfl

theorem continuedStep_bar (s : State) (a : Argument) :
    continuedStep s.bar a.bar = (continuedStep s a).bar := by
  unfold continuedStep
  dsimp only [State.bar]
  split
  · rfl
  · split
    · rfl
    · split
      · split <;> rfl
      · rfl

/-- Unless a bracket starts an array, a step is the same where no array may start. -/
theorem step_bar (hs : s.mode.isLine = false) (hopens : ∀ body, ¬ s.Opens body) :
    step s.bar = (step s).bar := by
  obtain ⟨mode, e, p, cs⟩ := s
  cases mode with
  | line => cases hs
  | continued a => exact continuedStep_bar ⟨.continued a, e, p, cs⟩ a
  | argument a =>
    cases a with
    | array depth w => exact arrayStep_bar ⟨.argument (.array depth w), e, p, cs⟩ w depth [] cs
    | words w =>
      refine wordsStep_bar (s := ⟨.argument (.words w), e, p, cs⟩) fun body hbody hw => ?_
      exact hopens body ⟨by rw [hw], hbody⟩

/-! ### Whole lines -/

/-- Up to a bracket that starts an array, no line ends and arrays play no part. -/
def State.ReachesArray (s : State) (body : List Char) : Prop :=
  ∃ tokens t, Steps s tokens t ∧ Steps s.bar tokens t.bar ∧ (∀ x ∈ tokens, x.kind ≠ .newline) ∧
    t.Opens body

theorem State.Opens.reachesArray {body : List Char} (h : s.Opens body) : s.ReachesArray body :=
  ⟨[], s, .refl s, .refl s.bar, List.forall_mem_nil _, h⟩

/-- A line on which no array starts is read in the same way where no array may start. -/
theorem scanFrom_bar (he : Template.IsEscape s.escape) (hs : s.mode.isLine = false)
    (hno : ∀ body, ¬ s.ReachesArray body) : scanFrom s.bar = scanFrom s := by
  fun_induction scanFrom s with
  | case1 s token h =>
    have hstep := step_bar hs fun body hbody => hno body hbody.reachesArray
    rw [h] at hstep
    exact scanFrom_of_finished hstep
  | case2 s fault h =>
    have hstep := step_bar hs fun body hbody => hno body hbody.reachesArray
    rw [h] at hstep
    exact scanFrom_of_stopped hstep
  | case3 s tokens t h _ scan ih =>
    have hstep := step_bar hs fun body hbody => hno body hbody.reachesArray
    rw [h] at hstep
    rw [scanFrom_of_step hstep]
    cases ht : t.mode.isLine with
    | true => rw [bar_eq_self ht]
    | false =>
      obtain ⟨pieces, skip, hmove, rfl, -⟩ := move_of_step he h
      obtain ⟨-, hinside⟩ := hmove.isInside_placed hs ht s.position
      rw [ih (hmove.isEscape he) ht]
      rintro body ⟨more, u, hmore, hbar, hline, hbody⟩
      refine hno body ⟨_, u, .cons h hmore, .cons hstep hbar, ?_, hbody⟩
      exact List.forall_mem_append.2 ⟨fun x hx => x.ne_newline_of_isInside (hinside x hx), hline⟩

/-- Where no array may start, none may until the line ends. -/
theorem Steps.bar_eq {tokens : List Token} (h : Steps s tokens t)
    (he : Template.IsEscape s.escape) (hs : s.mode.isLine = false) (hbar : s.bar = s)
    (hline : ∀ x ∈ tokens, x.kind ≠ .newline) : t.bar = t := by
  induction h with
  | refl s => exact hbar
  | @cons s u t tokens more hstep _ ih =>
    have hopens (body : List Char) : ¬ s.Opens body := by
      rintro ⟨hmode, -⟩
      have hself : s.mode.bar = s.mode := congrArg State.mode hbar
      rw [hmode] at hself
      cases hself
    have hnext := step_bar hs hopens
    rw [hbar, hstep] at hnext
    obtain ⟨pieces, skip, hmove, rfl, -⟩ := move_of_step he hstep
    obtain ⟨hfirst, hlater⟩ := List.forall_mem_append.1 hline
    exact ih (hmove.isEscape he) (hmove.isLine_of_ne_newline hs hfirst)
      (Step.next.inj hnext).2.symm hlater

/-- Where no array may start, no escape is refused within the line. -/
theorem not_refused_of_bar (he : Template.IsEscape s.escape) (hs : s.mode.isWords)
    (hbar : s.bar = s) (hline : '\n' ∉ s.rest) :
    ¬ ∃ fault, (scanFrom s).fault = some fault ∧ fault.cause.kind = "invalid-escape" := by
  rintro ⟨fault, hfault, hkind⟩
  obtain ⟨tokens, q, body, hsteps, hnewline, -⟩ :=
    exists_bracket_of_refused he hs hline hfault hkind
  cases hsteps.bar_eq he (Mode.isLine_of_isWords hs) hbar hnewline

/-! ### The first word -/

/-- Is a token a piece of a word? -/
def IsWordPiece (x : Token) : Prop := x.kind = .string ∨ x.kind = .reference

/-- Where a word starts, a move makes a piece of it first. -/
theorem Move.exists_wordPiece {m' : Mode} {e e' c : Char} {skip rest : List Char}
    {pieces : List Piece} (h : Move (.argument (.words w)) e (c :: cs) pieces skip m' e' rest)
    (hblank : isBlank c = false) (hline : c ≠ '\n') (hwhole : continues e (c :: cs) = false)
    (p : Position) : ∃ x more, placed p pieces = x :: more ∧ IsWordPiece x := by
  generalize hcs : c :: cs = text at h hwhole
  cases h with
  | lineDone =>
    cases hcs
    exact (hline rfl).elim
  | joint _ hcut =>
    rw [continues, hcut] at hwhole
    cases hwhole
  | blanks _ hne hblanks =>
    obtain ⟨b, others, rfl⟩ := List.exists_cons_of_ne_nil hne
    cases hcs
    rw [hblanks c List.mem_cons_self] at hblank
    cases hblank
  | quoted => exact ⟨_, [], rfl, .inl rfl⟩
  | reference => exact ⟨_, [], rfl, .inr rfl⟩
  | literal => exact ⟨_, [], rfl, .inl rfl⟩
  | array ha =>
    cases ha
    exact ⟨_, [], rfl, .inl rfl⟩
  | arrayJoint ha =>
    cases ha
    exact ⟨_, _, rfl, .inl rfl⟩

/-- A text that starts with a word is read without a fault only if the word is. -/
theorem exists_wordPiece {e c : Char} (he : Template.IsEscape e) {p : Position}
    (hblank : isBlank c = false) (hline : c ≠ '\n') (hwhole : continues e (c :: cs) = false)
    (hfault : (scanFrom ⟨.argument (.words w), e, p, c :: cs⟩).fault = none) :
    ∃ x more, (scanFrom ⟨.argument (.words w), e, p, c :: cs⟩).tokens = x :: more ∧
      IsWordPiece x := by
  cases hstep : step ⟨.argument (.words w), e, p, c :: cs⟩ with
  | finished token => cases (step_finished hstep).1
  | stopped fault =>
    rw [scanFrom_of_stopped hstep] at hfault
    cases hfault
  | next tokens t =>
    obtain ⟨pieces, skip, hmove, rfl, -⟩ := move_of_step he hstep
    obtain ⟨x, more, hpieces, hx⟩ := hmove.exists_wordPiece hblank hline hwhole p
    rw [scanFrom_of_step hstep]
    dsimp only
    rw [hpieces]
    exact ⟨x, _, rfl, hx⟩

end Dockerfile.Lexer
