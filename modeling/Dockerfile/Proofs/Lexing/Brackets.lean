import Dockerfile.Proofs.Lexing.Lines

/-!
# Where arrays start

While the lexer reads the arguments of an instruction it keeps, of the words before a bracket, just
what decides whether the bracket starts an array (`Words`). The words themselves are put together
from the tokens, when the logical line is built (`LogicalLine.Draft`). The two agree at every step
(`Steps.tracks`). So a bracket starts an array if and only if it stands where no word is open and
all the words before it are flags or written in capitals (`startsArray_iff`).
-/

namespace Dockerfile

open Template (IsEscape)
open LogicalLine (Draft)

/-! ### Lines that grow -/

namespace LogicalLine.Draft

/-- The line with another token of its arguments. -/
def add (d : Draft) (t : Token) : Draft :=
  match t.kind with
  | .whitespace => d.space t.text
  | .string | .reference => d.piece t
  | _ => d

/-- No word is open, and all words are flags or written in capitals. -/
structure AwaitsArray (d : Draft) : Prop where
  inWord : d.inWord = false
  leaves : ∀ w ∈ d.words, Lexer.leavesArray w.text.toList

end LogicalLine.Draft

/-- Is a token one of the arguments of an instruction, or between them? -/
def Token.isInside (t : Token) : Bool :=
  [.whitespace, .string, .reference, .continuation, .comment].contains t.kind

theorem Token.ne_newline_of_isInside (t : Token) (h : t.isInside) : t.kind ≠ .newline := by
  intro hkind
  rw [isInside, hkind] at h
  cases h

theorem Entry.feeds_inside (d : Draft) {tokens : List Token} (h : ∀ t ∈ tokens, t.isInside) :
    Feeds (some d) tokens [] (some (tokens.foldl Draft.add d)) := by
  induction tokens generalizing d with
  | nil => exact feeds_nil _
  | cons t tokens ih =>
    obtain ⟨ht, htokens⟩ := List.forall_mem_cons.1 h
    have hfirst : Feeds (some d) [t] [] (some (d.add t)) := by
      intro fault more
      obtain ⟨kind, text, position⟩ := t
      cases kind with
      | newline | eof | instruction => cases ht
      | _ => rfl
    exact hfirst.append (ih (d.add t) htokens)

namespace Lexer

variable {m m' : Mode} {e e' : Char} {cs skip rest : List Char} {pieces : List Piece}
  {w : Words} {d : Draft}

/-! ### Words that are kept -/

/-- What is kept of some words is what they are. -/
inductive Words.Tracks : Words → Draft → Prop where
  | between {d : Draft} {allow : Bool} (hd : d.inWord = false)
    (hallow : allow ↔ ∀ w ∈ d.words, leavesArray w.text.toList) : Tracks ⟨allow, []⟩ d
  | inside {d : Draft} {allow : Bool} {word : List Char} {last : Word} {others : List Word}
    (hd : d.inWord = true) (hwords : d.words = last :: others) (hword : last.text.toList = word)
    (hne : word ≠ []) (hallow : allow ↔ ∀ w ∈ others, leavesArray w.text.toList) :
    Tracks ⟨allow, word⟩ d

theorem Words.tracks_start (keyword : Token) : Words.Tracks ⟨true, []⟩ (.start keyword) :=
  .between rfl (by simp [Draft.start])

theorem Words.Tracks.awaitsArray_iff (h : w.Tracks d) : d.AwaitsArray ↔ w = ⟨true, []⟩ := by
  cases h with
  | between hd hallow =>
    constructor
    · intro ha
      rw [hallow.2 ha.leaves]
    · intro heq
      cases heq
      exact ⟨hd, hallow.1 rfl⟩
  | inside hd _ _ hne =>
    constructor
    · intro ha
      cases hd.symm.trans ha.inWord
    · intro heq
      cases heq
      exact (hne rfl).elim

theorem Words.Tracks.space (h : w.Tracks d) (text : String) : w.finish.Tracks (d.space text) := by
  cases h with
  | between hd hallow => exact .between rfl hallow
  | @inside _ allow word last others hd hwords hword hne hallow =>
    have hempty : word.isEmpty = false := by simpa using hne
    rw [Words.finish, hempty, if_neg Bool.false_ne_true]
    refine .between rfl ?_
    show _ ↔ ∀ w ∈ d.words, _
    rw [hwords, List.forall_mem_cons, hword, Bool.and_eq_true, hallow, and_comm]

theorem Words.Tracks.piece (h : w.Tracks d) (kind : Token.Kind) {text : List Char}
    (htext : text ≠ [] ∨ w.word ≠ []) (p : Position) :
    (w.extend text).Tracks (d.piece ⟨kind, String.ofList text, p⟩) := by
  have hne : w.word ++ text ≠ [] := by
    rw [Ne, List.append_eq_nil_iff]
    rintro ⟨hword, hnil⟩
    exact htext.elim (fun h => h hnil) (fun h => h hword)
  cases h with
  | between hd hallow =>
    refine .inside rfl (by rw [Draft.piece, hd]) ?_ hne hallow
    rw [String.toList_ofList]
    rfl
  | inside hd hwords hword _ hallow =>
    refine .inside rfl (by rw [Draft.piece, hd, hwords]) ?_ hne hallow
    rw [String.toList_append, hword, String.toList_ofList]

/-- What is kept among arguments is what the words of the line are. Inside an array there is a
word. -/
def Argument.Tracks : Argument → Draft → Prop
  | .words w, d => w.Tracks d
  | .array _ w, d => w.Tracks d ∧ w.word ≠ []

/-- What is kept is what the words of the open line are. -/
def Mode.Tracks : Mode → Draft → Prop
  | .line _, _ => True
  | .argument a, d => a.Tracks d
  | .continued a, d => a.Tracks d

theorem dropBreaks_ne_nil {c : Char} (hc : c ≠ e) (cs : List Char) :
    dropBreaks e (c :: cs) ≠ [] := by
  have hwhole : breaksLine e (c :: cs) = false := by simp [breaksLine, hc]
  rw [dropBreaks, dropBreaksFrom, hwhole]
  exact List.cons_ne_nil _ _

theorem literal_ne_nil {span rest : List Char} (hstart : startsLiteral e w (span ++ rest))
    (hcut : literal e (span ++ rest) = (span, rest)) : span ≠ [] := by
  rintro rfl
  cases rest with
  | nil => cases hstart
  | cons c rest =>
    simp only [List.nil_append, startsLiteral, Bool.and_eq_true, Bool.not_eq_true', decide_not,
      decide_eq_false_iff_not] at hstart
    obtain ⟨⟨⟨⟨⟨hline, hwhole⟩, hblank⟩, -⟩, hquote⟩, hdollar⟩ := hstart
    have hlength := literal_length_lt hblank hline hquote hdollar hwhole
    rw [List.nil_append] at hcut
    rw [hcut] at hlength
    exact Nat.lt_irrefl _ hlength

/-- The piece of an array belongs to the word of the array. -/
theorem InArray.tracks {a : Argument} {depth : Nat} {lead : List Char} (ha : InArray a w depth lead)
    (he : IsEscape e) (h : a.Tracks d) (span : List Char) (p : Position) :
    let text := dropBreaks e (lead ++ span)
    (w.extend text).Tracks ((placed p (arrayPieces e (lead ++ span))).foldl Draft.add d) ∧
      (w.extend text).word ≠ [] := by
  cases ha with
  | first hword hallow =>
    have hne : dropBreaks e ('[' :: span) ≠ [] :=
      dropBreaks_ne_nil (by rcases he with rfl | rfl <;> decide) span
    refine ⟨Words.Tracks.piece h .string (.inl hne) p, ?_⟩
    simp [Words.extend, hne]
  | later depth w =>
    obtain ⟨h, hne⟩ := h
    rw [List.nil_append]
    refine ⟨?_, by simp [Words.extend, hne]⟩
    unfold arrayPieces
    split
    · rename_i hspan
      rw [List.isEmpty_iff.1 hspan]
      simpa [Words.extend, dropBreaks, dropBreaksFrom, placed] using h
    · exact h.piece .string (.inr hne) p

/-- A move among arguments that does not end the line keeps the escape character and makes tokens of
the line. -/
theorem Move.isInside_placed (h : Move m e cs pieces skip m' e' rest) (hm : m.isLine = false)
    (hm' : m'.isLine = false) (p : Position) : e' = e ∧ ∀ t ∈ placed p pieces, t.isInside := by
  have harray (span : List Char) : ∀ t ∈ placed p (arrayPieces e span), t.isInside := by
    rw [placed_arrayPieces]
    split <;> simp [Token.isInside]
  cases h with
  | indent | lineEnd | comment | lastComment | keyword => cases hm
  | lineDone => cases hm'
  | array => exact ⟨rfl, harray _⟩
  | arrayJoint =>
    rw [placed_append]
    refine ⟨rfl, List.forall_mem_append.2 ⟨harray _, ?_⟩⟩
    simp [placed, Piece.token, Piece.plain, Token.isInside]
  | _ => exact ⟨rfl, by simp [placed, Piece.token, Piece.plain, Token.isInside]⟩

/-- A move among arguments adds its tokens to the words of the line. -/
theorem Move.tracks (he : IsEscape e) (h : Move m e cs pieces skip m' e' rest)
    (hm : m.isLine = false) (hd : m.Tracks d) (p : Position) :
    m'.Tracks ((placed p pieces).foldl Draft.add d) := by
  cases h with
  | indent | lineEnd | comment | lastComment | keyword => cases hm
  | lineDone => trivial
  | joint => exact hd
  | blanks => exact Words.Tracks.space hd _
  | @quoted _ _ quote span rest hquote hwhole hcut =>
    refine Words.Tracks.piece hd .string (.inl (dropBreaks_ne_nil ?_ span)) p
    rintro rfl
    rcases he with rfl | rfl <;> cases hquote
  | reference => exact Words.Tracks.piece hd .reference (.inl (List.cons_ne_nil _ _)) p
  | literal w hstart hcut =>
    exact Words.Tracks.piece hd .string (.inl (literal_ne_nil hstart hcut)) p
  | @array _ _ _ _ _ lead span rest ha hcut hend => exact (ha.tracks he hd span p).1
  | @arrayJoint _ _ _ _ _ lead span joint rest ha hcut hdepth hjoint =>
    rw [placed_append, List.foldl_append]
    exact ha.tracks he hd span p
  | resume | blankLine | commentLine | lastCommentLine => exact hd

/-! ### Where an array starts -/

theorem Move.isLine_of_ne_newline (h : Move m e cs pieces skip m' e' rest) (hm : m.isLine = false)
    {p : Position} (hline : ∀ t ∈ placed p pieces, t.kind ≠ .newline) : m'.isLine = false := by
  cases h with
  | indent | lineEnd | comment | lastComment => cases hm
  | lineDone => exact (hline _ List.mem_cons_self rfl).elim
  | _ => rfl

/-- For as long as a line is read, the escape character is kept and the tokens are of the line. -/
theorem Steps.isInside {s t : State} {tokens : List Token} (h : Steps s tokens t)
    (he : IsEscape s.escape) (hs : s.mode.isLine = false)
    (hline : ∀ x ∈ tokens, x.kind ≠ .newline) :
    t.escape = s.escape ∧ t.mode.isLine = false ∧ ∀ x ∈ tokens, x.isInside := by
  induction h with
  | refl s => exact ⟨rfl, hs, List.forall_mem_nil _⟩
  | @cons s u t tokens more hstep _ ih =>
    obtain ⟨pieces, skip, hmove, rfl, -⟩ := move_of_step he hstep
    obtain ⟨hfirst, hlater⟩ := List.forall_mem_append.1 hline
    have hu := hmove.isLine_of_ne_newline hs hfirst
    obtain ⟨hescape, hinside⟩ := hmove.isInside_placed hs hu s.position
    obtain ⟨hsame, ht, hmore⟩ := ih (hmove.isEscape he) hu hlater
    exact ⟨hsame.trans hescape, ht, List.forall_mem_append.2 ⟨hinside, hmore⟩⟩

/-- For as long as a line is read, what is kept is what its words are. -/
theorem Steps.tracks {s t : State} {tokens : List Token} (h : Steps s tokens t)
    (he : IsEscape s.escape) (hs : s.mode.isLine = false)
    (hline : ∀ x ∈ tokens, x.kind ≠ .newline) {d : Draft} (hd : s.mode.Tracks d) :
    t.mode.Tracks (tokens.foldl Draft.add d) := by
  induction h generalizing d with
  | refl s => exact hd
  | @cons s u t tokens more hstep _ ih =>
    obtain ⟨pieces, skip, hmove, rfl, -⟩ := move_of_step he hstep
    obtain ⟨hfirst, hlater⟩ := List.forall_mem_append.1 hline
    rw [List.foldl_append]
    exact ih (hmove.isEscape he) (hmove.isLine_of_ne_newline hs hfirst) hlater
      (hmove.tracks he hs hd s.position)

/-- Behind the keyword of an instruction, a bracket that starts an array is read before `body`: no
word is open there, and all the words before it are flags or written in capitals. -/
def StartsArray (e : Char) (cs body : List Char) : Prop :=
  ∃ keyword p tokens q w,
    Steps ⟨.argument (.words ⟨true, []⟩), e, p, cs⟩ tokens
      ⟨.argument (.words w), e, q, '[' :: body⟩ ∧
    (∀ t ∈ tokens, t.kind ≠ .newline) ∧ (tokens.foldl Draft.add (.start keyword)).AwaitsArray

/-- The lexer is where an array may start just where the words of the line say so. -/
theorem startsArray_iff (he : IsEscape e) {body : List Char} :
    StartsArray e cs body ↔ ∃ p tokens q, (∀ t ∈ tokens, t.kind ≠ .newline) ∧
      Steps ⟨.argument (.words ⟨true, []⟩), e, p, cs⟩ tokens
        ⟨.argument (.words ⟨true, []⟩), e, q, '[' :: body⟩ := by
  constructor
  · rintro ⟨keyword, p, tokens, q, w, hsteps, hline, hawaits⟩
    have htracks := hsteps.tracks he rfl hline (Words.tracks_start keyword)
    obtain rfl := (Words.Tracks.awaitsArray_iff htracks).1 hawaits
    exact ⟨p, tokens, q, hline, hsteps⟩
  · rintro ⟨p, tokens, q, hline, hsteps⟩
    have htracks := hsteps.tracks he rfl hline (Words.tracks_start ⟨.instruction, "", p⟩)
    exact ⟨_, p, tokens, q, _, hsteps, hline, (Words.Tracks.awaitsArray_iff htracks).2 rfl⟩

/-- Without a bracket no array starts. -/
theorem StartsArray.mem (he : IsEscape e) {body : List Char} (h : StartsArray e cs body) :
    '[' ∈ cs := by
  obtain ⟨keyword, p, tokens, q, w, hsteps, -⟩ := h
  obtain ⟨passed, hpassed, -⟩ := hsteps.positions he
  have hcs : cs = passed ++ '[' :: body := hpassed
  simp [hcs]

/-- A text is read in the same way wherever it stands. -/
theorem Steps.elsewhere {s t : State} {tokens : List Token} (h : Steps s tokens t)
    (he : IsEscape s.escape) (p : Position) : ∃ tokens' q,
      Steps { s with position := p } tokens' { t with position := q } := by
  induction h generalizing p with
  | refl s => exact ⟨[], p, .refl _⟩
  | @cons s u t tokens more hstep _ ih =>
    obtain ⟨pieces, skip, hmove, rfl, -⟩ := move_of_step he hstep
    obtain ⟨others, q, hothers⟩ := ih (hmove.isEscape he) (p.after (covered pieces ++ skip))
    exact ⟨placed p pieces ++ others, q, .cons (step_of_move he hmove p) hothers⟩

end Lexer

end Dockerfile
