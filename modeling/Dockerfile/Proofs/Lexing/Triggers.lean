import Dockerfile.Proofs.Lexing.Lines

/-!
# Triggers

The argument of `ONBUILD` is an instruction of its own, the trigger. It is read out of the line of
the `ONBUILD`, its keyword being the first word there, and the lexer sees that word before it
decides where an array may start. Nothing of this shows: behind `ONBUILD` an instruction is read
as without it, at another place (`instructions_triggered`), and if it is refused, then for the same
cause. So a line can be put behind `ONBUILD` in any file (`parse_triggered`).
-/

namespace Dockerfile

open LogicalLine (Draft)

/-- The place with the text of one line moved to the right. -/
def Position.beside (line k : Nat) (p : Position) : Position :=
  if p.line = line then ⟨p.line, p.column + k⟩ else p

variable (f : Position → Position)

/-! ### A line in a line -/

/-- The line of an `ONBUILD` with a line as its trigger. -/
def LogicalLine.triggered (line : LogicalLine) : LogicalLine where
  keyword := "ONBUILD"
  position := line.position
  words := ⟨line.keyword, f line.position, 1⟩ :: line.words.map (Word.carry f (" " ++ line.keyword))
  raw := " " ++ line.keyword ++ line.raw

def LogicalLine.Draft.triggered (d : Draft) : Draft where
  keyword := "ONBUILD"
  position := d.position
  words := d.words.map (Word.carry f (" " ++ d.keyword)) ++ [⟨d.keyword, f d.position, 1⟩]
  inWord := d.inWord
  raw := " " ++ d.keyword ++ d.raw

/-- The `ONBUILD` of a trigger with a text. -/
def Instruction.triggered (expression : String) (i : Instruction) : Instruction :=
  ⟨i.position, .onbuild (f i.position) (i.body.relocate f) expression⟩

def Entry.triggered : Entry → Entry
  | .line l => .line (l.triggered f)
  | entry => entry.relocate f

namespace Instruction

/-- A trigger is read as an instruction of its own. -/
theorem ofLine_triggered (escape : Char) (line : LogicalLine) : ∃ expression,
    ofLine escape (line.triggered f) =
      mapBoth (Fault.relocate f) (Instruction.triggered f expression) (ofLine escape line) := by
  have hbody := readBody_carry f (" " ++ line.keyword) escape line.raw line.keyword line.position
    line.words
  have hkind : Kind.ofKeyword? "ONBUILD" = some .onbuild := by decide +kernel
  refine ⟨(line.triggered f).textFrom ⟨line.keyword, f line.position, 1⟩, ?_⟩
  unfold ofLine LogicalLine.triggered
  rw [readBody, hkind]
  dsimp only
  rw [hbody]
  cases readBody escape line.raw line.keyword line.position line.words <;> rfl

end Instruction

namespace Entry

/-- Only behind a piece of a word the next piece can belong to the word. -/
def Sound (d : Draft) : Prop := d.inWord → d.words ≠ []

theorem sound_piece (d : Draft) (t : Token) : Sound (d.piece t) := by
  intro _
  unfold Draft.piece
  dsimp only
  split <;> exact List.cons_ne_nil _ _

theorem piece_triggered {d : Draft} (h : Sound d) (t : Token) :
    (d.triggered f).piece (t.relocate f) = (d.piece t).triggered f := by
  obtain ⟨keyword, position, words, inWord, raw⟩ := d
  have hraw (text : String) : " " ++ keyword ++ (raw ++ text) = " " ++ keyword ++ raw ++ text :=
    String.append_assoc.symm
  cases inWord with
  | false =>
    have hlength : (" " ++ keyword ++ raw).length = raw.length + (" " ++ keyword).length := by
      rw [String.length_append, Nat.add_comm]
    simp only [Draft.triggered, Draft.piece, Token.relocate, hraw, hlength]
    rfl
  | true =>
    cases words with
    | nil => exact (h rfl rfl).elim
    | cons w words =>
      simp only [Draft.triggered, Draft.piece, Token.relocate, hraw]
      rfl

theorem finish_triggered (d : Draft) : (d.triggered f).finish = d.finish.triggered f := by
  simp [Draft.finish, Draft.triggered, LogicalLine.triggered]

/-- The tokens of an open line, read as those of the trigger of another open line. -/
theorem exists_ofTokensFrom_triggered (fault : Option Lexer.Fault) {d : Draft} (hd : Sound d)
    (tokens : List Token) : ∃ entry others, entry.isSilent = false ∧
      ofTokensFrom fault (some d) tokens = entry :: others ∧
      ofTokensFrom (fault.map (Lexer.Fault.relocate f)) (some (d.triggered f))
        (tokens.map (Token.relocate f)) = entry.triggered f :: others.map (Entry.relocate f) := by
  induction tokens generalizing d with
  | nil =>
    cases fault with
    | none =>
      refine ⟨.line d.finish, [], rfl, rfl, ?_⟩
      exact congrArg (fun line => [Entry.line line]) (finish_triggered f d)
    | some fault => exact ⟨.broken fault, [], rfl, rfl, rfl⟩
  | cons t tokens ih =>
    obtain ⟨kind, text, position⟩ := t
    cases kind with
    | newline =>
      refine ⟨.line d.finish, ofTokensFrom fault none tokens, rfl, rfl, ?_⟩
      have hothers := ofTokensFrom_relocate f fault none tokens
      exact congr (congrArg (.line · :: ·) (finish_triggered f d)) hothers
    | continuation | comment => exact ih hd
    | whitespace =>
      have hspace : Sound (d.space text) := fun h => Bool.noConfusion h
      have hsame : (d.triggered f).space text = (d.space text).triggered f := by
        simp [Draft.triggered, Draft.space, String.append_assoc]
      have h := ih hspace
      rw [← hsame] at h
      exact h
    | string =>
      have h := ih (sound_piece d ⟨.string, text, position⟩)
      rw [← piece_triggered f hd] at h
      exact h
    | reference =>
      have h := ih (sound_piece d ⟨.reference, text, position⟩)
      rw [← piece_triggered f hd] at h
      exact h
    | eof =>
      refine ⟨.line d.finish, [], rfl, rfl, ?_⟩
      exact congrArg (fun line => [Entry.line line]) (finish_triggered f d)
    | instruction => exact ⟨.stray ⟨.instruction, text, position⟩, [], rfl, rfl, rfl⟩

end Entry

namespace Document

/-- Behind `ONBUILD` a line is read as without it. -/
theorem instructions_triggered (escape : Char) {entry : Entry} (h : entry.isSilent = false)
    (others : List Entry) :
    ∃ (result : Except SourceFault (Instruction × List Instruction)) (expression : String),
      instructions escape (entry :: others) = (fun r => r.1 :: r.2) <$> result ∧
      instructions escape (entry.triggered f :: others.map (Entry.relocate f)) =
        mapBoth (SourceFault.relocate f)
          (fun r => r.1.triggered f expression :: r.2.map (Instruction.relocate f)) result := by
  cases entry with
  | comment | lineEnd => cases h
  | stray t => exact ⟨.error (.grammatical ⟨.strayToken t, t.position⟩), "", rfl, rfl⟩
  | broken fault => exact ⟨.error (.lexical fault), "", rfl, rfl⟩
  | line line =>
    obtain ⟨expression, hline⟩ := Instruction.ofLine_triggered f escape line
    have hothers := instructions_relocate f escape others
    rw [Entry.triggered, instructions, instructions, hline, hothers]
    cases Instruction.ofLine escape line with
    | error fault =>
      refine ⟨.error (.ofLine fault), expression, rfl, ?_⟩
      exact congrArg Except.error (SourceFault.ofLine_relocate f fault)
    | ok i =>
      refine ⟨(fun is => (i, is)) <$> instructions escape others, expression, ?_, ?_⟩
      · cases instructions escape others <;> rfl
      · cases instructions escape others <;> rfl

end Document

/-! ### Texts -/

namespace Lexer

theorem relocates_beside (p : Position) (k : Nat) :
    Relocates (Position.beside p.line k) p ⟨p.line, p.column + k⟩ := by
  intro u
  obtain ⟨line, hline, -, ⟨rfl, -⟩ | ⟨others, rfl, -⟩⟩ := exists_line u
  · rw [after_of_notMem p hline, after_of_notMem _ hline, Position.beside, if_pos rfl,
      Nat.add_right_comm]
  · have hnext (q : Position) : q.after (line ++ '\n' :: others) =
        (Position.mk (q.line + 1) 1).after others := by
      rw [Position.after_append, after_of_notMem q hline]
      rfl
    have hlater := line_after ⟨p.line + 1, 1⟩ others
    rw [hnext, hnext, Position.beside, if_neg (by rw [hlater]; dsimp only; omega)]

/-- A keyword and its arguments, without and with `ONBUILD` in front: behind the space the same is
read, elsewhere. -/
theorem exists_scan_triggered {e : Char} (he : Template.IsEscape e) (window window' : Bool)
    {f : Position → Position} {p : Position}
    (hf : Relocates f p ((p.after Kind.onbuild.name.toList).after [' '])) (kind : Kind)
    (cs : List Char) :
    ∃ (scan : Scan) (d : Draft), Entry.Sound d ∧
      Entry.ofScan (scanFrom ⟨.line window, e, p, kind.name.toList ++ ' ' :: cs⟩) =
        Entry.ofTokensFrom scan.fault (some d) scan.tokens ∧
      Entry.ofScan (scanFrom ⟨.line window', e, p,
          Kind.onbuild.name.toList ++ ' ' :: (kind.name.toList ++ ' ' :: cs)⟩) =
        Entry.ofTokensFrom (scan.fault.map (Fault.relocate f)) (some (d.triggered f))
          (scan.tokens.map (Token.relocate f)) := by
  obtain ⟨blanks, rest, -, -, -, hspace⟩ := exists_steps_space he cs
  have hname := steps_keyword he kind.isAlpha_of_mem_name kind.name_ne_nil window p cs
  have honbuild := steps_keyword he Kind.onbuild.isAlpha_of_mem_name Kind.onbuild.name_ne_nil
    window' p (kind.name.toList ++ ' ' :: cs)
  have hgap := steps_space he ⟨true, []⟩ (p.after Kind.onbuild.name.toList)
    (stops_letters kind.isAlpha_of_mem_name kind.name_ne_nil (' ' :: cs))
  generalize (p.after Kind.onbuild.name.toList).after [' '] = q at hf hgap
  have hword := steps_word he kind.isAlpha_of_mem_name kind.name_ne_nil ⟨true, []⟩ q cs
  -- An array may follow the name of a kind, so both runs go on in the same mode.
  have hfinish : Words.finish (Words.extend ⟨true, []⟩ kind.name.toList) = ⟨true, []⟩ := by
    rw [Words.extend, List.nil_append, Words.finish, kind.leavesArray_name,
      if_neg (by simpa using kind.name_ne_nil)]
    rfl
  have hold := hname.trans (hspace ⟨true, []⟩ _)
  have hnew := honbuild.trans (hgap.trans (hword.trans (hspace _ _)))
  rw [hfinish] at hnew
  have hmoved := scanFrom_relocate (s := ⟨.argument (.words ⟨true, []⟩), e,
    (p.after kind.name.toList).after blanks, rest⟩) he ((hf.after _).after _)
  refine ⟨scanFrom ⟨.argument (.words ⟨true, []⟩), e, (p.after kind.name.toList).after blanks,
    rest⟩, ⟨kind.name, p, [], false, String.ofList blanks⟩, fun h => Bool.noConfusion h, ?_, ?_⟩
  · rw [scanFrom_of_steps hold, String.ofList_toList]
    exact congrArg (fun raw => Entry.ofTokensFrom _ (some ⟨kind.name, p, [], false, raw⟩) _)
      String.empty_append
  · rw [scanFrom_of_steps hnew, hmoved, String.ofList_toList, String.ofList_toList]
    have hdraft : (((Draft.start ⟨.instruction, "ONBUILD", p⟩).space " ").piece
        ⟨.string, kind.name, q⟩).space (String.ofList blanks) =
        Draft.triggered f ⟨kind.name, p, [], false, String.ofList blanks⟩ := by
      simp only [Draft.start, Draft.space, Draft.piece, Draft.triggered, String.empty_append,
        show f p = q from hf []]
      rfl
    rw [← hdraft]
    rfl

end Lexer

namespace Document

open Lexer

/-- An instruction at the end of a text can be put behind `ONBUILD`. -/
theorem parse_triggered {front : String} {d : Document} (h : parse front = .ok d)
    (hend : (Token.scan front).endsLine) (kind : Kind) (a : String) {p : Position}
    (hp : Position.start.after (Text.feedsOfPairs front.toList) = p) {f : Position → Position}
    (hf : Position.beside p.line 8 = f) :
    ∃ (result : Except SourceFault (Instruction × List Instruction)) (expression : String),
      parse (front ++ kind.name ++ " " ++ a) =
        (fun r => ofInstructions d.directives d.escape (d.all ++ r.1 :: r.2)) <$> result ∧
      parse (front ++ "ONBUILD " ++ kind.name ++ " " ++ a) =
        mapBoth (SourceFault.relocate f) (fun r => ofInstructions d.directives d.escape
          (d.all ++ r.1.triggered f expression :: r.2.map (Instruction.relocate f))) result := by
  have he : Template.IsEscape d.escape := isEscape_of_ofEntries h
  have hmoved : Relocates f p ((p.after Kind.onbuild.name.toList).after [' ']) := by
    rw [← hf, ← Position.after_append, after_of_notMem p (by decide)]
    exact relocates_beside p 8
  have htext : front ++ "ONBUILD " ++ kind.name ++ " " ++ a =
      front ++ Kind.onbuild.name ++ " " ++ (kind.name ++ " " ++ a) := by
    simp [String.append_assoc, Kind.name]
  have hargument : Text.feedsOfPairs (kind.name ++ " " ++ a).toList =
      kind.name.toList ++ ' ' :: Text.feedsOfPairs a.toList := by
    rw [← feedsOfPairs_argument kind.isAlpha_of_mem_name]
    simp
  obtain ⟨window, hold⟩ := parse_append_keyword h hend kind a
  obtain ⟨window', hnew⟩ := parse_append_keyword h hend .onbuild (kind.name ++ " " ++ a)
  rw [hp] at hold hnew
  obtain ⟨scan, draft, hsound, hscan, hscan'⟩ :=
    exists_scan_triggered he window window' hmoved kind (Text.feedsOfPairs a.toList)
  obtain ⟨entry, others, hline, hentries, hentries'⟩ :=
    Entry.exists_ofTokensFrom_triggered f scan.fault hsound scan.tokens
  obtain ⟨result, expression, hresult, hresult'⟩ :=
    instructions_triggered f d.escape hline others
  refine ⟨result, expression, ?_, ?_⟩
  · rw [hold, hscan, hentries, hresult, ← LawfulFunctor.comp_map]
    rfl
  · rw [htext, hnew, hargument, hscan', hentries', hresult']
    cases result <;> rfl

/-- `ONBUILD` changes nothing but places: it is refused just where its trigger would be refused as
an instruction, for the same cause, and otherwise its trigger is that instruction. -/
theorem parse_onbuild (kind : Kind) (a : String) :
    (∀ fault, parse ("FROM x\n" ++ kind.name ++ " " ++ a) = .error fault →
      parse ("FROM x\n" ++ "ONBUILD " ++ kind.name ++ " " ++ a) =
        .error (fault.relocate (Position.beside 2 8))) ∧
    ∀ d, parse ("FROM x\n" ++ kind.name ++ " " ++ a) = .ok d → ∃ d' base i more expression,
      parse ("FROM x\n" ++ "ONBUILD " ++ kind.name ++ " " ++ a) = .ok d' ∧
      d.all = base :: i :: more ∧
      d'.all = base :: i.triggered (Position.beside 2 8) expression ::
        more.map (Instruction.relocate (Position.beside 2 8)) := by
  have hfront : parse "FROM x\n" =
      .ok ⟨[], [], [⟨0, ⟨1, 1⟩, ⟨"x", none, none⟩, []⟩], '\\'⟩ := by
    decide +kernel
  obtain ⟨result, expression, hold, hnew⟩ :=
    parse_triggered (p := ⟨2, 1⟩) hfront (by decide +kernel) kind a (by decide +kernel) rfl
  rw [hold, hnew]
  cases result with
  | error fault =>
    refine ⟨?_, by rintro _ ⟨⟩⟩
    rintro _ ⟨⟩
    rfl
  | ok r =>
    refine ⟨by rintro _ ⟨⟩, ?_⟩
    rintro _ ⟨⟩
    exact ⟨_, _, r.1, r.2, expression, rfl, all_ofInstructions _ _ _, all_ofInstructions _ _ _⟩

/-- A flag and an array behind it. -/
theorem parse_onbuild_array :
    ∃ d, parse ("FROM x\n" ++ Kind.run.name ++ " " ++ "--network=none [\"a\"]") = .ok d ∧
      ∃ d' base i more expression,
        parse ("FROM x\n" ++ "ONBUILD " ++ Kind.run.name ++ " " ++ "--network=none [\"a\"]") =
          .ok d' ∧
        d.all = base :: i :: more ∧
        d'.all = base :: i.triggered (Position.beside 2 8) expression ::
          more.map (Instruction.relocate (Position.beside 2 8)) := by
  have hd : parse ("FROM x\n" ++ Kind.run.name ++ " " ++ "--network=none [\"a\"]") =
      .ok ⟨[], [], [⟨0, ⟨1, 1⟩, ⟨"x", none, none⟩, [⟨⟨2, 1⟩, .run
        ⟨⟨"[\"a\"]", .exec ["a"]⟩, [], some "none", none⟩⟩]⟩], '\\'⟩ := by
    decide +kernel
  exact ⟨_, hd, (parse_onbuild .run "--network=none [\"a\"]").2 _ hd⟩

end Document

end Dockerfile
