import Dockerfile.Proofs.Lexing.Agreement
import Dockerfile.Proofs.Lexing.Spans
import Dockerfile.Proofs.Lexing.Starts
import Dockerfile.Proofs.Reading

/-!
# Keywords and instructions

A keyword opens a logical line, and nothing else does: the lines of a text stand at its keywords
(`map_heading_lines`). A line is read as an instruction of the kind that its keyword names, and the
instructions are grouped at every `FROM`. So preamble and stages, one behind the other, are the
keywords of the text, none of them lost and none of them twice (`parse_partitions`).
-/

namespace Dockerfile

open LogicalLine (Draft)

/-! ### Headings -/

/-- A keyword and its place. -/
abbrev Heading := String × Position

/-- Is a token the keyword of an instruction? -/
def Token.isKeyword (t : Token) : Bool := t.kind = .instruction

def Token.heading (t : Token) : Heading := (t.text, t.position)

def LogicalLine.heading (line : LogicalLine) : Heading := (line.keyword, line.position)

def LogicalLine.Draft.heading (d : Draft) : Heading := (d.keyword, d.position)

/-- The kind of an instruction and its place. -/
def Instruction.heading (i : Instruction) : Heading := (i.kind.name, i.position)

namespace Entry

/-- The headings of the lines that a token closes and of the one that it leaves open are those of
before, and the token if it is a keyword. -/
theorem Turns.map_heading {t : Token} {draft draft' : Option Draft} {closed : List LogicalLine}
    (h : Turns t draft closed draft') :
    closed.map LogicalLine.heading ++ draft'.toList.map Draft.heading =
      draft.toList.map Draft.heading ++ ([t].filter Token.isKeyword).map Token.heading := by
  cases h with
  | start hkind => simp [Token.isKeyword, hkind, Draft.heading, Draft.start, Token.heading]
  | close d hkind => simp [Token.isKeyword, hkind, LogicalLine.heading, Draft.heading, Draft.finish]
  | space d hkind => simp [Token.isKeyword, hkind, Draft.heading, Draft.space]
  | skip hkind => simp [Token.isKeyword, hkind]
  | stay d hkind => simp [Token.isKeyword, hkind]
  | piece d hkind => simp [Token.isKeyword, hkind, Draft.heading, Draft.piece]

/-- The lines of tokens without one that cannot stand where it does are headed by the keywords. -/
theorem map_heading_lines {tokens : List Token} (htokens : ∀ t ∈ tokens, t.kind ≠ .eof)
    {last : Token} (hlast : last.kind = .eof) (draft : Option Draft)
    (hstray : ∀ t, stray t ∉ ofTokensFrom none draft (tokens ++ [last])) :
    (lines (ofTokensFrom none draft (tokens ++ [last]))).map LogicalLine.heading =
      draft.toList.map Draft.heading ++ (tokens.filter Token.isKeyword).map Token.heading := by
  induction tokens generalizing draft with
  | nil =>
    obtain ⟨kind, text, position⟩ := last
    obtain rfl : kind = .eof := hlast
    cases draft with
    | none | some => rfl
  | cons t tokens ih =>
    obtain ⟨ht, htokens⟩ := List.forall_mem_cons.1 htokens
    rcases exists_turns t draft with ⟨entries, draft', hfeeds, hturns⟩ | hends
    · have hsplit : ofTokensFrom none draft (t :: tokens ++ [last]) =
          entries ++ ofTokensFrom none draft' (tokens ++ [last]) := hfeeds none (tokens ++ [last])
      rw [hsplit] at hstray ⊢
      have hrest := ih htokens draft' fun u hu => hstray u (List.mem_append_right entries hu)
      rw [lines_append, List.map_append, hrest, ← List.append_assoc, hturns.map_heading,
        List.append_assoc, ← List.map_append, ← List.filter_append]
      rfl
    · refine (hstray t ?_).elim
      rw [List.cons_append, hends, if_neg ht, List.mem_singleton]

end Entry

/-! ### Kinds -/

namespace Instruction

theorem kind_of_readKind {escape : Char} {line : LogicalLine} {kind : Kind} {body : Body}
    (h : readKind escape line kind = .ok body) : body.kind = kind := by
  cases kind with
  | onbuild => cases h
  | _ =>
    obtain ⟨_, -, rfl⟩ := map_eq_ok.1 h
    rfl

theorem ofKeyword?_of_readBody {escape : Char} {raw keyword : String} {position : Position}
    {words : List Word} {body : Body} (h : readBody escape raw keyword position words = .ok body) :
    Kind.ofKeyword? keyword = some body.kind := by
  cases words with
  | nil =>
    unfold readBody at h
    split at h
    · cases h
    · rename_i kind hkind
      rw [hkind, kind_of_readKind h]
  | cons head tail =>
    unfold readBody at h
    dsimp only at h
    split at h
    · cases h
    · rename_i hkind
      obtain ⟨trigger, -, rfl⟩ := map_eq_ok.1 h
      exact hkind
    · rename_i kind _ hkind
      rw [hkind, kind_of_readKind h]

/-- An instruction is of the kind that its keyword names in capitals, and stands where its line
does. -/
theorem heading_of_ofLine {escape : Char} {line : LogicalLine} {i : Instruction}
    (h : ofLine escape line = .ok i) :
    i.heading = (Text.toUpper line.keyword, line.position) := by
  obtain ⟨body, hbody, rfl⟩ := map_eq_ok.1 h
  have hname := List.find?_some (ofKeyword?_of_readBody hbody)
  exact congrArg (·, line.position) (of_decide_eq_true hname)

end Instruction

/-! ### Documents -/

namespace Lexer

/-- The tokens of a text end with the only one that tells of the end. -/
theorem exists_scan_tokens {source : String} (h : (Token.scan source).fault = none) :
    ∃ tokens last, (Token.scan source).tokens = tokens ++ [last] ∧ last.kind = .eof ∧
      ∀ t ∈ tokens, t.kind ≠ .eof := by
  obtain ⟨pieces, hspans⟩ := exists_spans h
  obtain ⟨front, gap, rfl, hfront⟩ := hspans.ends
  refine ⟨_, _, hspans.tokens_eq.trans (placed_append _ _ _), rfl, fun t ht => ?_⟩
  obtain ⟨before, x, after, rfl, rfl⟩ := exists_of_mem_placed ht
  exact hfront x (by simp)

/-- No token of a text stands where it cannot. -/
theorem stray_notMem_ofScan (source : String) (t : Token) :
    Entry.stray t ∉ Entry.ofScan (Token.scan source) := by
  obtain ⟨front, hentries, hfront⟩ := Document.exists_entries_ofScan source
  rw [hentries]
  intro ht
  rcases List.mem_append.1 ht with ht | ht
  · rcases hfront _ ht with hsilent | ⟨line, hline⟩
    · cases hsilent
    · cases hline
  · obtain ⟨fault, -, hfault⟩ := List.mem_map.1 ht
    cases hfault

/-- The lines of a text are headed by its keywords. -/
theorem map_heading_ofScan {source : String} (h : (Token.scan source).fault = none) :
    (Entry.lines (Entry.ofScan (Token.scan source))).map LogicalLine.heading =
      ((Token.scan source).tokens.filter Token.isKeyword).map Token.heading := by
  obtain ⟨tokens, last, htokens, hlast, hinner⟩ := exists_scan_tokens h
  have hstray := stray_notMem_ofScan source
  rw [Entry.ofScan, h, htokens] at hstray ⊢
  rw [Entry.map_heading_lines hinner hlast none hstray, List.filter_append]
  simp [Token.isKeyword, hlast]

end Lexer

/-- What a `FROM` says. -/
def Instruction.base? (i : Instruction) : Option Base :=
  match i.body with
  | .base b => some b
  | _ => none

/-- What a stage says of its start: its number, its name, its image and its platform. -/
def Stage.title (s : Stage) : Nat × Option String × String × Option String :=
  (s.index, s.name, s.base.image, s.base.platform)

namespace Document

/-- The stages of instructions start at their `FROM`s, numbered from the first one on. -/
theorem map_base_stagesFrom (first : Nat) (is : List Instruction) :
    (stagesFrom first is).map (fun s => (s.base, s.index)) =
      (is.filterMap Instruction.base?).zipIdx first := by
  fun_induction stagesFrom first is with
  | case1 => rfl
  | case2 first position base rest ih =>
    rw [List.map_cons, ih, List.filterMap_cons]
    rfl
  | case3 first i rest hi ih =>
    have hbase : i.base? = none := by
      obtain ⟨position, body⟩ := i
      cases body with
      | base b => exact (hi position b rfl).elim
      | _ => rfl
    rw [ih, List.filterMap_cons_none hbase]

/-- Preamble and stages, one behind the other, are the keywords of the text, in order: each
instruction is of the kind that its keyword names and stands where it stands. Every `FROM` starts a
stage, with the next number, and is no instruction of one. -/
theorem parse_partitions {source : String} {d : Document} (h : parse source = .ok d) :
    (Token.scan source).fault = none ∧
      d.all.map Instruction.heading = ((Token.scan source).tokens.filter Token.isKeyword).map
        (fun t => (Text.toUpper t.text, t.position)) ∧
      (∀ i ∈ d.preamble, i.kind ≠ .base) ∧
      (∀ s ∈ d.stages, ∀ i ∈ s.instructions, i.kind ≠ .base) ∧
      d.stages.map Stage.title = (d.all.filterMap Instruction.base?).zipIdx.map
        fun b => (b.2, b.1.name, b.1.image, b.1.platform) := by
  have hfault := scan_fault_of_parse h
  have hshaped := shaped_of_ofEntries h
  obtain ⟨is, his, rfl⟩ := ofEntries_eq_ok h
  rw [all_ofInstructions]
  refine ⟨hfault, ?_, fun i hi => kind_ne_base_of_mem_splitStage hi, hshaped.noBase, ?_⟩
  · -- An instruction tells of its line what the line tells of its keyword, in capitals.
    have hlines := congrArg (List.map fun x : Heading => (Text.toUpper x.1, x.2))
      (Lexer.map_heading_ofScan hfault)
    rw [List.map_map, List.map_map] at hlines
    rw [map_instructions (fun _ _ => Instruction.heading_of_ofLine) his]
    exact hlines
  · rw [← map_base_stagesFrom, List.map_map]
    rfl

/-- A text with an argument before its first stage, a keyword in small letters, a comment and a
blank line within an instruction, a keyword as the argument of another one, and no line end at its
end. -/
theorem parse_partitions_continued :
    let source := "# c\nARG v=1\n\nfrom --platform=p a As x\nrun b \\\n # RUN c\n\n  FROM\n" ++
      "  OnBuild FROM d\nFROM x\nCMD e"
    ∃ d, parse source = .ok d ∧
      (((Token.scan source).tokens.filter Token.isKeyword).map
          fun t => (Text.toUpper t.text, t.position)) =
        [("ARG", ⟨2, 1⟩), ("FROM", ⟨4, 1⟩), ("RUN", ⟨5, 1⟩), ("ONBUILD", ⟨9, 3⟩), ("FROM", ⟨10, 1⟩),
          ("CMD", ⟨11, 1⟩)] ∧
      d.stages.map Stage.title = [(0, some "x", "a", some "p"), (1, none, "x", none)] ∧
      (Token.scan source).fault = none ∧
      d.all.map Instruction.heading = ((Token.scan source).tokens.filter Token.isKeyword).map
        (fun t => (Text.toUpper t.text, t.position)) ∧
      (∀ i ∈ d.preamble, i.kind ≠ .base) ∧
      (∀ s ∈ d.stages, ∀ i ∈ s.instructions, i.kind ≠ .base) ∧
      d.stages.map Stage.title = (d.all.filterMap Instruction.base?).zipIdx.map
        fun b => (b.2, b.1.name, b.1.image, b.1.platform) := by
  intro source
  have hread : (parse source).toOption.map (·.stages.map Stage.title) =
      some [(0, some "x", "a", some "p"), (1, none, "x", none)] := by
    decide +kernel
  have hkeywords : (((Token.scan source).tokens.filter Token.isKeyword).map
      fun t => (Text.toUpper t.text, t.position)) =
      [("ARG", ⟨2, 1⟩), ("FROM", ⟨4, 1⟩), ("RUN", ⟨5, 1⟩), ("ONBUILD", ⟨9, 3⟩), ("FROM", ⟨10, 1⟩),
        ("CMD", ⟨11, 1⟩)] := by
    decide +kernel
  cases hparse : parse source with
  | error fault =>
    rw [hparse] at hread
    cases hread
  | ok d =>
    rw [hparse] at hread
    exact ⟨d, rfl, hkeywords, Option.some.inj hread, parse_partitions hparse⟩

end Document

end Dockerfile
