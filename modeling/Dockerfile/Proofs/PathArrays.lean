import Dockerfile.Proofs.CommandArrays
import Dockerfile.Proofs.Template.Grammar

/-!
# Paths as arrays

The strings of an array of paths are put between double quotes, so that each is one word when its
variables are replaced. Removing the quotes gives the string back, for both escape characters and
whatever it holds (`unquote_requoted`), and a string without a dollar sign is what its word expands
to (`expand_requoted`).

So the paths of a `COPY`, an `ADD` or a `VOLUME` that is written as an array (`PathForm`) reach the
graph as they are: wherever such a line stands in a document, its operation has the strings as its
sources or its volumes (`exists_of_line`, `Holds.comesTo`). Every list of strings can be written
that way (`parse_encodeStrings`).
-/

namespace Dockerfile

/-! ### Quotes around a text -/

namespace Instruction

open Template

variable {escape : Char}

/-- A character of a text that is put between double quotes. -/
def protect (escape c : Char) : List Char := if c = escape || c = '"' then [escape, c] else [c]

theorem requote_eq (escape : Char) (text : List Char) :
    requote escape text = '"' :: text.flatMap (protect escape) ++ ['"'] := rfl

/-- What is protected between double quotes stands for itself there. -/
theorem unquoteFrom_protect (escape c : Char) (rest : List Char) :
    unquoteFrom escape .double (protect escape c ++ rest) =
      c :: unquoteFrom escape .double rest := by
  unfold protect
  split
  · rename_i hc
    rw [Bool.or_eq_true, decide_eq_true_eq, decide_eq_true_eq] at hc
    have hfront : wordFront escape .double escape (c :: rest) = .keep [c] .double rest := by
      rcases hc with rfl | rfl <;> simp [wordFront]
    rw [List.cons_append, List.cons_append, List.nil_append, unquoteFrom_cons, hfront]
    rfl
  · rename_i hc
    rw [Bool.or_eq_true, decide_eq_true_eq, decide_eq_true_eq, not_or] at hc
    rw [List.cons_append, List.nil_append, unquoteFrom_cons]
    by_cases hdollar : c = '$'
    · subst hdollar
      simp [wordFront, hc.1]
    · simp [wordFront, hc.1, hc.2, hdollar]

theorem unquoteFrom_protected (he : IsEscape escape) (text rest : List Char) :
    unquoteFrom escape .double (text.flatMap (protect escape) ++ '"' :: rest) =
      text ++ unquoteFrom escape .none rest := by
  induction text with
  | nil =>
    have hquote : '"' ≠ escape := by rcases he with rfl | rfl <;> decide
    rw [List.flatMap_nil, List.nil_append, unquoteFrom_cons]
    simp [wordFront, hquote]
  | cons c text ih =>
    rw [List.flatMap_cons, List.append_assoc, unquoteFrom_protect, ih, List.cons_append]

theorem unquoteFrom_requote (he : IsEscape escape) (text : List Char) :
    unquoteFrom escape .none (requote escape text) = text := by
  have hquote : '"' ≠ escape := by rcases he with rfl | rfl <;> decide
  have hopen : wordFront escape .none '"' (text.flatMap (protect escape) ++ ['"']) =
      .keep [] .double (text.flatMap (protect escape) ++ ['"']) := by simp [wordFront, hquote]
  rw [requote_eq, List.cons_append, unquoteFrom_cons, hopen]
  dsimp only
  rw [List.nil_append, unquoteFrom_protected he, unquoteFrom_nil, List.append_nil]

/-- A string as a word between double quotes. -/
def requoted (escape : Char) (text : String) : String :=
  String.ofList (requote escape text.toList)

theorem unquote_requoted (he : IsEscape escape) (text : String) :
    unquote escape (requoted escape text) = text := by
  rw [unquote, requoted, String.toList_ofList, unquoteFrom_requote he, String.ofList_toList]

theorem expand_requoted (he : IsEscape escape) {text : String} (h : '$' ∉ text.toList)
    (lookup : Lookup) (strict : Bool) :
    (ofWord escape (requoted escape text)).expand lookup strict = .ok text.toList := by
  rw [ofWord, requoted, String.toList_ofList, read_eq_chars (by rwa [unquoteFrom_requote he]),
    unquoteFrom_requote he, expand_chars]

/-! ### Arrays of paths in a line -/

/-- The strings of a text that is an array of strings. -/
def arrayOf? (text : String) : Option (List String) :=
  if looksLikeArray text.toList then (Json.Reader.read text).toOption.bind Json.Reader.Item.strings?
  else none

theorem arrayOf?_encodeStrings (ascii : Bool) (paths : List String) :
    arrayOf? (Json.encodeStrings ascii paths) = some paths := by
  rw [arrayOf?, looksLikeArray_encodeStrings, if_pos rfl, Json.Reader.read_encodeStrings]
  exact Json.Reader.strings?_map_str paths

section Paths

variable {kind : Kind} {line : LogicalLine} {words rest : List Word} {first : Word}
  {paths : List String}

theorem readPathList_of_array (h : arrayOf? (line.textFrom first) = some paths) :
    readPathList escape kind line first words = .ok (paths.map (requoted escape)) := by
  unfold arrayOf? at h
  split at h
  · rename_i harray
    cases hread : Json.Reader.read (line.textFrom first) with
    | error fault =>
      rw [hread] at h
      cases h
    | ok item =>
      rw [hread] at h
      have hstrings : item.strings? = some paths := h
      rw [readPathList, if_pos harray, hread]
      dsimp only
      rw [hstrings]
      rfl
  · cases h

theorem exists_destination (h : 2 ≤ paths.length) :
    ∃ sources destination, sources ≠ [] ∧ paths = sources ++ [destination] := by
  obtain ⟨sources, destination, rfl⟩ := (List.eq_nil_or_concat paths).resolve_left
    (by rintro rfl; simp at h)
  refine ⟨sources, destination, ?_, List.concat_eq_append⟩
  rintro rfl
  simp at h

theorem readPaths_of_array (h : arrayOf? (line.textFrom first) = some paths)
    (hlength : 2 ≤ paths.length) :
    readPaths escape kind line (first :: rest) =
      .ok ((paths.map (requoted escape)).dropLast,
        (paths.map (requoted escape)).getLast?.getD "") := by
  obtain ⟨sources, destination, hne, rfl⟩ := exists_destination hlength
  rw [readPaths_eq_ok, readPathList_of_array h]
  simpa using hne

/-- But for `ONBUILD`, a line is read as its keyword says. -/
theorem ofLine_eq_readKind (hkind : Kind.ofKeyword? line.keyword = some kind)
    (hne : kind ≠ .onbuild) :
    ofLine escape line = (fun body => ⟨line.position, body⟩) <$> readKind escape line kind := by
  obtain ⟨keyword, position, words, raw⟩ := line
  rw [ofLine]
  congr 1
  cases words with
  | nil => rw [readBody, hkind]
  | cons head tail =>
    rw [readBody, hkind]
    dsimp only
    split
    · rename_i heq
      cases heq
    · rename_i heq
      exact absurd (Option.some.inj heq) hne
    · rename_i heq
      cases heq
      rfl

end Paths

end Instruction

/-! ### Instructions with paths -/

/-- The instructions that take paths, as words or as an array. -/
inductive PathForm where
  | copy
  | add
  | volume
  deriving DecidableEq

namespace PathForm

open Instruction Lower

/-- The kind of the instruction. -/
def kind : PathForm → Kind
  | copy => .copy
  | add => .add
  | volume => .volume

/-- The words of a line behind its flags, if it may have flags. -/
def words (line : LogicalLine) : PathForm → List Word
  | volume => line.words
  | _ => line.words.dropWhile isFlag

/-- Is a line of the form, with an array of these paths behind its flags? -/
def Lists (form : PathForm) (line : LogicalLine) (paths : List String) : Prop :=
  Kind.ofKeyword? line.keyword = some form.kind ∧
    ((form.words line).head?.bind fun first => arrayOf? (line.textFrom first)) = some paths

instance (form : PathForm) (line : LogicalLine) (paths : List String) :
    Decidable (form.Lists line paths) := inferInstanceAs (Decidable (_ ∧ _))

/-- Are these paths enough? Files need a source and a destination. -/
def Takes (paths : List String) : PathForm → Prop
  | volume => True
  | _ => 2 ≤ paths.length

/-- Has a task the paths: all but the last as its sources, or all of them as volumes? -/
def Yields (paths : List String) (task : Task) : PathForm → Prop
  | volume => task = .config (.volumes paths)
  | _ => ∃ files, task = .file files ∧ files.sources = paths.dropLast

/-- The instruction with some paths and without flags. -/
def body (paths : List String) : PathForm → Body
  | copy => .copy ⟨paths.dropLast, paths.getLast?.getD "", none, none, none, false⟩
  | add => .add ⟨paths.dropLast, paths.getLast?.getD "", none, none, none, false⟩
  | volume => .volume paths

/-- The instructions with some paths between double quotes, whatever their flags are. -/
inductive Holds (escape : Char) (paths : List String) : PathForm → Body → Prop where
  | copy {c : Copy} (h : c.sources ++ [c.destination] = paths.map (requoted escape)) :
    Holds escape paths copy (.copy c)
  | add {a : Add} (h : a.sources ++ [a.destination] = paths.map (requoted escape)) :
    Holds escape paths add (.add a)
  | volume : Holds escape paths volume (.volume (paths.map (requoted escape)))

variable {form : PathForm} {escape : Char} {paths : List String} {line : LogicalLine}

theorem kind_ne_onbuild (form : PathForm) : form.kind ≠ .onbuild := by
  cases form <;> decide

theorem kind_ne_arg (form : PathForm) : form.kind ≠ .arg := by
  cases form <;> decide

theorem Holds.kind_eq {body : Body} (h : Holds escape paths form body) :
    body.kind = form.kind := by
  cases h <;> rfl

/-! ### Reading -/

theorem Lists.exists_words (h : form.Lists line paths) : ∃ first rest,
    form.words line = first :: rest ∧ arrayOf? (line.textFrom first) = some paths := by
  obtain ⟨first, hfirst, harray⟩ := Option.bind_eq_some_iff.1 h.2
  obtain ⟨rest, hwords⟩ := List.head?_eq_some_iff.1 hfirst
  exact ⟨first, rest, hwords, harray⟩

/-- A line that lists paths is read, if at all, as an instruction with these paths. -/
theorem Lists.holds (h : form.Lists line paths) {i : Instruction}
    (hi : ofLine escape line = .ok i) : Holds escape paths form i.body := by
  obtain ⟨first, rest, hwords, harray⟩ := h.exists_words
  have hfiles : ∀ {kind : Kind} {sources : List String} {destination : String},
      readPaths escape kind line (first :: rest) = .ok (sources, destination) →
      sources ++ [destination] = paths.map (requoted escape) := by
    intro kind sources destination hread
    rw [readPaths_eq_ok, readPathList_of_array harray] at hread
    exact (Except.ok.inj hread.2).symm
  rw [ofLine_eq_readKind h.1 form.kind_ne_onbuild] at hi
  obtain ⟨body, hbody, rfl⟩ := map_eq_ok.1 hi
  cases form with
  | copy =>
    obtain ⟨c, hc, rfl⟩ := map_eq_ok.1 hbody
    obtain ⟨⟨flags, words⟩, hflags, hc⟩ := bind_eq_ok.1 hc
    obtain ⟨⟨sources, destination⟩, hread, hc⟩ := bind_eq_ok.1 hc
    cases hc
    obtain rfl : words = first :: rest := (readFlags_rest hflags).trans hwords
    exact .copy (hfiles hread)
  | add =>
    obtain ⟨a, ha, rfl⟩ := map_eq_ok.1 hbody
    obtain ⟨⟨flags, words⟩, hflags, ha⟩ := bind_eq_ok.1 ha
    obtain ⟨⟨sources, destination⟩, hread, ha⟩ := bind_eq_ok.1 ha
    cases ha
    obtain rfl : words = first :: rest := (readFlags_rest hflags).trans hwords
    exact .add (hfiles hread)
  | volume =>
    obtain ⟨volumes, hvolumes, rfl⟩ := map_eq_ok.1 hbody
    have hline : line.words = first :: rest := hwords
    rw [readVolume, hline] at hvolumes
    dsimp only at hvolumes
    rw [readPathList_of_array harray] at hvolumes
    cases hvolumes
    exact .volume

/-- A line without flags that lists enough paths is read. -/
theorem Lists.ofLine_eq (h : form.Lists line paths) (htakes : form.Takes paths)
    (hflag : ∀ w, line.words.head? = some w → isFlag w = false) :
    ofLine escape line = .ok ⟨line.position, form.body (paths.map (requoted escape))⟩ := by
  obtain ⟨first, rest, hwords, harray⟩ := h.exists_words
  obtain ⟨w, others, hline⟩ : ∃ w others, line.words = w :: others := by
    refine List.exists_cons_of_ne_nil fun hnil => ?_
    cases form <;> simp [words, hnil] at hwords
  have hw : isFlag w = false := hflag w (by rw [hline]; rfl)
  obtain ⟨rfl, rfl⟩ : w = first ∧ others = rest := by
    cases form <;> simpa [words, hline, hw] using hwords
  rw [ofLine_eq_readKind h.1 form.kind_ne_onbuild]
  cases form with
  | copy =>
    dsimp only [kind, readKind]
    rw [readCopy, hline, readFlags_of_not_isFlag hw]
    dsimp only [bind, Except.bind]
    rw [readPaths_of_array harray htakes]
    rfl
  | add =>
    dsimp only [kind, readKind]
    rw [readAdd, hline, readFlags_of_not_isFlag hw]
    dsimp only [bind, Except.bind]
    rw [readPaths_of_array harray htakes]
    rfl
  | volume =>
    dsimp only [kind, readKind]
    rw [readVolume, hline]
    dsimp only
    rw [readPathList_of_array harray]
    rfl

theorem lists_encodeStrings (form : PathForm) (ascii : Bool) (paths : List String)
    (lead : String) (p q : Position) :
    form.Lists ⟨form.kind.name, p, [⟨Json.encodeStrings ascii paths, q, lead.length⟩],
      lead ++ Json.encodeStrings ascii paths⟩ paths := by
  have harray := Lexer.isArray_encodeStrings ascii paths
  have hflag := isFlag_array harray q lead.length
  have hwords : form.words ⟨form.kind.name, p,
      [⟨Json.encodeStrings ascii paths, q, lead.length⟩], lead ++ Json.encodeStrings ascii paths⟩ =
      [⟨Json.encodeStrings ascii paths, q, lead.length⟩] := by
    cases form <;> simp [words, hflag]
  refine ⟨Kind.ofKeyword?_name _, ?_⟩
  rw [hwords, List.head?_cons, Option.bind_some, textFrom_array harray]
  exact arrayOf?_encodeStrings ascii paths

/-! ### Lowering -/

section Lowering

variable (hdollar : ∀ path ∈ paths, '$' ∉ path.toList)

include hdollar

theorem map_word_requoted {t : Surroundings} (he : Template.IsEscape t.setting.escape) :
    (paths.map (requoted t.setting.escape)).map t.word = paths := by
  rw [List.map_map]
  refine (List.map_congr_left fun path hpath => ?_).trans (List.map_id paths)
  have hexpand := expand_requoted he (hdollar path hpath) t.scope.lookup true
  have hvalue := Template.value_of_expand (congrArg Template.Expansion.result hexpand)
  exact (congrArg String.ofList hvalue).trans String.ofList_toList

theorem Holds.yields {t : Surroundings} {body : Body}
    (h : Holds t.setting.escape paths form body) (he : Template.IsEscape t.setting.escape)
    {task : Task} (htask : t.task? body = some task) : form.Yields paths task := by
  have hwords := map_word_requoted hdollar he
  have hsources : ∀ {sources : List String} {destination : String},
      sources ++ [destination] = paths.map (requoted t.setting.escape) →
      sources.map t.word = paths.dropLast := by
    intro sources destination hpaths
    rw [← hwords, ← hpaths, List.map_append, List.map_singleton, List.dropLast_concat]
  cases h with
  | copy h => exact ⟨_, (Option.some.inj htask).symm, hsources h⟩
  | add h => exact ⟨_, (Option.some.inj htask).symm, hsources h⟩
  | volume =>
    refine (Option.some.inj htask).symm.trans ?_
    rw [hwords]

omit hdollar in
theorem holds_body (h : form.Takes paths) :
    Holds escape paths form (form.body (paths.map (requoted escape))) := by
  cases form with
  | copy =>
    obtain ⟨sources, destination, -, rfl⟩ := exists_destination h
    exact .copy (by simp)
  | add =>
    obtain ⟨sources, destination, -, rfl⟩ := exists_destination h
    exact .add (by simp)
  | volume => exact .volume

omit hdollar in
theorem expansions_body (h : form.Takes paths) (setting : Setting) (metas : Metas)
    (scope : Scope) :
    scope.expansions setting metas (form.body paths) =
      paths.map fun path => (Phrase.word path).expand setting.escape scope.lookup := by
  cases form with
  | copy | add =>
    obtain ⟨sources, destination, -, rfl⟩ := exists_destination h
    simp [Scope.expansions, Scope.phrases, body, Phrase.optional]
  | volume => simp [Scope.expansions, Scope.phrases, body]

/-- An instruction with paths and without flags can be lowered whatever the variables are. -/
theorem harmless_body {setting : Setting} (he : Template.IsEscape setting.escape)
    (h : form.Takes paths) :
    Harmless setting (form.body (paths.map (requoted setting.escape))) where
  origins := by cases form <;> rfl
  report := by
    intro place metas scope
    have htakes : form.Takes (paths.map (requoted setting.escape)) := by
      cases form <;> simp_all [Takes]
    rw [expansions_body htakes, List.map_map]
    refine report_of_ok fun e hmem => ?_
    obtain ⟨path, hpath, rfl⟩ := List.mem_map.1 hmem
    exact ⟨_, congrArg Template.Expansion.result
      (expand_requoted he (hdollar path hpath) scope.lookup true)⟩

end Lowering

/-! ### Documents -/

open Document Lexer

section Documents

variable {d : Document} {i : Instruction}

/-- In every graph that keeps its stage, an instruction has an operation with the paths. -/
def ComesTo (form : PathForm) (paths : List String) (d : Document) (i : Instruction) : Prop :=
  ∀ s ∈ d.stages, ∀ n, s.instructions[n]? = some i → ∀ (job : Job) (r : Resolution) (g : Graph),
    (d.lower job r).result = .ok g → (∃ k ∈ g.stages, k.index = s.index) →
    ∃ o ∈ g.operations, o.id = ⟨s.index, n⟩ ∧ o.kind = form.kind ∧ form.Yields paths o.task

theorem Holds.comesTo (h : Holds d.escape paths form i.body) (hd : d.Parsed)
    (hdollar : ∀ path ∈ paths, '$' ∉ path.toList) : form.ComesTo paths d i := by
  intro s hs n hi job r g hg hkept
  obtain ⟨plans, order, done, run⟩ := lower_ok hg
  have hkind : i.kind = form.kind := h.kind_eq
  have harg : i.kind ≠ .arg := by
    rw [hkind]
    exact form.kind_ne_arg
  obtain ⟨o, ho, hid, hsame, t, hsetting, htask⟩ :=
    run.exists_operation hd.shaped hs hkept hi harg
  have hescape : t.setting.escape = d.escape := by
    rw [hsetting]
    rfl
  rw [← hescape] at h
  exact ⟨o, ho, hid, hsame.trans hkind, h.yields hdollar (hescape ▸ hd.isEscape) htask⟩

/-- A line of a text that lists paths is read as an instruction with these paths. -/
theorem exists_of_line {source : String} (hd : parse source = .ok d)
    (hline : Entry.line line ∈ Entry.ofScan (Token.scan source)) (h : form.Lists line paths) :
    ∃ i ∈ d.all, i.position = line.position ∧ Holds d.escape paths form i.body := by
  obtain ⟨is, his, rfl⟩ := ofEntries_eq_ok hd
  obtain ⟨i, hi, hread⟩ := exists_instruction his hline
  refine ⟨i, by rwa [all_ofInstructions], ?_, h.holds hread⟩
  obtain ⟨body, -, rfl⟩ := map_eq_ok.1 hread
  rfl

/-- An array of enough paths can be put at the end of a text. -/
theorem parse_encodeStrings {front : String} (h : parse front = .ok d)
    (hend : (Token.scan front).endsLine) (htakes : form.Takes paths) (ascii : Bool) :
    ∃ p, parse (front ++ form.kind.name ++ " " ++ Json.encodeStrings ascii paths) =
      .ok (d.add ⟨p, form.body (paths.map (requoted d.escape))⟩) := by
  have harray := isArray_encodeStrings ascii paths
  obtain ⟨line, ⟨p, hread⟩, hparse⟩ := parse_append_line h hend harray.newline_notMem
    (P := fun line => ∃ p, ofLine d.escape line =
      .ok ⟨p, form.body (paths.map (requoted d.escape))⟩) fun window p => by
    obtain ⟨q, hentries⟩ := ofScan_array (isEscape_of_ofEntries h) harray form.kind window p
    refine ⟨_, hentries, p, (lists_encodeStrings form ascii paths " " p q).ofLine_eq htakes ?_⟩
    rintro w ⟨⟩
    exact isFlag_array harray q _
  rw [hread] at hparse
  refine ⟨p, hparse.trans (congrArg Except.ok (ofInstructions_all_concat h ?_))⟩
  cases form <;> rintro ⟨⟩

theorem exists_lower_body (hd : d.Parsed) (hdollar : ∀ path ∈ paths, '$' ∉ path.toList)
    (htakes : form.Takes paths) (p : Position) {job : Job} {r : Resolution} (hr : r.Backward)
    {g : Graph} (hg : (d.lower job r).result = .ok g) :
    ∃ g', ((d.add ⟨p, form.body (paths.map (requoted d.escape))⟩).lower job r).result =
      .ok g' := by
  obtain ⟨plans, order, done, run⟩ := lower_ok hg
  have hlt := target_lt hd.numbered run.target
  obtain ⟨front, s, hs⟩ := (List.eq_nil_or_concat d.stages).resolve_left
    fun hnil => by simp [hnil] at hlt
  rw [List.concat_eq_append] at hs
  have hharmless : Harmless (job.setting d)
      (form.body (paths.map (requoted (job.setting d).escape))) :=
    harmless_body hdollar hd.isEscape htakes
  exact exists_lower_add hd.numbered hr hs hharmless hg

end Documents

/-- Strings come back from between their quotes, and without dollar signs also from an expansion.
Hence every `COPY`, `ADD` or `VOLUME` of a text whose paths are an array of such strings comes to
these strings. Every list of them can be written behind a text, and the document can then still be
lowered where it could be before. -/
theorem listed_paths_survive (form : PathForm) (paths : List String)
    (hdollar : ∀ path ∈ paths, '$' ∉ path.toList) :
    (∀ escape, Template.IsEscape escape → ∀ text : String,
      Template.unquote escape (requoted escape text) = text ∧
      ('$' ∉ text.toList → ∀ lookup strict,
        (Template.ofWord escape (requoted escape text)).expand lookup strict =
          .ok text.toList)) ∧
    (∀ source d line, parse source = .ok d →
      Entry.line line ∈ Entry.ofScan (Token.scan source) → form.Lists line paths →
      ∃ i ∈ d.all, i.position = line.position ∧ i.kind = form.kind ∧ form.ComesTo paths d i) ∧
    ∀ front d ascii, parse front = .ok d → (Token.scan front).endsLine → form.Takes paths →
      ∃ i, parse (front ++ form.kind.name ++ " " ++ Json.encodeStrings ascii paths) =
          .ok (d.add i) ∧
        i.kind = form.kind ∧ form.ComesTo paths (d.add i) i ∧
        ∀ job r g, r.Backward → (d.lower job r).result = .ok g →
          ∃ g', ((d.add i).lower job r).result = .ok g' := by
  refine ⟨?_, ?_, ?_⟩
  · intro escape he text
    exact ⟨unquote_requoted he text, expand_requoted he⟩
  · intro source d line hd hline h
    obtain ⟨i, hi, hposition, hholds⟩ := exists_of_line hd hline h
    exact ⟨i, hi, hposition, hholds.kind_eq, hholds.comesTo (.inl ⟨source, hd⟩) hdollar⟩
  · intro front d ascii hd hend htakes
    obtain ⟨p, hparse⟩ := parse_encodeStrings hd hend htakes ascii
    have hescape : (d.add ⟨p, form.body (paths.map (requoted d.escape))⟩).escape = d.escape := by
      unfold Document.add
      split <;> rfl
    have hholds : Holds d.escape paths form (form.body (paths.map (requoted d.escape))) :=
      holds_body htakes
    refine ⟨_, hparse, hholds.kind_eq, ?_, ?_⟩
    · exact Holds.comesTo (hescape.symm ▸ hholds) (.inl ⟨_, hparse⟩) hdollar
    · intro job r g hr hg
      exact exists_lower_body (.inl ⟨front, hd⟩) hdollar htakes p hr hg

/-- Blanks, quotes of both kinds and characters that escape, two of them before a quote. -/
theorem listed_paths_survive_copied : ∃ array source d g o files,
    array = "[\"a \\\"b\\\"\", \"c'\\\\d\", \"e\x60\x60\", \"/f/\"]" ∧
    source = "# escape=\x60\nFROM b\nCOPY --chown=1 " ++ array ++ "\n" ∧
    parse source = .ok d ∧ (d.lower ⟨[], none, none⟩ .empty).result = .ok g ∧
    o ∈ g.operations ∧ o.id = ⟨0, 0⟩ ∧ o.task = .file files ∧
    files.sources = ["a \"b\"", "c'\\d", "e\x60\x60"] := by
  obtain ⟨array, harray⟩ : ∃ array : String,
      array = "[\"a \\\"b\\\"\", \"c'\\\\d\", \"e\x60\x60\", \"/f/\"]" := ⟨_, rfl⟩
  obtain ⟨source, hsource⟩ : ∃ source : String,
      source = "# escape=\x60\nFROM b\nCOPY --chown=1 " ++ array ++ "\n" := ⟨_, rfl⟩
  obtain ⟨line, hwords⟩ : ∃ line : LogicalLine, line = ⟨"COPY", ⟨3, 1⟩,
      [⟨"--chown=1", ⟨3, 6⟩, 1⟩, ⟨array, ⟨3, 16⟩, 11⟩], " --chown=1 " ++ array⟩ := ⟨_, rfl⟩
  obtain ⟨d, g, hd, hg, hline, hlists, ⟨s, hs, hindex, hfirst⟩, hkept⟩ :=
    exists_lowered_with source ⟨[], none, none⟩ (fun _ => .empty)
      (fun d g => Entry.line line ∈ Entry.ofScan (Token.scan source) ∧
        copy.Lists line ["a \"b\"", "c'\\d", "e\x60\x60", "/f/"] ∧
        (∃ s ∈ d.stages, s.index = 0 ∧
          ∀ i ∈ d.all, i.position = line.position → s.instructions[0]? = some i) ∧
        ∃ k ∈ g.stages, k.index = 0)
      (by subst hwords hsource harray; decide +kernel)
  obtain ⟨-, hlines, -⟩ := listed_paths_survive copy
    ["a \"b\"", "c'\\d", "e\x60\x60", "/f/"] (by decide)
  obtain ⟨i, hi, hposition, -, hcomes⟩ := hlines source d line hd hline hlists
  obtain ⟨o, ho, hid, -, files, htask, hsources⟩ :=
    hcomes s hs 0 (hfirst i hi hposition) _ _ g hg (by rwa [hindex])
  rw [hindex] at hid
  exact ⟨array, source, d, g, o, files, harray, hsource, hd, hg, ho, hid, htask, hsources⟩

end PathForm

end Dockerfile
