import Dockerfile.Proofs.Document
import Dockerfile.Proofs.Quotes
import Dockerfile.Proofs.Text

/-!
# How arguments are written

The texts of an instruction whose variables are replaced stand in its line as they are: as words, as
parts of words, or as the rest of the line (`Stands`). That holds for every instruction that is read
(`written_of_ofLine`). Names of labels and mounts are different: the reader unquotes them, and what
is left is read once more when they are lowered (`Unquoted`).
-/

namespace Dockerfile

/-! ### Results -/

section Results

variable {ε α β : Type} {x : Except ε α} {b : β}

theorem bind_eq_ok {f : α → Except ε β} : x >>= f = .ok b ↔ ∃ a, x = .ok a ∧ f a = .ok b := by
  cases x with
  | error | ok => simp [bind, Except.bind]

theorem map_eq_ok {f : α → β} : f <$> x = .ok b ↔ ∃ a, x = .ok a ∧ f a = b := by
  cases x with
  | error | ok => simp [Functor.map, Except.map]

theorem exists_of_mapM_ok {f : α → Except ε β} {xs : List α} {ys : List β}
    (h : xs.mapM f = .ok ys) {y : β} (hy : y ∈ ys) : ∃ x ∈ xs, f x = .ok y := by
  induction xs generalizing ys with
  | nil =>
    cases h
    cases hy
  | cons x xs ih =>
    rw [List.mapM_cons] at h
    obtain ⟨first, hfirst, h⟩ := bind_eq_ok.1 h
    obtain ⟨rest, hrest, h⟩ := bind_eq_ok.1 h
    cases h
    rcases List.mem_cons.1 hy with rfl | hy
    · exact ⟨x, List.mem_cons_self, hfirst⟩
    · obtain ⟨x', hx', hy⟩ := ih hrest hy
      exact ⟨x', List.mem_cons_of_mem x hx', hy⟩

end Results

/-- The texts of an instruction whose variables are replaced, but for the names of labels and the
parts of mounts. -/
def Body.arguments : Body → List String
  | .base b => b.image :: b.platform.toList
  | .run r => r.network.toList ++ r.security.toList
  | .copy c => c.sources ++ c.destination :: (c.origin.toList ++ c.chown.toList ++ c.chmod.toList)
  | .add a => a.sources ++ a.destination :: (a.chown.toList ++ a.chmod.toList ++ a.checksum.toList)
  | .env bindings => bindings.map Binding.value
  | .arg declarations => declarations.filterMap Declaration.default
  | .workdir path => [path]
  | .user name group => name :: group.toList
  | .expose ports => ports
  | .volume paths => paths
  | .label labels => labels.map Binding.value
  | .stopsignal signal => [signal]
  | _ => []

namespace Instruction

/-- How an argument stands in a line, and what stands before it in its word. -/
inductive Stands (escape : Char) (line : LogicalLine) : List Char → String → Prop where
  /-- It is a word. -/
  | word {w : Word} (hw : w ∈ line.words) : Stands escape line [] w.text
  /-- It is the value of a flag, whose name has no quotes. -/
  | flag {w : Word} {name : List Char} {text : String} (hw : w ∈ line.words)
    (htext : w.text.toList = '-' :: '-' :: (name ++ '=' :: text.toList))
    (hname : Template.quoteAfter escape .none ('-' :: '-' :: name) = some .none) :
    Stands escape line ('-' :: '-' :: name ++ ['=']) text
  /-- It stands behind a sign in a word. -/
  | behind {w : Word} {name : List Char} {sign : Char} {text : String} (hw : w ∈ line.words)
    (hsign : Template.IsSign sign) (htext : w.text.toList = name ++ sign :: text.toList) :
    Stands escape line (name ++ [sign]) text
  /-- It stands before a colon in a word. -/
  | before {w : Word} {text : String} {group : List Char} (hw : w ∈ line.words)
    (htext : w.text.toList = text.toList ++ ':' :: group) : Stands escape line [] text
  /-- It is the rest of the line from a word on. -/
  | rest {w : Word} (hw : w ∈ line.words) : Stands escape line [] (line.textFrom w)
  /-- It is a string of an array, between double quotes. -/
  | item {w : Word} {array : Json.Reader.Item} {strings : List String} {text : String}
    (hw : w ∈ line.words) (hread : Json.Reader.read (line.textFrom w) = .ok array)
    (hstrings : array.strings? = some strings) (htext : text ∈ strings) :
    Stands escape line [] (String.ofList (requote escape text.toList))

/-- A text is written in a line. -/
def Written (escape : Char) (line : LogicalLine) (text : String) : Prop :=
  ∃ front, Stands escape line front text

/-- Texts that the reader unquotes, so that what stood between quotes is no longer protected. -/
inductive Unquoted (escape : Char) (line : LogicalLine) : Body → Prop where
  /-- The name of a label stands before an equals sign, or it is the first word. -/
  | label {labels : List Binding}
    (hname : ∀ l ∈ labels, ∃ w ∈ line.words, ∃ given behind, w.text.toList = given ++ behind ∧
      (behind = '=' :: l.value.toList ∨ behind = []) ∧
      l.name.toList = Template.unquoteFrom escape .none given) :
    Unquoted escape line (.label labels)
  /-- The parts of a mount are cut out of the value of a flag. -/
  | run {r : Run} (hmounts : ∀ m ∈ r.mounts, ∃ text, Written escape line text ∧
      m = mountOf escape text) :
    Unquoted escape line (.run r)
  | other {body : Body} (hlabel : body.kind ≠ .label) (hrun : body.kind ≠ .run) :
    Unquoted escape line body

variable {escape : Char} {kind : Kind} {line : LogicalLine} {allowed : List (String × FlagType)}
  {words rest : List Word} {flags : Flags} {name text : String}

/-! ### Flags -/

theorem readFlags_ok (h : readFlags escape kind allowed words = .ok (flags, rest)) :
    (∀ w ∈ rest, w ∈ words) ∧
      ∀ flag ∈ flags, ∃ w ∈ words, isFlag w ∧ readFlag escape kind allowed w = .ok flag := by
  induction words generalizing flags with
  | nil =>
    cases h
    simp
  | cons w words ih =>
    unfold readFlags at h
    split at h
    · rename_i hflag
      obtain ⟨flag, hread, h⟩ := bind_eq_ok.1 h
      obtain ⟨⟨others, behind⟩, hothers, h⟩ := bind_eq_ok.1 h
      cases h
      obtain ⟨hrest, hall⟩ := ih hothers
      refine ⟨fun w' hw' => List.mem_cons_of_mem w (hrest w' hw'), fun flag' hflag' => ?_⟩
      rcases List.mem_cons.1 hflag' with rfl | hflag'
      · exact ⟨w, List.mem_cons_self, hflag, hread⟩
      · obtain ⟨w', hw', hread'⟩ := hall flag' hflag'
        exact ⟨w', List.mem_cons_of_mem w hw', hread'⟩
    · cases h
      exact ⟨fun _ hw => hw, fun flag hflag => by cases hflag⟩

/-- A flag that takes a value has it behind its name, which may be in capitals. -/
theorem readFlags_rest (h : readFlags escape kind allowed words = .ok (flags, rest)) :
    rest = words.dropWhile isFlag := by
  induction words generalizing flags with
  | nil =>
    cases h
    rfl
  | cons w words ih =>
    unfold readFlags at h
    split at h
    · rename_i hflag
      obtain ⟨flag, -, h⟩ := bind_eq_ok.1 h
      obtain ⟨⟨others, behind⟩, hothers, h⟩ := bind_eq_ok.1 h
      cases h
      rw [List.dropWhile_cons_of_pos hflag]
      exact ih hothers
    · rename_i hflag
      cases h
      rw [List.dropWhile_cons_of_neg hflag]

variable {w : Word} {sources : List String} {destination : String}

theorem readFlag_value (h : readFlag escape kind allowed w = .ok (name, text))
    (hvalue : allowed.lookup name = some .value) : ∃ given : String,
      w.text.toList.drop 2 = given.toList ++ '=' :: text.toList ∧ Text.toLower given = name := by
  unfold readFlag at h
  dsimp only at h
  generalize hcut : Text.cutString '=' (String.ofList (w.text.toList.drop 2)) = cut at h
  obtain ⟨given, value⟩ := cut
  dsimp only at h
  split at h
  · cases h
  · split at h
    · split at h
      · cases h
      · cases h
        have hlist := (Text.cutString_eq hcut).1
        rw [String.toList_ofList] at hlist
        exact ⟨given, hlist, rfl⟩
    · cases h
  · rename_i hswitch
    split at h
    all_goals
      split at h
      · cases h
        rw [hvalue] at hswitch
        cases hswitch
      · cases h

/-- The characters that do not stand for themselves in a word. -/
def specials : List Char := ['\'', '"', '$', '\\', '\x60']

/-- Does a name have no such characters? -/
def isPlainName (name : String) : Bool := specials.all fun c => !name.toList.contains c

theorem isPlain_of_notMem_specials (hescape : Template.IsEscape escape) {c : Char}
    (h : c ∉ specials) : Template.isPlain escape c := by
  simp only [specials, List.mem_cons, List.not_mem_nil, or_false, not_or] at h
  obtain ⟨hsingle, hdouble, hdollar, hslash, htick⟩ := h
  rcases hescape with rfl | rfl <;> simp [Template.isPlain, *]

theorem written_flag (hescape : Template.IsEscape escape)
    (hflags : readFlags escape kind allowed line.words = .ok (flags, rest))
    (hvalue : allowed.lookup name = some .value) (hplain : isPlainName name)
    (hmem : (name, text) ∈ flags) : Written escape line text := by
  obtain ⟨w, hw, hflag, hread⟩ := (readFlags_ok hflags).2 _ hmem
  obtain ⟨given, hdrop, hlower⟩ := readFlag_value hread hvalue
  have htext : w.text.toList = '-' :: '-' :: (given.toList ++ '=' :: text.toList) := by
    obtain ⟨behind, hbehind⟩ := List.isPrefixOf_iff_prefix.1 hflag
    rw [← hbehind] at hdrop ⊢
    exact congrArg (fun cs => '-' :: '-' :: cs) hdrop
  have hgiven : ('-' :: '-' :: given.toList).all (Template.isPlain escape) := by
    refine List.all_eq_true.2 fun c hc => isPlain_of_notMem_specials hescape fun hspecial => ?_
    have hnotDash : '-' ∉ specials := by decide
    simp only [List.mem_cons, ne_of_mem_of_not_mem hspecial hnotDash, false_or] at hc
    -- A special character has no other form, so it would be one of the name in small letters.
    have hstays : specials.all fun c => c.toNat < 128 && c.toLower = c := by decide
    obtain ⟨hascii, hform⟩ : c.toNat < 128 ∧ c.toLower = c := by
      simpa using List.all_eq_true.1 hstays c hspecial
    have habsent : c ∉ name.toList := by simpa using List.all_eq_true.1 hplain c hspecial
    refine habsent ?_
    rw [← hlower, Text.toLower, String.toList_ofList]
    exact Text.mem_lowerAfter hascii hform hc
  have hnone : (.none : Template.Quote) ≠ .single := by decide
  have hquotes : Template.quoteAfter escape .none ('-' :: '-' :: given.toList) = some .none := by
    rw [← List.append_nil ('-' :: '-' :: given.toList), Template.quoteAfter_plain hnone hgiven,
      Template.quoteAfter]
  exact ⟨_, .flag hw htext hquotes⟩

theorem mem_of_last? (h : flags.last? name = some text) : (name, text) ∈ flags := by
  obtain ⟨flag, hlast, rfl⟩ := Option.map_eq_some_iff.1 h
  have hmem := List.mem_of_getLast? hlast
  rw [List.mem_filter, decide_eq_true_eq] at hmem
  obtain ⟨hmem, rfl⟩ := hmem
  exact hmem

/-! ### Words, paths and pairs -/

theorem written_of_readPathList {first : Word} {paths : List String} (hfirst : first ∈ line.words)
    (hwords : ∀ w ∈ words, w ∈ line.words)
    (h : readPathList escape kind line first words = .ok paths) :
    ∀ text ∈ paths, Written escape line text := by
  intro text htext
  unfold readPathList at h
  dsimp only at h
  split at h
  · split at h
    · cases h
    · cases h
    · rename_i array hread
      split at h
      · rename_i strings hstrings
        cases h
        obtain ⟨s, hs, rfl⟩ := List.mem_map.1 htext
        exact ⟨_, .item hfirst hread hstrings hs⟩
      · cases h
  · cases h
    obtain ⟨w, hw, rfl⟩ := List.mem_map.1 htext
    exact ⟨_, .word (hwords w hw)⟩

/-- The last of at least two paths is the destination. -/
theorem readPaths_eq_ok {first : Word} :
    readPaths escape kind line (first :: rest) = .ok (sources, destination) ↔
      sources ≠ [] ∧
        readPathList escape kind line first (first :: rest) = .ok (sources ++ [destination]) := by
  rw [readPaths, bind_eq_ok]
  constructor
  · rintro ⟨paths, hpaths, h⟩
    split at h
    · rename_i source others last hfront hlast
      cases h
      refine ⟨List.cons_ne_nil _ _, ?_⟩
      obtain ⟨front, rfl⟩ := List.getLast?_eq_some_iff.1 hlast
      rw [hpaths, ← hfront, List.dropLast_concat]
    · cases h
  · rintro ⟨hne, hpaths⟩
    obtain ⟨source, others, rfl⟩ := List.exists_cons_of_ne_nil hne
    refine ⟨_, hpaths, ?_⟩
    rw [List.dropLast_concat, List.getLast?_concat]
    rfl

theorem written_of_readPaths (hwords : ∀ w ∈ words, w ∈ line.words)
    (h : readPaths escape kind line words = .ok (sources, destination)) :
    (∀ text ∈ sources, Written escape line text) ∧ Written escape line destination := by
  cases words with
  | nil => cases h
  | cons first others =>
    have hall := written_of_readPathList (hwords first List.mem_cons_self) hwords
      (readPaths_eq_ok.1 h).2
    exact ⟨fun text htext => hall text (List.mem_append_left _ htext), hall destination (by simp)⟩

theorem readPair_ok {b : Binding} (h : readPair escape kind w = .ok b) :
    ∃ given, w.text.toList = given ++ '=' :: b.value.toList ∧
      b.name.toList = Template.unquoteFrom escape .none given := by
  unfold readPair at h
  split at h
  · cases h
  · rename_i name value hcut
    dsimp only at h
    split at h
    · cases h
    · cases h
      exact ⟨name.toList, (Text.cutString_eq hcut).1, String.toList_ofList⟩

/-- A pair is a word with an equals sign, or its name is the first word and its value the rest of
the line. -/
theorem readPairs_ok {bindings : List Binding} (hwords : ∀ w ∈ words, w ∈ line.words)
    (h : readPairs escape kind line words = .ok bindings) {b : Binding} (hb : b ∈ bindings) :
    Written escape line b.value ∧ ∃ w ∈ line.words, ∃ given behind,
      w.text.toList = given ++ behind ∧ (behind = '=' :: b.value.toList ∨ behind = []) ∧
      b.name.toList = Template.unquoteFrom escape .none given := by
  unfold readPairs at h
  split at h
  · cases h
  · rename_i first others
    split at h
    · obtain ⟨w, hw, hpair⟩ := exists_of_mapM_ok h hb
      obtain ⟨given, htext, hname⟩ := readPair_ok hpair
      exact ⟨⟨_, .behind (hwords w hw) (.inl rfl) htext⟩, w, hwords w hw, given, _, htext, .inl rfl,
        hname⟩
    · dsimp only at h
      split at h
      · cases h
      · rename_i hvalue
        cases h
        obtain rfl := List.mem_singleton.1 hb
        refine ⟨?_, first, hwords first List.mem_cons_self, first.text.toList, [], ?_, .inr rfl,
          String.toList_ofList⟩
        · cases others with
          | nil => exact absurd rfl hvalue
          | cons w others => exact ⟨_, .rest (hwords w (by simp))⟩
        · exact (List.append_nil _).symm

/-! ### Instructions of each kind -/

section Kinds

variable (hescape : Template.IsEscape escape)
include hescape

theorem written_of_readBase {b : Base} (h : readBase escape line = .ok b) :
    ∀ text ∈ (Body.base b).arguments, Written escape line text := by
  unfold readBase at h
  obtain ⟨⟨flags, words⟩, hflags, h⟩ := bind_eq_ok.1 h
  have hwords := (readFlags_ok hflags).1
  have hall : ∀ (image : Word), image ∈ words →
      ∀ text ∈ image.text :: (flags.last? "platform").toList, Written escape line text := by
    intro image himage text htext
    rcases List.mem_cons.1 htext with rfl | htext
    · exact ⟨_, .word (hwords image himage)⟩
    · exact written_flag hescape hflags (by decide) (by decide)
        (mem_of_last? (Option.mem_toList.1 htext))
  dsimp only at h
  split at h
  · cases h
  · cases h
    exact hall _ List.mem_cons_self
  · split at h
    · split at h
      · cases h
      · cases h
        exact hall _ List.mem_cons_self
      · cases h
    · cases h

theorem written_of_readRun {r : Run} (h : readRun escape line = .ok r) :
    (∀ text ∈ (Body.run r).arguments, Written escape line text) ∧
      Unquoted escape line (.run r) := by
  unfold readRun at h
  obtain ⟨⟨flags, words⟩, hflags, h⟩ := bind_eq_ok.1 h
  obtain ⟨command, -, h⟩ := bind_eq_ok.1 h
  cases h
  refine ⟨fun text htext => ?_, .run fun m hm => ?_⟩
  · rcases List.mem_append.1 htext with htext | htext
    · exact written_flag hescape hflags (by decide) (by decide)
        (mem_of_last? (Option.mem_toList.1 htext))
    · exact written_flag hescape hflags (by decide) (by decide)
        (mem_of_last? (Option.mem_toList.1 htext))
  · obtain ⟨text, htext, rfl⟩ := List.mem_map.1 hm
    obtain ⟨⟨name, value⟩, hmem, rfl⟩ := List.mem_map.1 htext
    rw [List.mem_filter, decide_eq_true_eq] at hmem
    obtain ⟨hmem, rfl⟩ := hmem
    exact ⟨_, written_flag hescape hflags (by decide) (by decide) hmem, rfl⟩

/-- Files are written as paths, and flags of some names tell more of them. -/
theorem written_of_files (names : List String)
    (hnames : ∀ name ∈ names, allowed.lookup name = some .value ∧ isPlainName name)
    (hflags : readFlags escape kind allowed line.words = .ok (flags, words))
    (hpaths : readPaths escape kind line words = .ok (sources, destination)) :
    ∀ text ∈ sources ++ destination :: names.flatMap (fun name => (flags.last? name).toList),
      Written escape line text := by
  obtain ⟨hsources, hdestination⟩ := written_of_readPaths (readFlags_ok hflags).1 hpaths
  intro text htext
  rcases List.mem_append.1 htext with htext | htext
  · exact hsources text htext
  · rcases List.mem_cons.1 htext with rfl | htext
    · exact hdestination
    · obtain ⟨name, hname, hlast⟩ := List.mem_flatMap.1 htext
      obtain ⟨hvalue, hplain⟩ := hnames name hname
      exact written_flag hescape hflags hvalue hplain (mem_of_last? (Option.mem_toList.1 hlast))

theorem written_of_readCopy {c : Copy} (h : readCopy escape line = .ok c) :
    ∀ text ∈ (Body.copy c).arguments, Written escape line text := by
  unfold readCopy at h
  obtain ⟨⟨flags, words⟩, hflags, h⟩ := bind_eq_ok.1 h
  obtain ⟨⟨sources, destination⟩, hpaths, h⟩ := bind_eq_ok.1 h
  cases h
  intro text htext
  refine written_of_files hescape ["from", "chown", "chmod"] (by decide) hflags hpaths text ?_
  simpa [Body.arguments, or_assoc] using htext

theorem written_of_readAdd {a : Add} (h : readAdd escape line = .ok a) :
    ∀ text ∈ (Body.add a).arguments, Written escape line text := by
  unfold readAdd at h
  obtain ⟨⟨flags, words⟩, hflags, h⟩ := bind_eq_ok.1 h
  obtain ⟨⟨sources, destination⟩, hpaths, h⟩ := bind_eq_ok.1 h
  cases h
  intro text htext
  refine written_of_files hescape ["chown", "chmod", "checksum"] (by decide) hflags hpaths text ?_
  simpa [Body.arguments, or_assoc] using htext

end Kinds

theorem written_of_readDeclaration (hw : w ∈ line.words) {d : Declaration}
    (h : readDeclaration w = .ok d) {text : String} (htext : d.default = some text) :
    Written escape line text := by
  unfold readDeclaration at h
  generalize hcut : Text.cutString '=' w.text = cut at h
  obtain ⟨name, default⟩ := cut
  dsimp only at h
  split at h
  · cases h
  · cases h
    obtain rfl : default = some text := htext
    exact ⟨_, .behind hw (.inl rfl) (Text.cutString_eq hcut).1⟩

theorem written_of_readUser {user : String} {group : Option String}
    (h : readUser line = .ok (user, group)) :
    ∀ text ∈ (Body.user user group).arguments, Written escape line text := by
  unfold readUser at h
  split at h
  · cases h
  · rename_i w hwords
    have hw : w ∈ line.words := by
      rw [hwords]
      exact List.mem_cons_self
    have hcut := Except.ok.inj h
    unfold Text.cutWord at hcut
    split at hcut
    · rename_i before behind hbraces
      cases hcut
      have htext := Text.cutOutsideBraces?_eq_some hbraces
      intro text hmem
      rcases List.mem_cons.1 hmem with rfl | hmem
      · exact ⟨_, .before hw (by rwa [String.toList_ofList])⟩
      · obtain rfl := Option.some.inj (Option.mem_toList.1 hmem)
        exact ⟨_, .behind hw (.inr rfl) (by rwa [String.toList_ofList])⟩
    · cases hcut
      intro text hmem
      obtain rfl := List.mem_singleton.1 hmem
      exact ⟨_, .word hw⟩
  · cases h

/-- Every argument of an instruction that is read is written in its line. -/
theorem written_of_readKind (hescape : Template.IsEscape escape) {body : Body}
    (h : readKind escape line kind = .ok body) :
    (∀ text ∈ body.arguments, Written escape line text) ∧ Unquoted escape line body := by
  cases kind with
  | base =>
    obtain ⟨b, hb, rfl⟩ := map_eq_ok.1 h
    exact ⟨written_of_readBase hescape hb, .other nofun nofun⟩
  | run =>
    obtain ⟨r, hr, rfl⟩ := map_eq_ok.1 h
    exact written_of_readRun hescape hr
  | copy =>
    obtain ⟨c, hc, rfl⟩ := map_eq_ok.1 h
    exact ⟨written_of_readCopy hescape hc, .other nofun nofun⟩
  | add =>
    obtain ⟨a, ha, rfl⟩ := map_eq_ok.1 h
    exact ⟨written_of_readAdd hescape ha, .other nofun nofun⟩
  | env =>
    obtain ⟨bindings, hpairs, rfl⟩ := map_eq_ok.1 h
    refine ⟨fun text htext => ?_, .other nofun nofun⟩
    obtain ⟨b, hb, rfl⟩ := List.mem_map.1 htext
    exact (readPairs_ok (fun _ hw => hw) hpairs hb).1
  | arg =>
    obtain ⟨declarations, hread, rfl⟩ := map_eq_ok.1 h
    refine ⟨fun text htext => ?_, .other nofun nofun⟩
    obtain ⟨d, hd, htext⟩ := List.mem_filterMap.1 htext
    unfold readArg at hread
    split at hread
    · cases hread
    · obtain ⟨w, hw, hdeclaration⟩ := exists_of_mapM_ok hread hd
      exact written_of_readDeclaration hw hdeclaration htext
  | workdir =>
    obtain ⟨path, hread, rfl⟩ := map_eq_ok.1 h
    refine ⟨fun text htext => ?_, .other nofun nofun⟩
    obtain rfl := List.mem_singleton.1 htext
    unfold readText at hread
    split at hread
    · cases hread
    · rename_i w others hwords
      cases hread
      exact ⟨_, .rest (by simp [hwords])⟩
  | user =>
    obtain ⟨⟨user, group⟩, hread, rfl⟩ := map_eq_ok.1 h
    exact ⟨written_of_readUser hread, .other nofun nofun⟩
  | expose =>
    obtain ⟨ports, hread, rfl⟩ := map_eq_ok.1 h
    refine ⟨fun text htext => ?_, .other nofun nofun⟩
    unfold readPorts at hread
    split at hread
    · cases hread
    · cases hread
      obtain ⟨w, hw, rfl⟩ := List.mem_map.1 htext
      exact ⟨_, .word hw⟩
  | volume =>
    obtain ⟨paths, hread, rfl⟩ := map_eq_ok.1 h
    refine ⟨?_, .other nofun nofun⟩
    unfold readVolume at hread
    split at hread
    · cases hread
    · rename_i first others hwords
      have hall : ∀ w ∈ first :: others, w ∈ line.words := by
        rw [hwords]
        exact fun _ hw => hw
      exact written_of_readPathList (hall first List.mem_cons_self) hall hread
  | label =>
    obtain ⟨labels, hpairs, rfl⟩ := map_eq_ok.1 h
    refine ⟨fun text htext => ?_, .label fun l hl => ?_⟩
    · obtain ⟨l, hl, rfl⟩ := List.mem_map.1 htext
      exact (readPairs_ok (fun _ hw => hw) hpairs hl).1
    · exact (readPairs_ok (fun _ hw => hw) hpairs hl).2
  | stopsignal =>
    obtain ⟨signal, hread, rfl⟩ := map_eq_ok.1 h
    refine ⟨fun text htext => ?_, .other nofun nofun⟩
    obtain rfl := List.mem_singleton.1 htext
    unfold readSignal at hread
    split at hread
    · cases hread
    · rename_i w hwords
      cases hread
      exact ⟨_, .word (by simp [hwords])⟩
    · cases hread
  | onbuild => cases h
  | healthcheck | entrypoint | cmd | shell | maintainer =>
    obtain ⟨_, -, rfl⟩ := map_eq_ok.1 h
    exact ⟨fun _ htext => (nomatch htext), .other nofun nofun⟩

theorem written_of_ofLine (hescape : Template.IsEscape escape) {i : Instruction}
    (h : ofLine escape line = .ok i) :
    (∀ text ∈ i.body.arguments, Written escape line text) ∧ Unquoted escape line i.body := by
  obtain ⟨body, hbody, rfl⟩ := map_eq_ok.1 h
  obtain ⟨keyword, position, words, raw⟩ := line
  dsimp only at hbody ⊢
  cases words with
  | nil =>
    unfold readBody at hbody
    split at hbody
    · cases hbody
    · exact written_of_readKind hescape hbody
  | cons head tail =>
    unfold readBody at hbody
    dsimp only at hbody
    split at hbody
    · cases hbody
    · obtain ⟨trigger, -, rfl⟩ := map_eq_ok.1 hbody
      exact ⟨fun _ htext => (nomatch htext), .other nofun nofun⟩
    · exact written_of_readKind hescape hbody

end Instruction

/-! ### Documents -/

namespace Document

open Instruction

/-- An instruction is read from a line of a text, in which its arguments are written. -/
def ReadIn (source : String) (escape : Char) (i : Instruction) : Prop :=
  ∃ line, Entry.line line ∈ Entry.ofScan (Token.scan source) ∧ ofLine escape line = .ok i ∧
    (∀ text ∈ i.body.arguments, Written escape line text) ∧ Unquoted escape line i.body

variable {is : List Instruction}

theorem exists_line {escape : Char} {entries : List Entry}
    (h : instructions escape entries = .ok is) {i : Instruction} (hi : i ∈ is) :
    ∃ line, Entry.line line ∈ entries ∧ ofLine escape line = .ok i := by
  induction entries generalizing is with
  | nil =>
    cases h
    cases hi
  | cons entry rest ih =>
    have hrest : ∀ {is' : List Instruction}, instructions escape rest = .ok is' → i ∈ is' →
        ∃ line, Entry.line line ∈ entry :: rest ∧ ofLine escape line = .ok i := by
      intro is' h' hi'
      obtain ⟨line, hline, hread⟩ := ih h' hi'
      exact ⟨line, List.mem_cons_of_mem entry hline, hread⟩
    cases entry with
    | comment | lineEnd => exact hrest h hi
    | line line =>
      unfold instructions at h
      split at h
      · cases h
      · rename_i first hfirst
        obtain ⟨others, hothers, rfl⟩ := map_eq_ok.1 h
        rcases List.mem_cons.1 hi with rfl | hi
        · exact ⟨line, List.mem_cons_self, hfirst⟩
        · exact hrest hothers hi
    | stray | broken => cases h

theorem exists_instruction {escape : Char} {entries : List Entry}
    (h : instructions escape entries = .ok is) {line : LogicalLine}
    (hline : Entry.line line ∈ entries) : ∃ i ∈ is, ofLine escape line = .ok i := by
  induction entries generalizing is with
  | nil => cases hline
  | cons entry rest ih =>
    cases entry with
    | comment | lineEnd => exact ih h (by simpa using hline)
    | line other =>
      unfold instructions at h
      split at h
      · cases h
      · rename_i first hfirst
        obtain ⟨others, hothers, rfl⟩ := map_eq_ok.1 h
        rcases List.mem_cons.1 hline with heq | hline
        · cases heq
          exact ⟨first, List.mem_cons_self, hfirst⟩
        · obtain ⟨i, hi, hread⟩ := ih hothers hline
          exact ⟨i, List.mem_cons_of_mem first hi, hread⟩
    | stray | broken => cases h

theorem mem_of_splitStage {i : Instruction} (h : i ∈ (splitStage is).1) : i ∈ is := by
  fun_induction splitStage is with
  | case1 | case2 => cases h
  | case3 j rest hj own others hrest ih =>
    rcases List.mem_cons.1 h with rfl | h
    · exact List.mem_cons_self
    · exact List.mem_cons_of_mem j (ih (by rwa [hrest]))

theorem mem_of_stagesFrom {index : Nat} {s : Stage} (h : s ∈ stagesFrom index is) :
    ⟨s.position, .base s.base⟩ ∈ is ∧ ∀ i ∈ s.instructions, i ∈ is := by
  fun_induction stagesFrom index is with
  | case1 => cases h
  | case2 index position base rest ih =>
    rcases List.mem_cons.1 h with rfl | h
    · exact ⟨List.mem_cons_self, fun i hi => List.mem_cons_of_mem _ (mem_of_splitStage hi)⟩
    · obtain ⟨hbase, hall⟩ := ih h
      exact ⟨List.mem_cons_of_mem _ hbase, fun i hi => List.mem_cons_of_mem _ (hall i hi)⟩
  | case3 index i rest _ ih =>
    obtain ⟨hbase, hall⟩ := ih h
    exact ⟨List.mem_cons_of_mem _ hbase, fun i hi => List.mem_cons_of_mem _ (hall i hi)⟩

/-- All instructions of a document are read from the lines of its text. -/
theorem readIn_of_parse {source : String} {d : Document} (h : parse source = .ok d) :
    (∀ i ∈ d.preamble, ReadIn source d.escape i) ∧
      ∀ s ∈ d.stages, ReadIn source d.escape ⟨s.position, .base s.base⟩ ∧
        ∀ i ∈ s.instructions, ReadIn source d.escape i := by
  have hescape : Template.IsEscape d.escape := isEscape_of_ofEntries h
  obtain ⟨is, his, rfl⟩ := map_eq_ok.1 h
  have hread : ∀ i ∈ is, ReadIn source (Entry.escapeOf (Entry.directives
      (Entry.ofScan (Token.scan source)))) i := by
    intro i hi
    obtain ⟨line, hline, hof⟩ := exists_line his hi
    exact ⟨line, hline, hof, written_of_ofLine hescape hof⟩
  refine ⟨fun i hi => hread i (mem_of_splitStage hi), fun s hs => ?_⟩
  obtain ⟨hbase, hall⟩ := mem_of_stagesFrom hs
  exact ⟨hread _ hbase, fun i hi => hread i (hall i hi)⟩

end Document

end Dockerfile
