import Dockerfile.Proofs.Reading

/-!
# Places of what is read

Tokens carry their places, and what is read from them carries places of tokens. Where tokens stand
does not matter otherwise: if every token is put somewhere else, then so is every part of what is
read, and nothing else changes (`ofEntries_relocate`). A fault is the same one at another place.
Nor does it matter what stands in a line before the words that are read (`readBody_carry`).
-/

namespace Dockerfile

/-! ### Results -/

section Results

variable {ε ε' α α' β β' : Type} {onError : ε → ε'} {f : α → α'} {g : β → β'}

/-- A result with its error or its value mapped. -/
def mapBoth (onError : ε → ε') (f : α → α') : Except ε α → Except ε' α'
  | .error e => .error (onError e)
  | .ok a => .ok (f a)

theorem mapBoth_ite {c : Prop} [Decidable c] {x y : Except ε α} :
    mapBoth onError f (if c then x else y) =
      if c then mapBoth onError f x else mapBoth onError f y :=
  apply_ite _ _ _ _

theorem mapBoth_bind {x : Except ε α} {k : α → Except ε β} {k' : α' → Except ε' β'}
    (h : ∀ a, k' (f a) = mapBoth onError g (k a)) :
    mapBoth onError f x >>= k' = mapBoth onError g (x >>= k) := by
  cases x with
  | error e => rfl
  | ok a => exact h a

theorem mapBoth_map {x : Except ε α} {k : α → β} {k' : α' → β'} (h : ∀ a, k' (f a) = g (k a)) :
    k' <$> mapBoth onError f x = mapBoth onError g (k <$> x) := by
  cases x with
  | error e => rfl
  | ok a => exact congrArg Except.ok (h a)

theorem mapM_mapBoth {xs : List α} {k : α → Except ε β} {k' : α' → Except ε' β'}
    (h : ∀ a, k' (f a) = mapBoth onError g (k a)) :
    (xs.map f).mapM k' = mapBoth onError (List.map g) (xs.mapM k) := by
  induction xs with
  | nil => rfl
  | cons a xs ih =>
    rw [List.map_cons, List.mapM_cons, List.mapM_cons, h, ih]
    refine mapBoth_bind fun b => mapBoth_bind fun bs => rfl

end Results

variable (f : Position → Position)

/-! ### Tokens and lines -/

def Token.relocate (t : Token) : Token := { t with position := f t.position }

def Lexer.Fault.relocate (fault : Lexer.Fault) : Lexer.Fault :=
  { fault with position := f fault.position }

def Lexer.Scan.relocate (scan : Lexer.Scan) : Lexer.Scan :=
  ⟨scan.tokens.map (Token.relocate f), scan.fault.map (Lexer.Fault.relocate f)⟩

def Word.relocate (w : Word) : Word := { w with position := f w.position }

def LogicalLine.relocate (line : LogicalLine) : LogicalLine :=
  { line with position := f line.position, words := line.words.map (Word.relocate f) }

def LogicalLine.Draft.relocate (d : LogicalLine.Draft) : LogicalLine.Draft :=
  { d with position := f d.position, words := d.words.map (Word.relocate f) }

def Entry.relocate : Entry → Entry
  | .comment t => .comment (t.relocate f)
  | .lineEnd => .lineEnd
  | .line l => .line (l.relocate f)
  | .stray t => .stray (t.relocate f)
  | .broken fault => .broken (fault.relocate f)

namespace Entry

open LogicalLine (Draft)

theorem piece_relocate (d : Draft) (t : Token) :
    (d.relocate f).piece (t.relocate f) = (d.piece t).relocate f := by
  obtain ⟨keyword, position, words, inWord, raw⟩ := d
  cases inWord with
  | false => rfl
  | true => cases words <;> rfl

theorem finish_relocate (d : Draft) : (d.relocate f).finish = d.finish.relocate f := by
  simp [Draft.finish, Draft.relocate, LogicalLine.relocate]

theorem ofTokensFrom_relocate (fault : Option Lexer.Fault) (draft : Option Draft)
    (tokens : List Token) :
    ofTokensFrom (fault.map (Lexer.Fault.relocate f)) (draft.map (Draft.relocate f))
        (tokens.map (Token.relocate f)) =
      (ofTokensFrom fault draft tokens).map (Entry.relocate f) := by
  induction tokens generalizing draft with
  | nil =>
    cases draft with
    | none => cases fault <;> rfl
    | some d =>
      cases fault with
      | none => exact congrArg (fun line => [Entry.line line]) (finish_relocate f d)
      | some fault => rfl
  | cons t tokens ih =>
    cases draft with
    | none =>
      obtain ⟨kind, text, position⟩ := t
      cases kind with
      | whitespace => exact ih none
      | newline => exact congrArg (.lineEnd :: ·) (ih none)
      | comment => exact congrArg (_ :: ·) (ih none)
      | instruction => exact ih (some (.start _))
      | _ => rfl
    | some d =>
      obtain ⟨kind, text, position⟩ := t
      cases kind with
      | newline => exact congr (congrArg (.line · :: ·) (finish_relocate f d)) (ih none)
      | continuation | comment => exact ih (some d)
      | whitespace => exact ih (some (d.space text))
      | string =>
        have h := ih (some (d.piece ⟨.string, text, position⟩))
        rw [Option.map_some, ← piece_relocate] at h
        exact h
      | reference =>
        have h := ih (some (d.piece ⟨.reference, text, position⟩))
        rw [Option.map_some, ← piece_relocate] at h
        exact h
      | eof => exact congrArg (fun line => [Entry.line line]) (finish_relocate f d)
      | instruction => rfl

theorem ofScan_relocate (scan : Lexer.Scan) :
    ofScan (scan.relocate f) = (ofScan scan).map (Entry.relocate f) :=
  ofTokensFrom_relocate f scan.fault none scan.tokens

theorem directivesFrom_relocate (behind : Bool) (entries : List Entry) :
    directivesFrom behind (entries.map (Entry.relocate f)) =
      (directivesFrom behind entries).map (Prod.map id f) := by
  induction entries generalizing behind with
  | nil => rfl
  | cons entry entries ih =>
    cases entry with
    | comment t =>
      rw [List.map_cons, Entry.relocate, directivesFrom, directivesFrom,
        show (t.relocate f).text = t.text from rfl]
      cases Directive.parse? t.text with
      | none => rfl
      | some d => exact congrArg ((d, f t.position) :: ·) (ih true)
    | lineEnd =>
      cases behind with
      | true => exact ih false
      | false => rfl
    | _ => rfl

end Entry

/-! ### Instructions -/

/-- The word elsewhere, in a line with more text in front. -/
def Word.carry (lead : String) (w : Word) : Word := ⟨w.text, f w.position, w.offset + lead.length⟩

/-- The line elsewhere, with more text in front of its arguments. -/
def LogicalLine.carry (lead : String) (line : LogicalLine) : LogicalLine :=
  ⟨line.keyword, f line.position, line.words.map (Word.carry f lead), lead ++ line.raw⟩

/-- Only the trigger of an `ONBUILD` has a place of its own. -/
def Body.relocate : Body → Body
  | .onbuild position trigger expression => .onbuild (f position) (trigger.relocate) expression
  | body => body

def Instruction.relocate (i : Instruction) : Instruction := ⟨f i.position, i.body.relocate f⟩

def Instruction.Cause.relocate : Instruction.Cause → Instruction.Cause
  | .strayToken t => .strayToken (t.relocate f)
  | cause => cause

def Instruction.Fault.relocate (fault : Instruction.Fault) : Instruction.Fault :=
  ⟨fault.cause.relocate f, f fault.position⟩

namespace Instruction

variable (lead : String) {escape : Char} {kind : Kind} {allowed : List (String × FlagType)}
  {line : LogicalLine}

theorem words_carry (line : LogicalLine) :
    (line.carry f lead).words = line.words.map (Word.carry f lead) := rfl

theorem textFrom_carry (line : LogicalLine) (w : Word) :
    (line.carry f lead).textFrom (w.carry f lead) = line.textFrom w := by
  unfold LogicalLine.textFrom
  rw [LogicalLine.carry, Word.carry, String.toList_append, Nat.add_comm, ← List.drop_drop,
    ← String.length_toList, List.drop_left]

theorem map_text_carry (words : List Word) :
    (words.map (Word.carry f lead)).map Word.text = words.map Word.text := by
  rw [List.map_map]
  rfl

theorem readFlag_carry (w : Word) :
    readFlag escape kind allowed (w.carry f lead) =
      mapBoth (Fault.relocate f) id (readFlag escape kind allowed w) := by
  unfold readFlag
  rw [show (w.carry f lead).text = w.text from rfl]
  generalize Text.cutString '=' (String.ofList (w.text.toList.drop 2)) = cut
  obtain ⟨name, value⟩ := cut
  dsimp only
  cases allowed.lookup (Text.toLower name) with
  | none => rfl
  | some type =>
    cases type with
    | value =>
      cases value with
      | none => rfl
      | some value =>
        dsimp only
        rw [mapBoth_ite]
        rfl
    | switch =>
      dsimp only
      rw [mapBoth_ite]
      rfl

theorem readFlags_carry (words : List Word) :
    readFlags escape kind allowed (words.map (Word.carry f lead)) =
      mapBoth (Fault.relocate f) (Prod.map id (List.map (Word.carry f lead)))
        (readFlags escape kind allowed words) := by
  induction words with
  | nil => rfl
  | cons w words ih =>
    rw [List.map_cons, readFlags, readFlags, show isFlag (w.carry f lead) = isFlag w from rfl]
    cases isFlag w with
    | false => rfl
    | true =>
      rw [if_pos rfl, if_pos rfl, readFlag_carry, ih]
      exact mapBoth_bind fun flag => mapBoth_bind fun rest => rfl

theorem readCommand_carry (words : List Word) :
    readCommand kind (line.carry f lead) (words.map (Word.carry f lead)) =
      mapBoth (Fault.relocate f) id (readCommand kind line words) := by
  cases words with
  | nil => rfl
  | cons w words =>
    rw [List.map_cons, readCommand, readCommand, textFrom_carry]
    unfold commandOf
    split
    · split
      · rfl
      · rfl
      · split <;> rfl
    · rfl

theorem readPathList_carry (line : LogicalLine) (first : Word) (words : List Word) :
    readPathList escape kind (line.carry f lead) (first.carry f lead)
        (words.map (Word.carry f lead)) =
      mapBoth (Fault.relocate f) id (readPathList escape kind line first words) := by
  unfold readPathList
  rw [textFrom_carry, map_text_carry]
  dsimp only
  split
  · split
    · rfl
    · rfl
    · split <;> rfl
  · rfl

theorem readPaths_carry (words : List Word) :
    readPaths escape kind (line.carry f lead) (words.map (Word.carry f lead)) =
      mapBoth (Fault.relocate f) id (readPaths escape kind line words) := by
  cases words with
  | nil => rfl
  | cons first words =>
    unfold readPaths
    show readPathList escape kind (line.carry f lead) (first.carry f lead)
      ((first :: words).map (Word.carry f lead)) >>= _ = _
    rw [readPathList_carry]
    refine mapBoth_bind fun paths => ?_
    dsimp only [id]
    split <;> rfl

theorem readPair_carry (w : Word) :
    readPair escape kind (w.carry f lead) =
      mapBoth (Fault.relocate f) id (readPair escape kind w) := by
  unfold readPair
  rw [show (w.carry f lead).text = w.text from rfl]
  generalize Text.cutString '=' w.text = cut
  obtain ⟨name, value⟩ := cut
  cases value with
  | none => rfl
  | some value =>
    dsimp only
    rw [mapBoth_ite]
    rfl

theorem rest_carry (words : List Word) :
    (line.carry f lead).rest (words.map (Word.carry f lead)) = line.rest words := by
  cases words with
  | nil => rfl
  | cons w words => exact textFrom_carry f lead line w

theorem readPairs_carry (words : List Word) :
    readPairs escape kind (line.carry f lead) (words.map (Word.carry f lead)) =
      mapBoth (Fault.relocate f) id (readPairs escape kind line words) := by
  cases words with
  | nil => rfl
  | cons first words =>
    have hpairs : ((first :: words).map (Word.carry f lead)).mapM (readPair escape kind) =
        mapBoth (Fault.relocate f) id ((first :: words).mapM (readPair escape kind)) := by
      rw [mapM_mapBoth (readPair_carry f lead), List.map_id_fun]
    rw [List.map_cons, readPairs, readPairs, ← List.map_cons, hpairs, rest_carry, mapBoth_ite,
      mapBoth_ite]
    rfl

theorem readDeclaration_carry (w : Word) :
    readDeclaration (w.carry f lead) = mapBoth (Fault.relocate f) id (readDeclaration w) := by
  unfold readDeclaration
  dsimp only
  rw [mapBoth_ite]
  rfl

theorem readBase_carry (line : LogicalLine) :
    readBase escape (line.carry f lead) =
      mapBoth (Fault.relocate f) id (readBase escape line) := by
  unfold readBase
  rw [words_carry, readFlags_carry]
  refine mapBoth_bind ?_
  rintro ⟨flags, words⟩
  rcases words with _ | ⟨image, _ | ⟨second, rest⟩⟩
  · rfl
  · rfl
  · dsimp only
    rw [mapBoth_ite]
    rcases rest with _ | ⟨name, _ | ⟨excess, rest⟩⟩ <;> rfl

theorem readRun_carry (line : LogicalLine) :
    readRun escape (line.carry f lead) = mapBoth (Fault.relocate f) id (readRun escape line) := by
  unfold readRun
  rw [words_carry, readFlags_carry]
  refine mapBoth_bind ?_
  rintro ⟨flags, words⟩
  dsimp only [Prod.map]
  rw [readCommand_carry]
  exact mapBoth_bind fun command => rfl

theorem readCopy_carry (line : LogicalLine) :
    readCopy escape (line.carry f lead) = mapBoth (Fault.relocate f) id (readCopy escape line) := by
  unfold readCopy
  rw [words_carry, readFlags_carry]
  refine mapBoth_bind ?_
  rintro ⟨flags, words⟩
  dsimp only [Prod.map]
  rw [readPaths_carry]
  exact mapBoth_bind fun paths => rfl

theorem readAdd_carry (line : LogicalLine) :
    readAdd escape (line.carry f lead) = mapBoth (Fault.relocate f) id (readAdd escape line) := by
  unfold readAdd
  rw [words_carry, readFlags_carry]
  refine mapBoth_bind ?_
  rintro ⟨flags, words⟩
  dsimp only [Prod.map]
  rw [readPaths_carry]
  exact mapBoth_bind fun paths => rfl

theorem readArg_carry (line : LogicalLine) :
    readArg (line.carry f lead) = mapBoth (Fault.relocate f) id (readArg line) := by
  obtain ⟨keyword, position, words, raw⟩ := line
  cases words with
  | nil => rfl
  | cons first words =>
    have hdeclarations : ((first :: words).map (Word.carry f lead)).mapM readDeclaration =
        mapBoth (Fault.relocate f) id ((first :: words).mapM readDeclaration) := by
      rw [mapM_mapBoth (readDeclaration_carry f lead), List.map_id_fun]
    exact hdeclarations

theorem readUser_carry (line : LogicalLine) :
    readUser (line.carry f lead) = mapBoth (Fault.relocate f) id (readUser line) := by
  obtain ⟨keyword, position, words, raw⟩ := line
  rcases words with _ | ⟨first, _ | ⟨second, words⟩⟩ <;> rfl

theorem readVolume_carry (line : LogicalLine) :
    readVolume escape (line.carry f lead) =
      mapBoth (Fault.relocate f) id (readVolume escape line) := by
  obtain ⟨keyword, position, words, raw⟩ := line
  cases words with
  | nil => rfl
  | cons first words =>
    have hpaths := @readPathList_carry f lead escape .volume
      ⟨keyword, position, first :: words, raw⟩ first (first :: words)
    exact hpaths

theorem readRetries_carry (text : Option String) :
    readRetries (line.carry f lead) text =
      mapBoth (Fault.relocate f) id (readRetries line text) := by
  cases text with
  | none => rfl
  | some text =>
    rw [readRetries, readRetries]
    cases Text.readInt? text <;> rfl

theorem readHealthcheck_carry (line : LogicalLine) :
    readHealthcheck escape (line.carry f lead) =
      mapBoth (Fault.relocate f) id (readHealthcheck escape line) := by
  unfold readHealthcheck
  rw [words_carry, readFlags_carry]
  refine mapBoth_bind ?_
  rintro ⟨flags, words⟩
  cases words with
  | nil => rfl
  | cons mode rest =>
    dsimp only [Prod.map]
    rw [readRetries_carry]
    refine mapBoth_bind fun retries => ?_
    dsimp only [id]
    rw [mapBoth_ite, mapBoth_ite]
    refine ite_congr rfl (fun _ => ?_) fun _ => ite_congr rfl (fun _ => ?_) fun _ => rfl
    · rw [readCommand_carry]
      cases readCommand .healthcheck line rest <;> rfl
    · cases rest <;> rfl

theorem readSignal_carry (line : LogicalLine) :
    readSignal (line.carry f lead) = mapBoth (Fault.relocate f) id (readSignal line) := by
  obtain ⟨keyword, position, words, raw⟩ := line
  rcases words with _ | ⟨first, _ | ⟨second, words⟩⟩ <;> rfl

theorem readText_carry (what : String) (line : LogicalLine) :
    readText kind what (line.carry f lead) =
      mapBoth (Fault.relocate f) id (readText kind what line) := by
  obtain ⟨keyword, position, words, raw⟩ := line
  cases words with
  | nil => rfl
  | cons w words => exact congrArg Except.ok (textFrom_carry f lead ⟨_, _, _, _⟩ w)

theorem readPorts_carry (line : LogicalLine) :
    readPorts (line.carry f lead) = mapBoth (Fault.relocate f) id (readPorts line) := by
  obtain ⟨keyword, position, words, raw⟩ := line
  cases words with
  | nil => rfl
  | cons first words => exact congrArg Except.ok (map_text_carry f lead (first :: words))

/-- An instruction is read the same elsewhere. -/
theorem readKind_carry (escape : Char) (line : LogicalLine) (kind : Kind) :
    readKind escape (line.carry f lead) kind =
      mapBoth (Fault.relocate f) (Body.relocate f) (readKind escape line kind) := by
  cases kind <;> rw [readKind, readKind]
  case base => rw [readBase_carry]; exact mapBoth_map fun _ => rfl
  case run => rw [readRun_carry]; exact mapBoth_map fun _ => rfl
  case copy => rw [readCopy_carry]; exact mapBoth_map fun _ => rfl
  case add => rw [readAdd_carry]; exact mapBoth_map fun _ => rfl
  case env => rw [words_carry, readPairs_carry]; exact mapBoth_map fun _ => rfl
  case arg => rw [readArg_carry]; exact mapBoth_map fun _ => rfl
  case workdir => rw [readText_carry]; exact mapBoth_map fun _ => rfl
  case user => rw [readUser_carry]; exact mapBoth_map fun _ => rfl
  case expose => rw [readPorts_carry]; exact mapBoth_map fun _ => rfl
  case volume => rw [readVolume_carry]; exact mapBoth_map fun _ => rfl
  case label => rw [words_carry, readPairs_carry]; exact mapBoth_map fun _ => rfl
  case healthcheck => rw [readHealthcheck_carry]; exact mapBoth_map fun _ => rfl
  case entrypoint => rw [words_carry, readCommand_carry]; exact mapBoth_map fun _ => rfl
  case cmd => rw [words_carry, readCommand_carry]; exact mapBoth_map fun _ => rfl
  case shell => rw [words_carry, readCommand_carry]; exact mapBoth_map fun _ => rfl
  case onbuild => rfl
  case stopsignal => rw [readSignal_carry]; exact mapBoth_map fun _ => rfl
  case maintainer => rw [readText_carry]; exact mapBoth_map fun _ => rfl

theorem readBody_carry (escape : Char) (raw keyword : String) (position : Position)
    (words : List Word) :
    readBody escape (lead ++ raw) keyword (f position) (words.map (Word.carry f lead)) =
      mapBoth (Fault.relocate f) (Body.relocate f)
        (readBody escape raw keyword position words) := by
  induction words generalizing keyword position with
  | nil =>
    rw [List.map_nil, readBody, readBody]
    cases Kind.ofKeyword? keyword with
    | none => rfl
    | some kind => exact readKind_carry f lead escape ⟨keyword, position, [], raw⟩ kind
  | cons head tail ih =>
    have htext := textFrom_carry f lead ⟨keyword, position, head :: tail, raw⟩ head
    rw [List.map_cons, readBody, readBody]
    cases Kind.ofKeyword? keyword with
    | none => rfl
    | some kind =>
      have hkind := readKind_carry f lead escape ⟨keyword, position, head :: tail, raw⟩ kind
      rw [LogicalLine.carry, List.map_cons] at htext hkind
      cases kind with
      | onbuild =>
        dsimp only at htext ⊢
        rw [htext, show (head.carry f lead).position = f head.position from rfl,
          show (head.carry f lead).text = head.text from rfl, ih]
        exact mapBoth_map fun _ => rfl
      | _ => exact hkind

theorem relocate_eq_carry (line : LogicalLine) : line.relocate f = line.carry f "" := by
  rw [LogicalLine.carry, String.empty_append]
  rfl

theorem ofLine_relocate (escape : Char) (line : LogicalLine) :
    ofLine escape (line.relocate f) =
      mapBoth (Fault.relocate f) (Instruction.relocate f) (ofLine escape line) := by
  have hbody := readBody_carry f "" escape line.raw line.keyword line.position line.words
  rw [relocate_eq_carry]
  unfold ofLine
  show _ <$> readBody escape ("" ++ line.raw) line.keyword (f line.position)
    (line.words.map (Word.carry f "")) = _
  rw [hbody]
  exact mapBoth_map fun _ => rfl

end Instruction

/-! ### Documents -/

def Stage.relocate (s : Stage) : Stage :=
  { s with
    position := f s.position
    instructions := s.instructions.map (Instruction.relocate f) }

def Document.relocate (d : Document) : Document where
  directives := d.directives.map (Prod.map id f)
  preamble := d.preamble.map (Instruction.relocate f)
  stages := d.stages.map (Stage.relocate f)
  escape := d.escape

def SourceFault.relocate : SourceFault → SourceFault
  | .lexical fault => .lexical (fault.relocate f)
  | .grammatical fault => .grammatical (fault.relocate f)
  | .overlong digits => .overlong digits

theorem SourceFault.ofLine_relocate (fault : Instruction.Fault) :
    ofLine (fault.relocate f) = (ofLine fault).relocate f := by
  obtain ⟨cause, position⟩ := fault
  cases cause <;> rfl

namespace Document

theorem instructions_relocate (escape : Char) (entries : List Entry) :
    instructions escape (entries.map (Entry.relocate f)) =
      mapBoth (SourceFault.relocate f) (List.map (Instruction.relocate f))
        (instructions escape entries) := by
  induction entries with
  | nil => rfl
  | cons entry entries ih =>
    cases entry with
    | comment | lineEnd => exact ih
    | line l =>
      rw [List.map_cons, Entry.relocate, instructions, instructions, Instruction.ofLine_relocate]
      cases Instruction.ofLine escape l with
      | error fault => exact congrArg Except.error (SourceFault.ofLine_relocate f fault)
      | ok i =>
        dsimp only [mapBoth]
        rw [ih]
        exact mapBoth_map fun _ => rfl
    | stray | broken => rfl

theorem kind_relocate (i : Instruction) : (i.relocate f).kind = i.kind := by
  obtain ⟨position, body⟩ := i
  cases body <;> rfl

theorem splitStage_relocate (instructions : List Instruction) :
    splitStage (instructions.map (Instruction.relocate f)) =
      Prod.map (List.map (Instruction.relocate f)) (List.map (Instruction.relocate f))
        (splitStage instructions) := by
  induction instructions with
  | nil => rfl
  | cons i instructions ih =>
    by_cases hkind : i.kind = .base
    · obtain ⟨position, body⟩ := i
      cases body with
      | base base => rfl
      | _ => cases hkind
    · rw [List.map_cons, splitStage_cons hkind, splitStage_cons (by rwa [kind_relocate]), ih]
      rfl

theorem stagesFrom_relocate (index : Nat) (instructions : List Instruction) :
    stagesFrom index (instructions.map (Instruction.relocate f)) =
      (stagesFrom index instructions).map (Stage.relocate f) := by
  induction instructions generalizing index with
  | nil => rfl
  | cons i instructions ih =>
    obtain ⟨position, body⟩ := i
    cases body with
    | base base =>
      have hstage : (splitStage (instructions.map (Instruction.relocate f))).1 =
          (splitStage instructions).1.map (Instruction.relocate f) := by
        rw [splitStage_relocate]
        rfl
      show ⟨index, f position, base, _⟩ :: stagesFrom (index + 1) _ = _
      rw [hstage, ih]
      rfl
    | _ => exact ih index

/-- What is read from entries elsewhere is the same elsewhere. -/
theorem ofEntries_relocate (entries : List Entry) :
    ofEntries (entries.map (Entry.relocate f)) =
      mapBoth (SourceFault.relocate f) (Document.relocate f) (ofEntries entries) := by
  have hdirectives : Entry.directives (entries.map (Entry.relocate f)) =
    (Entry.directives entries).map (Prod.map id f) := Entry.directivesFrom_relocate f false entries
  have hescape : Entry.escapeOf ((Entry.directives entries).map (Prod.map id f)) =
      Entry.escapeOf (Entry.directives entries) := by
    unfold Entry.escapeOf
    rw [List.filterMap_map]
    rfl
  unfold ofEntries
  dsimp only
  rw [hdirectives, hescape, instructions_relocate]
  refine mapBoth_map fun is => ?_
  unfold ofInstructions Document.relocate
  rw [splitStage_relocate, stagesFrom_relocate]
  rfl

end Document

end Dockerfile
