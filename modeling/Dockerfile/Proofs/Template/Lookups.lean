import Dockerfile.Proofs.Template.Grammar
import Dockerfile.Proofs.Template.Values

/-!
# Lookups

The variables that an expansion looks up. `expandM` is the expansion with a lookup that may do more
than answer; run with one that notes the names it is asked for, it gives the expansion itself and
the names (`run_noting`). The references of a text are the names of the run in which nothing has a
value (`names_eq_asked`). Other runs look up no more than these, except in the words of `+`
substitutions: such a word counts only when its variable has a value (`mem_references_of_asked`).
-/

namespace Dockerfile.Template

/-! ### Expansions that note what they look up -/

section Run

variable {m : Type → Type} [Monad m]

/-- One expansion and then another, which is not begun if the first one stopped. -/
def Expansion.andThen (first second : m Expansion) : m Expansion := do
  let e ← first
  if e.result.isOk then e.append <$> second else pure e

/-- Expands a template with a lookup that may do more than answer. -/
def expandM (ask : String → m (Option String)) (strict : Bool) : Template → m Expansion
  | .done => pure (.ok [])
  | .char c rest => Expansion.andThen (pure (.ok [c])) (rest.expandM ask strict)
  | .plain name rest => do
    let value ← ask name
    Expansion.andThen (pure (.ofPlain name value)) (rest.expandM ask strict)
  | .default name orEmpty word rest => do
    let value ← ask name
    Expansion.andThen
      (if isAbsent orEmpty value then word.expandM ask strict else pure (.ofValue value))
      (rest.expandM ask strict)
  | .alternative name orEmpty word rest => do
    let value ← ask name
    Expansion.andThen
      (if isAbsent orEmpty value then pure (.ok []) else word.expandM ask strict)
      (rest.expandM ask strict)
  | .required name orEmpty message rest => do
    let value ← ask name
    Expansion.andThen
      (pure (if isAbsent orEmpty value then .ofRequired strict name message else .ofValue value))
      (rest.expandM ask strict)

end Run

/-- A lookup that notes the names it is asked for. -/
def noting (lookup : Lookup) (name : String) : StateM (List String) (Option String) := do
  modify (· ++ [name])
  return lookup name

/-- The names that the expansion of a template looks up, in order. -/
def asked (lookup : Lookup) (strict : Bool) (t : Template) : List String :=
  ((t.expandM (noting lookup) strict).run []).2

/-- The names behind an expansion, none if it stopped. -/
def Expansion.before (e : Expansion) (names : List String) : List String :=
  if e.result.isOk then names else []

/-- A run gives an expansion, and notes some names. -/
def Notes (action : StateM (List String) Expansion) (e : Expansion) (names : List String) : Prop :=
  ∀ log, action.run log = (e, log ++ names)

theorem notes_pure (e : Expansion) : Notes (pure e) e [] := by
  intro log
  rw [List.append_nil]
  rfl

variable {lookup : Lookup} {name : String} {names : List String} {e : Expansion}

theorem notes_noting {next : Option String → StateM (List String) Expansion}
    (h : Notes (next (lookup name)) e names) :
    Notes (noting lookup name >>= next) e (name :: names) := by
  intro log
  rw [List.append_cons]
  exact h (log ++ [name])

theorem Notes.andThen {first second : StateM (List String) Expansion} {e' : Expansion}
    {names' : List String} (h : Notes first e names) (h' : Notes second e' names') :
    Notes (Expansion.andThen first second) (e.append e') (names ++ e.before names') := by
  intro log
  show (fun p : Expansion × List String =>
    (if p.1.result.isOk then p.1.append <$> second else pure p.1 : StateM _ _).run p.2)
      (first.run log) = _
  rw [h log, ← List.append_assoc]
  obtain ⟨missing, result⟩ := e
  cases result with
  | error fault => exact congrArg _ (List.append_nil _).symm
  | ok cs =>
    show ((⟨missing, .ok cs⟩ : Expansion).append (second.run (log ++ names)).1,
      (second.run (log ++ names)).2) = _
    rw [h' (log ++ names)]
    rfl

/-- The names that an expansion looks up, by recursion on the template. -/
def sought (lookup : Lookup) (strict : Bool) : Template → List String
  | .done => []
  | .char _ rest => rest.sought lookup strict
  | .plain name rest => name :: rest.sought lookup strict
  | .default name orEmpty word rest =>
    name :: if isAbsent orEmpty (lookup name) then
      word.sought lookup strict ++ (word.expand lookup strict).before (rest.sought lookup strict)
    else rest.sought lookup strict
  | .alternative name orEmpty word rest =>
    name :: if isAbsent orEmpty (lookup name) then rest.sought lookup strict
    else
      word.sought lookup strict ++ (word.expand lookup strict).before (rest.sought lookup strict)
  | .required name orEmpty _ rest =>
    name :: if isAbsent orEmpty (lookup name) && strict then [] else rest.sought lookup strict

theorem notes_expandM (lookup : Lookup) (strict : Bool) (t : Template) :
    Notes (t.expandM (noting lookup) strict) (t.expand lookup strict) (t.sought lookup strict) := by
  induction t with
  | done => exact notes_pure _
  | char c rest ih => exact (notes_pure _).andThen ih
  | plain name rest ih =>
    refine notes_noting ?_
    -- With a value or without, a plain reference does not stop the expansion.
    have h := (notes_pure (.ofPlain name (lookup name))).andThen ih
    revert h
    rw [expand]
    cases lookup name <;> exact id
  | default name orEmpty word rest ihw ih =>
    refine notes_noting ?_
    rw [expand]
    split
    · exact ihw.andThen ih
    · exact (notes_pure _).andThen ih
  | alternative name orEmpty word rest ihw ih =>
    refine notes_noting ?_
    rw [expand]
    split
    · exact (notes_pure _).andThen ih
    · exact ihw.andThen ih
  | required name orEmpty message rest ih =>
    refine notes_noting ?_
    rw [expand]
    -- This one stops it if it is strict and there is no value.
    have h := (notes_pure (if isAbsent orEmpty (lookup name)
      then .ofRequired strict name message else .ofValue (lookup name))).andThen ih
    revert h
    cases isAbsent orEmpty (lookup name) with
    | false => exact id
    | true => cases strict <;> exact id

theorem asked_eq_sought (lookup : Lookup) (strict : Bool) (t : Template) :
    t.asked lookup strict = t.sought lookup strict := by
  rw [asked, notes_expandM lookup strict t, List.nil_append]

/-- An expansion that notes what it looks up is the expansion, with the names in order. -/
theorem run_noting (lookup : Lookup) (strict : Bool) (t : Template) :
    (t.expandM (noting lookup) strict).run [] =
      (t.expand lookup strict, t.asked lookup strict) := by
  rw [asked, notes_expandM lookup strict t []]

/-- The references of a text are looked up when nothing has a value. -/
theorem names_eq_asked (t : Template) : t.names = t.asked (fun _ => none) false := by
  rw [asked_eq_sought]
  induction t with
  | done => rfl
  | char c rest ih => exact ih
  | plain name rest ih => rw [names, sought, ih]
  | default name orEmpty word rest ihw ih =>
    have hlenient := result_expand_lenient (fun _ => none) word
    simp only [names, sought, isAbsent, if_true, Expansion.before, hlenient, ← ihw, ← ih,
      List.cons_append, Except.isOk, Except.toBool]
  | alternative name orEmpty word rest ihw ih =>
    simp only [names, sought, isAbsent, if_true, ← ih]
  | required name orEmpty message rest ih =>
    simp only [names, sought, Bool.and_false, Bool.false_eq_true, if_false, ← ih]

/-! ### The words of alternatives -/

/-- The words that an expansion goes into because a variable has a value. -/
def chosen (lookup : Lookup) : Template → List Template
  | .done => []
  | .char _ rest => rest.chosen lookup
  | .plain _ rest => rest.chosen lookup
  | .default name orEmpty word rest =>
    (if isAbsent orEmpty (lookup name) then word.chosen lookup else []) ++ rest.chosen lookup
  | .alternative name orEmpty word rest =>
    (if isAbsent orEmpty (lookup name) then [] else word :: word.chosen lookup) ++
      rest.chosen lookup
  | .required _ _ _ rest => rest.chosen lookup

theorem mem_of_mem_before (h : name ∈ e.before names) : name ∈ names := by
  unfold Expansion.before at h
  split at h
  · exact h
  · cases h

/-- What an expansion looks up is a reference, or one of the word of an alternative. -/
theorem mem_of_asked {strict : Bool} {t : Template} (h : name ∈ t.asked lookup strict) :
    name ∈ t.names ∨ ∃ word ∈ t.chosen lookup, name ∈ word.names := by
  rw [asked_eq_sought] at h
  induction t with
  | done => cases h
  | char c rest ih => exact ih h
  | plain other rest ih =>
    rcases List.mem_cons.1 h with rfl | h
    · exact .inl List.mem_cons_self
    · exact (ih h).imp_left (List.mem_cons_of_mem _)
  | default other orEmpty word rest ihw ih =>
    simp only [sought, List.mem_cons] at h
    simp only [names, chosen, List.cons_append, List.mem_cons, List.mem_append]
    grind [mem_of_mem_before]
  | alternative other orEmpty word rest ihw ih =>
    simp only [sought, List.mem_cons] at h
    simp only [names, chosen, List.mem_cons, List.mem_append]
    grind [mem_of_mem_before]
  | required other orEmpty message rest ih =>
    rcases List.mem_cons.1 h with rfl | h
    · exact .inl List.mem_cons_self
    · split at h
      · cases h
      · exact (ih h).imp_left (List.mem_cons_of_mem _)

/-- Is `word` the word of a `+` substitution in a text, whose variable has a value? -/
def IsAlternative (lookup : Lookup) (cs word : List Char) : Prop :=
  ∃ (name : List Char) (orEmpty : Bool), name.all isNameChar ∧
    isAbsent orEmpty (lookup (String.ofList name)) = false ∧
    '$' :: '\x7b' :: (name ++ (substitution true orEmpty ++ word) ++ ['\x7d']) <:+: cs

theorem IsAlternative.mono {cs ds word : List Char} (h : IsAlternative lookup cs word)
    (hwhole : cs <:+: ds) : IsAlternative lookup ds word := by
  obtain ⟨name, orEmpty, hname, hset, hword⟩ := h
  exact ⟨name, orEmpty, hname, hset, hword.trans hwhole⟩

theorem chosen_chars (lookup : Lookup) (cs : List Char) (rest : Template) :
    (chars cs rest).chosen lookup = rest.chosen lookup := by
  induction cs with
  | nil => rfl
  | cons c cs ih => exact ih

/-- A word that an expansion goes into because a variable has a value is that of a `+` substitution
in the text. -/
theorem Reads.exists_alternative {escape : Char} {mode : Mode} {quote : Quote} {cs : List Char}
    {t : Template} (h : Reads escape mode quote cs t) {w : Template} (hw : w ∈ t.chosen lookup) :
    ∃ word, IsAlternative lookup cs word ∧ w = read .word escape .none word := by
  -- What stands behind the front of a text is a part of it, and so is the word of a substitution.
  have hpart : ∀ {part whole : List Char}, part <:+: whole →
      (∃ word, IsAlternative lookup part word ∧ w = read .word escape .none word) →
      ∃ word, IsAlternative lookup whole word ∧ w = read .word escape .none word := by
    rintro part whole hwhole ⟨word, hword, rfl⟩
    exact ⟨word, hword.mono hwhole, rfl⟩
  induction h with
  | done => cases hw
  | keep hfront _ ih =>
    rw [chosen_chars] at hw
    exact hpart ((Mode.front_keep_suffix hfront).trans (List.suffix_cons _ _)).isInfix (ih hw)
  | dollar _ ih => exact hpart (List.suffix_cons _ _).isInfix (ih hw)
  | unclosed =>
    rw [chosen_chars] at hw
    cases hw
  | @bare _ _ name behind _ _ ih => exact hpart ⟨'$' :: name, [], by simp⟩ (ih hw)
  | @plain _ _ name behind _ _ _ ih =>
    exact hpart ⟨'$' :: '\x7b' :: (name ++ ['\x7d']), [], by simp⟩ (ih hw)
  | @default _ _ name word behind orEmpty _ _ _ _ ihw ih =>
    rcases List.mem_append.1 hw with hw | hw
    · split at hw
      · exact hpart ⟨'$' :: '\x7b' :: (name ++ substitution false orEmpty), '\x7d' :: behind,
          by simp⟩ (ihw hw)
      · cases hw
    · exact hpart ⟨'$' :: '\x7b' :: (name ++ (substitution false orEmpty ++ word) ++ ['\x7d']), [],
        by simp⟩ (ih hw)
  | @alternative _ _ name word behind orEmpty _ hname _ _ ihw ih =>
    rcases List.mem_append.1 hw with hw | hw
    · split at hw
      · cases hw
      · rename_i hset
        rcases List.mem_cons.1 hw with rfl | hw
        · exact ⟨word, ⟨name, orEmpty, hname, eq_false_of_ne_true hset, [], behind,
            by simp⟩, rfl⟩
        · exact hpart ⟨'$' :: '\x7b' :: (name ++ substitution true orEmpty), '\x7d' :: behind,
            by simp⟩ (ihw hw)
    · exact hpart ⟨'$' :: '\x7b' :: (name ++ (substitution true orEmpty ++ word) ++ ['\x7d']), [],
        by simp⟩ (ih hw)
  | @required _ _ name sign word behind _ _ _ _ _ ih =>
    exact hpart ⟨'$' :: '\x7b' :: (name ++ (sign ++ word) ++ ['\x7d']), [], by simp⟩ (ih hw)
  | @unknown _ _ body behind _ _ ih =>
    rw [chosen_chars] at hw
    exact hpart ⟨'$' :: '\x7b' :: (body ++ ['\x7d']), [], by simp⟩ (ih hw)

/-- Does a name stand in the word of a `+` substitution in a text, whose variable has a value? -/
def IsHidden (escape : Char) (lookup : Lookup) (text name : String) : Prop :=
  ∃ word, IsAlternative lookup text.toList word ∧ name ∈ references escape (String.ofList word)

/-- What the expansion of a text looks up is a reference of the text, or hidden in it. -/
theorem mem_references_of_asked {mode : Mode} {escape : Char} {strict : Bool} {text : String}
    (h : name ∈ (read mode escape .none text.toList).asked lookup strict) :
    name ∈ references escape text ∨ IsHidden escape lookup text name := by
  have hnames : (read mode escape .none text.toList).names = references escape text := by
    cases mode with
    | text => rfl
    | word => exact (names_read_text escape .none text.toList).symm
  rw [← hnames]
  refine (mem_of_asked h).imp_right ?_
  rintro ⟨w, hw, hname⟩
  obtain ⟨word, hword, rfl⟩ := (reads_read escape mode .none text.toList).exists_alternative hw
  refine ⟨word, hword, ?_⟩
  rwa [references, ofText, String.toList_ofList, names_read_text]

end Dockerfile.Template
