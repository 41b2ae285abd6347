import Dockerfile.Proofs.Template

/-!
# Protected dollar signs

A dollar sign between single quotes or behind an escape character starts no reference, wherever it
stands in a word: `Sheltered` says so by the rules for quotes, also within the word of a modifier,
and gives the rest of the template as a `Hole`. An argument that is cut out of the word outside
quotes (`Cut`) then has the dollar sign and what follows it as they are, whatever the variables are
(`read_sheltered`), and it mentions what the hole mentions (`mentions_fill`).
-/

namespace Dockerfile.Template

/-! ### Characters that stand for themselves -/

/-- A character that stands for itself outside single quotes: no quote, no dollar sign and not the
escape character. -/
def isPlain (escape c : Char) : Bool := !(c = '\'' || c = '"' || c = '$' || c = escape)

variable {escape : Char} {text : List Char} {quote : Quote}

theorem isPlain_iff {c : Char} :
    isPlain escape c ↔ ((c ≠ '\'' ∧ c ≠ '"') ∧ c ≠ '$') ∧ c ≠ escape := by
  simp [isPlain]

theorem read_plain (hquote : quote ≠ .single) (h : text.all (isPlain escape)) (after : List Char) :
    read .word escape quote (text ++ after) = chars text (read .word escape quote after) := by
  induction text with
  | nil => rfl
  | cons c text ih =>
    rw [List.all_cons, Bool.and_eq_true] at h
    obtain ⟨⟨⟨hsingle, hdouble⟩, hdollar⟩, hescape⟩ := isPlain_iff.1 h.1
    rw [List.cons_append, read_cons]
    simp [Mode.front, wordFront, hquote, hescape, hsingle, hdouble, hdollar, ih h.2, chars]

theorem read_single (h : '\'' ∉ text) (after : List Char) :
    read .word escape .single (text ++ after) = chars text (read .word escape .single after) := by
  induction text with
  | nil => rfl
  | cons c text ih =>
    rw [List.mem_cons, not_or] at h
    rw [List.cons_append, read_cons]
    simp [Mode.front, wordFront, Ne.symm h.1, ih h.2, chars]

theorem read_escapedDollar (hquote : quote ≠ .single) (cs : List Char) :
    read .word escape quote (escape :: '$' :: cs) = .char '$' (read .word escape quote cs) := by
  rw [read_cons]
  simp [Mode.front, wordFront, hquote, chars]

theorem quoteAfter_plain (hquote : quote ≠ .single) (h : text.all (isPlain escape))
    (after : List Char) :
    quoteAfter escape quote (text ++ after) = quoteAfter escape quote after := by
  induction text with
  | nil => rfl
  | cons c text ih =>
    rw [List.all_cons, Bool.and_eq_true] at h
    obtain ⟨⟨⟨hsingle, hdouble⟩, hdollar⟩, hescape⟩ := isPlain_iff.1 h.1
    have hnext : quote.next c = quote := by
      cases quote <;> simp_all [Quote.next]
    rw [List.cons_append, quoteAfter.eq_def]
    dsimp only
    rw [if_neg fun hc => hescape hc.2, if_neg fun hc => hdollar hc.2.1, hnext]
    exact ih h.2

/-! ### Cutting words -/

/-- The signs that words are cut at. -/
def IsSign (c : Char) : Prop := c = '=' ∨ c = ':'

/-- What may stand before an argument that is cut out of a word: nothing, or a text that ends with a
sign outside quotes. -/
inductive Cut (escape : Char) : List Char → Prop where
  | start : Cut escape []
  | sign {name : List Char} {sign : Char} (hsign : IsSign sign)
    (hname : quoteAfter escape .none name = some .none) : Cut escape (name ++ [sign])

/-- An argument has the quotes open that are open in the word that it is cut out of. -/
theorem Cut.quoteAfter_append (hescape : IsEscape escape) {front : List Char} (h : Cut escape front)
    (text : List Char) :
    quoteAfter escape .none (front ++ text) = quoteAfter escape .none text := by
  cases h with
  | start => rfl
  | @sign name sign hsign hname =>
    have hnone : (.none : Quote) ≠ .single := by decide
    have hplain : [sign].all (isPlain escape) := by
      rcases hsign with rfl | rfl <;> rcases hescape with rfl | rfl <;> decide
    have hhead : ([sign] ++ text).head? ≠ some '\x7b' := by
      rcases hsign with rfl | rfl <;> simp
    rw [List.append_assoc, Template.quoteAfter_append hname hhead, quoteAfter_plain hnone hplain]

/-! ### Braces -/

/-- A text in which every brace has its counterpart. -/
def Balanced (cs : List Char) : Prop := ∀ depth rest, splitBrace? depth (cs ++ rest) =
  (splitBrace? depth rest).map fun (body, behind) => (cs ++ body, behind)

theorem balanced_nil : Balanced [] := by
  intro depth rest
  rw [List.nil_append]
  cases splitBrace? depth rest <;> rfl

/-- A text without braces. -/
theorem balanced_of_not_mem {cs : List Char} (hopen : '\x7b' ∉ cs) (hclose : '\x7d' ∉ cs) :
    Balanced cs := by
  induction cs with
  | nil => exact balanced_nil
  | cons c cs ih =>
    rw [List.mem_cons, not_or] at hopen hclose
    intro depth rest
    have hother : splitBrace? depth (c :: (cs ++ rest)) =
        (splitBrace? depth (cs ++ rest)).map fun (body, behind) => (c :: body, behind) := by
      rw [splitBrace?.eq_def]
      dsimp only
      rw [if_neg (Ne.symm hopen.1), if_neg (Ne.symm hclose.1)]
    rw [List.cons_append, hother, ih hopen.2 hclose.2]
    cases splitBrace? depth rest <;> rfl

/-- A balanced text does not change where the braces around it close. -/
theorem splitBrace?_insert (htext : Balanced text) {depth : Nat} {a b c rest : List Char}
    (h : splitBrace? depth (a ++ b) = some (a ++ c, rest)) :
    splitBrace? depth (a ++ (text ++ b)) = some (a ++ (text ++ c), rest) := by
  induction a generalizing depth with
  | nil =>
    rw [List.nil_append, List.nil_append] at h ⊢
    rw [htext, h]
    rfl
  | cons x a ih =>
    rw [List.cons_append] at h ⊢
    unfold splitBrace? at h ⊢
    split
    · rename_i hopen
      rw [if_pos hopen] at h
      obtain ⟨⟨body, behind⟩, hbody, heq⟩ := Option.map_eq_some_iff.1 h
      cases heq
      rw [ih hbody]
      rfl
    · rename_i hopen
      rw [if_neg hopen] at h
      split
      · rename_i hclose
        rw [if_pos hclose] at h
        cases depth with
        | zero => cases h
        | succ depth =>
          obtain ⟨⟨body, behind⟩, hbody, heq⟩ := Option.map_eq_some_iff.1 h
          cases heq
          dsimp only
          rw [ih hbody]
          rfl
      · rename_i hclose
        rw [if_neg hclose] at h
        obtain ⟨⟨body, behind⟩, hbody, heq⟩ := Option.map_eq_some_iff.1 h
        cases heq
        rw [ih hbody]
        rfl

/-! ### Templates with a hole -/

/-- A template that lacks some characters, in the text itself or in the word of a modifier. -/
inductive Hole where
  | here (front rest : Template)
  /-- The word is used when the variable has a value (`whenSet`), or else when it has none. -/
  | inWord (front : Template) (name : String) (whenSet orEmpty : Bool) (word : Hole)
    (rest : Template)

namespace Hole

/-- The template with the characters in their place. -/
def fill (cs : List Char) : Hole → Template
  | here front rest => front.append (chars cs rest)
  | inWord front name whenSet orEmpty word rest =>
    front.append (if whenSet then .alternative name orEmpty (word.fill cs) rest
      else .default name orEmpty (word.fill cs) rest)

/-- The variables that the template mentions. -/
def mentions : Hole → List String
  | here front rest => front.mentions ++ rest.mentions
  | inWord front name _ _ word rest => front.mentions ++ (name :: word.mentions ++ rest.mentions)

/-- Does an expansion get to the place of the characters? -/
def isReached (lookup : Lookup) : Hole → Bool
  | here _ _ => true
  | inWord _ name whenSet orEmpty word _ =>
    isAbsent orEmpty (lookup name) ≠ whenSet && word.isReached lookup

/-- The characters mention nothing. -/
theorem mentions_fill (hole : Hole) (cs : List Char) : (hole.fill cs).mentions = hole.mentions := by
  induction hole with
  | here front rest => rw [fill, mentions_append, mentions_chars, mentions]
  | inWord front name whenSet orEmpty word rest ih =>
    rw [fill, mentions_append, mentions]
    cases whenSet <;> simp [Template.mentions, ih]

/-- The text of the template has the characters in one place if an expansion gets there, else it
does not depend on them. -/
theorem value_fill (hole : Hole) (lookup : Lookup) : ∃ before after, ∀ cs,
    (hole.fill cs).value lookup =
      before ++ (if hole.isReached lookup then cs else []) ++ after := by
  induction hole with
  | here front rest =>
    refine ⟨front.value lookup, rest.value lookup, fun cs => ?_⟩
    rw [fill, value_append, value_chars, isReached, if_pos rfl, List.append_assoc]
  | inWord front name whenSet orEmpty word rest ih =>
    obtain ⟨before, after, hword⟩ := ih
    by_cases hused : isAbsent orEmpty (lookup name) = whenSet
    · -- The word is not used: the value is that of the variable or nothing.
      refine ⟨(Hole.inWord front name whenSet orEmpty word rest |>.fill []).value lookup, [],
        fun cs => ?_⟩
      cases whenSet <;> simp [fill, isReached, hused, value_append, value]
    · refine ⟨front.value lookup ++ before, after ++ rest.value lookup, fun cs => ?_⟩
      cases whenSet <;> simp_all [fill, isReached, value_append, value]

end Hole

/-! ### Dollar signs that start no reference -/

/-- The modifiers that give another word for a variable: `whenSet` for one that has a value, or else
for one that has none. -/
def substitution (whenSet orEmpty : Bool) : List Char :=
  (if orEmpty then [':'] else []) ++ [if whenSet then '+' else '-']

/-- A dollar sign between `before` and a text with `after`, in an argument that is cut out of a word
behind `front`. It is protected by the rules for quotes in the word if the text has the property
`P`. The template of the argument is then that of the hole. -/
inductive Sheltered (escape : Char) :
    List Char → (List Char → Prop) → List Char → List Char → Hole → Prop where
  /-- It stands between single quotes, and so does the text. -/
  | quoted {front before after : List Char}
    (hbefore : quoteAfter escape .none (front ++ before) = some .single) :
    Sheltered escape front (fun text => '\'' ∉ text) before after
      (.here (read .word escape .none before) (read .word escape .single after))
  /-- It stands behind an escape character, and the text has neither quotes nor references. -/
  | escaped {front before after : List Char} {quote : Quote}
    (hbefore : quoteAfter escape .none (front ++ before) = some quote) (hquote : quote ≠ .single) :
    Sheltered escape front (fun text => text.all (isPlain escape)) (before ++ [escape]) after
      (.here (read .word escape .none before) (read .word escape quote after))
  /-- It is protected in the word of a modifier. -/
  | inWord {P : List Char → Prop} {front before name inner rest after : List Char}
    {whenSet orEmpty : Bool} {quote : Quote} {hole : Hole}
    (hbefore : quoteAfter escape .none (front ++ before) = some quote) (hquote : quote ≠ .single)
    (hname : name.all isNameChar) (hword : Sheltered escape [] P inner rest hole)
    (hclosed : splitBrace? 0 (name ++ (substitution whenSet orEmpty ++ inner) ++
      '$' :: (rest ++ ['\x7d'])) =
        some (name ++ (substitution whenSet orEmpty ++ inner) ++ '$' :: rest, [])) :
    Sheltered escape front (fun text => P text ∧ Balanced text)
      (before ++ '$' :: '\x7b' :: (name ++ (substitution whenSet orEmpty ++ inner)))
      (rest ++ '\x7d' :: after)
      (.inWord (read .word escape .none before) (String.ofList name) whenSet orEmpty hole
        (read .word escape quote after))

theorem braced_substitution {name word : List Char} {whenSet orEmpty : Bool}
    (hname : name.all isNameChar) (rest : Template) :
    braced escape (name ++ (substitution whenSet orEmpty ++ word)) rest =
      if whenSet then .alternative (String.ofList name) orEmpty (read .word escape .none word) rest
      else .default (String.ofList name) orEmpty (read .word escape .none word) rest := by
  have hall : ∀ c ∈ name, isNameChar c := by simpa using hname
  have hcolon : isNameChar ':' = false := by decide
  have hplus : isNameChar '+' = false := by decide
  have hminus : isNameChar '-' = false := by decide
  unfold braced
  rw [List.takeWhile_append_of_pos hall, List.dropWhile_append_of_pos hall]
  cases whenSet <;> cases orEmpty <;> simp [substitution, hcolon, hplus, hminus, modifier?]

/-- The template of an argument with a protected dollar sign has the sign and the text behind it as
characters, in the same place for all such texts. -/
theorem read_sheltered (hescape : IsEscape escape) {front : List Char} (hfront : Cut escape front)
    {P : List Char → Prop} {before after : List Char} {hole : Hole}
    (h : Sheltered escape front P before after hole) (htext : P text) :
    read .word escape .none (before ++ '$' :: (text ++ after)) = hole.fill ('$' :: text) := by
  induction h with
  | @quoted front before after hbefore =>
    rw [hfront.quoteAfter_append hescape] at hbefore
    have hdollar : '\'' ∉ '$' :: text := by
      rw [List.mem_cons, not_or]
      exact ⟨by decide, htext⟩
    rw [read_append (openQuote_of_quoteAfter .word hescape hbefore) (boundary_dollar _),
      ← List.cons_append, read_single hdollar]
    rfl
  | @escaped front before after quote hbefore hquote =>
    rw [hfront.quoteAfter_append hescape] at hbefore
    rw [List.append_assoc, List.singleton_append,
      read_append (openQuote_of_quoteAfter .word hescape hbefore) (hescape.boundary _),
      read_escapedDollar hquote, read_plain hquote htext]
    rfl
  | @inWord P front before name inner rest after whenSet orEmpty quote hole hbefore hquote hname
      hword hclosed ih =>
    rw [hfront.quoteAfter_append hescape] at hbefore
    -- The text does not change where the braces close, so the word is what the hole was made for.
    have hinsert : splitBrace? 0 ((name ++ (substitution whenSet orEmpty ++ inner) ++ ['$']) ++
        (text ++ (rest ++ ['\x7d']))) =
        some ((name ++ (substitution whenSet orEmpty ++ inner) ++ ['$']) ++ (text ++ rest), []) :=
      splitBrace?_insert htext.2 (by simpa using hclosed)
    have hsplit := splitBrace?_append hinsert after
    have hreference : reference ('\x7b' :: (name ++ (substitution whenSet orEmpty ++
        (inner ++ '$' :: (text ++ rest))) ++ '\x7d' :: after)) =
        .braces (name ++ (substitution whenSet orEmpty ++ (inner ++ '$' :: (text ++ rest))))
          after := by
      have hstart : isNameStart '\x7b' = false := by decide
      simp only [List.append_assoc, List.cons_append, List.nil_append] at hsplit ⊢
      simp only [reference, hstart]
      rw [hsplit]
      rfl
    have hmark : (before ++ '$' :: '\x7b' :: (name ++ (substitution whenSet orEmpty ++ inner))) ++
        '$' :: (text ++ (rest ++ '\x7d' :: after)) =
        before ++ '$' :: '\x7b' :: (name ++ (substitution whenSet orEmpty ++
          (inner ++ '$' :: (text ++ rest))) ++ '\x7d' :: after) := by
      simp
    rw [hmark, read_append (openQuote_of_quoteAfter .word hescape hbefore) (boundary_dollar _),
      read_cons, Mode.front_openDollar .word hescape hquote]
    dsimp only
    rw [hreference]
    dsimp only
    rw [braced_substitution hname, ih .start htext.1]
    rfl

end Dockerfile.Template
