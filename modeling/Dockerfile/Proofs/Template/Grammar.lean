import Dockerfile.Proofs.Quotes

/-!
# How texts with references are written

`Reads` gives the rules by which a text becomes a template, one for each thing that can stand at its
front. Every text is read by them (`reads_read`). A text refers to the same variables whether its
quotes are kept or removed (`names_read_text`). One that refers to none is a row of characters, and
where its quotes and escapes are kept it is expanded to itself (`expand_of_no_references`).
-/

namespace Dockerfile.Template

/-! ### The parts of a reference -/

variable {rest cs body behind : List Char} {escape c : Char} {quote : Quote} {mode : Mode}

theorem eq_of_splitBrace? {depth : Nat} (h : splitBrace? depth cs = some (body, rest)) :
    cs = body ++ '\x7d' :: rest := by
  induction cs generalizing depth body rest with
  | nil => cases h
  | cons c cs ih =>
    unfold splitBrace? at h
    have hcons : ∀ {depth' : Nat},
        (splitBrace? depth' cs).map (fun cut => (c :: cut.1, cut.2)) = some (body, rest) →
        c :: cs = body ++ '\x7d' :: rest := by
      intro depth' h
      obtain ⟨cut, hcut, heq⟩ := Option.map_eq_some_iff.1 h
      cases heq
      rw [ih hcut]
      rfl
    split at h
    · exact hcons h
    · split at h
      · rename_i hclose
        split at h
        · cases h
          rw [hclose]
          rfl
        · exact hcons h
      · exact hcons h

/-- A name without braces is cut off the text. -/
theorem eq_of_reference_name {name : List Char} (h : reference cs = .name name rest) :
    cs = name ++ rest := by
  unfold reference at h
  split at h
  · cases h
  · split at h
    · cases h
      exact List.takeWhile_append_dropWhile.symm
    · split at h
      · split at h <;> cases h
      · cases h

theorem eq_of_reference_braces (h : reference cs = .braces body rest) :
    cs = '\x7b' :: (body ++ '\x7d' :: rest) := by
  unfold reference at h
  split at h
  · cases h
  · split at h
    · cases h
    · split at h
      · rename_i hopen
        split at h
        · rename_i hsplit
          cases h
          rw [hopen, eq_of_splitBrace? hsplit]
        · cases h
      · cases h

/-- How a modifier is written, and whether an empty value counts as none. -/
def Modifier.IsWritten : Modifier → List Char → Bool → Prop
  | .default, sign, orEmpty => sign = substitution false orEmpty
  | .alternative, sign, orEmpty => sign = substitution true orEmpty
  | .required, sign, orEmpty => IsRequirement sign orEmpty

theorem exists_of_modifier? {word : List Char} {m : Modifier} {orEmpty : Bool}
    (h : modifier? cs = some (m, orEmpty, word)) :
    ∃ sign, m.IsWritten sign orEmpty ∧ cs = sign ++ word := by
  unfold modifier? at h
  split at h <;> cases h
  · exact ⟨[':', '-'], rfl, rfl⟩
  · exact ⟨[':', '+'], rfl, rfl⟩
  · exact ⟨[':', '?'], .inl ⟨rfl, rfl⟩, rfl⟩
  · exact ⟨['-'], rfl, rfl⟩
  · exact ⟨['+'], rfl, rfl⟩
  · exact ⟨['?'], .inr ⟨rfl, rfl⟩, rfl⟩

theorem Mode.dollar_of_front (h : mode.front escape quote c rest = .dollar behind) :
    c = '$' ∧ behind = rest := by
  refine ⟨?_, Mode.front_dollar h⟩
  cases mode
  · simp only [Mode.front, textFront] at h
    repeat' split at h
    all_goals first | assumption | cases h
  · simp only [Mode.front, wordFront] at h
    repeat' split at h
    all_goals first | assumption | cases h

theorem Mode.front_keep_suffix {quote' : Quote} {kept : List Char}
    (h : mode.front escape quote c rest = .keep kept quote' behind) : behind <:+ rest := by
  cases mode
  · simp only [Mode.front, textFront] at h
    grind
  · simp only [Mode.front, wordFront] at h
    grind

/-! ### The rules -/

/-- The rules by which a text whose front stands inside `quote` becomes a template. They say what
becomes of each part of the text; where a part ends is for `read` to say. -/
inductive Reads (escape : Char) : Mode → Quote → List Char → Template → Prop where
  | done {mode : Mode} {quote : Quote} : Reads escape mode quote [] .done
  | keep {mode : Mode} {quote quote' : Quote} {c : Char} {rest kept behind : List Char}
    {t : Template} (hfront : mode.front escape quote c rest = .keep kept quote' behind)
    (hbehind : Reads escape mode quote' behind t) :
    Reads escape mode quote (c :: rest) (chars kept t)
  /-- A dollar sign that starts no reference. -/
  | dollar {mode : Mode} {quote : Quote} {behind : List Char} {t : Template}
    (hbehind : Reads escape mode quote behind t) :
    Reads escape mode quote ('$' :: behind) (.char '$' t)
  /-- A brace that is never closed. -/
  | unclosed {mode : Mode} {quote : Quote} {behind : List Char} :
    Reads escape mode quote ('$' :: behind) (chars ('$' :: behind) .done)
  | bare {mode : Mode} {quote : Quote} {name behind : List Char} {t : Template}
    (hbehind : Reads escape mode quote behind t) :
    Reads escape mode quote ('$' :: (name ++ behind)) (.plain (String.ofList name) t)
  | plain {mode : Mode} {quote : Quote} {name behind : List Char} {t : Template}
    (hname : name.all isNameChar) (hbehind : Reads escape mode quote behind t) :
    Reads escape mode quote ('$' :: '\x7b' :: (name ++ '\x7d' :: behind))
      (.plain (String.ofList name) t)
  | default {mode : Mode} {quote : Quote} {name word behind : List Char} {orEmpty : Bool}
    {t : Template} (hname : name.all isNameChar)
    (hword : Reads escape .word .none word (read .word escape .none word))
    (hbehind : Reads escape mode quote behind t) :
    Reads escape mode quote
      ('$' :: '\x7b' :: (name ++ (substitution false orEmpty ++ word) ++ '\x7d' :: behind))
      (.default (String.ofList name) orEmpty (read .word escape .none word) t)
  | alternative {mode : Mode} {quote : Quote} {name word behind : List Char} {orEmpty : Bool}
    {t : Template} (hname : name.all isNameChar)
    (hword : Reads escape .word .none word (read .word escape .none word))
    (hbehind : Reads escape mode quote behind t) :
    Reads escape mode quote
      ('$' :: '\x7b' :: (name ++ (substitution true orEmpty ++ word) ++ '\x7d' :: behind))
      (.alternative (String.ofList name) orEmpty (read .word escape .none word) t)
  | required {mode : Mode} {quote : Quote} {name sign word behind : List Char} {orEmpty : Bool}
    {t : Template} (hname : name.all isNameChar) (hsign : IsRequirement sign orEmpty)
    (hbehind : Reads escape mode quote behind t) :
    Reads escape mode quote ('$' :: '\x7b' :: (name ++ (sign ++ word) ++ '\x7d' :: behind))
      (.required (String.ofList name) orEmpty (String.ofList (unquoteFrom escape .none word)) t)
  /-- Braces with a modifier that is not known. -/
  | unknown {mode : Mode} {quote : Quote} {body behind : List Char} {t : Template}
    (hbehind : Reads escape mode quote behind t) :
    Reads escape mode quote ('$' :: '\x7b' :: (body ++ '\x7d' :: behind))
      (chars ('$' :: '\x7b' :: body ++ ['\x7d']) t)

theorem reads_braced {t : Template} (hwords : ∀ word, word.length < body.length →
      Reads escape .word .none word (read .word escape .none word))
    (hbehind : Reads escape mode quote behind t) :
    Reads escape mode quote ('$' :: '\x7b' :: (body ++ '\x7d' :: behind))
      (braced escape body t) := by
  have hname : (body.takeWhile isNameChar).all isNameChar := List.all_takeWhile
  have hbody : body.takeWhile isNameChar ++ body.dropWhile isNameChar = body :=
    List.takeWhile_append_dropWhile
  unfold braced
  dsimp only
  -- The text between the braces is its name and what stands behind it, and nothing else counts.
  generalize body.takeWhile isNameChar = name at hname hbody ⊢
  generalize body.dropWhile isNameChar = tail at hbody ⊢
  subst hbody
  split
  · rename_i hnone
    rw [hnone, List.append_nil]
    exact .plain hname hbehind
  · have hword : ∀ {m : Modifier} {orEmpty : Bool} {word : List Char},
        modifier? tail = some (m, orEmpty, word) →
        Reads escape .word .none word (read .word escape .none word) := by
      intro m orEmpty word hm
      have := modifier?_length hm
      exact hwords word (by rw [List.length_append]; omega)
    split
    · rename_i hm
      obtain ⟨sign, rfl, rfl⟩ := exists_of_modifier? hm
      exact .default hname (hword hm) hbehind
    · rename_i hm
      obtain ⟨sign, rfl, rfl⟩ := exists_of_modifier? hm
      exact .alternative hname (hword hm) hbehind
    · rename_i hm
      obtain ⟨sign, hsign, rfl⟩ := exists_of_modifier? hm
      exact .required hname hsign hbehind
    · exact .unknown hbehind

/-- Every text is read by the rules. -/
theorem reads_read (escape : Char) (mode : Mode) (quote : Quote) (cs : List Char) :
    Reads escape mode quote cs (read mode escape quote cs) := by
  -- On the length: the word of a substitution is no tail of the text, but it is shorter too.
  induction hn : cs.length using Nat.strongRecOn generalizing mode quote cs with
  | ind n ih =>
    subst hn
    cases cs with
    | nil =>
      rw [read_nil]
      exact .done
    | cons c rest =>
      rw [read_cons]
      cases hfront : mode.front escape quote c rest with
      | keep kept quote' behind =>
        have := Mode.front_keep_length hfront
        exact .keep hfront (ih _ (by simp only [List.length_cons]; omega) mode quote' behind rfl)
      | dollar behind =>
        obtain ⟨rfl, rfl⟩ := Mode.dollar_of_front hfront
        dsimp only
        cases hr : reference behind with
        | none => exact .dollar (ih _ (by simp) mode quote behind rfl)
        | unclosed => exact .unclosed
        | name name rest =>
          have := reference_name_length hr
          rw [eq_of_reference_name hr]
          exact .bare (ih _ (by simp only [List.length_cons]; omega) mode quote rest rfl)
        | braces body rest =>
          have := reference_braces_length hr
          rw [eq_of_reference_braces hr]
          refine reads_braced (fun word hword => ?_) ?_
          · exact ih _ (by simp only [List.length_cons]; omega) .word .none word rfl
          · exact ih _ (by simp only [List.length_cons]; omega) mode quote rest rfl

/-! ### The two readings of a text -/

theorem names_chars (cs : List Char) (rest : Template) : (chars cs rest).names = rest.names := by
  induction cs with
  | nil => rfl
  | cons c cs ih => exact ih

theorem names_braced {rest rest' : Template} (h : rest.names = rest'.names) :
    (braced escape body rest).names = (braced escape body rest').names := by
  unfold braced
  dsimp only
  split
  · rw [names, names, h]
  · split
    · rw [names, names, h]
    · rw [names, names, h]
    · rw [names, names, h]
    · rw [names_chars, names_chars, h]

/-- Both readings of a text go on alike behind its front, and both stop at the same dollar signs. -/
theorem front_modes (escape : Char) (quote : Quote) (c : Char) (rest : List Char) :
    (∃ shown shown' quote' behind, textFront escape quote c rest = .keep shown quote' behind ∧
      wordFront escape quote c rest = .keep shown' quote' behind) ∨
      textFront escape quote c rest = .dollar rest ∧
        wordFront escape quote c rest = .dollar rest := by
  unfold textFront wordFront
  by_cases hsingle : quote = .single
  · rw [if_pos hsingle, if_pos hsingle]
    left
    split
    · exact ⟨_, _, _, _, rfl, rfl⟩
    · exact ⟨_, _, _, _, rfl, rfl⟩
  · rw [if_neg hsingle, if_neg hsingle]
    split
    · left
      split
      · exact ⟨_, _, _, _, rfl, rfl⟩
      · exact ⟨_, _, _, _, rfl, rfl⟩
    · cases quote with
      | single => exact absurd rfl hsingle
      | none =>
        by_cases hdouble : c = '"'
        · exact .inl ⟨['"'], [], .double, rest, by simp [hdouble], by simp [hdouble]⟩
        · by_cases hquote : c = '\''
          · exact .inl ⟨['\''], [], .single, rest, by simp [hquote], by simp [hquote]⟩
          · by_cases hdollar : c = '$'
            · right; simp [hdollar]
            · exact .inl ⟨[c], [c], .none, rest, by simp [*], by simp [*]⟩
      | double =>
        by_cases hdouble : c = '"'
        · exact .inl ⟨['"'], [], .none, rest, by simp [hdouble], by simp [hdouble]⟩
        · by_cases hquote : c = '\''
          · exact .inl ⟨['\''], ['\''], .double, rest, by simp [hquote], by simp [hquote]⟩
          · by_cases hdollar : c = '$'
            · right; simp [hdollar]
            · exact .inl ⟨[c], [c], .double, rest, by simp [*], by simp [*]⟩

/-- A text refers to the same variables whether its quotes are kept or removed. -/
theorem names_read_text (escape : Char) (quote : Quote) (cs : List Char) :
    (read .text escape quote cs).names = (read .word escape quote cs).names := by
  induction hn : cs.length using Nat.strongRecOn generalizing quote cs with
  | ind n ih =>
    subst hn
    cases cs with
    | nil => rw [read_nil, read_nil]
    | cons c rest =>
      rw [read_cons, read_cons]
      have htext : Mode.text.front escape quote c rest = textFront escape quote c rest := rfl
      have hword : Mode.word.front escape quote c rest = wordFront escape quote c rest := rfl
      rw [htext, hword]
      rcases front_modes escape quote c rest with
        ⟨shown, shown', quote', behind, ht, hw⟩ | ⟨ht, hw⟩
      · rw [ht, hw]
        dsimp only
        rw [names_chars, names_chars]
        have := textFront_keep_length ht
        exact ih _ (by simp only [List.length_cons]; omega) quote' behind rfl
      · rw [ht, hw]
        dsimp only
        cases hr : reference rest with
        | none =>
          dsimp only
          rw [names, names]
          exact ih _ (by simp) quote rest rfl
        | unclosed => rfl
        | name name behind =>
          dsimp only
          have := reference_name_length hr
          rw [names, names, ih _ (by simp only [List.length_cons]; omega) quote behind rfl]
        | braces body behind =>
          dsimp only
          have := reference_braces_length hr
          exact names_braced (ih _ (by simp only [List.length_cons]; omega) quote behind rfl)

/-! ### Texts without references -/

theorem expand_chars (lookup : Lookup) (strict : Bool) (cs : List Char) :
    (chars cs .done).expand lookup strict = .ok cs := by
  induction cs with
  | nil => rfl
  | cons c cs ih =>
    show (Expansion.ok [c]).append ((chars cs .done).expand lookup strict) = .ok (c :: cs)
    rw [ih]
    rfl

/-- Where quotes and escapes are kept, nothing is lost at the front of a text. -/
theorem eq_of_textFront_keep {quote' : Quote} {kept : List Char}
    (h : textFront escape quote c rest = .keep kept quote' behind) :
    kept ++ behind = c :: rest := by
  unfold textFront at h
  split at h
  · cases h
    rfl
  · split at h
    · rename_i hescape
      split at hescape
      · subst hescape
        cases h
        rfl
      · cases hescape
    · repeat' split at h
      all_goals cases h
      all_goals rfl

theorem Reads.eq_chars {t : Template} (h : Reads escape mode quote cs t) (hmode : mode = .text)
    (hnames : t.names = []) : t = chars cs .done := by
  induction h with
  | done => rfl
  | keep hfront _ ih =>
    subst hmode
    rw [names_chars] at hnames
    rw [← eq_of_textFront_keep hfront, chars_append, ← ih rfl hnames]
  | dollar _ ih =>
    rw [ih hmode hnames]
    rfl
  | unclosed => rfl
  | bare | plain | default | alternative | required => cases hnames
  | @unknown _ _ body behind t _ ih =>
    rw [names_chars] at hnames
    have htext : '$' :: '\x7b' :: (body ++ '\x7d' :: behind) =
        '$' :: '\x7b' :: body ++ ['\x7d'] ++ behind := by simp
    rw [htext, ih hmode hnames]
    exact (chars_append _ behind .done).symm

/-- A text that refers to no variable is expanded to itself whatever the variables are: its quotes,
escapes, lone dollar signs and substitutions that are not known or not closed stay as they are, and
nothing is missing. -/
theorem expand_of_no_references {escape : Char} {text : String} (h : references escape text = [])
    (lookup : Lookup) (strict : Bool) :
    (ofText escape text).expand lookup strict = .ok text.toList := by
  have hchars : ofText escape text = chars text.toList .done :=
    (reads_read escape .text .none text.toList).eq_chars rfl h
  rw [hchars, expand_chars]

/-- Quotes of both kinds, an escape before a dollar sign, a positional parameter, a lone dollar
sign, a substitution that is not known and one that is not closed. -/
theorem expand_of_no_references_mixed :
    references '\\' "echo '$A' \\$B \"x\" $1 $ ${C/x/y} $\x7bD" = [] ∧
      ∀ lookup strict,
        (ofText '\\' "echo '$A' \\$B \"x\" $1 $ ${C/x/y} $\x7bD").expand lookup strict =
          .ok "echo '$A' \\$B \"x\" $1 $ ${C/x/y} $\x7bD".toList :=
  have h : references '\\' "echo '$A' \\$B \"x\" $1 $ ${C/x/y} $\x7bD" = [] := by decide +kernel
  ⟨h, expand_of_no_references h⟩

end Dockerfile.Template
