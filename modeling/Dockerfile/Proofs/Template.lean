import Dockerfile.Template

/-!
# Reading templates

A text is read from left to right, and what was read does not change by what follows it, unless the
text ends within a name, an escape or braces (`read_append`). `quoteAfter` gives the rules for
quotes, and a reader has the quotes open that they say (`openQuote_of_quoteAfter`). The value of a
template depends on nothing but the variables that it mentions (`value_congr`). Its `demands` are
the references to required variables that its expansion gets to: it stops at the first of them that
is not met (`result_expand`).
-/

namespace Dockerfile.Template

/-! ### Templates one after the other -/

/-- One template and then another. -/
def append : Template → Template → Template
  | .done, t => t
  | .char c rest, t => .char c (rest.append t)
  | .plain name rest, t => .plain name (rest.append t)
  | .default name orEmpty word rest, t => .default name orEmpty word (rest.append t)
  | .alternative name orEmpty word rest, t => .alternative name orEmpty word (rest.append t)
  | .required name orEmpty message rest, t => .required name orEmpty message (rest.append t)

theorem chars_append (cs ds : List Char) (t : Template) :
    chars (cs ++ ds) t = chars cs (chars ds t) := List.foldr_append

theorem append_chars (cs : List Char) (rest t : Template) :
    (chars cs rest).append t = chars cs (rest.append t) := by
  induction cs with
  | nil => rfl
  | cons c cs ih => exact congrArg (Template.char c) ih

theorem value_chars (lookup : Lookup) (cs : List Char) (rest : Template) :
    (chars cs rest).value lookup = cs ++ rest.value lookup := by
  induction cs with
  | nil => rfl
  | cons c cs ih =>
    show c :: (chars cs rest).value lookup = _
    rw [ih]
    rfl

theorem value_append (lookup : Lookup) (s t : Template) :
    (s.append t).value lookup = s.value lookup ++ t.value lookup := by
  induction s with
  | done => rfl
  | _ => simp_all [append, value]

/-- The variables that a template mentions, in order. -/
def mentions : Template → List String
  | .done => []
  | .char _ rest => rest.mentions
  | .plain name rest => name :: rest.mentions
  | .default name _ word rest => name :: word.mentions ++ rest.mentions
  | .alternative name _ word rest => name :: word.mentions ++ rest.mentions
  | .required name _ _ rest => name :: rest.mentions

theorem mentions_chars (cs : List Char) (rest : Template) :
    (chars cs rest).mentions = rest.mentions := by
  induction cs with
  | nil => rfl
  | cons c cs ih => exact ih

theorem mentions_append (s t : Template) : (s.append t).mentions = s.mentions ++ t.mentions := by
  induction s with
  | done => rfl
  | _ => simp_all [append, mentions]

variable {escape c : Char} {quote quote' : Quote} {cs more name : List Char} {lookup : Lookup}

/-- The value of a template depends on nothing but the variables that it mentions. -/
theorem value_congr {lookup' : Lookup} {t : Template}
    (h : ∀ name ∈ t.mentions, lookup name = lookup' name) : t.value lookup = t.value lookup' := by
  induction t with
  | done => rfl
  | char c rest ih => rw [value, value, ih h]
  | plain name rest ih =>
    rw [mentions, List.forall_mem_cons] at h
    rw [value, value, h.1, ih h.2]
  | default name orEmpty word rest ihw ih =>
    rw [mentions, List.cons_append, List.forall_mem_cons, List.forall_mem_append] at h
    rw [value, value, h.1, ihw h.2.1, ih h.2.2]
  | alternative name orEmpty word rest ihw ih =>
    rw [mentions, List.cons_append, List.forall_mem_cons, List.forall_mem_append] at h
    rw [value, value, h.1, ihw h.2.1, ih h.2.2]
  | required name orEmpty message rest ih =>
    rw [mentions, List.forall_mem_cons] at h
    rw [value, value, h.1, ih h.2]

/-! ### One step of a reading -/

/-- The template of a reference with a text between braces, before a template. -/
def braced (escape : Char) (body : List Char) (rest : Template) : Template :=
  let name := String.ofList (body.takeWhile isNameChar)
  if body.dropWhile isNameChar = [] then .plain name rest
  else match modifier? (body.dropWhile isNameChar) with
    | some (.default, orEmpty, word) => .default name orEmpty (read .word escape .none word) rest
    | some (.alternative, orEmpty, word) =>
      .alternative name orEmpty (read .word escape .none word) rest
    | some (.required, orEmpty, word) =>
      .required name orEmpty (String.ofList (unquoteFrom escape .none word)) rest
    | none => chars ('$' :: '\x7b' :: body ++ ['\x7d']) rest

theorem append_braced (escape : Char) (body : List Char) (rest t : Template) :
    (braced escape body rest).append t = braced escape body (rest.append t) := by
  unfold braced
  dsimp only
  split
  · rfl
  · split
    · rfl
    · rfl
    · rfl
    · exact append_chars _ _ _

theorem read_nil (mode : Mode) (escape : Char) (quote : Quote) :
    read mode escape quote [] = .done := by
  rw [read]

theorem read_cons (mode : Mode) (escape : Char) (quote : Quote) (c : Char) (rest : List Char) :
    read mode escape quote (c :: rest) =
      match mode.front escape quote c rest with
      | .keep kept quote' rest' => chars kept (read mode escape quote' rest')
      | .dollar behind =>
        match reference behind with
        | .none => .char '$' (read mode escape quote behind)
        | .unclosed => chars ('$' :: behind) .done
        | .name name rest' => .plain (String.ofList name) (read mode escape quote rest')
        | .braces body rest' => braced escape body (read mode escape quote rest') := by
  rw [read]
  split
  · rename_i h
    dsimp only
    rw [h]
  · rename_i h
    dsimp only
    rw [h]
    dsimp only
    split
    · rename_i hr
      rw [hr]
    · rename_i hr
      rw [hr]
    · rename_i hr
      rw [hr]
    · rename_i body rest' hr
      rw [hr]
      dsimp only
      unfold braced
      dsimp only
      split
      · rename_i hbody
        rw [if_pos hbody]
      · rename_i hm hne
        rw [if_neg hne, hm]
      · rename_i hm hne
        rw [if_neg hne, hm]
      · rename_i hm hne
        rw [if_neg hne, hm]
      · rename_i hm hne
        rw [if_neg hne, hm]

theorem unquoteFrom_nil (escape : Char) (quote : Quote) : unquoteFrom escape quote [] = [] := by
  rw [unquoteFrom]

theorem unquoteFrom_cons (escape : Char) (quote : Quote) (c : Char) (rest : List Char) :
    unquoteFrom escape quote (c :: rest) =
      match wordFront escape quote c rest with
      | .keep kept quote' rest' => kept ++ unquoteFrom escape quote' rest'
      | .dollar rest' => '$' :: unquoteFrom escape quote rest' := by
  rw [unquoteFrom]
  split
  · rename_i h
    dsimp only
    rw [h]
  · rename_i h
    dsimp only
    rw [h]

/-! ### Reading on -/

/-- A text that cannot be taken for the rest of a name or for the start of braces. -/
def Boundary (cs : List Char) : Prop := ∀ c, cs.head? = some c → isNameChar c = false ∧ c ≠ '\x7b'

theorem isNameChar_of_isNameStart (h : isNameStart c) : isNameChar c := by
  unfold isNameStart at h
  unfold isNameChar Text.isAlphanumeric
  rw [Bool.or_eq_true] at h ⊢
  rcases h with h | h
  · exact .inl h
  · exact .inr (by simp [h])

theorem Boundary.takeWhile_append (h : Boundary more) (cs : List Char) :
    (cs ++ more).takeWhile isNameChar = cs.takeWhile isNameChar := by
  induction cs with
  | nil =>
    cases more with
    | nil => rfl
    | cons c more => simp [(h c rfl).1]
  | cons c cs ih => simp [List.takeWhile_cons, ih]

theorem Boundary.dropWhile_append (h : Boundary more) (cs : List Char) :
    (cs ++ more).dropWhile isNameChar = cs.dropWhile isNameChar ++ more := by
  induction cs with
  | nil =>
    cases more with
    | nil => rfl
    | cons c more => simp [(h c rfl).1]
  | cons c cs ih =>
    rw [List.cons_append, List.dropWhile_cons, List.dropWhile_cons, ih]
    split <;> rfl

theorem splitBrace?_append {depth : Nat} {body rest : List Char}
    (h : splitBrace? depth cs = some (body, rest)) (more : List Char) :
    splitBrace? depth (cs ++ more) = some (body, rest ++ more) := by
  induction cs generalizing depth body rest with
  | nil => cases h
  | cons c cs ih =>
    rw [List.cons_append]
    unfold splitBrace? at h ⊢
    split
    · rename_i hc
      rw [if_pos hc] at h
      obtain ⟨⟨b, r⟩, hb, he⟩ := Option.map_eq_some_iff.1 h
      cases he
      rw [ih hb]
      rfl
    · rename_i hc
      rw [if_neg hc] at h
      split
      · rename_i hc'
        rw [if_pos hc'] at h
        cases depth with
        | zero =>
          cases h
          rfl
        | succ depth =>
          obtain ⟨⟨b, r⟩, hb, he⟩ := Option.map_eq_some_iff.1 h
          cases he
          show (splitBrace? depth (cs ++ more)).map _ = _
          rw [ih hb]
          rfl
      · rename_i hc'
        rw [if_neg hc'] at h
        obtain ⟨⟨b, r⟩, hb, he⟩ := Option.map_eq_some_iff.1 h
        cases he
        rw [ih hb]
        rfl

/-- What a dollar sign starts, with more text behind it. -/
def Reference.before (more : List Char) : Reference → Reference
  | .name text rest => .name text (rest ++ more)
  | .braces body rest => .braces body (rest ++ more)
  | r => r

theorem reference_append (hmore : Boundary more) (h : reference cs ≠ .unclosed) :
    reference (cs ++ more) = (reference cs).before more := by
  cases cs with
  | nil =>
    cases more with
    | nil => rfl
    | cons c more =>
      obtain ⟨hname, hbrace⟩ := hmore c rfl
      have hstart : isNameStart c = false := by
        rw [Bool.eq_false_iff]
        intro hstart
        rw [isNameChar_of_isNameStart hstart] at hname
        cases hname
      simp [reference, Reference.before, hstart, hbrace]
  | cons c cs =>
    rw [List.cons_append]
    simp only [reference] at h ⊢
    split
    · rename_i hstart
      rw [← List.cons_append, hmore.takeWhile_append, hmore.dropWhile_append]
      rfl
    · rename_i hstart
      rw [if_neg hstart] at h
      split
      · rename_i hbrace
        rw [if_pos hbrace] at h
        cases hs : splitBrace? 0 cs with
        | none =>
          rw [hs] at h
          exact absurd rfl h
        | some cut =>
          obtain ⟨body, rest⟩ := cut
          rw [splitBrace?_append hs]
          rfl
      · rfl

/-- What stands at the front of a text, with more text behind it. -/
def Front.before (more : List Char) : Front → Front
  | .keep cs quote rest => .keep cs quote (rest ++ more)
  | .dollar rest => .dollar (rest ++ more)

/-- Is a character an escape character that waits for the next one? -/
def pends (escape : Char) (quote : Quote) (c : Char) (rest : List Char) : Bool :=
  quote ≠ .single && c = escape && rest.isEmpty

theorem Mode.front_append (mode : Mode) {rest : List Char} (h : pends escape quote c rest = false)
    (more : List Char) :
    mode.front escape quote c (rest ++ more) = (mode.front escape quote c rest).before more := by
  by_cases hquote : quote = .single
  · subst hquote
    cases mode <;> simp only [Mode.front, textFront, wordFront, if_true]
    · rfl
    · split <;> rfl
  · by_cases hc : c = escape
    · cases rest with
      | nil => simp [pends, hquote, hc] at h
      | cons next behind =>
        cases mode <;> simp only [Mode.front, textFront, wordFront, if_neg hquote, if_pos hc]
        · rfl
        · simp only [List.cons_append]
          split <;> rfl
    · cases mode <;> simp only [Mode.front, textFront, wordFront, if_neg hquote, if_neg hc]
      · repeat' split
        all_goals rfl
      · repeat' split
        all_goals rfl

/-- The quotes that are open behind a text that starts inside `quote`. There is no answer if the
text ends with an escape character or within braces, which what follows would belong to. -/
def openQuote (mode : Mode) (escape : Char) (quote : Quote) (cs : List Char) : Option Quote :=
  match cs with
  | [] => some quote
  | c :: rest =>
    if pends escape quote c rest then none
    else match h : mode.front escape quote c rest with
      | .keep _ quote' rest' =>
        have := Mode.front_keep_length h
        openQuote mode escape quote' rest'
      | .dollar behind =>
        have := Mode.front_dollar h
        match hr : reference behind with
        | .none => openQuote mode escape quote behind
        | .unclosed => none
        | .name _ rest' =>
          have := reference_name_length hr
          openQuote mode escape quote rest'
        | .braces _ rest' =>
          have := reference_braces_length hr
          openQuote mode escape quote rest'
termination_by cs.length
decreasing_by all_goals simp_all <;> omega

/-- A text and what follows it are read one after the other. -/
theorem read_append {mode : Mode} (h : openQuote mode escape quote cs = some quote')
    (hmore : Boundary more) :
    read mode escape quote (cs ++ more) =
      (read mode escape quote cs).append (read mode escape quote' more) := by
  fun_induction openQuote mode escape quote cs with
  | case1 quote =>
    cases h
    rw [read_nil]
    rfl
  | case2 => cases h
  | case3 quote c rest hpends kept quote₁ rest' hfront _ ih =>
    have hmode := mode.front_append (by simpa using hpends) more
    rw [List.cons_append, read_cons, read_cons, hmode, hfront]
    dsimp only [Front.before]
    rw [ih h, append_chars]
  | case4 quote c behind hr hpends hfront ih =>
    have hmode := mode.front_append (by simpa using hpends) more
    have href : reference (behind ++ more) = _ := reference_append hmore (by simp [hr])
    rw [List.cons_append, read_cons, read_cons, hmode, hfront]
    dsimp only [Front.before]
    rw [href, hr]
    dsimp only [Reference.before]
    rw [ih h]
    rfl
  | case5 => cases h
  | case6 quote c behind name rest' hr _ hpends hfront ih =>
    have hmode := mode.front_append (by simpa using hpends) more
    have href : reference (behind ++ more) = _ := reference_append hmore (by simp [hr])
    rw [List.cons_append, read_cons, read_cons, hmode, hfront]
    dsimp only [Front.before]
    rw [href, hr]
    dsimp only [Reference.before]
    rw [ih h]
    rfl
  | case7 quote c behind body rest' hr _ hpends hfront ih =>
    have hmode := mode.front_append (by simpa using hpends) more
    have href : reference (behind ++ more) = _ := reference_append hmore (by simp [hr])
    rw [List.cons_append, read_cons, read_cons, hmode, hfront]
    dsimp only [Front.before]
    rw [href, hr]
    dsimp only [Reference.before]
    rw [ih h, append_braced]

/-! ### Open quotes -/

/-- The two characters that can be the escape character of a file. -/
def IsEscape (c : Char) : Prop := c = '\\' ∨ c = '\x60'

theorem IsEscape.boundary (h : IsEscape escape) (cs : List Char) : Boundary (escape :: cs) := by
  rintro c hc
  obtain rfl := Option.some.inj hc
  rcases h with rfl | rfl <;> decide

theorem boundary_dollar (cs : List Char) : Boundary ('$' :: cs) := by
  rintro c hc
  obtain rfl := Option.some.inj hc
  decide

/-- The quotes that are open behind a character that is not escaped. -/
def Quote.next (quote : Quote) (c : Char) : Quote :=
  match quote with
  | .none => if c = '\'' then .single else if c = '"' then .double else .none
  | .single => if c = '\'' then .none else .single
  | .double => if c = '"' then .none else .double

/-- The rules for quotes, for a text that starts inside `quote`: which quotes are open behind it.
Quotes between the braces of a reference do not count. There is no answer if the text ends with an
escape character or within such braces. -/
def quoteAfter (escape : Char) (quote : Quote) (cs : List Char) : Option Quote :=
  match cs with
  | [] => some quote
  | c :: rest =>
    if quote ≠ .single ∧ c = escape then
      match rest with
      | [] => none
      | _ :: behind => quoteAfter escape quote behind
    else if quote ≠ .single ∧ c = '$' ∧ rest.head? = some '\x7b' then
      match h : splitBrace? 0 rest.tail with
      | none => none
      | some (_, behind) =>
        have := splitBrace?_length h
        quoteAfter escape quote behind
    else quoteAfter escape (quote.next c) rest
termination_by cs.length
decreasing_by all_goals simp_all <;> omega

theorem openQuote_cons (mode : Mode) (escape : Char) (quote : Quote) (c : Char)
    (rest : List Char) : openQuote mode escape quote (c :: rest) =
      if pends escape quote c rest then none
      else match mode.front escape quote c rest with
        | .keep _ quote' rest' => openQuote mode escape quote' rest'
        | .dollar behind =>
          match reference behind with
          | .none => openQuote mode escape quote behind
          | .unclosed => none
          | .name _ rest' => openQuote mode escape quote rest'
          | .braces _ rest' => openQuote mode escape quote rest' := by
  rw [openQuote]
  split
  · rfl
  · split
    · rename_i h
      dsimp only
      rw [h]
    · rename_i h
      dsimp only
      rw [h]
      dsimp only
      split
      all_goals
        rename_i hr
        rw [hr]

/-- A character that is not escaped and starts no reference opens and closes quotes by the rules. -/
theorem Mode.front_next (mode : Mode) (rest : List Char) (hescape : quote = .single ∨ c ≠ escape)
    (hdollar : quote = .single ∨ c ≠ '$') :
    ∃ kept, mode.front escape quote c rest = .keep kept (quote.next c) rest := by
  cases quote with
  | single =>
    cases mode <;> by_cases hc : c = '\'' <;>
      simp [Mode.front, textFront, wordFront, Quote.next, hc]
  | none | double =>
    have hescape' : c ≠ escape := by simpa using hescape
    have hdollar' : c ≠ '$' := by simpa using hdollar
    cases mode <;> by_cases hdouble : c = '"' <;> by_cases hsingle : c = '\'' <;>
      simp_all [Mode.front, textFront, wordFront, Quote.next]

theorem Mode.front_escaped (mode : Mode) (hquote : quote ≠ .single) (next : Char)
    (behind : List Char) :
    ∃ kept, mode.front escape quote escape (next :: behind) = .keep kept quote behind := by
  cases mode
  · simp [Mode.front, textFront, hquote]
  · simp only [Mode.front, wordFront, if_neg hquote, if_true]
    split
    · exact ⟨_, rfl⟩
    · exact ⟨_, rfl⟩

theorem Mode.front_openDollar (mode : Mode) (hescape : IsEscape escape) (hquote : quote ≠ .single)
    (rest : List Char) : mode.front escape quote '$' rest = .dollar rest := by
  have hne : '$' ≠ escape := by
    rcases hescape with rfl | rfl <;> decide
  cases mode <;> simp [Mode.front, textFront, wordFront, hquote, hne]

theorem openQuote_names (mode : Mode) (hescape : IsEscape escape) (hquote : quote ≠ .single)
    (hname : ∀ c ∈ name, isNameChar c) (more : List Char) :
    openQuote mode escape quote (name ++ more) = openQuote mode escape quote more := by
  induction name with
  | nil => rfl
  | cons c name ih =>
    have hc := hname c List.mem_cons_self
    have hne : ∀ c', isNameChar c' = false → c ≠ c' := by
      rintro c' hc' rfl
      rw [hc] at hc'
      cases hc'
    have hnotEscape : c ≠ escape := by
      rcases hescape with rfl | rfl
      · exact hne _ (by decide)
      · exact hne _ (by decide)
    obtain ⟨kept, hfront⟩ : ∃ kept, mode.front escape quote c (name ++ more) = _ :=
      mode.front_next (name ++ more) (.inr hnotEscape) (.inr (hne '$' (by decide)))
    have hnext : quote.next c = quote := by
      cases quote <;> simp_all [Quote.next, hne '\'' (by decide), hne '"' (by decide)]
    rw [List.cons_append, openQuote_cons, if_neg (by simp [pends, hnotEscape]), hfront, hnext]
    exact ih fun c' hc' => hname c' (List.mem_cons_of_mem c hc')

/-- A text is read by the rules for quotes. -/
theorem openQuote_of_quoteAfter (mode : Mode) (hescape : IsEscape escape)
    (h : quoteAfter escape quote cs = some quote') :
    openQuote mode escape quote cs = some quote' := by
  fun_induction quoteAfter escape quote cs with
  | case1 quote =>
    rw [openQuote]
    exact h
  | case2 => cases h
  | case3 quote c hc next behind ih =>
    obtain ⟨hquote, rfl⟩ := hc
    obtain ⟨kept, hfront⟩ := mode.front_escaped hquote next behind
    rw [openQuote_cons, if_neg (by simp [pends]), hfront]
    exact ih h
  | case4 => cases h
  | case5 quote c rest hc hbrace body behind hsplit _ ih =>
    obtain ⟨hquote, rfl, hhead⟩ := hbrace
    obtain ⟨inside, rfl⟩ := List.head?_eq_some_iff.1 hhead
    have hstart : isNameStart '\x7b' = false := by decide
    have hreference : reference ('\x7b' :: inside) = .braces body behind := by
      simp only [reference, hstart]
      rw [List.tail_cons] at hsplit
      rw [hsplit]
      rfl
    rw [openQuote_cons, if_neg (by simp [pends]), mode.front_openDollar hescape hquote]
    dsimp only
    rw [hreference]
    exact ih h
  | case6 quote c rest hc hbrace ih =>
    have hpends : pends escape quote c rest = false := by
      simp only [pends]
      grind
    rw [openQuote_cons, hpends]
    by_cases hdollar : quote = .single ∨ c ≠ '$'
    · have hnotEscape : quote = .single ∨ c ≠ escape := by grind
      obtain ⟨kept, hfront⟩ := mode.front_next rest hnotEscape hdollar
      rw [hfront]
      exact ih h
    · obtain ⟨hquote, rfl⟩ : quote ≠ .single ∧ c = '$' := by grind
      have hnext : quote.next '$' = quote := by
        cases quote <;> simp_all [Quote.next]
      have hhead : rest.head? ≠ some '\x7b' := fun hhead => hbrace ⟨hquote, rfl, hhead⟩
      have hrest := ih h
      rw [hnext] at hrest
      rw [mode.front_openDollar hescape hquote]
      dsimp only
      -- A name is skipped as a whole, and none of its characters opens or closes quotes.
      cases rest with
      | nil => exact hrest
      | cons c rest =>
        have hc : c ≠ '\x7b' := by simpa using hhead
        by_cases hstart : isNameStart c
        · have hname : ∀ c' ∈ (c :: rest).takeWhile isNameChar, isNameChar c' :=
            List.all_eq_true.1 List.all_takeWhile
          have hskip := openQuote_names mode hescape hquote hname
            ((c :: rest).dropWhile isNameChar)
          rw [List.takeWhile_append_dropWhile] at hskip
          simp only [reference, if_pos hstart]
          rw [← hskip]
          exact hrest
        · simp only [reference, if_neg hstart, if_neg hc]
          exact hrest

theorem quoteAfter_append (h : quoteAfter escape quote cs = some quote')
    (hmore : more.head? ≠ some '\x7b') :
    quoteAfter escape quote (cs ++ more) = quoteAfter escape quote' more := by
  fun_induction quoteAfter escape quote cs with
  | case1 quote =>
    cases h
    rfl
  | case2 => cases h
  | case3 quote c hc next behind ih =>
    rw [List.cons_append, List.cons_append, quoteAfter.eq_def]
    dsimp only
    rw [if_pos hc]
    exact ih h
  | case4 => cases h
  | case5 quote c rest hc hbrace body behind hsplit _ ih =>
    obtain ⟨inside, rfl⟩ := List.head?_eq_some_iff.1 hbrace.2.2
    have hsplit' := splitBrace?_append hsplit more
    rw [List.cons_append, quoteAfter.eq_def]
    dsimp only
    rw [if_neg hc, if_pos ⟨hbrace.1, hbrace.2.1, rfl⟩]
    split
    · rename_i hnone
      rw [List.cons_append, List.tail_cons] at hnone
      rw [List.tail_cons, hnone] at hsplit'
      cases hsplit'
    · rename_i hsome
      rw [List.cons_append, List.tail_cons] at hsome
      rw [List.tail_cons, hsome] at hsplit'
      cases hsplit'
      exact ih h
  | case6 quote c rest hc hbrace ih =>
    have hbrace' : ¬(quote ≠ .single ∧ c = '$' ∧ (rest ++ more).head? = some '\x7b') := by
      cases rest with
      | nil => exact fun hall => hmore hall.2.2
      | cons c' rest => exact hbrace
    rw [List.cons_append, quoteAfter.eq_def]
    dsimp only
    rw [if_neg hc, if_neg hbrace']
    exact ih h

/-- A word without a dollar sign is read as its unquoted text. -/
theorem read_eq_chars (h : '$' ∉ unquoteFrom escape quote cs) :
    read .word escape quote cs = chars (unquoteFrom escape quote cs) .done := by
  fun_induction unquoteFrom escape quote cs with
  | case1 quote =>
    rw [read_nil]
    rfl
  | case2 quote c rest kept quote' rest' hfront _ ih =>
    have hfront' : Mode.front .word escape quote c rest = .keep kept quote' rest' := hfront
    rw [List.mem_append, not_or] at h
    rw [read_cons, hfront']
    dsimp only
    rw [ih h.2, chars_append]
  | case3 => exact absurd List.mem_cons_self h

theorem value_read_word (lookup : Lookup) (h : '$' ∉ unquoteFrom escape quote cs) :
    (read .word escape quote cs).value lookup = unquoteFrom escape quote cs := by
  rw [read_eq_chars h, value_chars]
  exact List.append_nil _

/-! ### Required variables -/

/-- A reference to a variable that must have a value. -/
structure Demand where
  name : String
  /-- Does an empty value count as none? -/
  orEmpty : Bool
  message : String
  deriving DecidableEq, Repr

/-- Has the variable of a reference the value that it must have? -/
def Demand.isMet (lookup : Lookup) (d : Demand) : Bool := !isAbsent d.orEmpty (lookup d.name)

/-- What is told of a variable without a value. -/
def Demand.unset (d : Demand) : Unset :=
  ⟨d.name, if d.message.isEmpty then s!"{d.name}: parameter not set" else d.message⟩

/-- The references to required variables that an expansion gets to, in order. The word of a modifier
is expanded only where its variable lets it. -/
def demands (lookup : Lookup) : Template → List Demand
  | .done => []
  | .char _ rest => rest.demands lookup
  | .plain _ rest => rest.demands lookup
  | .default name orEmpty word rest =>
    (if isAbsent orEmpty (lookup name) then word.demands lookup else []) ++ rest.demands lookup
  | .alternative name orEmpty word rest =>
    (if isAbsent orEmpty (lookup name) then [] else word.demands lookup) ++ rest.demands lookup
  | .required name orEmpty message rest => ⟨name, orEmpty, message⟩ :: rest.demands lookup

theorem demands_append (lookup : Lookup) (s t : Template) :
    (s.append t).demands lookup = s.demands lookup ++ t.demands lookup := by
  induction s with
  | done => rfl
  | _ => simp_all [append, demands]

/-- The first of some demands that is not met, if there is one, stops an expansion to a text. -/
def enforce (lookup : Lookup) (ds : List Demand) (text : List Char) : Except Unset (List Char) :=
  match ds.find? fun d => !d.isMet lookup with
  | some d => .error d.unset
  | none => .ok text

theorem enforce_eq_ok {ds : List Demand} {text : List Char} (h : enforce lookup ds text = .ok cs) :
    ∀ d ∈ ds, d.isMet lookup := by
  unfold enforce at h
  split at h
  · cases h
  · rename_i hnone
    simpa using hnone

theorem enforce_eq_error {ds : List Demand} {text : List Char} {unset : Unset}
    (h : enforce lookup ds text = .error unset) :
    ∃ d ∈ ds, d.isMet lookup = false ∧ d.unset = unset := by
  unfold enforce at h
  split at h
  · rename_i d hd
    cases h
    exact ⟨d, List.mem_of_find?_eq_some hd, by simpa using List.find?_some hd, rfl⟩
  · cases h

theorem enforce_append (lookup : Lookup) (ds es : List Demand) (a b : List Char) :
    enforce lookup (ds ++ es) (a ++ b) =
      (enforce lookup ds a).bind fun cs => (enforce lookup es b).map (cs ++ ·) := by
  unfold enforce
  rw [List.find?_append]
  cases ds.find? fun d => !d.isMet lookup with
  | some d => rfl
  | none =>
    rw [Option.none_or]
    cases es.find? fun d => !d.isMet lookup <;> rfl

theorem result_append (first second : Expansion) : (first.append second).result =
    first.result.bind fun cs => second.result.map (cs ++ ·) := by
  unfold Expansion.append
  cases first.result <;> rfl

/-- A strict expansion stops at the first reference to a required variable without a value that it
gets to, and gives the text of the template if there is none. -/
theorem result_expand (lookup : Lookup) (t : Template) :
    (t.expand lookup true).result = enforce lookup (t.demands lookup) (t.value lookup) := by
  induction t with
  | done => rfl
  | char c rest ih =>
    rw [expand, result_append, ih]
    exact (enforce_append lookup [] _ [c] _).symm
  | plain name rest ih =>
    have hname : (Expansion.ofPlain name (lookup name)).result =
        enforce lookup [] ((lookup name).getD "").toList := by
      cases lookup name <;> rfl
    rw [expand, result_append, ih, hname]
    exact (enforce_append lookup [] _ _ _).symm
  | default name orEmpty word rest ihw ih =>
    rw [expand, demands, value, enforce_append, ← ih, result_append]
    split
    · rw [ihw]
    · rfl
  | alternative name orEmpty word rest ihw ih =>
    rw [expand, demands, value, enforce_append, ← ih, result_append]
    split
    · rfl
    · rw [ihw]
  | required name orEmpty message rest ih =>
    rw [expand, demands, value, ← List.singleton_append, enforce_append, ← ih, result_append]
    unfold enforce Demand.isMet
    split
    · rename_i h
      simp [h, Expansion.ofRequired, Demand.unset, Except.bind]
    · rename_i h
      simp [h, Expansion.ofValue, Expansion.ok]

/-- The modifiers of a required variable, and whether an empty value counts as none. -/
def IsRequirement (modifier : List Char) (orEmpty : Bool) : Prop :=
  (modifier = [':', '?'] ∧ orEmpty = true) ∨ (modifier = ['?'] ∧ orEmpty = false)

theorem braced_required {modifier word : List Char} {orEmpty : Bool} (hname : name.all isNameChar)
    (hmodifier : IsRequirement modifier orEmpty) (rest : Template) :
    braced escape (name ++ (modifier ++ word)) rest =
      .required (String.ofList name) orEmpty (String.ofList (unquoteFrom escape .none word))
        rest := by
  have hall : ∀ c ∈ name, isNameChar c := by simpa using hname
  unfold braced
  rw [List.takeWhile_append_of_pos hall, List.dropWhile_append_of_pos hall]
  rcases hmodifier with ⟨rfl, rfl⟩ | ⟨rfl, rfl⟩
  · have hcolon : isNameChar ':' = false := by decide
    simp [hcolon, modifier?]
  · have hmark : isNameChar '?' = false := by decide
    simp [hmark, modifier?]

/-- A reference to a required variable that stands outside single quotes is a demand, whatever
stands before it and behind it. -/
theorem mem_demands_read (mode : Mode) (hescape : IsEscape escape)
    {before modifier word : List Char} {orEmpty : Bool}
    (hbefore : quoteAfter escape .none before = some quote) (hquote : quote ≠ .single)
    (hname : name.all isNameChar) (hmodifier : IsRequirement modifier orEmpty)
    (hclosed : splitBrace? 0 (name ++ (modifier ++ word) ++ ['\x7d']) =
      some (name ++ (modifier ++ word), [])) (after : List Char) (lookup : Lookup) :
    ⟨String.ofList name, orEmpty, String.ofList (unquoteFrom escape .none word)⟩ ∈
      (read mode escape .none (before ++ '$' :: '\x7b' :: (name ++ (modifier ++ word) ++
        '\x7d' :: after))).demands lookup := by
  have hreference : reference ('\x7b' :: (name ++ (modifier ++ word) ++ '\x7d' :: after)) =
      .braces (name ++ (modifier ++ word)) after := by
    have hsplit := splitBrace?_append hclosed after
    rw [List.append_assoc, List.singleton_append, List.nil_append] at hsplit
    have hstart : isNameStart '\x7b' = false := by decide
    simp only [reference, hstart, hsplit]
    rfl
  rw [read_append (openQuote_of_quoteAfter mode hescape hbefore) (boundary_dollar _),
    demands_append, List.mem_append]
  refine .inr ?_
  rw [read_cons, mode.front_openDollar hescape hquote]
  dsimp only
  rw [hreference]
  dsimp only
  rw [braced_required hname hmodifier]
  exact List.mem_cons_self

end Dockerfile.Template
