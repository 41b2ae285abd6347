import Dockerfile.Proofs.Dot.Drawings
import Mathlib.Algebra.Ring.Parity
import Mathlib.Data.List.DropRight

/-!
# Labels between quotes

A text is read as one string between quotes if and only if an odd number of backslashes stands
before each quote in it and an even number at its end (`enclosed_iff`): the backslashes before a
place tell whether the reader stands behind one that escapes (`exists_foldl_text`). Escaped texts are
read back, so they are of this kind and no two texts are escaped alike. The labels that are read from
the drawing of a graph are those of its stages, images and operations (`labels_stay_quoted`).
-/

namespace Dockerfile.Dot

/-- The number of backslashes that a text ends with. -/
def backslashes (text : List Char) : Nat := (text.rtakeWhile (· = '\\')).length

/-- Each quote of a text stands behind an odd number of backslashes. -/
def QuotesEscaped (text : List Char) : Prop :=
  ∀ before after, text = before ++ '"' :: after → Odd (backslashes before)

/-- A text that neither ends the quotes it stands between nor escapes the second one. -/
structure Enclosed (text : List Char) : Prop where
  quotes : QuotesEscaped text
  ending : Even (backslashes text)

/-- The label that an item gives. -/
def Item.label? : Item → Option String
  | .setting name value => if name = "label" then some value else none
  | .node _ attributes => attributes.lookup "label"
  | _ => none

variable {body : List Char} {c : Char} {s : Scanner} {tokens : List Token}

/-! ### Backslashes and quotes -/

theorem backslashes_concat_backslash (body : List Char) :
    backslashes (body ++ ['\\']) = backslashes body + 1 := by
  rw [backslashes, List.rtakeWhile_concat_pos _ _ _ (by decide), List.length_append]
  rfl

theorem backslashes_concat (body : List Char) (h : c ≠ '\\') : backslashes (body ++ [c]) = 0 := by
  rw [backslashes, List.rtakeWhile_concat_neg _ _ _ (by simpa using h)]
  rfl

theorem quotesEscaped_concat : QuotesEscaped (body ++ [c]) ↔
    QuotesEscaped body ∧ (c = '"' → Odd (backslashes body)) := by
  constructor
  · intro h
    refine ⟨fun before after hbody => h before (after ++ [c]) (by simp [hbody]), ?_⟩
    rintro rfl
    exact h body [] rfl
  · rintro ⟨hbody, hc⟩ before after h
    rcases List.eq_nil_or_concat' after with rfl | ⟨after, x, rfl⟩
    · obtain ⟨rfl, hquote⟩ := List.append_inj' h rfl
      exact hc (List.cons.inj hquote).1
    · rw [← List.cons_append, ← List.append_assoc] at h
      exact hbody before after (List.append_inj' h rfl).1

/-! ### Reading between quotes -/

/-- A text whose quotes are escaped is read without an end of the quotes, and behind it the reader
stands behind a backslash that escapes if and only if their number is odd. -/
theorem exists_foldl_text (h : QuotesEscaped body) : ∃ chars,
    (Even (backslashes body) ∧
      ∀ tokens, body.foldl Scanner.step ⟨tokens, .text []⟩ = ⟨tokens, .text chars⟩) ∨
    (Odd (backslashes body) ∧
      ∀ tokens, body.foldl Scanner.step ⟨tokens, .text []⟩ = ⟨tokens, .escape chars⟩) := by
  -- From the end: the number of backslashes before the last character tells what it does.
  induction body using List.reverseRecOn with
  | nil => exact ⟨[], .inl ⟨Even.zero, fun _ => rfl⟩⟩
  | append_singleton body c ih =>
    obtain ⟨hbody, hc⟩ := quotesEscaped_concat.1 h
    simp only [List.foldl_append, List.foldl_cons, List.foldl_nil]
    obtain ⟨chars, ⟨heven, hread⟩ | ⟨hodd, hread⟩⟩ := ih hbody
    · have hquote : c ≠ '"' := fun hquote => Nat.not_odd_iff_even.2 heven (hc hquote)
      by_cases hslash : c = '\\'
      · subst hslash
        rw [backslashes_concat_backslash]
        exact ⟨chars, .inr ⟨heven.add_one, fun tokens => by rw [hread]; rfl⟩⟩
      · rw [backslashes_concat body hslash]
        refine ⟨chars ++ [c], .inl ⟨Even.zero, fun tokens => ?_⟩⟩
        rw [hread, Scanner.step, if_neg hquote, if_neg hslash]
    · refine ⟨chars ++ [unescape c], .inl ⟨?_, fun tokens => by rw [hread]; rfl⟩⟩
      by_cases hslash : c = '\\'
      · subst hslash
        rw [backslashes_concat_backslash]
        exact hodd.add_one
      · rw [backslashes_concat body hslash]
        exact Even.zero

theorem tokens_step_ne_nil (h : s.tokens ≠ []) (c : Char) : (s.step c).tokens ≠ [] := by
  obtain ⟨tokens, place⟩ := s
  cases place with
  | between | name chars =>
    simp only [Scanner.step, Scanner.start]
    split_ifs <;> simp_all
  | text chars =>
    rw [Scanner.step]
    split_ifs <;> simp_all
  | escape chars => exact h

/-- A quote that is not escaped ends the text that is read. -/
theorem tokens_ne_nil_of_not_quotesEscaped (h : ¬QuotesEscaped body) :
    (body.foldl Scanner.step ⟨[], .text []⟩).tokens ≠ [] := by
  induction body using List.reverseRecOn with
  | nil => exact absurd (fun before after hnil => by simp at hnil) h
  | append_singleton body c ih =>
    rw [List.foldl_append, List.foldl_cons, List.foldl_nil]
    by_cases hbody : QuotesEscaped body
    · obtain ⟨rfl, hodd⟩ : c = '"' ∧ ¬Odd (backslashes body) := by
        rw [quotesEscaped_concat] at h
        push Not at h
        exact h hbody
      obtain ⟨chars, ⟨-, hread⟩ | ⟨hodd', -⟩⟩ := exists_foldl_text hbody
      · rw [hread]
        exact List.cons_ne_nil _ _
      · exact absurd hodd' hodd
    · exact tokens_step_ne_nil (ih hbody) c

/-- Behind a quote the reader stands between tokens only if the quote ends a text. -/
theorem exists_of_step_quote (h : s.step '"' = ⟨tokens, .between⟩) :
    ∃ chars, s.place = .text chars ∧ tokens = .text (String.ofList chars) :: s.tokens := by
  obtain ⟨read, place⟩ := s
  cases place with
  | between | name _ | escape _ => cases (Scanner.mk.inj h).2
  | text chars => exact ⟨chars, rfl, (Scanner.mk.inj h).1.symm⟩

/-- The texts that are one string between quotes, wherever they stand. -/
theorem enclosed_iff (body : List Char) :
    Enclosed body ↔ ∃ content, Reads ('"' :: (body ++ ['"'])) [.text content] := by
  constructor
  · rintro ⟨hquotes, hending⟩
    obtain ⟨chars, ⟨-, hread⟩ | ⟨hodd, -⟩⟩ := exists_foldl_text hquotes
    · refine ⟨String.ofList chars, fun before => ?_⟩
      rw [List.foldl_cons, List.foldl_append]
      show List.foldl Scanner.step (List.foldl Scanner.step ⟨before, .text []⟩ body) ['"'] = _
      rw [hread]
      rfl
    · exact absurd hending (Nat.not_even_iff_odd.2 hodd)
  · rintro ⟨content, hreads⟩
    have hlast : (body.foldl Scanner.step ⟨[], .text []⟩).step '"' =
        ⟨[.text content], .between⟩ := by
      have h := hreads []
      rw [List.foldl_cons, List.foldl_append] at h
      exact h
    obtain ⟨chars, hplace, htokens⟩ := exists_of_step_quote hlast
    have hquotes : QuotesEscaped body := by
      by_contra hnot
      exact tokens_ne_nil_of_not_quotesEscaped hnot (List.cons.inj htokens).2.symm
    refine ⟨hquotes, ?_⟩
    obtain ⟨read, ⟨heven, -⟩ | ⟨-, hread⟩⟩ := exists_foldl_text hquotes
    · exact heven
    · rw [hread] at hplace
      cases hplace

end Dockerfile.Dot

namespace Dockerfile.Drawing

open Dot

/-! ### Escaped texts -/

/-- A text with another one in the place of a character. -/
def substitute (old : Char) (new text : List Char) : List Char :=
  text.flatMap fun c => if c = old then new else [c]

/-- Texts are escaped by three substitutions, none of which changes what another one has put in. -/
theorem toList_escape_eq_substitute (text : String) : (escape text).toList =
    substitute '\n' ['\\', 'n'] (substitute '"' ['\\', '"'] (substitute '\\' ['\\', '\\']
      text.toList)) := by
  rw [escape, String.toList_ofList, substitute, substitute, substitute, List.flatMap_assoc,
    List.flatMap_assoc]
  refine List.flatMap_congr fun c _ => ?_
  unfold escapeChar
  split_ifs with hslash hquote hbreak
  · rfl
  · subst hquote
    rfl
  · subst hbreak
    rfl
  · simp [hquote, hbreak]

example : escape "say \"hi\"\\n" = "say \\\"hi\\\"\\\\n" := by decide +kernel

theorem newline_notMem_escape (text : String) : '\n' ∉ (escape text).toList := by
  rw [escape, String.toList_ofList, List.mem_flatMap]
  rintro ⟨c, -, h⟩
  unfold escapeChar at h
  split_ifs at h with hslash hquote hbreak
  · simp at h
  · simp at h
  · simp at h
  · exact hbreak (List.mem_singleton.1 h).symm

theorem enclosed_escape (text : String) : Enclosed (escape text).toList := by
  rw [enclosed_iff, ← toList_quote]
  exact ⟨text, reads_quote text⟩

theorem escape_injective : Function.Injective escape := by
  intro a b h
  have hquote : quote a = quote b := by rw [quote, quote, h]
  have hread := reads_quote a []
  rw [hquote, reads_quote b []] at hread
  cases hread
  rfl

/-! ### Labels of a drawing -/

theorem labels_cluster (c : Cluster) :
    c.items.filterMap Item.label? = c.label :: c.base :: c.nodes.map Node.label := by
  have hnodes : (c.nodes.map Node.item).filterMap Item.label? = c.nodes.map Node.label := by
    rw [List.filterMap_map, ← List.filterMap_eq_map]
    exact List.filterMap_congr fun n _ => rfl
  rw [Cluster.items, List.filterMap_append, List.filterMap_append, hnodes, List.append_assoc]
  show c.label :: c.base :: (c.nodes.map Node.label ++ []) = _
  rw [List.append_nil]

theorem labels_items (d : Drawing) : d.items.filterMap Item.label? =
    d.clusters.flatMap fun c => c.label :: c.base :: c.nodes.map Node.label := by
  have hedges : (d.edges.map Edge.item).filterMap Item.label? = [] := by
    rw [List.filterMap_map]
    exact List.filterMap_eq_nil_iff.2 fun _ _ => rfl
  have hclusters : (d.clusters.flatMap Cluster.items).filterMap Item.label? =
      d.clusters.flatMap fun c => c.label :: c.base :: c.nodes.map Node.label := by
    rw [List.filterMap_flatMap]
    exact List.flatMap_congr fun c _ => labels_cluster c
  rw [items, List.filterMap_append, List.filterMap_append, List.filterMap_append, hclusters, hedges,
    List.append_nil]
  show ([] ++ _) ++ [] = _
  rw [List.nil_append, List.append_nil]

theorem labels_ofGraph (g : Graph) : (ofGraph g).items.filterMap Item.label? =
    g.stages.flatMap fun s =>
      (cluster g s).label :: s.baseImage :: (g.stageOperations s.index).map summary := by
  rw [labels_items]
  show (g.stages.map (cluster g)).flatMap _ = _
  rw [List.flatMap_map]
  refine List.flatMap_congr fun s _ => ?_
  show _ :: s.baseImage :: ((g.stageOperations s.index).map (node s)).map Node.label = _
  rw [List.map_map]
  rfl

/-- Labels stay between their quotes. Texts are escaped by three substitutions; then an odd number of
backslashes stands before each quote and an even number at the end, no line ends, and no two texts
are escaped alike. The parity is what makes a text one string between quotes, and an escaped text is
one that is read back. So the labels that are read from the drawing of a graph are, one by one, those
of its stages, the images they start from, and what is told about their operations, cut or not. -/
theorem labels_stay_quoted (text : String) (g : Graph) :
    (escape text).toList = substitute '\n' ['\\', 'n'] (substitute '"' ['\\', '"']
      (substitute '\\' ['\\', '\\'] text.toList)) ∧
    Enclosed (escape text).toList ∧ '\n' ∉ (escape text).toList ∧ Function.Injective escape ∧
    (∀ body, Enclosed body ↔ ∃ content, Reads ('"' :: (body ++ ['"'])) [.text content]) ∧
    Reads (quote text).toList [.text text] ∧
    (Dot.read (ofGraph g).render).map (fun items => items.filterMap Item.label?) =
      some (g.stages.flatMap fun s =>
        (cluster g s).label :: s.baseImage :: (g.stageOperations s.index).map summary) := by
  refine ⟨toList_escape_eq_substitute text, enclosed_escape text, newline_notMem_escape text,
    escape_injective, enclosed_iff, reads_quote text, ?_⟩
  rw [read_render (plain_ofGraph g), Option.map_some, labels_ofGraph]

end Dockerfile.Drawing
