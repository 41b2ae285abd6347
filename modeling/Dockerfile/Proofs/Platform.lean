import Dockerfile.Platform
import Mathlib.Data.List.Basic

/-!
# Platforms that are read

A platform that is read from a text is written as that text without the white space around it
(`render_of_parse`), so platforms that are read can be told apart by how they are written
(`eq_of_render_eq`). Two platforms that disagree can both agree with a third one only if that one
says nothing where they differ (`leavesOpen_of_agrees`).
-/

namespace Dockerfile

namespace Text

theorem splitWhen_ne_nil (p : Char → Bool) (l : List Char) : splitWhen p l ≠ [] := by
  cases l with
  | nil => simp [splitWhen]
  | cons c rest =>
    unfold splitWhen
    split
    · simp
    · split <;> simp

/-- The parts of a text between separators give the text back. -/
theorem intercalate_splitAt (c : Char) (l : List Char) : [c].intercalate (splitAt c l) = l := by
  unfold splitAt
  induction l with
  | nil => simp [splitWhen]
  | cons a rest ih =>
    obtain ⟨part, parts, hsplit⟩ := List.exists_cons_of_ne_nil (splitWhen_ne_nil (· == c) rest)
    rw [hsplit] at ih
    unfold splitWhen
    by_cases ha : a = c
    · rw [if_pos (by simpa using ha), hsplit, List.intercalate_cons_cons, ih, ha]
      rfl
    · rw [if_neg (by simpa using ha), hsplit]
      dsimp only
      cases parts with
      | nil =>
        rw [List.intercalate_singleton] at ih ⊢
        rw [ih]
      | cons next parts =>
        rw [List.intercalate_cons_cons] at ih ⊢
        rw [List.cons_append, List.cons_append, ih]

end Text

namespace Platform

variable {text text' : String} {p q r : Platform}

/-! ### Reading -/

/-- The parts of a text that is read as a platform. -/
theorem parse_ok (h : parse text = .ok p) :
    (Text.splitAt '/' (Text.stripChars text.toList)).map String.ofList =
        p.os :: (p.architecture.toList ++ p.variant.toList) ∧
      (∀ part ∈ p.os :: (p.architecture.toList ++ p.variant.toList), part.isEmpty = false) ∧
      (p.architecture = none → p.variant = none) := by
  simp only [parse, bind, Except.bind, pure, Except.pure, throw, throwThe,
    MonadExceptOf.throw] at h
  split at h
  · cases h
  rename_i hfull
  have hparts : ∀ part ∈ (Text.splitAt '/' (Text.stripChars text.toList)).map String.ofList,
      part.isEmpty = false := by
    intro part hpart
    rw [Bool.not_eq_true, List.any_eq_false] at hfull
    simpa using hfull part hpart
  split at h
  · rename_i os hsplit
    split at h
    · cases h
    · cases h
      rw [hsplit] at hparts ⊢
      exact ⟨rfl, hparts, fun _ => rfl⟩
  · rename_i os architecture hsplit
    split at h
    · cases h
    · split at h
      · cases h
      · cases h
        rw [hsplit] at hparts ⊢
        exact ⟨rfl, hparts, fun _ => rfl⟩
  · rename_i os architecture variant hsplit
    split at h
    · cases h
    · split at h
      · cases h
      · cases h
        rw [hsplit] at hparts ⊢
        exact ⟨rfl, hparts, fun hnone => by cases hnone⟩
  · cases h

theorem text_ne_empty_of_parse (h : parse text = .ok p) : text.isEmpty = false := by
  cases htext : text.isEmpty with
  | false => rfl
  | true =>
    rw [String.isEmpty_iff] at htext
    rw [htext] at h
    cases h

theorem render_of_parse (h : parse text = .ok p) :
    p.render = String.ofList (Text.stripChars text.toList) := by
  obtain ⟨hsplit, hfull, -⟩ := parse_ok h
  have hparts : p.parts = p.os :: (p.architecture.toList ++ p.variant.toList) := by
    have hlist : [some p.os, p.architecture, p.variant].filterMap id =
        p.os :: (p.architecture.toList ++ p.variant.toList) := by
      cases p.architecture <;> cases p.variant <;> rfl
    rw [parts, hlist, List.filter_eq_self]
    intro part hpart
    rw [hfull part hpart]
    rfl
  have hid : String.toList ∘ String.ofList = id := funext fun l => String.toList_ofList
  have hjoin := Text.intercalate_splitAt '/' (Text.stripChars text.toList)
  rw [render, hparts, ← hsplit, ← String.toList_inj, String.toList_intercalate, List.map_map, hid,
    List.map_id]
  exact hjoin.trans String.toList_ofList.symm

/-- Platforms that are read can be told apart by how they are written. -/
theorem eq_of_render_eq (hp : parse text = .ok p) (hq : parse text' = .ok q)
    (h : p.render = q.render) : p = q := by
  rw [render_of_parse hp, render_of_parse hq, String.ofList_inj] at h
  obtain ⟨hsplit, -, hvariant⟩ := parse_ok hp
  obtain ⟨hsplit', -, hvariant'⟩ := parse_ok hq
  rw [h, hsplit', List.cons.injEq] at hsplit
  obtain ⟨hos, hrest⟩ := hsplit
  obtain ⟨os, architecture, variant⟩ := p
  obtain ⟨os', architecture', variant'⟩ := q
  cases architecture <;> cases architecture' <;> cases variant <;> cases variant' <;> simp_all

/-! ### Agreeing -/

theorem partsAgree_self (part : Option String) : partsAgree part part = true := by
  cases part <;> simp [partsAgree]

theorem agrees_self (p : Platform) : p.agrees p = true := by
  simp [agrees, partsAgree_self]

/-- A platform says nothing of the parts in which two others disagree. -/
def LeavesOpen (r p q : Platform) : Prop :=
  p.os = q.os ∧
    (partsAgree p.architecture q.architecture = false → r.architecture.all String.isEmpty) ∧
    (partsAgree p.variant q.variant = false → r.variant.all String.isEmpty)

theorem all_isEmpty_of_partsAgree {a b c : Option String} (ha : partsAgree a c = true)
    (hb : partsAgree b c = true) (hab : partsAgree a b = false) : c.all String.isEmpty := by
  cases a <;> cases b <;> cases c <;> simp_all [partsAgree]
  grind

theorem leavesOpen_of_agrees (hp : p.agrees r = true) (hq : q.agrees r = true) :
    r.LeavesOpen p q := by
  simp only [agrees, Bool.and_eq_true, beq_iff_eq] at hp hq
  exact ⟨hp.1.1.trans hq.1.1.symm, all_isEmpty_of_partsAgree hp.1.2 hq.1.2,
    all_isEmpty_of_partsAgree hp.2 hq.2⟩

end Platform

end Dockerfile
