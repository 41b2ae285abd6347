import Dockerfile.Graph
import Mathlib.Data.List.Induction
import Mathlib.Data.List.Nodup

/-!
# Sequences

A run makes its results one after the other, and what is said of a result is mostly a relation to
those before it. `EachAfter P l` says that every member of `l` stands in the relation `P` to the
members before it. It grows at the end of a list (`eachAfter_concat`) and composes when lists are
joined (`EachAfter.append`). `LastSome` is the last member of a list for which a function has a
result, together with the members before it.
-/

namespace Dockerfile

variable {α : Type}

/-- Every member of a list stands in a relation to the list of the members before it. -/
def EachAfter (P : List α → α → Prop) (l : List α) : Prop :=
  ∀ before a after, l = before ++ a :: after → P before a

section EachAfter

variable {P Q : List α → α → Prop} {l m : List α}

theorem eachAfter_nil : EachAfter P [] := by
  intro before a after h
  simp at h

theorem EachAfter.left (h : EachAfter P (l ++ m)) : EachAfter P l := by
  intro before a after hl
  apply h before a (after ++ m)
  rw [hl, List.append_assoc, List.cons_append]

theorem EachAfter.append (hl : EachAfter P l) (hm : EachAfter (fun b a => P (l ++ b) a) m) :
    EachAfter P (l ++ m) := by
  intro before a after h
  rcases List.append_eq_append_iff.1 h with ⟨c, rfl, hc⟩ | ⟨c, rfl, hc⟩
  · exact hm c a after hc
  · cases c with
    | nil =>
      rw [List.append_nil] at hm
      simpa using hm [] a after hc.symm
    | cons x c =>
      rw [List.cons_append, List.cons.injEq] at hc
      obtain ⟨rfl, -⟩ := hc
      exact hl before _ c rfl

theorem eachAfter_concat {a : α} : EachAfter P (l ++ [a]) ↔ EachAfter P l ∧ P l a := by
  constructor
  · intro h
    exact ⟨h.left, h l a [] rfl⟩
  · rintro ⟨hl, ha⟩
    refine hl.append ?_
    intro before b after h
    obtain ⟨rfl, hb⟩ : before = [] ∧ [a] = b :: after := by
      cases before with
      | nil => exact ⟨rfl, h⟩
      | cons x before => simp at h
    cases hb
    rwa [List.append_nil]

theorem EachAfter.imp (h : EachAfter P l) (hPQ : ∀ before a, a ∈ l → P before a → Q before a) :
    EachAfter Q l := by
  intro before a after hl
  exact hPQ before a (by rw [hl]; simp) (h before a after hl)

theorem EachAfter.mem (h : EachAfter P l) {a : α} (ha : a ∈ l) : ∃ before, P before a := by
  obtain ⟨before, after, hl⟩ := List.append_of_mem ha
  exact ⟨before, h before a after hl⟩

/-- Members that come in groups: what holds in each group behind the groups before it. -/
theorem EachAfter.flatMap {β : Type} {groups : List β} {f : β → List α}
    (h : EachAfter (fun before g => EachAfter (fun b a => P (before.flatMap f ++ b) a) (f g))
      groups) : EachAfter P (groups.flatMap f) := by
  induction groups using List.reverseRecOn with
  | nil => exact eachAfter_nil
  | append_singleton groups g ih =>
    obtain ⟨hgroups, hg⟩ := eachAfter_concat.1 h
    rw [List.flatMap_append, List.flatMap_singleton]
    exact (ih hgroups).append hg

end EachAfter

/-! ### Finding by name -/

/-- In a list without two members of one name, a member is found by its name. -/
theorem find?_eq_some_of_mem {β : Type} [DecidableEq β] {f : α → β} {l : List α}
    (hl : (l.map f).Nodup) {a : α} (ha : a ∈ l) : l.find? (f · = f a) = some a := by
  obtain ⟨before, after, rfl⟩ := List.append_of_mem ha
  rw [List.find?_append, List.find?_cons_of_pos (by simp), Option.or_eq_some_iff]
  refine Or.inr ⟨?_, rfl⟩
  rw [List.find?_eq_none]
  intro b hb
  rw [List.map_append, List.nodup_append] at hl
  simpa using hl.2.2 (f b) (List.mem_map_of_mem hb) (f a) (by simp)

/-! ### The first one and the last one -/

/-- Either no member of a list has a property, or there is a first one that has it. -/
theorem forall_or_first {α : Type} (p : α → Prop) (l : List α) :
    (∀ a ∈ l, ¬p a) ∨
      ∃ before a after, l = before ++ a :: after ∧ (∀ b ∈ before, ¬p b) ∧ p a := by
  classical
  cases h : l.find? (p ·) with
  | none => exact Or.inl (by simpa using h)
  | some a =>
    obtain ⟨ha, before, after, hl, hbefore⟩ := List.find?_eq_some_iff_append.1 h
    exact Or.inr ⟨before, a, after, hl, by simpa using hbefore, by simpa using ha⟩

/-- The last member of a list for which there is a value: the members before it, and the value. -/
def LastSome {β : Type} (f : α → Option β) (l before : List α) (b : β) : Prop :=
  ∃ a after, l = before ++ a :: after ∧ f a = some b ∧ ∀ c ∈ after, f c = none

section LastSome

variable {β : Type} {f : α → Option β} {l before before' : List α} {a : α} {b b' : β}

theorem lastSome_concat (ha : f a = some b) : LastSome f (l ++ [a]) l b :=
  ⟨a, [], rfl, ha, by simp⟩

theorem LastSome.concat (h : LastSome f l before b) (ha : f a = none) :
    LastSome f (l ++ [a]) before b := by
  obtain ⟨c, after, rfl, hc, hafter⟩ := h
  refine ⟨c, after ++ [a], by simp, hc, ?_⟩
  intro x hx
  rcases List.mem_append.1 hx with hx | hx
  · exact hafter x hx
  · rwa [List.mem_singleton.1 hx]

theorem LastSome.exists_mem (h : LastSome f l before b) : ∃ a ∈ l, f a = some b := by
  obtain ⟨a, after, rfl, ha, -⟩ := h
  exact ⟨a, by simp, ha⟩

theorem LastSome.unique (h : LastSome f l before b) (h' : LastSome f l before' b') :
    before = before' ∧ b = b' := by
  obtain ⟨a, after, rfl, ha, hafter⟩ := h
  obtain ⟨a', after', heq, ha', hafter'⟩ := h'
  rcases List.append_eq_append_iff.1 heq with ⟨c, rfl, hc⟩ | ⟨c, rfl, hc⟩
  all_goals
    cases c with
    | nil =>
      cases hc
      rw [ha] at ha'
      exact ⟨by simp, Option.some.inj ha'⟩
    | cons x c =>
      rw [List.cons_append, List.cons.injEq] at hc
      obtain ⟨-, rfl⟩ := hc
      simp_all

end LastSome

/-! ### Adding what is not there -/

section AddNew

variable [DecidableEq α]

theorem addNew_nil (l : List α) : addNew l [] = l := rfl

theorem addNew_cons (l : List α) (a : α) (m : List α) :
    addNew l (a :: m) = addNew (if a ∈ l then l else l ++ [a]) m := by
  simp only [addNew, List.foldl_cons, List.contains_iff_mem]

theorem mem_addNew {l m : List α} {b : α} : b ∈ addNew l m ↔ b ∈ l ∨ b ∈ m := by
  induction m generalizing l with
  | nil => simp [addNew_nil]
  | cons a m ih =>
    rw [addNew_cons, ih]
    split
    · rename_i ha
      constructor
      · rintro (h | h)
        · exact Or.inl h
        · exact Or.inr (List.mem_cons_of_mem a h)
      · rintro (h | h)
        · exact Or.inl h
        · rcases List.mem_cons.1 h with rfl | h
          · exact Or.inl ha
          · exact Or.inr h
    · rw [List.mem_append, List.mem_singleton, List.mem_cons, or_assoc]

theorem nodup_addNew {l m : List α} (h : l.Nodup) : (addNew l m).Nodup := by
  induction m generalizing l with
  | nil => exact h
  | cons a m ih =>
    rw [addNew_cons]
    split
    · exact ih h
    · rename_i ha
      refine ih (List.nodup_append.2 ⟨h, List.nodup_singleton a, ?_⟩)
      rintro x hx y hy rfl
      exact ha (List.mem_singleton.1 hy ▸ hx)

/-- What is there stays in front. -/
theorem prefix_addNew (l m : List α) : l <+: addNew l m := by
  induction m generalizing l with
  | nil => exact List.prefix_rfl
  | cons a m ih =>
    rw [addNew_cons]
    refine List.IsPrefix.trans ?_ (ih _)
    split
    · exact List.prefix_rfl
    · exact List.prefix_append l [a]

theorem addNew_append (l m m' : List α) : addNew l (m ++ m') = addNew (addNew l m) m' :=
  List.foldl_append

theorem addNew_of_subset {l m : List α} (h : ∀ a ∈ m, a ∈ l) : addNew l m = l := by
  induction m with
  | nil => rfl
  | cons a m ih =>
    rw [addNew_cons, if_pos (h a List.mem_cons_self)]
    exact ih fun b hb => h b (List.mem_cons_of_mem a hb)

/-- Values that are computed from others are added each once if they come out different. -/
theorem addNew_filterMap {β : Type} [DecidableEq β] {f : β → Option α} {l : List α} {m : List β}
    (h : (l ++ (addNew [] m).filterMap f).Nodup) :
    addNew l (m.filterMap f) = l ++ (addNew [] m).filterMap f := by
  induction m using List.reverseRecOn with
  | nil => simp [addNew_nil]
  | append_singleton m b ih =>
    rw [addNew_append, addNew_cons, addNew_nil] at h ⊢
    by_cases hb : b ∈ addNew [] m
    · rw [if_pos hb] at h ⊢
      rw [List.filterMap_append, addNew_append, ih h]
      refine addNew_of_subset fun a ha => List.mem_append_right l ?_
      obtain ⟨c, hc, hca⟩ := List.mem_filterMap.1 ha
      rw [List.mem_singleton.1 hc] at hca
      exact List.mem_filterMap.2 ⟨b, hb, hca⟩
    · rw [if_neg hb, List.filterMap_append, ← List.append_assoc] at h
      rw [if_neg hb, List.filterMap_append, List.filterMap_append, addNew_append,
        ih (List.nodup_append.1 h).1, ← List.append_assoc]
      cases hf : f b with
      | none => simp [hf, addNew_nil]
      | some a =>
        have hone : [b].filterMap f = [a] := by simp [hf]
        have hfresh : a ∉ l ++ (addNew [] m).filterMap f := by
          intro ha
          exact (List.nodup_append.1 h).2.2 a ha a (by simp [hone]) rfl
        rw [hone, addNew_cons, if_neg hfresh, addNew_nil]

/-- Behind at most one value, one value that is added again and again comes last. -/
theorem getLast?_addNew {first : Option α} {m : List α} {a : α} (hm : ∀ b ∈ m, b = a)
    (hne : m ≠ []) : (addNew first.toList m).getLast? = some a := by
  obtain ⟨b, m, rfl⟩ := List.exists_cons_of_ne_nil hne
  obtain rfl : b = a := hm b List.mem_cons_self
  have hrest : ∀ c ∈ m, c = b := fun c hc => hm c (List.mem_cons_of_mem b hc)
  rw [addNew_cons]
  by_cases hb : b ∈ first.toList
  · rw [if_pos hb, addNew_of_subset fun c hc => hrest c hc ▸ hb, Option.mem_toList.1 hb]
    rfl
  · rw [if_neg hb, addNew_of_subset fun c hc => by simp [hrest c hc]]
    simp

end AddNew

end Dockerfile
