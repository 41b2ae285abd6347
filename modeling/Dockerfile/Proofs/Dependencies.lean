import Dockerfile.Dependencies
import Dockerfile.Proofs.Sequence
import Mathlib.Data.List.Chain
import Mathlib.Data.List.Sort
import Mathlib.Logic.Relation

/-!
# Orders of dependencies

`order` walks a graph depth first with an explicit stack. What a successful walk gives
is collected in `IsOrder`: the target and all that it needs, each once, each behind what it uses,
and the target last (`order_ok`). A walk that fails has found a cycle that the target needs
(`order_error`). Both follow from one invariant of the walk, `Walk`, which each of its steps keeps.

`closure` gives exactly what a target needs (`mem_closure`). What a target does not need has no part
in either: graphs that agree on what it needs have the same closure and the same order, or the same
cycle (`closure_congr`, `order_congr`).
-/

namespace Dockerfile.Dependencies

/-! ### Increasing lists -/

theorem mem_insertSorted {α : Type} [DecidableEq α] [LT α] [DecidableLT α] {a b : α} {l : List α} :
    b ∈ insertSorted a l ↔ b = a ∨ b ∈ l := by
  induction l with
  | nil => simp [insertSorted]
  | cons c l ih =>
    unfold insertSorted
    split
    · rename_i h
      subst h
      simp
    · split
      · simp
      · rw [List.mem_cons, ih, List.mem_cons]
        constructor
        · rintro (h | h | h)
          exacts [Or.inr (Or.inl h), Or.inl h, Or.inr (Or.inr h)]
        · rintro (h | h | h)
          exacts [Or.inr (Or.inl h), Or.inl h, Or.inr (Or.inr h)]

theorem mem_sortDistinct {α : Type} [DecidableEq α] [LT α] [DecidableLT α] {a : α} {l : List α} :
    a ∈ sortDistinct l ↔ a ∈ l := by
  induction l with
  | nil => simp [sortDistinct]
  | cons b l ih =>
    rw [sortDistinct, List.foldr_cons, mem_insertSorted, List.mem_cons]
    exact or_congr_right ih

section LinearOrder

variable {α : Type} [LinearOrder α]

theorem pairwise_insertSorted {a : α} {l : List α} (h : l.Pairwise (· < ·)) :
    (insertSorted a l).Pairwise (· < ·) := by
  induction l with
  | nil => simp [insertSorted]
  | cons c l ih =>
    obtain ⟨hc, hl⟩ := List.pairwise_cons.1 h
    unfold insertSorted
    split
    · exact h
    · split
      · rename_i hac
        refine List.pairwise_cons.2 ⟨?_, h⟩
        intro b hb
        rcases List.mem_cons.1 hb with rfl | hb
        · exact hac
        · exact lt_trans hac (hc b hb)
      · rename_i hne hac
        refine List.pairwise_cons.2 ⟨?_, ih hl⟩
        intro b hb
        rcases mem_insertSorted.1 hb with rfl | hb
        · exact lt_of_le_of_ne (not_lt.1 hac) (Ne.symm hne)
        · exact hc b hb

theorem pairwise_sortDistinct (l : List α) : (sortDistinct l).Pairwise (· < ·) := by
  induction l with
  | nil => exact List.Pairwise.nil
  | cons a l ih => exact pairwise_insertSorted ih

theorem nodup_sortDistinct (l : List α) : (sortDistinct l).Nodup :=
  (pairwise_sortDistinct l).imp ne_of_lt

end LinearOrder

/-! ### Needs -/

section Relations

variable {α : Type} [DecidableEq α] [LT α] [DecidableLT α]

/-- A member uses another one directly. -/
def Uses (d : Dependencies α) (a b : α) : Prop := b ∈ d.uses a

/-- A member needs itself and all that it uses, directly or through others. -/
def Needs (d : Dependencies α) : α → α → Prop := Relation.ReflTransGen d.Uses

end Relations

variable {α : Type} [LinearOrder α] {d : Dependencies α} {target : α}

theorem nodup_members (d : Dependencies α) (target : α) : (d.members target).Nodup :=
  nodup_sortDistinct _

theorem mem_members_of_uses {a b : α} (h : d.Uses a b) : b ∈ d.members target := by
  unfold Uses uses at h
  split at h
  · rename_i entry he
    have hmem : entry ∈ d.entries := List.mem_reverse.1 (List.mem_of_find?_eq_some he)
    rw [mem_sortDistinct] at h
    refine mem_sortDistinct.2 (List.mem_cons_of_mem _ (List.mem_flatMap.2 ⟨entry, hmem, ?_⟩))
    exact List.mem_cons_of_mem _ h
  · simp at h

theorem mem_members_of_needs {a : α} (h : d.Needs target a) : a ∈ d.members target := by
  rcases Relation.ReflTransGen.cases_tail h with rfl | ⟨b, -, hb⟩
  · exact mem_sortDistinct.2 List.mem_cons_self
  · exact mem_members_of_uses hb

/-! ### The walk -/

/-- The frames of a stack wait for uses: those that are not waited for are done, or will be when
the frames above are. -/
def Waiting (d : Dependencies α) : List α → List (α × List α) → Prop
  | _, [] => True
  | done, (a, pending) :: outer =>
    (∀ b ∈ pending, d.Uses a b) ∧ (∀ b, d.Uses a b → b ∈ pending ∨ b ∈ done) ∧
      Waiting d (a :: done) outer

theorem Waiting.mono {done done' : List α} {stack : List (α × List α)}
    (h : Waiting d done stack) (hsub : done ⊆ done') : Waiting d done' stack := by
  induction stack generalizing done done' with
  | nil => trivial
  | cons frame outer ih =>
    obtain ⟨hp, hu, ho⟩ := h
    exact ⟨hp, fun b hb => (hu b hb).imp_right (@hsub b),
      ih ho (List.cons_subset_cons frame.1 hsub)⟩

/-- What holds at every step of the walk. -/
structure Walk (d : Dependencies α) (target : α) (unmet : List α)
    (stack : List (α × List α)) (done : List α) : Prop where
  unmet_nodup : unmet.Nodup
  /-- Nothing is met twice. -/
  nodup : (stack.map Prod.fst ++ done).Nodup
  fresh : ∀ a ∈ unmet, a ∉ stack.map Prod.fst ++ done
  /-- Nothing that is needed is lost. -/
  covered : ∀ a, d.Needs target a → a ∈ unmet ∨ a ∈ stack.map Prod.fst ++ done
  needed : ∀ a ∈ stack.map Prod.fst ++ done, d.Needs target a
  waiting : Waiting d done stack
  /-- The stack is a path. -/
  path : (stack.map Prod.fst).IsChain fun b a => d.Uses a b
  settled : EachAfter (fun before a => ∀ b, d.Uses a b → b ∈ before) done.reverse
  /-- The walk starts and ends with the target. -/
  root : (stack.map Prod.fst).getLast?.or done.head? = some target

namespace Walk

variable {unmet done rest : List α} {outer : List (α × List α)} {a b : α}

theorem start (d : Dependencies α) (target : α) :
    Walk d target ((d.members target).erase target) [(target, d.uses target)] [] where
  unmet_nodup := (nodup_members d target).erase target
  nodup := by simp
  fresh := by
    intro a ha hmem
    obtain rfl : a = target := by simpa using hmem
    exact (nodup_members d _).not_mem_erase ha
  covered := by
    intro a ha
    by_cases h : a = target
    · exact Or.inr (by simp [h])
    · exact Or.inl ((List.mem_erase_of_ne h).2 (mem_members_of_needs ha))
  needed := by
    intro a ha
    obtain rfl : a = target := by simpa using ha
    exact Relation.ReflTransGen.refl
  waiting := ⟨fun _ h => h, fun _ h => Or.inl h, trivial⟩
  path := List.isChain_singleton _
  settled := eachAfter_nil
  root := rfl

theorem needs_pending (w : Walk d target unmet ((a, b :: rest) :: outer) done) :
    d.Needs target b :=
  (w.needed a (by simp)).tail (w.waiting.1 b List.mem_cons_self)

/-- A member whose uses are all done is done. -/
theorem finish (w : Walk d target unmet ((a, []) :: outer) done) :
    Walk d target unmet outer (a :: done) := by
  have hperm : (outer.map Prod.fst ++ a :: done).Perm (((a, []) :: outer).map Prod.fst ++ done) :=
    List.perm_middle
  exact {
    unmet_nodup := w.unmet_nodup
    nodup := hperm.nodup_iff.2 w.nodup
    fresh := fun x hx hmem => w.fresh x hx (hperm.mem_iff.1 hmem)
    covered := fun x hx => (w.covered x hx).imp_right hperm.mem_iff.2
    needed := fun x hx => w.needed x (hperm.mem_iff.1 hx)
    waiting := w.waiting.2.2
    path := w.path.tail
    settled := by
      rw [List.reverse_cons, eachAfter_concat]
      refine ⟨w.settled, ?_⟩
      intro b hb
      exact List.mem_reverse.2 ((w.waiting.2.1 b hb).resolve_left (by simp))
    root := by
      have h := w.root
      cases outer with
      | nil => simpa using h
      | cons frame outer =>
        rw [List.map_cons, List.map_cons, List.getLast?_cons_cons] at h
        simpa [List.getLast?_cons] using h }

/-- A use that is not met yet is entered. -/
theorem enter (w : Walk d target unmet ((a, b :: rest) :: outer) done) (hb : b ∈ unmet) :
    Walk d target (unmet.erase b) ((b, d.uses b) :: (a, rest) :: outer) done := by
  have huse : d.Uses a b := w.waiting.1 b List.mem_cons_self
  exact {
    unmet_nodup := w.unmet_nodup.erase b
    nodup := List.nodup_cons.2 ⟨w.fresh b hb, w.nodup⟩
    fresh := by
      intro x hx hmem
      rcases List.mem_cons.1 hmem with rfl | hmem
      · exact w.unmet_nodup.not_mem_erase hx
      · exact w.fresh x (List.mem_of_mem_erase hx) hmem
    covered := by
      intro x hx
      by_cases h : x = b
      · exact Or.inr (by simp [h])
      · rcases w.covered x hx with hu | hs
        · exact Or.inl ((List.mem_erase_of_ne h).2 hu)
        · exact Or.inr (List.mem_cons_of_mem b hs)
    needed := by
      intro x hx
      rcases List.mem_cons.1 hx with rfl | hx
      · exact (w.needed a (by simp)).tail huse
      · exact w.needed x hx
    waiting := by
      obtain ⟨hp, hu, ho⟩ := w.waiting
      refine ⟨fun _ h => h, fun _ h => Or.inl h, fun x hx => hp x (List.mem_cons_of_mem b hx), ?_,
        ho.mono (List.cons_subset_cons a (List.subset_cons_self b done))⟩
      intro x hx
      rcases hu x hx with h | h
      · rcases List.mem_cons.1 h with rfl | h
        · exact Or.inr List.mem_cons_self
        · exact Or.inl h
      · exact Or.inr (List.mem_cons_of_mem b h)
    path := List.isChain_cons_cons.2 ⟨huse, w.path⟩
    settled := w.settled
    root := by simpa [List.getLast?_cons_cons] using w.root }

/-- A use that is done is passed over. -/
theorem skip (w : Walk d target unmet ((a, b :: rest) :: outer) done) (hb : b ∉ unmet)
    (hstack : b ∉ a :: outer.map Prod.fst) : Walk d target unmet ((a, rest) :: outer) done := by
  obtain ⟨hp, hu, ho⟩ := w.waiting
  have hneeds : d.Needs target b := w.needs_pending
  have hdone : b ∈ done := by
    rcases List.mem_append.1 ((w.covered b hneeds).resolve_left hb) with h | h
    · exact absurd h hstack
    · exact h
  refine { w with waiting := ⟨fun x hx => hp x (List.mem_cons_of_mem b hx), ?_, ho⟩ }
  intro x hx
  rcases hu x hx with h | h
  · rcases List.mem_cons.1 h with rfl | h
    · exact Or.inr hdone
    · exact Or.inl h
  · exact Or.inr h

end Walk

theorem needs_of_isChain {l : List α} {a b : α} (h : (a :: l).IsChain fun b a => d.Uses a b)
    (hb : b ∈ a :: l) : d.Needs b a := by
  induction l generalizing a with
  | nil =>
    obtain rfl : b = a := by simpa using hb
    exact Relation.ReflTransGen.refl
  | cons c l ih =>
    obtain ⟨hca, hl⟩ := List.isChain_cons_cons.1 h
    rcases List.mem_cons.1 hb with rfl | hb
    · exact Relation.ReflTransGen.refl
    · exact (ih hl hb).tail hca

/-- An order in which all that a target needs can be made. -/
structure IsOrder (d : Dependencies α) (target : α) (order : List α) : Prop where
  nodup : order.Nodup
  mem_iff : ∀ a, a ∈ order ↔ d.Needs target a
  after : EachAfter (fun before a => ∀ b, d.Uses a b → b ∈ before) order
  last : order.getLast? = some target

/-- What the walk finds: an order, or a member that the target needs and that needs itself. -/
def Finds (d : Dependencies α) (target : α) : Except (Cycle α) (List α) → Prop
  | .ok order => d.IsOrder target order
  | .error cycle =>
    d.Needs target cycle.member ∧ Relation.TransGen d.Uses cycle.member cycle.member

theorem Walk.isOrder {unmet done : List α} (w : Walk d target unmet [] done) :
    d.IsOrder target done.reverse := by
  have htarget : done.head? = some target := by simpa using w.root
  -- What is done is closed under uses, so nothing that is needed can be missing at the end.
  have hclosed : ∀ a, d.Needs target a → a ∈ done.reverse := by
    intro a ha
    induction ha with
    | refl => exact List.mem_reverse.2 (List.mem_of_head? htarget)
    | tail _ hbc ih =>
      obtain ⟨before, after, h⟩ := List.append_of_mem ih
      rw [h]
      exact List.mem_append_left _ (w.settled before _ after h _ hbc)
  exact {
    nodup := List.nodup_reverse.2 (by simpa using w.nodup)
    mem_iff := fun a => ⟨fun h => w.needed a (by simpa using h), hclosed a⟩
    after := w.settled
    last := by rw [List.getLast?_reverse, htarget] }

theorem finds_visit {unmet done : List α} {stack : List (α × List α)}
    (w : Walk d target unmet stack done) : d.Finds target (d.visit unmet stack done) := by
  fun_induction visit d unmet stack done with
  | case1 unmet done => exact w.isOrder
  | case2 unmet done a outer ih => exact ih w.finish
  | case3 unmet done a b rest outer hstack =>
    have huse : d.Uses a b := w.waiting.1 b List.mem_cons_self
    have hmem : b ∈ a :: outer.map Prod.fst := by simpa [List.mem_cons] using hstack
    exact ⟨w.needs_pending,
      Relation.TransGen.tail' (needs_of_isChain w.path hmem) huse⟩
  | case4 unmet done a b rest outer hstack hb _ ih => exact ih (w.enter hb)
  | case5 unmet done a b rest outer hstack hb ih =>
    exact ih (w.skip hb (by simpa [List.mem_cons] using hstack))

theorem order_ok {order : List α} (h : d.order target = .ok order) : d.IsOrder target order := by
  have := finds_visit (Walk.start d target)
  rwa [show d.visit _ _ _ = .ok order from h] at this

theorem order_error {cycle : Cycle α} (h : d.order target = .error cycle) :
    d.Needs target cycle.member ∧ Relation.TransGen d.Uses cycle.member cycle.member := by
  have := finds_visit (Walk.start d target)
  rwa [show d.visit _ _ _ = .error cycle from h] at this

/-! ### The closure -/

/-- What holds at every step of the search. -/
structure Search (d : Dependencies α) (target : α) (unmet pending found : List α) : Prop where
  pending_needed : ∀ a ∈ pending, d.Needs target a
  found_needed : ∀ a ∈ found, d.Needs target a
  unmet_nodup : unmet.Nodup
  found_nodup : found.Nodup
  fresh : ∀ a ∈ unmet, a ∉ found
  /-- Nothing that is needed is lost. -/
  covered : ∀ a, d.Needs target a → a ∈ unmet ∨ a ∈ found
  /-- What is found waits for nothing but what is pending. -/
  settled : ∀ a ∈ found, ∀ b, d.Uses a b → b ∈ pending ∨ b ∈ found
  root : target ∈ pending ∨ target ∈ found

namespace Search

variable {unmet pending found rest : List α} {a : α}

theorem start (d : Dependencies α) (target : α) :
    Search d target (d.members target) [target] [] where
  pending_needed := by
    intro a ha
    rw [List.mem_singleton.1 ha]
    exact Relation.ReflTransGen.refl
  found_needed := by simp
  unmet_nodup := nodup_members d target
  found_nodup := List.nodup_nil
  fresh := by simp
  covered := fun a ha => Or.inl (mem_members_of_needs ha)
  settled := by simp
  root := Or.inl List.mem_cons_self

/-- A member that is met for the first time. -/
theorem meet (w : Search d target unmet (a :: rest) found) (hfirst : a ∈ unmet) :
    Search d target (unmet.erase a) (d.uses a ++ rest) (a :: found) := by
  have ha : d.Needs target a := w.pending_needed a List.mem_cons_self
  exact {
    pending_needed := by
      intro b hb
      rcases List.mem_append.1 hb with hb | hb
      · exact ha.tail hb
      · exact w.pending_needed b (List.mem_cons_of_mem a hb)
    found_needed := by
      intro b hb
      rcases List.mem_cons.1 hb with rfl | hb
      · exact ha
      · exact w.found_needed b hb
    unmet_nodup := w.unmet_nodup.erase a
    found_nodup := List.nodup_cons.2 ⟨w.fresh a hfirst, w.found_nodup⟩
    fresh := by
      intro b hb hmem
      rcases List.mem_cons.1 hmem with rfl | hmem
      · exact w.unmet_nodup.not_mem_erase hb
      · exact w.fresh b (List.mem_of_mem_erase hb) hmem
    covered := by
      intro b hb
      by_cases h : b = a
      · exact Or.inr (by simp [h])
      · rcases w.covered b hb with hu | hf
        · exact Or.inl ((List.mem_erase_of_ne h).2 hu)
        · exact Or.inr (List.mem_cons_of_mem a hf)
    settled := by
      intro b hb c hc
      rcases List.mem_cons.1 hb with rfl | hb
      · exact Or.inl (List.mem_append_left rest hc)
      · rcases w.settled b hb c hc with h | h
        · rcases List.mem_cons.1 h with rfl | h
          · exact Or.inr List.mem_cons_self
          · exact Or.inl (List.mem_append_right _ h)
        · exact Or.inr (List.mem_cons_of_mem a h)
    root := by
      rcases w.root with h | h
      · rcases List.mem_cons.1 h with h | h
        · exact Or.inr (by simp [h])
        · exact Or.inl (List.mem_append_right _ h)
      · exact Or.inr (List.mem_cons_of_mem a h) }

theorem mem_found (w : Search d target unmet (a :: rest) found) (ha : a ∉ unmet) : a ∈ found :=
  (w.covered a (w.pending_needed a List.mem_cons_self)).resolve_left ha

/-- A member that is met once more. -/
theorem skip (w : Search d target unmet (a :: rest) found) (ha : a ∉ unmet) :
    Search d target unmet rest found := by
  have hfound : a ∈ found := w.mem_found ha
  have hpending : ∀ b, b ∈ a :: rest ∨ b ∈ found → b ∈ rest ∨ b ∈ found := by
    rintro b (h | h)
    · rcases List.mem_cons.1 h with rfl | h
      · exact Or.inr hfound
      · exact Or.inl h
    · exact Or.inr h
  exact { w with
    pending_needed := fun b hb => w.pending_needed b (List.mem_cons_of_mem a hb)
    settled := fun b hb c hc => hpending c (w.settled b hb c hc)
    root := hpending target w.root }

theorem mem_iff (w : Search d target unmet [] found) : a ∈ found ↔ d.Needs target a := by
  constructor
  · exact w.found_needed a
  · intro ha
    induction ha with
    | refl => exact w.root.resolve_left (by simp)
    | tail _ hbc ih => exact (w.settled _ ih _ hbc).resolve_left (by simp)

end Search

theorem mem_collect {unmet pending found : List α} (w : Search d target unmet pending found)
    {a : α} : a ∈ d.collect unmet pending found ↔ d.Needs target a := by
  fun_induction collect d unmet pending found with
  | case1 unmet found => exact w.mem_iff
  | case2 unmet found b rest hb _ ih => exact ih (w.meet hb)
  | case3 unmet found b rest hb ih => exact ih (w.skip hb)

theorem mem_closure {a : α} : a ∈ d.closure target ↔ d.Needs target a := by
  rw [closure, mem_sortDistinct]
  exact mem_collect (Search.start d target)

/-! ### Graphs that agree on what a target needs -/

section Agreement

variable {d' : Dependencies α}

section

variable (h : ∀ a, d.Needs target a → d'.uses a = d.uses a)

include h

theorem needs_congr {a : α} : d'.Needs target a ↔ d.Needs target a := by
  constructor
  · intro ha
    induction ha with
    | refl => exact Relation.ReflTransGen.refl
    | tail _ huse ih =>
      unfold Uses at huse
      rw [h _ ih] at huse
      exact ih.tail huse
  · intro ha
    induction ha with
    | refl => exact Relation.ReflTransGen.refl
    | @tail b c hb huse ih =>
      refine ih.tail ?_
      unfold Uses
      rw [h b hb]
      exact huse

theorem closure_congr : d'.closure target = d.closure target := by
  have hmem : ∀ a, a ∈ d'.closure target ↔ a ∈ d.closure target := by
    intro a
    rw [mem_closure, mem_closure, needs_congr h]
  exact (pairwise_sortDistinct _).eq_of_mem_iff (pairwise_sortDistinct _) hmem

theorem visit_congr {unmet unmet' : List α} {stack : List (α × List α)} {done : List α}
    (w : Walk d target unmet stack done) (hnodup : unmet'.Nodup)
    (hunmet : ∀ a, d.Needs target a → (a ∈ unmet' ↔ a ∈ unmet)) :
    d'.visit unmet' stack done = d.visit unmet stack done := by
  fun_induction visit d unmet stack done generalizing unmet' with
  | case1 unmet done =>
    rw [visit]
  | case2 unmet done a outer ih =>
    rw [visit]
    exact ih w.finish hnodup hunmet
  | case3 unmet done a b rest outer hstack =>
    rw [visit, if_pos hstack]
  | case4 unmet done a b rest outer hstack hb _ ih =>
    have hneeds : d.Needs target b := w.needs_pending
    have hb' : b ∈ unmet' := (hunmet b hneeds).2 hb
    rw [visit, if_neg hstack, dif_pos hb']
    dsimp only
    rw [h b hneeds]
    refine ih (w.enter hb) (hnodup.erase b) fun c hc => ?_
    rw [hnodup.mem_erase_iff, w.unmet_nodup.mem_erase_iff, hunmet c hc]
  | case5 unmet done a b rest outer hstack hb ih =>
    have hb' : b ∉ unmet' := mt (hunmet b w.needs_pending).1 hb
    rw [visit, if_neg hstack, dif_neg hb']
    exact ih (w.skip hb (by simpa [List.mem_cons] using hstack)) hnodup hunmet

theorem order_congr : d'.order target = d.order target := by
  unfold order
  rw [h target Relation.ReflTransGen.refl]
  refine visit_congr h (Walk.start d target) ((nodup_members d' target).erase target) fun a ha => ?_
  have hmem : a ∈ d.members target := mem_members_of_needs ha
  have hmem' : a ∈ d'.members target := mem_members_of_needs ((needs_congr h).2 ha)
  rw [(nodup_members d' target).mem_erase_iff, (nodup_members d target).mem_erase_iff]
  exact and_congr_right fun _ => iff_of_true hmem' hmem

end

end Agreement

end Dockerfile.Dependencies
