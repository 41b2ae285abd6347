import Dockerfile.Proofs.Dependencies

/-!
# Searches of a graph

What the two searches of `Dependencies` give, said of the table that they search. An `Edge` is what
the last entry of a member lists. `closure` comes from a loop that holds nothing but what is pending
and what has been found (`turn`), and this loop ends: it takes one turn for the target and one for
each edge that can be reached (`iterate_turn`). `order` gives an order of the same members, in which
each of them stands behind all that it needs (`IsOrder.mem_before`), so a cycle that the target
reaches leaves no order, and `order` names a member of such a cycle.
-/

namespace Dockerfile.Dependencies

/-! ### Edges -/

/-- The table has an edge between two members: the last entry of the one lists the other. -/
def Edge {α : Type} (d : Dependencies α) (a b : α) : Prop :=
  ∃ before listed after,
    d.entries = before ++ (a, listed) :: after ∧ a ∉ after.map Prod.fst ∧ b ∈ listed

variable {α : Type} [LinearOrder α] {d : Dependencies α} {target : α}

theorem uses_iff_edge {a b : α} : d.Uses a b ↔ d.Edge a b := by
  unfold Uses uses Edge
  constructor
  · intro h
    split at h
    · rename_i entry hentry
      obtain ⟨hname, after, before, hsplit, hafter⟩ := List.find?_eq_some_iff_append.1 hentry
      obtain rfl : entry.1 = a := by simpa using hname
      refine ⟨before.reverse, entry.2, after.reverse, ?_, ?_, mem_sortDistinct.1 h⟩
      · simpa using congrArg List.reverse hsplit
      · intro hmem
        obtain ⟨other, hother, hsame⟩ := List.mem_map.1 hmem
        have := hafter other (List.mem_reverse.1 hother)
        simp [hsame] at this
    · simp at h
  · rintro ⟨before, listed, after, hentries, hlast, hb⟩
    have hfind : d.entries.reverse.find? (·.1 = a) = some (a, listed) := by
      refine List.find?_eq_some_iff_append.2 ⟨by simp, after.reverse, before.reverse, ?_, ?_⟩
      · simp [hentries]
      · intro other hother
        have hne : other.1 ≠ a := by
          rintro rfl
          exact hlast (List.mem_map_of_mem (List.mem_reverse.1 hother))
        simpa using hne
    rw [hfind]
    exact mem_sortDistinct.2 hb

theorem uses_eq_edge : d.Uses = d.Edge :=
  funext fun _ => funext fun _ => propext uses_iff_edge

/-! ### The loop of the closure -/

/-- One turn of the loop: the next pending member is taken out. The first time it is met it counts as
found, and what it uses is pending instead. -/
def turn (d : Dependencies α) : List α × List α → List α × List α
  | ([], found) => ([], found)
  | (a :: rest, found) => if a ∈ found then (rest, found) else (d.uses a ++ rest, a :: found)

/-- How many edges start at members. -/
def edgeCount (d : Dependencies α) (members : List α) : Nat := (members.flatMap d.uses).length

theorem edgeCount_cons (a : α) (l : List α) :
    d.edgeCount (a :: l) = (d.uses a).length + d.edgeCount l := by
  simp [edgeCount]

/-- The loop finds what `collect` collects. What is put in over the whole run is taken out again, so
the number of its turns is known. -/
theorem iterate_turn {unmet pending found : List α} (w : Search d target unmet pending found) :
    ∃ n, d.turn^[n] (pending, found) = ([], d.collect unmet pending found) ∧
      n + d.edgeCount found = pending.length + d.edgeCount (d.collect unmet pending found) := by
  fun_induction collect d unmet pending found with
  | case1 unmet found => exact ⟨0, rfl, by simp⟩
  | case2 unmet found a rest ha _ ih =>
    obtain ⟨n, hrun, hcount⟩ := ih (w.meet ha)
    refine ⟨n + 1, ?_, ?_⟩
    · rw [Function.iterate_succ_apply, turn, if_neg (w.fresh a ha)]
      exact hrun
    · rw [edgeCount_cons, List.length_append] at hcount
      rw [List.length_cons]
      omega
  | case3 unmet found a rest ha ih =>
    obtain ⟨n, hrun, hcount⟩ := ih (w.skip ha)
    refine ⟨n + 1, ?_, ?_⟩
    · rw [Function.iterate_succ_apply, turn, if_pos (w.mem_found ha)]
      exact hrun
    · rw [List.length_cons]
      omega

theorem nodup_collect {unmet pending found : List α} (w : Search d target unmet pending found) :
    (d.collect unmet pending found).Nodup := by
  fun_induction collect d unmet pending found with
  | case1 unmet found => exact w.found_nodup
  | case2 unmet found a rest ha _ ih => exact ih (w.meet ha)
  | case3 unmet found a rest ha ih => exact ih (w.skip ha)

theorem sortDistinct_perm {l : List α} (h : l.Nodup) : (sortDistinct l).Perm l :=
  (List.perm_ext_iff_of_nodup (nodup_sortDistinct l) h).2 fun _ => mem_sortDistinct

/-- From the target on, the loop ends with the closure, after one turn for the target and one for
each edge that starts in the closure. -/
theorem exists_iterate_turn (d : Dependencies α) (target : α) :
    ∃ found, d.turn^[1 + d.edgeCount (d.closure target)] ([target], []) = ([], found) ∧
      d.closure target = sortDistinct found := by
  have w := Search.start d target
  obtain ⟨n, hrun, hcount⟩ := iterate_turn w
  refine ⟨_, ?_, rfl⟩
  have hperm : (d.closure target).Perm (d.collect (d.members target) [target] []) :=
    sortDistinct_perm (nodup_collect w)
  have hcounts : d.edgeCount (d.closure target) =
      d.edgeCount (d.collect (d.members target) [target] []) :=
    (hperm.flatMap_right d.uses).length_eq
  have hn : n = 1 + d.edgeCount (d.closure target) := by
    rw [hcounts]
    simpa [edgeCount] using hcount
  rw [← hn]
  exact hrun

/-! ### Orders and cycles -/

/-- In an order, all that a member needs besides itself stands before it. -/
theorem IsOrder.mem_before {order before after : List α} {a b : α} (h : d.IsOrder target order)
    (horder : order = before ++ a :: after) (hab : Relation.TransGen d.Uses a b) : b ∈ before := by
  induction hab with
  | single huse => exact h.after before a after horder _ huse
  | tail _ huse ih =>
    -- The member before `b` on the way stands before `a`, and `b` stands before that one.
    obtain ⟨first, second, hbefore⟩ := List.append_of_mem ih
    have hb := h.after first _ (second ++ a :: after) (by rw [horder, hbefore]; simp) _ huse
    rw [hbefore]
    exact List.mem_append_left _ hb

theorem IsOrder.not_cycle {order : List α} {a : α} (h : d.IsOrder target order)
    (ha : d.Needs target a) : ¬Relation.TransGen d.Uses a a := by
  intro hcycle
  obtain ⟨before, after, horder⟩ := List.append_of_mem ((h.mem_iff a).2 ha)
  have hnodup := h.nodup
  rw [horder] at hnodup
  have hmem : a ∈ before := h.mem_before horder hcycle
  exact (List.nodup_append.1 hnodup).2.2 a hmem a List.mem_cons_self rfl

theorem order_fails {a : α} (ha : d.Needs target a) (hcycle : Relation.TransGen d.Uses a a) :
    ∃ cycle, d.order target = .error cycle := by
  cases horder : d.order target with
  | error cycle => exact ⟨cycle, rfl⟩
  | ok order => exact absurd hcycle ((order_ok horder).not_cycle ha)

/-! ### Both searches -/

/-- The loop that finds the closure of a target ends, and the closure is what can be reached from the
target. An order, if there is one, has the members of the closure, each once, each behind all that
it has an edge to, and the target last. -/
theorem closure_order_reach (d : Dependencies α) (target : α) :
    (∃ found, d.turn^[1 + d.edgeCount (d.closure target)] ([target], []) = ([], found) ∧
      d.closure target = sortDistinct found) ∧
    (d.closure target).Nodup ∧
    (∀ a, a ∈ d.closure target ↔ Relation.ReflTransGen d.Edge target a) ∧
    ∀ order, d.order target = .ok order →
      order.Nodup ∧ (∀ a, a ∈ order ↔ a ∈ d.closure target) ∧
        EachAfter (fun before a => ∀ b, d.Edge a b → b ∈ before) order ∧
        order.getLast? = some target := by
  refine ⟨exists_iterate_turn d target, nodup_sortDistinct _, ?_, ?_⟩
  · intro a
    rw [mem_closure, Needs, uses_eq_edge]
  · intro order horder
    have h := order_ok horder
    refine ⟨h.nodup, fun a => (h.mem_iff a).trans mem_closure.symm, ?_, h.last⟩
    rw [← uses_eq_edge]
    exact h.after

/-- Two members that share what they use, one of them listed twice, an entry that is replaced, and a
cycle elsewhere. -/
theorem closure_order_reach_shared :
    let d : Dependencies Int := ⟨[(3, [9]), (1, [0]), (2, [0, -4]), (3, [2, 1, 2]), (5, [5])]⟩
    d.order 3 = .ok [0, 1, -4, 2, 3] ∧ d.closure 3 = [-4, 0, 1, 2, 3] ∧
      (∀ a, a ∈ [0, 1, -4, 2, 3] ↔ a ∈ d.closure 3) ∧
      EachAfter (fun before a => ∀ b, d.Edge a b → b ∈ before) [0, 1, -4, 2, 3] ∧
      (∃ found, d.turn^[6] ([3], []) = ([], found) ∧ d.closure 3 = sortDistinct found) := by
  intro d
  have horder : d.order 3 = .ok [0, 1, -4, 2, 3] := by decide +kernel
  have hclosure : d.closure 3 = [-4, 0, 1, 2, 3] := by decide +kernel
  have hcount : d.edgeCount [-4, 0, 1, 2, 3] = 5 := by decide +kernel
  obtain ⟨hturns, -, -, hreach⟩ := closure_order_reach d 3
  obtain ⟨-, hmem, hafter, -⟩ := hreach _ horder
  rw [hclosure, hcount] at hturns
  exact ⟨horder, hclosure, hmem, hafter, hclosure ▸ hturns⟩

/-- There is no order just if the target reaches a cycle, and what is told then names a member of
such a cycle. -/
theorem order_fails_iff_cycle [ToString α] (d : Dependencies α) (target : α) :
    ((∃ cycle, d.order target = .error cycle) ↔
      ∃ a, Relation.ReflTransGen d.Edge target a ∧ Relation.TransGen d.Edge a a) ∧
    ∀ cycle, d.order target = .error cycle →
      cycle.message = "Circular dependency detected involving stage " ++ toString cycle.member ∧
        Relation.ReflTransGen d.Edge target cycle.member ∧
        Relation.TransGen d.Edge cycle.member cycle.member := by
  rw [← uses_eq_edge]
  refine ⟨⟨?_, ?_⟩, ?_⟩
  · rintro ⟨cycle, h⟩
    exact ⟨cycle.member, order_error h⟩
  · rintro ⟨a, ha, hcycle⟩
    exact order_fails ha hcycle
  · intro cycle h
    exact ⟨rfl, order_error h⟩

/-- A member that is used twice makes no cycle, and a cycle behind it is found. -/
theorem order_fails_iff_cycle_behind :
    let d : Dependencies Int := ⟨[(0, [2, 1, 3]), (1, [2]), (3, [4]), (4, [2, 3])]⟩
    d.order 1 = .ok [2, 1] ∧ d.order 0 = .error ⟨3⟩ ∧
      Cycle.message (Cycle.mk (3 : Int)) = "Circular dependency detected involving stage 3" ∧
      Relation.ReflTransGen d.Edge 0 3 ∧ Relation.TransGen d.Edge 3 3 := by
  intro d
  have hfails : d.order 0 = .error ⟨3⟩ := by decide +kernel
  obtain ⟨hmessage, hcycle⟩ := (order_fails_iff_cycle d 0).2 ⟨3⟩ hfails
  exact ⟨by decide +kernel, hfails, hmessage, hcycle⟩

end Dockerfile.Dependencies
