/-!
# Dependencies

Which members a member of a finite graph needs, and in which order they can be made. Both searches
shrink the list of members not met so far; `order` keeps the path from the target to the member at
hand as a stack, and a member that is needed while it stands on that path closes a cycle.
-/

namespace Dockerfile

/-- A table that says what each member uses directly. Of two entries for a member the later one
counts. -/
structure Dependencies (α : Type) where
  entries : List (α × List α)

namespace Dependencies

variable {α : Type} [DecidableEq α] [LT α] [DecidableLT α]

/-- Puts a value into a list in increasing order, unless it is there. -/
def insertSorted (a : α) : List α → List α
  | [] => [a]
  | b :: rest => if a = b then b :: rest else if a < b then a :: b :: rest else b :: insertSorted a rest

/-- The values of a list in increasing order, each once. -/
def sortDistinct (values : List α) : List α := values.foldr insertSorted []

/-- What a member uses directly, in increasing order. -/
def uses (d : Dependencies α) (a : α) : List α :=
  match d.entries.reverse.find? (·.1 = a) with
  | some entry => sortDistinct entry.2
  | none => []

/-- The members that can be met from a target. -/
def members (d : Dependencies α) (target : α) : List α :=
  sortDistinct (target :: d.entries.flatMap fun entry => entry.1 :: entry.2)

/-! ### What a target needs -/

/-- How much there is to meet at members and behind them. -/
def unmetSize (d : Dependencies α) : List α → Nat
  | [] => 0
  | a :: rest => (d.uses a).length + 1 + unmetSize d rest

theorem unmetSize_erase {d : Dependencies α} {a : α} {unmet : List α} (h : a ∈ unmet) :
    d.unmetSize unmet = (d.uses a).length + 1 + d.unmetSize (unmet.erase a) := by
  induction unmet with
  | nil => cases h
  | cons b rest ih =>
    by_cases hb : b = a
    · rw [hb, List.erase_cons_head, unmetSize]
    · have hrest : a ∈ rest := List.mem_of_ne_of_mem (Ne.symm hb) h
      rw [List.erase_cons_tail (by simpa using hb), unmetSize, unmetSize, ih hrest]
      omega

/-- Collects what is reachable from `pending` through the members `unmet`. -/
def collect (d : Dependencies α) (unmet pending found : List α) : List α :=
  match pending with
  | [] => found
  | a :: rest =>
    if h : a ∈ unmet then
      have := d.unmetSize_erase h
      collect d (unmet.erase a) (d.uses a ++ rest) (a :: found)
    else collect d unmet rest found
termination_by d.unmetSize unmet + pending.length
decreasing_by all_goals simp_all <;> omega

/-- The target and all that it needs, directly or through others, in increasing order. -/
def closure (d : Dependencies α) (target : α) : List α :=
  sortDistinct (d.collect (d.members target) [target] [])

/-! ### The order of making -/

/-- A member that needs itself. -/
structure Cycle (α : Type) where
  member : α
  deriving DecidableEq, Repr

/-- The wording of a cycle. -/
def Cycle.message {α : Type} [ToString α] (cycle : Cycle α) : String :=
  s!"Circular dependency detected involving stage {cycle.member}"

/-- How much a stack still has to visit. -/
def pendingSize : List (α × List α) → Nat
  | [] => 0
  | frame :: rest => frame.2.length + 1 + pendingSize rest

/-- Visits what is left of the members on the stack, each with the uses it still waits for. `done`
holds the finished members, the last one first. -/
def visit (d : Dependencies α) (unmet : List α) (stack : List (α × List α)) (done : List α) :
    Except (Cycle α) (List α) :=
  match stack with
  | [] => .ok done.reverse
  | (a, []) :: outer => visit d unmet outer (a :: done)
  | (a, b :: rest) :: outer =>
    if b = a || outer.any (·.1 = b) then .error ⟨b⟩
    else if h : b ∈ unmet then
      have := d.unmetSize_erase h
      visit d (unmet.erase b) ((b, d.uses b) :: (a, rest) :: outer) done
    else visit d unmet ((a, rest) :: outer) done
termination_by d.unmetSize unmet + pendingSize stack
decreasing_by all_goals simp_all [pendingSize] <;> omega

/-- All that a target needs, each member behind what it uses and the target last. -/
def order (d : Dependencies α) (target : α) : Except (Cycle α) (List α) :=
  d.visit ((d.members target).erase target) [(target, d.uses target)] []

end Dependencies

end Dockerfile
