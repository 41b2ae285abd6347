import Dockerfile.Proofs.Json.Compact

/-!
# Canonical JSON

The canonical text of a value determines the value up to the order of fields: two values with one
canonical text are sorted to one value (`sorted_eq_of_canonical_eq`), and sorting keeps what every
name stands for (`lookup_of_sorted_eq`), so that the fields of two objects with one canonical text
can be compared name by name.
-/

namespace Dockerfile.Json

variable {fields : List (String × Json)} {field : String × Json} {name : String}

/-- Fields in the order of their names. -/
def InOrder (fields : List (String × Json)) : Prop := fields.Pairwise fun f g => f.1 ≤ g.1

theorem mem_insertField {other : String × Json} (h : other ∈ insertField field fields) :
    other = field ∨ other ∈ fields := by
  induction fields with
  | nil => exact Or.inl (List.mem_singleton.1 h)
  | cons first rest ih =>
    unfold insertField at h
    split at h
    · exact List.mem_cons.1 h
    · rcases List.mem_cons.1 h with rfl | h
      · exact Or.inr List.mem_cons_self
      · exact (ih h).imp_right (List.mem_cons_of_mem first)

theorem inOrder_insertField (h : InOrder fields) : InOrder (insertField field fields) := by
  induction fields with
  | nil => exact List.pairwise_singleton _ _
  | cons first rest ih =>
    obtain ⟨hfirst, hrest⟩ := List.pairwise_cons.1 h
    unfold insertField
    split
    · rename_i hlt
      have hle : field.1 ≤ first.1 := by grind
      refine List.pairwise_cons.2 ⟨?_, h⟩
      intro other hother
      rcases List.mem_cons.1 hother with rfl | hother
      · exact hle
      · exact String.le_trans hle (hfirst other hother)
    · rename_i hlt
      refine List.pairwise_cons.2 ⟨?_, ih hrest⟩
      intro other hother
      rcases mem_insertField hother with rfl | hother
      · exact String.not_lt.1 hlt
      · exact hfirst other hother

/-- A field that is put into fields in order does not hide those of its name. -/
theorem lookup_insertField {v : Json} (h : InOrder fields) {own : String} :
    (insertField (own, v) fields).lookup name = (fields ++ [(own, v)]).lookup name := by
  induction fields with
  | nil => rfl
  | cons first rest ih =>
    obtain ⟨hfirst, hrest⟩ := List.pairwise_cons.1 h
    unfold insertField
    split
    · rename_i hlt
      -- All that stands behind has a later name.
      have hlater : (first :: rest).lookup own = none := by
        rw [List.lookup_eq_none_iff]
        intro other hother
        have hle : first.1 ≤ other.1 := by
          rcases List.mem_cons.1 hother with rfl | hother
          · exact String.le_refl _
          · exact hfirst other hother
        grind
      rw [List.lookup_append]
      by_cases hname : name = own
      · subst hname
        rw [hlater, Option.none_or, List.lookup_cons_self, List.lookup_cons_self]
      · have hbeq : (name == own) = false := beq_eq_false_iff_ne.2 hname
        simp [List.lookup_cons, hbeq]
    · obtain ⟨other, w⟩ := first
      rw [List.lookup_cons, ih hrest, List.cons_append, List.lookup_cons]

theorem lookup_sortFields (fields : List (String × Json)) :
    (sortFields fields).lookup name = fields.lookup name := by
  suffices h : ∀ done, InOrder done →
      (fields.foldl (fun done field => insertField field done) done).lookup name =
        (done ++ fields).lookup name from h [] List.Pairwise.nil
  induction fields with
  | nil => simp
  | cons field rest ih =>
    intro done hdone
    rw [List.foldl_cons, ih _ (inOrder_insertField hdone), List.lookup_append,
      lookup_insertField hdone, ← List.lookup_append, List.append_assoc, List.singleton_append]

/-! ### Sorted values -/

theorem sortedItems_eq (items : List Json) : sortedItems items = items.map sorted := by
  induction items with
  | nil => rfl
  | cons v rest ih => rw [sortedItems, ih, List.map_cons]

theorem lookup_sortedFields (fields : List (String × Json)) :
    (sortedFields fields).lookup name = (fields.lookup name).map sorted := by
  induction fields with
  | nil => rfl
  | cons field rest ih =>
    obtain ⟨other, v⟩ := field
    rw [sortedFields, List.lookup_cons, List.lookup_cons, ih]
    split <;> rfl

theorem sorted_eq_of_canonical_eq {v w : Json} (h : v.canonical = w.canonical) :
    v.sorted = w.sorted :=
  compact_injective h

/-- Objects that are sorted to one object have the same names, and a name stands for values that are
sorted to one value. -/
theorem lookup_of_sorted_eq {fields fields' : List (String × Json)}
    (h : sorted (.obj fields) = sorted (.obj fields')) (name : String) :
    (fields.lookup name).map sorted = (fields'.lookup name).map sorted := by
  simp only [sorted, Json.obj.injEq] at h
  rw [← lookup_sortedFields, ← lookup_sortedFields, ← lookup_sortFields, h, lookup_sortFields]

@[simp]
theorem sorted_strings (items : List String) : sorted (.strings items) = .strings items := by
  simp [strings, sorted, sortedItems_eq, Function.comp_def]

@[simp]
theorem sorted_ofOption (value : Option String) : sorted (.ofOption value) = .ofOption value := by
  cases value <;> rfl

@[simp]
theorem sorted_ofNat? (value : Option Nat) : sorted (.ofNat? value) = .ofNat? value := by
  cases value <;> rfl

@[simp]
theorem strings_inj {items items' : List String} :
    strings items = strings items' ↔ items = items' := by
  constructor
  · intro h
    exact List.map_inj_right (fun _ _ h => Json.str.inj h) |>.1 (Json.arr.inj h)
  · rintro rfl
    rfl

@[simp]
theorem ofOption_inj {value value' : Option String} :
    ofOption value = ofOption value' ↔ value = value' := by
  cases value <;> cases value' <;> simp [ofOption]

@[simp]
theorem ofNat?_inj {value value' : Option Nat} : ofNat? value = ofNat? value' ↔ value = value' := by
  rcases value with _ | n <;> rcases value' with _ | m
  · simp
  · simp [ofNat?, nat]
  · simp [ofNat?, nat]
  · simp only [ofNat?, nat, Option.elim_some, Json.int.injEq, Option.some.injEq, Int.ofNat_inj]

end Dockerfile.Json
