import Dockerfile.Proofs.Json.Canonical
import Dockerfile.Table
import Mathlib.Data.List.Nodup

/-!
# Values up to the order of fields

An object is a table of values, and two values are the same when their objects give every name the
same value, in whatever order the names stand (`Same`). The canonical text is the same for values
that are the same, and for no others (`canonical_eq_iff`). One direction is that the text
determines the sorted value, in which every name is found as before. The other one is that fields
with names of their own (`Distinct`) have one order only.
-/

namespace Dockerfile.Json

/-- No object of the value has two fields of one name. -/
inductive Distinct : Json → Prop where
  | null : Distinct .null
  | bool (b : Bool) : Distinct (.bool b)
  | int (n : Int) : Distinct (.int n)
  | str (s : String) : Distinct (.str s)
  | arr {items : List Json} (hitems : ∀ v ∈ items, Distinct v) : Distinct (.arr items)
  | obj {fields : Table Json} (hnames : fields.names.Nodup)
    (hvalues : ∀ field ∈ fields, Distinct field.2) : Distinct (.obj fields)

attribute [simp] Distinct.null Distinct.bool Distinct.int Distinct.str

@[simp]
theorem distinct_arr {items : List Json} : (arr items).Distinct ↔ ∀ v ∈ items, v.Distinct := by
  refine ⟨fun h => ?_, .arr⟩
  cases h
  assumption

@[simp]
theorem distinct_obj {fields : Table Json} :
    (obj fields).Distinct ↔ fields.names.Nodup ∧ ∀ field ∈ fields, field.2.Distinct := by
  refine ⟨fun h => ?_, fun h => .obj h.1 h.2⟩
  cases h
  constructor <;> assumption

/-- Two values are the same: arrays place by place, objects name by name. -/
inductive Same : Json → Json → Prop where
  | null : Same .null .null
  | bool (b : Bool) : Same (.bool b) (.bool b)
  | int (n : Int) : Same (.int n) (.int n)
  | str (s : String) : Same (.str s) (.str s)
  | arr {items items' : List Json} (hlength : items.length = items'.length)
    (hitems : ∀ (n : Nat) v w, items[n]? = some v → items'[n]? = some w → Same v w) :
    Same (.arr items) (.arr items')
  | obj {fields fields' : Table Json} (hnames : ∀ name, fields.has name = fields'.has name)
    (hvalues : ∀ name v w, fields.get? name = some v → fields'.get? name = some w → Same v w) :
    Same (.obj fields) (.obj fields')

/-! ### Sorted fields -/

variable {fields fields' : Table Json}

theorem insertField_perm (field : String × Json) (fields : Table Json) :
    (insertField field fields).Perm (field :: fields) := by
  induction fields with
  | nil => exact .refl _
  | cons other rest ih =>
    unfold insertField
    split
    · exact .refl _
    · exact (ih.cons other).trans (.swap field other rest)

theorem sortFields_perm (fields : Table Json) : (sortFields fields).Perm fields := by
  suffices h : ∀ done : Table Json,
      (fields.foldl (fun done field => insertField field done) done).Perm (fields ++ done) by
    simpa [sortFields] using h []
  induction fields with
  | nil => exact fun done => .refl done
  | cons field rest ih =>
    intro done
    exact (ih _).trans (((insertField_perm field done).append_left rest).trans List.perm_middle)

theorem inOrder_sortFields (fields : Table Json) : InOrder (sortFields fields) := by
  suffices h : ∀ done, InOrder done →
      InOrder (fields.foldl (fun done field => insertField field done) done) from
    h [] List.Pairwise.nil
  induction fields with
  | nil => exact fun done hdone => hdone
  | cons field rest ih => exact fun done hdone => ih _ (inOrder_insertField hdone)

/-- Tables in which every name has the same value differ in their order only. -/
theorem perm_of_get?_eq (hnames : fields.names.Nodup) (hnames' : fields'.names.Nodup)
    (h : ∀ name, fields.get? name = fields'.get? name) : fields.Perm fields' := by
  refine (List.perm_ext_iff_of_nodup (.of_map _ hnames) (.of_map _ hnames')).2 fun field => ?_
  obtain ⟨name, v⟩ := field
  rw [← Table.get?_eq_some_iff hnames, ← Table.get?_eq_some_iff hnames', h name]

/-- Sorting leaves no difference of order. -/
theorem sortFields_eq_of_perm (hnames : fields.names.Nodup) (h : fields.Perm fields') :
    sortFields fields = sortFields fields' := by
  have hall : (sortFields fields').Perm fields := (sortFields_perm fields').trans h.symm
  refine List.Perm.eq_of_pairwise ?_ (inOrder_sortFields fields) (inOrder_sortFields fields')
    ((sortFields_perm fields).trans hall.symm)
  intro field other hfield hother hle hge
  exact List.inj_on_of_nodup_map hnames ((sortFields_perm fields).subset hfield)
    (hall.subset hother) (String.le_antisymm hle hge)

theorem names_sortedFields (fields : Table Json) :
    Table.names (sortedFields fields) = fields.names := by
  induction fields with
  | nil => rfl
  | cons field rest ih =>
    obtain ⟨name, v⟩ := field
    exact congrArg (name :: ·) ih

/-! ### Values -/

theorem same_of_sorted_eq {v w : Json} (h : v.sorted = w.sorted) : v.Same w := by
  induction v using induct generalizing w with
  | null =>
    cases w with
    | null => exact .null
    | _ => cases h
  | bool b =>
    cases w with
    | bool b' =>
      cases h
      exact .bool b
    | _ => cases h
  | int n =>
    cases w with
    | int n' =>
      cases h
      exact .int n
    | _ => cases h
  | str s =>
    cases w with
    | str s' =>
      cases h
      exact .str s
    | _ => cases h
  | arr items ih =>
    cases w with
    | arr items' =>
      have hitems : items.map sorted = items'.map sorted := by
        rw [← sortedItems_eq, ← sortedItems_eq]
        exact Json.arr.inj h
      refine .arr (by simpa using congrArg List.length hitems) fun n v w hv hw => ?_
      refine ih v (List.mem_of_getElem? hv) ?_
      have hplace := congrArg (·[n]?) hitems
      simpa only [List.getElem?_map, hv, hw, Option.map_some, Option.some.injEq] using hplace
    | _ => cases h
  | obj fields ih =>
    cases w with
    | obj fields' =>
      have hfields := lookup_of_sorted_eq h
      refine .obj (fun name => ?_) fun name v w hv hw => ?_
      · simpa only [Table.has, Table.get?, Option.isSome_map] using
          congrArg Option.isSome (hfields name)
      · refine ih (name, v) (Table.mem_of_get? hv) ?_
        have hname := hfields name
        rw [Table.get?] at hv hw
        simpa only [hv, hw, Option.map_some, Option.some.injEq] using hname
    | _ => cases h

theorem sorted_eq_of_same {v w : Json} (hv : v.Distinct) (hw : w.Distinct) (h : v.Same w) :
    v.sorted = w.sorted := by
  induction h with
  | null | bool | int | str => rfl
  | @arr items items' hlength hitems ih =>
    rw [distinct_arr] at hv hw
    rw [sorted, sorted, sortedItems_eq, sortedItems_eq]
    refine congrArg Json.arr (List.ext_getElem (by simpa using hlength) fun n hn hn' => ?_)
    rw [List.length_map] at hn hn'
    rw [List.getElem_map, List.getElem_map]
    exact ih n _ _ (List.getElem?_eq_getElem hn) (List.getElem?_eq_getElem hn')
      (hv _ (List.getElem_mem hn)) (hw _ (List.getElem_mem hn'))
  | @obj fields fields' hnames hvalues ih =>
    obtain ⟨hnodup, hv⟩ := distinct_obj.1 hv
    obtain ⟨hnodup', hw⟩ := distinct_obj.1 hw
    rw [sorted, sorted]
    rw [← names_sortedFields] at hnodup hnodup'
    refine congrArg Json.obj (sortFields_eq_of_perm hnodup (perm_of_get?_eq hnodup hnodup' ?_))
    intro name
    have hname := hnames name
    rw [Table.get?, Table.get?, lookup_sortedFields, lookup_sortedFields]
    show (fields.get? name).map sorted = (fields'.get? name).map sorted
    cases hleft : fields.get? name with
    | none =>
      cases hright : fields'.get? name with
      | none => rfl
      | some w => simp [Table.has, hleft, hright] at hname
    | some v =>
      cases hright : fields'.get? name with
      | none => simp [Table.has, hleft, hright] at hname
      | some w =>
        exact congrArg some (ih name v w hleft hright (hv _ (Table.mem_of_get? hleft))
          (hw _ (Table.mem_of_get? hright)))

/-- Two values have one canonical text exactly when they are the same. -/
theorem canonical_eq_iff {v w : Json} (hv : v.Distinct) (hw : w.Distinct) :
    v.canonical = w.canonical ↔ v.Same w := by
  constructor
  · intro h
    exact same_of_sorted_eq (sorted_eq_of_canonical_eq h)
  · intro h
    exact congrArg compact (sorted_eq_of_same hv hw h)

/-- Fields in another order at two depths, and a string with escapes. -/
theorem canonical_eq_iff_nested : ∃ v w : Json, v.Distinct ∧ w.Distinct ∧
    v = .obj [("é", .arr [.int (-10), .obj [("b", .str "\"\\\n\x01"), ("a", .null)]]),
      ("B", .bool true)] ∧
    w = .obj [("B", .bool true),
      ("é", .arr [.int (-10), .obj [("a", .null), ("b", .str "\"\\\n\x01")]])] ∧
    v.canonical =
      "\x7b\"B\":true,\"é\":[-10,\x7b\"a\":null,\"b\":\"\\\"\\\\\\n\\u0001\"\x7d]\x7d" ∧
    v.Same w := by
  refine ⟨_, _, ?hv, ?hw, rfl, rfl, by decide +kernel,
    (canonical_eq_iff ?hv ?hw).1 (by decide +kernel)⟩
  · simp [Table.names]
  · simp [Table.names]

end Dockerfile.Json
