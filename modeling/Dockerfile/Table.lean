/-!
# Tables

A table maps names to values and keeps the order in which its names came. Setting a name that is
there changes its value and not its place.
-/

namespace Dockerfile

/-- Names with values, in the order in which the names came. -/
abbrev Table (α : Type) := List (String × α)

namespace Table

variable {α : Type}

/-- The value of a name. -/
def get? (t : Table α) (name : String) : Option α := List.lookup name t

/-- Has the table a value for a name? -/
def has (t : Table α) (name : String) : Bool := (get? t name).isSome

/-- The names of a table. -/
def names (t : Table α) : List String := t.map Prod.fst

/-- Sets the value of a name. -/
def set (name : String) (value : α) : Table α → Table α
  | [] => [(name, value)]
  | (other, old) :: rest =>
    if other = name then (name, value) :: rest else (other, old) :: set name value rest

/-- Sets names one after the other. -/
def update (t : Table α) (entries : List (String × α)) : Table α :=
  entries.foldl (fun t entry => set entry.1 entry.2 t) t

/-- A table of entries, of which a later one for a name replaces an earlier one. -/
def ofList (entries : List (String × α)) : Table α := update [] entries

theorem get?_set (t : Table α) (name other : String) (value : α) :
    get? (set name value t) other = if other = name then some value else get? t other := by
  induction t with
  | nil =>
    by_cases h : other = name
    · simp [set, get?, h]
    · have : (other == name) = false := by simpa using h
      simp [set, get?, List.lookup_cons, h, this]
  | cons entry rest ih =>
    obtain ⟨n, v⟩ := entry
    simp only [set]
    split
    · rename_i hn
      subst hn
      by_cases h : other = n
      · simp [get?, h]
      · have : (other == n) = false := by simpa using h
        simp [get?, List.lookup_cons, h, this]
    · rename_i hn
      simp only [get?, List.lookup_cons] at ih ⊢
      by_cases h : other = n
      · subst h
        simp [hn]
      · have : (other == n) = false := by simpa using h
        rw [this]
        exact ih

theorem names_set (t : Table α) (name : String) (value : α) :
    names (set name value t) = if name ∈ names t then names t else names t ++ [name] := by
  induction t with
  | nil => rfl
  | cons entry rest ih =>
    obtain ⟨n, v⟩ := entry
    simp only [set, names, List.map_cons, List.mem_cons] at ih ⊢
    split
    · rename_i h
      simp [h]
    · rename_i h
      have h' : ¬name = n := fun e => h e.symm
      simp only [List.map_cons, h', false_or, ih]
      split <;> simp_all

theorem nodup_names_set {t : Table α} (h : (names t).Nodup) (name : String) (value : α) :
    (names (set name value t)).Nodup := by
  rw [names_set]
  split
  · exact h
  · rename_i hname
    refine List.nodup_append.2 ⟨h, by simp, ?_⟩
    rintro other hother _ hsame rfl
    exact hname (List.mem_singleton.1 hsame ▸ hother)

theorem nodup_names_update {t : Table α} (h : (names t).Nodup) (entries : List (String × α)) :
    (names (update t entries)).Nodup := by
  induction entries generalizing t with
  | nil => exact h
  | cons entry rest ih => exact ih (nodup_names_set h entry.1 entry.2)

theorem nodup_names_ofList (entries : List (String × α)) : (names (ofList entries)).Nodup :=
  nodup_names_update (t := []) List.nodup_nil entries

/-- Of the entries that are set one after the other, the last one for a name counts. -/
theorem get?_update (t : Table α) (entries : List (String × α)) (name : String) :
    get? (update t entries) name = (get? entries.reverse name).or (get? t name) := by
  induction entries generalizing t with
  | nil => rfl
  | cons entry rest ih =>
    obtain ⟨n, value⟩ := entry
    have hone : get? [(n, value)] name = if name = n then some value else none := by
      by_cases h : name = n
      · simp [get?, h]
      · have : (name == n) = false := by simpa using h
        simp [get?, List.lookup_cons, h, this]
    show get? (update (set n value t) rest) name = _
    rw [ih, get?_set, List.reverse_cons]
    unfold get? at hone ⊢
    rw [List.lookup_append, hone, Option.or_assoc]
    split <;> rfl

theorem mem_of_get? {t : Table α} {name : String} {value : α} (h : get? t name = some value) :
    (name, value) ∈ t := by
  obtain ⟨before, after, rfl, -⟩ := List.lookup_eq_some_iff.1 h
  simp

/-- In a table without two entries for a name, the entry of a name is found. -/
theorem get?_eq_some_iff {t : Table α} (h : (names t).Nodup) {name : String} {value : α} :
    get? t name = some value ↔ (name, value) ∈ t := by
  refine ⟨mem_of_get?, fun hmem => ?_⟩
  induction t with
  | nil => cases hmem
  | cons entry rest ih =>
    obtain ⟨n, v⟩ := entry
    simp only [names, List.map_cons, List.nodup_cons, List.mem_map, not_exists, not_and] at h
    rcases List.mem_cons.1 hmem with heq | hmem
    · cases heq
      simp [get?]
    · have hne : (name == n) = false := by simpa using fun heq => h.1 _ hmem heq
      rw [get?, List.lookup_cons, hne]
      exact ih h.2 hmem

/-- An update by a table takes the values of that table first. -/
theorem get?_update_of_nodup (t : Table α) {u : Table α} (h : (names u).Nodup) (name : String) :
    get? (update t u) name = (get? u name).or (get? t name) := by
  have hreverse : get? u.reverse name = get? u name := by
    have hnodup : (names u.reverse).Nodup := by
      rw [names, List.map_reverse]
      exact List.pairwise_reverse.2 (h.imp Ne.symm)
    refine Option.ext fun value => ?_
    rw [get?_eq_some_iff hnodup, get?_eq_some_iff h, List.mem_reverse]
  rw [get?_update, hreverse]

theorem get?_ofList (entries : List (String × α)) (name : String) :
    get? (ofList entries) name = get? entries.reverse name := by
  rw [ofList, get?_update]
  exact Option.or_none

/-- A table of entries has for each name the value of its last entry. -/
theorem get?_ofList_eq_some_iff {entries : List (String × α)} {name : String} {value : α} :
    get? (ofList entries) name = some value ↔
      ∃ before after, entries = before ++ (name, value) :: after ∧ name ∉ names after := by
  rw [get?_ofList, get?, List.lookup_eq_some_iff]
  constructor
  · rintro ⟨after, before, hentries, hafter⟩
    refine ⟨before.reverse, after.reverse, by simpa using congrArg List.reverse hentries, ?_⟩
    intro hmem
    obtain ⟨entry, hentry, rfl⟩ := List.mem_map.1 hmem
    simpa using hafter entry (List.mem_reverse.1 hentry)
  · rintro ⟨before, after, rfl, hafter⟩
    refine ⟨after.reverse, before.reverse, by simp, ?_⟩
    intro entry hentry
    have hne : name ≠ entry.1 := by
      rintro rfl
      exact hafter (List.mem_map_of_mem (List.mem_reverse.1 hentry))
    simpa using hne

/-- The names of an updated table: those that were there, then the new ones in the order in which
they are set first. -/
theorem names_update (t : Table α) (entries : List (String × α)) :
    names (update t entries) =
      names t ++ ((names entries).filter fun name => !(names t).contains name).eraseDups := by
  induction entries generalizing t with
  | nil => simp [update, names]
  | cons entry rest ih =>
    change names (update (set entry.1 entry.2 t) rest) =
      names t ++ ((entry.1 :: names rest).filter fun name => !(names t).contains name).eraseDups
    rw [ih, names_set, List.filter_cons]
    by_cases h : entry.1 ∈ names t
    · simp [h]
    · rw [if_neg h, if_pos (by simpa using h), List.eraseDups_cons, List.filter_filter,
        List.append_assoc, List.singleton_append]
      refine congrArg (fun l => names t ++ entry.1 :: List.eraseDups l) (List.filter_congr ?_)
      intro name _
      rw [Bool.eq_iff_iff]
      simp [and_comm]

theorem names_ofList (entries : List (String × α)) :
    names (ofList entries) = (names entries).eraseDups := by
  have hall : (names entries).filter (fun _ => true) = names entries :=
    List.filter_eq_self.2 fun _ _ => rfl
  rw [ofList, names_update]
  exact congrArg List.eraseDups hall

/-! ### Setting twice -/

theorem set_set (t : Table α) (name : String) (old new : α) :
    set name new (set name old t) = set name new t := by
  induction t with
  | nil => simp [set]
  | cons entry rest ih =>
    by_cases h : entry.1 = name
    · simp [set, h]
    · simp [set, h, ih]

/-- A name that is there keeps its place, so it can be set before or behind another one. -/
theorem set_comm_of_mem {t : Table α} {name other : String} (hne : other ≠ name)
    (h : name ∈ names t) (value new : α) :
    set other new (set name value t) = set name value (set other new t) := by
  induction t with
  | nil => cases h
  | cons entry rest ih =>
    by_cases hname : entry.1 = name
    · simp [set, hname, Ne.symm hne]
    · have hrest : name ∈ names rest := (List.mem_cons.1 h).resolve_left (Ne.symm hname)
      by_cases hother : entry.1 = other
      · simp [set, hother, hne]
      · simp [set, hname, hother, ih hrest]

theorem set_update {t : Table α} {entries : List (String × α)} {name : String}
    (h : name ∈ names t) (hnew : name ∉ names entries) (value : α) :
    set name value (update t entries) = update (set name value t) entries := by
  induction entries generalizing t with
  | nil => rfl
  | cons entry rest ih =>
    have hne : entry.1 ≠ name := fun heq => hnew (heq ▸ List.mem_cons_self)
    have hmem : name ∈ names (set entry.1 entry.2 t) := by
      rw [names_set]
      split
      · exact h
      · exact List.mem_append_left _ h
    change set name value (update (set entry.1 entry.2 t) rest) =
      update (set entry.1 entry.2 (set name value t)) rest
    rw [ih hmem fun hrest => hnew (List.mem_cons_of_mem _ hrest), set_comm_of_mem hne h]

theorem update_set {u : Table α} (hu : (names u).Nodup) (t : Table α) (name : String) (value : α) :
    update t (set name value u) = set name value (update t u) := by
  induction u generalizing t with
  | nil => rfl
  | cons entry rest ih =>
    obtain ⟨hfresh, hrest⟩ := List.nodup_cons.1 hu
    by_cases h : entry.1 = name
    · -- No later entry of `u` has the name, so setting it once more can be done here.
      have hmem : name ∈ names (set name entry.2 t) := by
        rw [names_set]
        split <;> simp_all
      rw [set, if_pos h]
      change update (set name value t) rest = set name value (update (set entry.1 entry.2 t) rest)
      rw [h, set_update hmem (h ▸ hfresh), set_set]
    · rw [set, if_neg h]
      exact ih hrest (set entry.1 entry.2 t)

/-- A table that is made of entries sets what the entries set one after the other. -/
theorem update_update {u : Table α} (hu : (names u).Nodup) (t : Table α)
    (entries : List (String × α)) : update t (update u entries) = update (update t u) entries := by
  induction entries generalizing u with
  | nil => rfl
  | cons entry rest ih =>
    change update t (update (set entry.1 entry.2 u) rest) =
      update (set entry.1 entry.2 (update t u)) rest
    rw [ih (nodup_names_set hu entry.1 entry.2), update_set hu]

theorem update_ofList (t : Table α) (entries : List (String × α)) :
    update t (ofList entries) = update t entries :=
  update_update (u := []) List.nodup_nil t entries

theorem update_append (t : Table α) (first second : List (String × α)) :
    update t (first ++ second) = update (update t first) second :=
  List.foldl_append

theorem map_set {β : Type} (f : α → β) (t : Table α) (name : String) (value : α) :
    (set name value t).map (fun entry => (entry.1, f entry.2)) =
      set name (f value) (t.map fun entry => (entry.1, f entry.2)) := by
  induction t with
  | nil => rfl
  | cons entry rest ih =>
    by_cases h : entry.1 = name
    · simp [set, h]
    · simp [set, h, ih]

theorem map_update {β : Type} (f : α → β) (t : Table α) (entries : List (String × α)) :
    (update t entries).map (fun entry => (entry.1, f entry.2)) =
      update (t.map fun entry => (entry.1, f entry.2))
        (entries.map fun entry => (entry.1, f entry.2)) := by
  induction entries generalizing t with
  | nil => rfl
  | cons entry rest ih =>
    change (update (set entry.1 entry.2 t) rest).map (fun entry => (entry.1, f entry.2)) = _
    rw [ih, map_set]
    rfl

end Table

end Dockerfile
