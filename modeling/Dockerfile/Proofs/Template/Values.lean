import Dockerfile.Proofs.Template

/-!
# Values in expansions

What the value of a variable does to an expansion depends on no more than its `Status`: whether
there is one and whether it is empty. The status of the variables settles the `pieces` that the text
is put together from, which are characters that were written and variables that have a value, and it
settles whether a required variable stops the expansion. A value takes its place among the pieces as
it is (`values_opaque`): whatever quotes, escapes and dollar signs it holds are not read again.
-/

namespace Dockerfile.Template

/-! ### The status of a value -/

/-- What an expansion sees of a value before it puts it into a text. -/
inductive Status where
  | unset
  | empty
  | full
  deriving DecidableEq, Repr

/-- The status of a value. -/
def status : Option String → Status
  | none => .unset
  | some value => if value.isEmpty then .empty else .full

theorem isSome_eq_of_status {a b : Option String} (h : status a = status b) :
    a.isSome = b.isSome := by
  unfold status at h
  grind

theorem isAbsent_eq_of_status {a b : Option String} (h : status a = status b) (orEmpty : Bool) :
    isAbsent orEmpty a = isAbsent orEmpty b := by
  unfold status at h
  unfold isAbsent
  grind

/-- Lookups that give every name the same status. -/
def Alike (lookup lookup' : Lookup) : Prop := ∀ name, status (lookup name) = status (lookup' name)

/-! ### Pieces -/

/-- A piece of an expanded text. -/
inductive Piece where
  /-- Characters that were written. -/
  | literal (cs : List Char)
  /-- The value of a variable. -/
  | value (name : String)
  deriving DecidableEq, Repr

/-- The text of a piece. -/
def Piece.text (lookup : Lookup) : Piece → List Char
  | literal cs => cs
  | value name => ((lookup name).getD "").toList

/-- The pieces one after the other. -/
def assemble (lookup : Lookup) (pieces : List Piece) : List Char :=
  pieces.flatMap (Piece.text lookup)

/-- The piece of a variable, if it has a value. -/
def pieceOf (lookup : Lookup) (name : String) : List Piece :=
  if (lookup name).isSome then [.value name] else []

/-- The pieces that an expansion puts together. -/
def pieces (lookup : Lookup) : Template → List Piece
  | .done => []
  | .char c rest => .literal [c] :: rest.pieces lookup
  | .plain name rest => pieceOf lookup name ++ rest.pieces lookup
  | .default name orEmpty word rest =>
    (if isAbsent orEmpty (lookup name) then word.pieces lookup else pieceOf lookup name) ++
      rest.pieces lookup
  | .alternative name orEmpty word rest =>
    (if isAbsent orEmpty (lookup name) then [] else word.pieces lookup) ++ rest.pieces lookup
  | .required name orEmpty _ rest =>
    (if isAbsent orEmpty (lookup name) then [] else pieceOf lookup name) ++ rest.pieces lookup

theorem assemble_append (lookup : Lookup) (ps qs : List Piece) :
    assemble lookup (ps ++ qs) = assemble lookup ps ++ assemble lookup qs := List.flatMap_append

theorem assemble_pieceOf (lookup : Lookup) (name : String) :
    assemble lookup (pieceOf lookup name) = ((lookup name).getD "").toList := by
  cases h : lookup name <;> simp [assemble, pieceOf, Piece.text, h]

/-- The text of a template is put together from its pieces. -/
theorem value_eq_assemble (lookup : Lookup) (t : Template) :
    t.value lookup = assemble lookup (t.pieces lookup) := by
  induction t with
  | done => rfl
  | char c rest ih =>
    rw [value, ih]
    rfl
  | plain name rest ih => rw [value, pieces, assemble_append, assemble_pieceOf, ih]
  | default name orEmpty word rest ihw ih =>
    rw [value, pieces, assemble_append, ih]
    split
    · rw [ihw]
    · rw [assemble_pieceOf]
  | alternative name orEmpty word rest ihw ih =>
    rw [value, pieces, assemble_append, ih]
    split
    · rfl
    · rw [ihw]
  | required name orEmpty message rest ih =>
    rw [value, pieces, assemble_append, ih]
    split
    · rfl
    · rw [assemble_pieceOf]

theorem isSome_of_mem_pieceOf {lookup : Lookup} {name other : String}
    (h : .value name ∈ pieceOf lookup other) : (lookup name).isSome := by
  unfold pieceOf at h
  split at h
  · rename_i hsome
    cases List.mem_singleton.1 h
    exact hsome
  · cases h

/-- The variables among the pieces have values. -/
theorem isSome_of_mem_pieces {lookup : Lookup} {t : Template} {name : String}
    (h : .value name ∈ t.pieces lookup) : (lookup name).isSome := by
  induction t with
  | done => cases h
  | char c rest ih =>
    rcases List.mem_cons.1 h with h | h
    · cases h
    · exact ih h
  | plain other rest ih =>
    rcases List.mem_append.1 h with h | h
    · exact isSome_of_mem_pieceOf h
    · exact ih h
  | default other orEmpty word rest ihw ih =>
    rcases List.mem_append.1 h with h | h
    · split at h
      · exact ihw h
      · exact isSome_of_mem_pieceOf h
    · exact ih h
  | alternative other orEmpty word rest ihw ih =>
    rcases List.mem_append.1 h with h | h
    · split at h
      · cases h
      · exact ihw h
    · exact ih h
  | required other orEmpty message rest ih =>
    rcases List.mem_append.1 h with h | h
    · split at h
      · cases h
      · exact isSome_of_mem_pieceOf h
    · exact ih h

namespace Alike

variable {lookup lookup' : Lookup}

theorem isAbsent_eq (h : Alike lookup lookup') (orEmpty : Bool) (name : String) :
    isAbsent orEmpty (lookup name) = isAbsent orEmpty (lookup' name) :=
  isAbsent_eq_of_status (h name) orEmpty

theorem pieceOf_eq (h : Alike lookup lookup') (name : String) :
    pieceOf lookup name = pieceOf lookup' name := by
  unfold pieceOf
  rw [isSome_eq_of_status (h name)]

/-- The pieces depend on the status of the variables alone. -/
theorem pieces_eq (h : Alike lookup lookup') (t : Template) :
    t.pieces lookup = t.pieces lookup' := by
  induction t with
  | done => rfl
  | char c rest ih => rw [pieces, pieces, ih]
  | plain name rest ih => rw [pieces, pieces, h.pieceOf_eq, ih]
  | default name orEmpty word rest ihw ih =>
    rw [pieces, pieces, h.isAbsent_eq, h.pieceOf_eq, ihw, ih]
  | alternative name orEmpty word rest ihw ih => rw [pieces, pieces, h.isAbsent_eq, ihw, ih]
  | required name orEmpty message rest ih =>
    rw [pieces, pieces, h.isAbsent_eq, h.pieceOf_eq, ih]

theorem demands_eq (h : Alike lookup lookup') (t : Template) :
    t.demands lookup = t.demands lookup' := by
  induction t with
  | done => rfl
  | char c rest ih => exact ih
  | plain name rest ih => exact ih
  | default name orEmpty word rest ihw ih => rw [demands, demands, h.isAbsent_eq, ihw, ih]
  | alternative name orEmpty word rest ihw ih => rw [demands, demands, h.isAbsent_eq, ihw, ih]
  | required name orEmpty message rest ih => rw [demands, demands, ih]

end Alike

/-! ### Expansions -/

/-- What stops a strict expansion: the first reference to a required variable without a value. -/
def refusal? (lookup : Lookup) (t : Template) : Option Unset :=
  ((t.demands lookup).find? fun d => !d.isMet lookup).map Demand.unset

theorem Alike.refusal?_eq {lookup lookup' : Lookup} (h : Alike lookup lookup') (t : Template) :
    t.refusal? lookup = t.refusal? lookup' := by
  have hmet : ∀ d : Demand, d.isMet lookup = d.isMet lookup' := by
    intro d
    rw [Demand.isMet, Demand.isMet, h.isAbsent_eq]
  unfold refusal?
  simp only [h.demands_eq, hmet]

theorem result_expand_strict (lookup : Lookup) (t : Template) :
    (t.expand lookup true).result = (t.refusal? lookup).elim (.ok (t.value lookup)) .error := by
  rw [result_expand, enforce, refusal?]
  cases (t.demands lookup).find? fun d => !d.isMet lookup <;> rfl

/-- An expansion that is not strict always gives the text of the template. -/
theorem result_expand_lenient (lookup : Lookup) (t : Template) :
    (t.expand lookup false).result = .ok (t.value lookup) := by
  induction t with
  | done => rfl
  | char c rest ih =>
    rw [expand, result_append, ih]
    rfl
  | plain name rest ih =>
    rw [expand, result_append, ih, value]
    cases lookup name <;> rfl
  | default name orEmpty word rest ihw ih =>
    rw [expand, result_append, ih, value]
    split
    · rw [ihw]
      rfl
    · rfl
  | alternative name orEmpty word rest ihw ih =>
    rw [expand, result_append, ih, value]
    split
    · rfl
    · rw [ihw]
      rfl
  | required name orEmpty message rest ih =>
    rw [expand, result_append, ih, value]
    split <;> rfl

/-- Lookups that give every name the same status put a text together from one list of pieces, in
which each of them fills in its values as they are. Either the same required variable stops the
strict expansion for all of them, with the same message, or it stops for none. -/
theorem values_opaque (mode : Mode) (escape : Char) (text : String) (lookup : Lookup) :
    ∃ (pieces : List Piece) (refusal : Option Unset),
      (∀ name, .value name ∈ pieces → (lookup name).isSome) ∧
      ∀ lookup', Alike lookup lookup' →
        ((read mode escape .none text.toList).expand lookup' false).result =
          .ok (assemble lookup' pieces) ∧
        ((read mode escape .none text.toList).expand lookup' true).result =
          refusal.elim (.ok (assemble lookup' pieces)) .error := by
  refine ⟨(read mode escape .none text.toList).pieces lookup,
    (read mode escape .none text.toList).refusal? lookup,
    fun name hname => isSome_of_mem_pieces hname, fun lookup' h => ?_⟩
  rw [h.pieces_eq, h.refusal?_eq, ← value_eq_assemble]
  exact ⟨result_expand_lenient lookup' _, result_expand_strict lookup' _⟩

/-- Values with a dollar sign, with quotes and with an escape character, and in their place values
without: the same pieces, and a variable that is required only where another one has no value. -/
theorem values_opaque_quoted : ∃ (lookup lookup' : Lookup) (pieces : List Piece),
    lookup "A" = some "$B'\"\\" ∧ lookup' "A" = some "v" ∧ Alike lookup lookup' ∧
    [lookup, lookup'].map (fun l =>
        ((ofWord '\\' "${A:-x}'$A'\"${B:+<$A>}${C-${B?}}\"").expand l true).result.toOption) =
      [some "$B'\"\\$A<$B'\"\\>$A".toList, some "v$A<v>w".toList] ∧
    ∀ l ∈ [lookup, lookup'],
      ((ofWord '\\' "${A:-x}'$A'\"${B:+<$A>}${C-${B?}}\"").expand l false).result =
        .ok (assemble l pieces) := by
  let lookup : Lookup := fun name =>
    if name = "A" then some "$B'\"\\" else if name = "B" then some "$A" else none
  let lookup' : Lookup := fun name =>
    if name = "A" then some "v" else if name = "B" then some "w" else none
  have halike : Alike lookup lookup' := by
    intro name
    by_cases hA : name = "A"
    · simp [lookup, lookup', status, hA]
    · by_cases hB : name = "B" <;> simp [lookup, lookup', status, hA, hB]
  obtain ⟨pieces, refusal, -, h⟩ :=
    values_opaque .word '\\' "${A:-x}'$A'\"${B:+<$A>}${C-${B?}}\"" lookup
  refine ⟨lookup, lookup', pieces, rfl, rfl, halike, by decide +kernel, ?_⟩
  intro l hl
  rcases List.mem_cons.1 hl with rfl | hl
  · exact (h _ fun _ => rfl).1
  · rw [List.mem_singleton.1 hl]
    exact (h lookup' halike).1

end Dockerfile.Template
