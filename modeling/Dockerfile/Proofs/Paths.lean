import Dockerfile.Proofs.Platform
import Dockerfile.Text

/-!
# Normalized paths

A path from the root keeps its root when it is normalized, and what follows the root are clean
components with slashes between them: none is empty, none means the folder it stands in or the one
above. Splitting such a path gives the components back, so these are the paths from the root that
are normalized already (`isFolder_iff`). Whatever path is seen from such a folder is normalized to
one (`isFolder_normalize_join`).
-/

namespace Dockerfile.Text

variable {separator : Char} {part : List Char}

/-- A part between separators has no separator. -/
theorem notMem_of_mem_splitAt {cs : List Char} (h : part ∈ splitAt separator cs) :
    separator ∉ part := by
  unfold splitAt at h
  induction cs generalizing part with
  | nil =>
    rw [splitWhen, List.mem_singleton] at h
    simp [h]
  | cons c cs ih =>
    unfold splitWhen at h
    split at h
    · rcases List.mem_cons.1 h with rfl | h
      · exact List.not_mem_nil
      · exact ih h
    · rename_i hc
      have hne : separator ≠ c := fun heq => hc (by simp [heq])
      split at h
      · rw [List.mem_singleton] at h
        simp [h, hne]
      · rename_i first parts hsplit
        rw [hsplit] at ih
        rcases List.mem_cons.1 h with rfl | h
        · rw [List.mem_cons, not_or]
          exact ⟨hne, ih List.mem_cons_self⟩
        · exact ih (List.mem_cons_of_mem _ h)

theorem splitAt_separator (separator : Char) (cs : List Char) :
    splitAt separator (separator :: cs) = [] :: splitAt separator cs := by
  rw [splitAt, splitWhen, if_pos (beq_self_eq_true separator)]

theorem splitAt_of_notMem (h : separator ∉ part) : splitAt separator part = [part] := by
  unfold splitAt
  induction part with
  | nil => rfl
  | cons c part ih =>
    rw [List.mem_cons, not_or] at h
    rw [splitWhen, if_neg (by simpa using Ne.symm h.1), ih h.2]

theorem splitAt_append_separator (h : separator ∉ part) (cs : List Char) :
    splitAt separator (part ++ separator :: cs) = part :: splitAt separator cs := by
  induction part with
  | nil => exact splitAt_separator separator cs
  | cons c part ih =>
    rw [List.mem_cons, not_or] at h
    have hrest := ih h.2
    unfold splitAt at hrest ⊢
    rw [List.cons_append, splitWhen, if_neg (by simpa using Ne.symm h.1), hrest]

/-- Parts with separators between them are split where they were put together. -/
theorem splitAt_intercalate {parts : List (List Char)} (hne : parts ≠ [])
    (h : ∀ part ∈ parts, separator ∉ part) :
    splitAt separator ([separator].intercalate parts) = parts := by
  induction parts with
  | nil => exact (hne rfl).elim
  | cons part rest ih =>
    obtain ⟨hpart, hrest⟩ := List.forall_mem_cons.1 h
    cases rest with
    | nil => rw [List.intercalate_singleton, splitAt_of_notMem hpart]
    | cons next rest =>
      rw [List.intercalate_cons_cons, List.append_assoc, List.singleton_append,
        splitAt_append_separator hpart, ih (List.cons_ne_nil _ _) hrest]

namespace Path

/-! ### Components -/

/-- A component that stays: it is not empty and means neither the folder it stands in nor the one
above. -/
structure IsClean (component : List Char) : Prop where
  ne_nil : component ≠ []
  ne_same : component ≠ ['.']
  ne_above : component ≠ ['.', '.']
  slash : '/' ∉ component

theorem push_of_isClean {component : List Char} (h : IsClean component) (rooted : Bool)
    (done : List (List Char)) : push rooted done component = component :: done := by
  simp [push, h.ne_nil, h.ne_same, h.ne_above]

/-- From the root on, components stay clean. -/
theorem isClean_push {done : List (List Char)} (hdone : ∀ c ∈ done, IsClean c)
    {component : List Char} (hslash : '/' ∉ component) :
    ∀ c ∈ push true done component, IsClean c := by
  unfold push
  split
  · exact hdone
  · rename_i hstays
    rw [Bool.or_eq_true, decide_eq_true_eq, decide_eq_true_eq, not_or] at hstays
    split
    · rename_i habove
      cases done with
      | nil => simp
      | cons last earlier =>
        obtain ⟨hlast, hearlier⟩ := List.forall_mem_cons.1 hdone
        simpa only [if_neg hlast.ne_above] using hearlier
    · rename_i habove
      exact List.forall_mem_cons.2 ⟨⟨hstays.1, hstays.2, habove, hslash⟩, hdone⟩

variable {components : List (List Char)} {path lead : List Char}

theorem isClean_foldl_push {done : List (List Char)} (hdone : ∀ c ∈ done, IsClean c)
    (h : ∀ c ∈ components, '/' ∉ c) : ∀ c ∈ components.foldl (push true) done, IsClean c := by
  induction components generalizing done with
  | nil => exact hdone
  | cons component rest ih =>
    obtain ⟨hslash, hrest⟩ := List.forall_mem_cons.1 h
    exact ih (isClean_push hdone hslash) hrest

theorem foldl_push_of_isClean (h : ∀ c ∈ components, IsClean c) (rooted : Bool)
    (done : List (List Char)) :
    components.foldl (push rooted) done = components.reverse ++ done := by
  induction components generalizing done with
  | nil => rfl
  | cons component rest ih =>
    obtain ⟨hclean, hrest⟩ := List.forall_mem_cons.1 h
    rw [List.foldl_cons, push_of_isClean hclean, ih hrest, List.reverse_cons, List.append_assoc,
      List.singleton_append]

/-! ### Roots -/

theorem root_cases (h : path.head? = some '/') : root path = ['/'] ∨ root path = ['/', '/'] := by
  obtain ⟨rest, rfl⟩ := List.head?_eq_some_iff.1 h
  unfold root
  split
  · exact .inl rfl
  · exact .inr rfl
  · exact .inl rfl
  · rename_i hnone
    exact (hnone rest rfl).elim

/-- A root is kept before something that does not start with a slash. -/
theorem root_append {rest : List Char} (hlead : lead = ['/'] ∨ lead = ['/', '/'])
    (hrest : rest.head? ≠ some '/') : root (lead ++ rest) = lead := by
  cases rest with
  | nil => rcases hlead with rfl | rfl <;> rfl
  | cons c rest =>
    have hc : c ≠ '/' := fun heq => hrest (congrArg some heq)
    rcases hlead with rfl | rfl <;> simp [root, hc]

/-- The components behind a root are those of the path. -/
theorem foldl_push_splitAt_root (hlead : lead = ['/'] ∨ lead = ['/', '/']) (rooted : Bool)
    (rest : List Char) :
    (splitAt '/' (lead ++ rest)).foldl (push rooted) [] =
      (splitAt '/' rest).foldl (push rooted) [] := by
  rcases hlead with rfl | rfl
  · rw [List.singleton_append, splitAt_separator]
    rfl
  · rw [List.cons_append, List.singleton_append, splitAt_separator, splitAt_separator]
    rfl

theorem head?_joinComponents (h : ∀ c ∈ components, IsClean c) :
    (joinComponents components).head? ≠ some '/' := by
  cases components with
  | nil => simp [joinComponents]
  | cons first rest =>
    obtain ⟨hfirst, -⟩ := List.forall_mem_cons.1 h
    obtain ⟨c, first, rfl⟩ := List.exists_cons_of_ne_nil hfirst.ne_nil
    have hc : c ≠ '/' := fun heq => hfirst.slash (heq ▸ List.mem_cons_self)
    cases rest with
    | nil => simpa [joinComponents] using hc
    | cons next rest => simpa [joinComponents, List.intercalate_cons_cons] using hc

theorem foldl_push_splitAt_join (h : ∀ c ∈ components, IsClean c) (rooted : Bool) :
    ((splitAt '/' (joinComponents components)).foldl (push rooted) []).reverse = components := by
  by_cases hnil : components = []
  · rw [hnil]
    rfl
  · rw [joinComponents, splitAt_intercalate hnil fun c hc => (h c hc).slash,
      foldl_push_of_isClean h, List.append_nil, List.reverse_reverse]

/-! ### Normal forms -/

/-- A root and clean components make a path that is normalized already. -/
theorem normalize_of_isClean (hlead : lead = ['/'] ∨ lead = ['/', '/'])
    (h : ∀ c ∈ components, IsClean c) :
    normalize (lead ++ joinComponents components) = lead ++ joinComponents components := by
  unfold normalize
  simp only [root_append hlead (head?_joinComponents h), foldl_push_splitAt_root hlead,
    foldl_push_splitAt_join h]
  rcases hlead with rfl | rfl <;> rfl

/-- What a path from the root is normalized to. -/
theorem exists_normalize (h : path.head? = some '/') :
    ∃ components, (∀ c ∈ components, IsClean c) ∧
      normalize path = root path ++ joinComponents components := by
  have hlead := root_cases h
  have hrooted : (!(root path).isEmpty) = true := by rcases hlead with h | h <;> rw [h] <;> rfl
  refine ⟨((splitAt '/' path).foldl (push true) []).reverse, ?_, ?_⟩
  · intro c hc
    exact isClean_foldl_push (List.forall_mem_nil _) (fun c hc => notMem_of_mem_splitAt hc) c
      (List.mem_reverse.1 hc)
  · unfold normalize
    simp only [hrooted]
    rcases hlead with h | h <;> rw [h] <;> rfl

/-- A path from the root in its normal form. -/
structure IsFolder (path : List Char) : Prop where
  rooted : path.head? = some '/'
  normal : normalize path = path

/-- The normal forms, said without normalizing. -/
theorem isFolder_iff : IsFolder path ↔
    ∃ lead components, (lead = ['/'] ∨ lead = ['/', '/']) ∧ (∀ c ∈ components, IsClean c) ∧
      path = lead ++ joinComponents components := by
  constructor
  · intro h
    obtain ⟨components, hclean, hnormal⟩ := exists_normalize h.rooted
    exact ⟨root path, components, root_cases h.rooted, hclean, h.normal.symm.trans hnormal⟩
  · rintro ⟨lead, components, hlead, hclean, rfl⟩
    refine ⟨?_, normalize_of_isClean hlead hclean⟩
    rcases hlead with rfl | rfl <;> rfl

/-- Whatever starts with a slash is normalized to a folder. -/
theorem isFolder_normalize (h : path.head? = some '/') : IsFolder (normalize path) := by
  obtain ⟨components, hclean, hnormal⟩ := exists_normalize h
  exact isFolder_iff.2 ⟨root path, components, root_cases h, hclean, hnormal⟩

/-- A path seen from a folder starts at the root. -/
theorem head?_join {folder : List Char} (h : folder.head? = some '/') (path : List Char) :
    (join folder path).head? = some '/' := by
  obtain ⟨rest, rfl⟩ := List.head?_eq_some_iff.1 h
  unfold join
  split
  · assumption
  · split <;> rfl

theorem isFolder_normalize_join {folder : List Char} (h : IsFolder folder) (path : List Char) :
    IsFolder (normalize (join folder path)) :=
  isFolder_normalize (head?_join h.rooted path)

end Path

end Dockerfile.Text
