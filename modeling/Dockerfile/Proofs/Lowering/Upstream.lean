import Dockerfile.Proofs.Lowering.Keys

/-!
# Upstream trees

All that an operation goes back to can be laid out as a tree (`Upstream`): the operation over its
inputs, each of them over its own. Operations with one key have the same tree, and along every path
of inputs they meet operations with one key. So a change anywhere upstream changes all keys
downstream (`key_binds_upstream`).
-/

namespace Dockerfile

open Lower

/-- All that an operation goes back to: its instruction, what it does and starts from, and the same
of the operations that it builds on, in order. -/
inductive Upstream where
  | node (kind : Kind) (task : Task) (start : Option (String × Option String))
    (inputs : List Upstream)

/-- Are two trees equal, with tables compared as maps? -/
inductive Upstream.Same : Upstream → Upstream → Prop where
  | node {kind : Kind} {task task' : Task} {start : Option (String × Option String)}
    {inputs inputs' : List Upstream} (htask : task.Same task')
    (hinputs : List.Forall₂ Upstream.Same inputs inputs') :
    Upstream.Same (.node kind task start inputs) (.node kind task' start inputs')

namespace Graph

variable {g₁ g₂ : Graph} {o₁ o₂ : Operation}

/-- The tree of an operation of a list, each of which builds on later ones in the list. -/
def unfoldIn (g : Graph) : List Operation → OperationId → Option Upstream
  | [], _ => none
  | o :: earlier, id =>
    if o.id = id then (o.inputs.mapM (g.unfoldIn earlier)).map (.node o.kind o.task (g.start? o))
    else g.unfoldIn earlier id

/-- The tree of an operation, if all that it goes back to is there. -/
def upstream? (g : Graph) (id : OperationId) : Option Upstream := g.unfoldIn g.operations.reverse id

theorem unfoldIn_append {g : Graph} {later earlier : List Operation} {id : OperationId}
    (h : id ∉ later.map Operation.id) :
    g.unfoldIn (later ++ earlier) id = g.unfoldIn earlier id := by
  induction later with
  | nil => rfl
  | cons o later ih =>
    rw [List.map_cons, List.mem_cons, not_or] at h
    rw [List.cons_append, unfoldIn, if_neg (Ne.symm h.1), ih h.2]

theorem mapM_congr {α β : Type} {f f' : α → Option β} {l : List α} (h : ∀ a ∈ l, f a = f' a) :
    l.mapM f = l.mapM f' := by
  induction l with
  | nil => rfl
  | cons a l ih =>
    rw [List.mapM_cons, List.mapM_cons, h a List.mem_cons_self,
      ih fun b hb => h b (List.mem_cons_of_mem a hb)]

/-- The tree of an operation stands over the trees of its inputs. -/
theorem upstream?_eq {g : Graph} (hg : g.Wired) {o : Operation} (ho : o ∈ g.operations) :
    g.upstream? o.id = (o.inputs.mapM g.upstream?).map (.node o.kind o.task (g.start? o)) := by
  obtain ⟨before, after, hops⟩ := List.append_of_mem ho
  have hnodup := hg.nodup
  rw [hops, List.map_append, List.map_cons, List.nodup_append, List.nodup_cons] at hnodup
  obtain ⟨-, ⟨hafter, -⟩, hdisj⟩ := hnodup
  have hreverse : g.operations.reverse = (after.reverse ++ [o]) ++ before.reverse := by
    rw [hops]
    simp
  have hinput : ∀ id ∈ o.inputs, g.unfoldIn before.reverse id = g.upstream? id := by
    intro id hid
    have hbefore := hg.inputs_earlier before o after hops id hid
    rw [upstream?, hreverse, unfoldIn_append]
    intro hmem
    refine hdisj id hbefore id ?_ rfl
    simpa [or_comm] using hmem
  rw [upstream?, hreverse, List.append_assoc, unfoldIn_append (by simpa using hafter),
    List.singleton_append, unfoldIn, if_pos rfl, mapM_congr hinput]

theorem key?_eq_some_iff {g : Graph} (hg : g.Wired) {id : OperationId} {key : String} :
    g.key? id = some key ↔ ∃ o ∈ g.operations, o.id = id ∧ o.key = key := by
  unfold key? keyOf?
  rw [Option.map_eq_some_iff]
  constructor
  · rintro ⟨o, hfind, rfl⟩
    exact ⟨o, List.mem_of_find?_eq_some hfind, by simpa using List.find?_some hfind, rfl⟩
  · rintro ⟨o, ho, rfl, rfl⟩
    exact ⟨o, find?_eq_some_of_mem hg.nodup ho, rfl⟩

theorem key?_id {g : Graph} (hg : g.Wired) {o : Operation} (ho : o ∈ g.operations) :
    g.key? o.id = some o.key :=
  (key?_eq_some_iff hg).2 ⟨o, ho, rfl, rfl⟩

theorem exists_mapM {α β γ δ : Type} {f : α → Option γ} {f' : β → Option δ} {R : γ → δ → Prop}
    {l : List α} {l' : List β}
    (h : List.Forall₂ (fun a b => ∃ c e, f a = some c ∧ f' b = some e ∧ R c e) l l') :
    ∃ cs es, l.mapM f = some cs ∧ l'.mapM f' = some es ∧ List.Forall₂ R cs es := by
  induction h with
  | nil => exact ⟨[], [], rfl, rfl, .nil⟩
  | cons hab _ ih =>
    obtain ⟨c, e, hc, he, hce⟩ := hab
    obtain ⟨cs, es, hcs, hes, hall⟩ := ih
    refine ⟨c :: cs, e :: es, ?_, ?_, .cons hce hall⟩
    · rw [List.mapM_cons, hc, hcs]
      rfl
    · rw [List.mapM_cons, he, hes]
      rfl

/-- Operations with one key have the same tree. -/
theorem same_of_key_eq (hw₁ : g₁.Wired) (hw₂ : g₂.Wired) (hg₁ : g₁.Keyed) (hg₂ : g₂.Keyed)
    (hsha : (g₁.payloadTexts ∪ g₂.payloadTexts).InjOn Sha256.ofText) {before after : List Operation}
    (hops : g₁.operations = before ++ o₁ :: after) (ho₂ : o₂ ∈ g₂.operations)
    (hkey : o₁.key = o₂.key) :
    ∃ t₁ t₂, g₁.upstream? o₁.id = some t₁ ∧ g₂.upstream? o₂.id = some t₂ ∧ t₁.Same t₂ := by
  have ho₁ : o₁ ∈ g₁.operations := by simp [hops]
  -- By induction on the inputs of the first operation.
  refine hw₁.induct (P := fun o₁ => ∀ o₂ ∈ g₂.operations, o₁.key = o₂.key → ∃ t₁ t₂,
    g₁.upstream? o₁.id = some t₁ ∧ g₂.upstream? o₂.id = some t₂ ∧ t₁.Same t₂) ?_ ho₁ o₂ ho₂ hkey
  intro o₁ ho₁ ih o₂ ho₂ hkey
  have halike := alike_of_key_eq hg₁ hg₂ hsha ho₁ ho₂ hkey
  have htrees : List.Forall₂ (fun i j => ∃ t₁ t₂, g₁.upstream? i = some t₁ ∧
      g₂.upstream? j = some t₂ ∧ t₁.Same t₂) o₁.inputs o₂.inputs := by
    have hboth := (List.forall₂_and_left (p := (· ∈ o₁.inputs)) _ _).2
      ⟨fun _ hi => hi, halike.inputs⟩
    refine hboth.imp ?_
    rintro i j ⟨hi, key, hkey₁, hkey₂⟩
    obtain ⟨p₁, hp₁, rfl, rfl⟩ := (key?_eq_some_iff hw₁).1 hkey₁
    obtain ⟨p₂, hp₂, rfl, hkey⟩ := (key?_eq_some_iff hw₂).1 hkey₂
    exact ih p₁ hp₁ hi p₂ hp₂ hkey.symm
  obtain ⟨ts₁, ts₂, hts₁, hts₂, hsame⟩ := exists_mapM htrees
  refine ⟨_, _, by rw [upstream?_eq hw₁ ho₁, hts₁, Option.map_some],
    by rw [upstream?_eq hw₂ ho₂, hts₂, Option.map_some], ?_⟩
  rw [halike.kind, halike.start?_eq]
  exact .node halike.task hsame

/-! ### Paths -/

/-- An operation goes back to another one along a path of positions among inputs. -/
inductive Reaches (g : Graph) : Operation → List Nat → Operation → Prop where
  | refl (o : Operation) : Reaches g o [] o
  | step {o p q : Operation} {n : Nat} {path : List Nat} (hinput : o.inputs[n]? = some p.id)
    (hp : p ∈ g.operations) (hpath : Reaches g p path q) : Reaches g o (n :: path) q

/-- Along one path, operations with one key meet operations with one key. -/
theorem key_eq_of_reaches (hw₁ : g₁.Wired) (hw₂ : g₂.Wired) (hg₁ : g₁.Keyed) (hg₂ : g₂.Keyed)
    (hsha : (g₁.payloadTexts ∪ g₂.payloadTexts).InjOn Sha256.ofText) (ho₁ : o₁ ∈ g₁.operations)
    (ho₂ : o₂ ∈ g₂.operations) (hkey : o₁.key = o₂.key) {path : List Nat} {p₁ p₂ : Operation}
    (h₁ : g₁.Reaches o₁ path p₁) (h₂ : g₂.Reaches o₂ path p₂) :
    p₁.key = p₂.key ∧ Alike g₁ g₂ p₁ p₂ := by
  induction h₁ generalizing o₂ with
  | refl =>
    cases h₂
    exact ⟨hkey, alike_of_key_eq hg₁ hg₂ hsha ho₁ ho₂ hkey⟩
  | @step o₁ p₁ q₁ n path hinput₁ hp₁ _ ih =>
    cases h₂ with
    | @step _ p₂ _ _ _ hinput₂ hp₂ hpath₂ =>
      have halike := alike_of_key_eq hg₁ hg₂ hsha ho₁ ho₂ hkey
      obtain ⟨hlt₁, hget₁⟩ := List.getElem?_eq_some_iff.1 hinput₁
      obtain ⟨hlt₂, hget₂⟩ := List.getElem?_eq_some_iff.1 hinput₂
      obtain ⟨key, hkey₁, hkey₂⟩ := halike.inputs.get hlt₁ hlt₂
      rw [List.get_eq_getElem, hget₁] at hkey₁
      rw [List.get_eq_getElem, hget₂] at hkey₂
      rw [key?_id hw₁ hp₁] at hkey₁
      rw [key?_id hw₂ hp₂] at hkey₂
      exact ih hp₁ hp₂ (Option.some.inj (hkey₁.trans hkey₂.symm)) hpath₂

end Graph

/-- The keys of any two graphs, so far as no two payloads of theirs have one digest: operations with
one key are alike and have the same upstream tree, and where two operations go back to different
ones along one path, their keys differ. -/
theorem Lower.key_binds_upstream {d₁ d₂ : Document} {job₁ job₂ : Job} {r₁ r₂ : Resolution}
    {g₁ g₂ : Graph} (hd₁ : d₁.Numbered) (hd₂ : d₂.Numbered)
    (h₁ : (d₁.lower job₁ r₁).result = .ok g₁) (h₂ : (d₂.lower job₂ r₂).result = .ok g₂)
    (hsha : (g₁.payloadTexts ∪ g₂.payloadTexts).InjOn Sha256.ofText) {o₁ o₂ : Operation}
    (ho₁ : o₁ ∈ g₁.operations) (ho₂ : o₂ ∈ g₂.operations) :
    (o₁.key = o₂.key → Graph.Alike g₁ g₂ o₁ o₂ ∧ ∃ t₁ t₂,
      g₁.upstream? o₁.id = some t₁ ∧ g₂.upstream? o₂.id = some t₂ ∧ t₁.Same t₂) ∧
    ∀ path p₁ p₂, g₁.Reaches o₁ path p₁ → g₂.Reaches o₂ path p₂ →
      (p₁.key ≠ p₂.key ∨ ¬Graph.Alike g₁ g₂ p₁ p₂) → o₁.key ≠ o₂.key := by
  obtain ⟨plans₁, order₁, done₁, run₁⟩ := lower_ok h₁
  obtain ⟨plans₂, order₂, done₂, run₂⟩ := lower_ok h₂
  have hw₁ := run₁.wired hd₁
  have hw₂ := run₂.wired hd₂
  have hg₁ := run₁.keyed hd₁
  have hg₂ := run₂.keyed hd₂
  refine ⟨fun hkey => ⟨Graph.alike_of_key_eq hg₁ hg₂ hsha ho₁ ho₂ hkey, ?_⟩, ?_⟩
  · obtain ⟨before, after, hops⟩ := List.append_of_mem ho₁
    exact Graph.same_of_key_eq hw₁ hw₂ hg₁ hg₂ hsha hops ho₂ hkey
  · intro path p₁ p₂ hp₁ hp₂ hdiffer hkey
    obtain ⟨hsame, halike⟩ := Graph.key_eq_of_reaches hw₁ hw₂ hg₁ hg₂ hsha ho₁ ho₂ hkey hp₁ hp₂
    rcases hdiffer with hdiffer | hdiffer
    · exact hdiffer hsame
    · exact hdiffer halike

/-- A stage on one with labels, in another order, in another stage and at another position. -/
theorem Lower.key_binds_upstream_labels : ∃ d₁ d₂ g₁ g₂ o₁ o₂,
    Document.parse "FROM scratch AS x\nLABEL p=1 q=2\nFROM x\nUSER u\n" = .ok d₁ ∧
    Document.parse "FROM z\nFROM scratch AS y\nARG v\nLABEL q=2 p=1\nFROM y\nUSER u\n" = .ok d₂ ∧
    (d₁.lower ⟨[], none, none⟩ .empty).result = .ok g₁ ∧
    (d₂.lower ⟨[], none, none⟩ .empty).result = .ok g₂ ∧
    (g₁.payloadTexts ∪ g₂.payloadTexts).InjOn Sha256.ofText ∧
    o₁ ∈ g₁.operations ∧ o₂ ∈ g₂.operations ∧ o₁.inputs = [⟨0, 0⟩] ∧ o₂.inputs = [⟨1, 1⟩] ∧
    o₁.key = o₂.key ∧ Graph.Alike g₁ g₂ o₁ o₂ ∧
    ∃ t₁ t₂, g₁.upstream? o₁.id = some t₁ ∧ g₂.upstream? o₂.id = some t₂ ∧ t₁.Same t₂ := by
  obtain ⟨d₁, d₂, g₁, g₂, hd₁, hd₂, hg₁, hg₂, hnodup, htexts, hids₁, hids₂⟩ := @exists_lowered₂
    "FROM scratch AS x\nLABEL p=1 q=2\nFROM x\nUSER u\n"
    "FROM z\nFROM scratch AS y\nARG v\nLABEL q=2 p=1\nFROM y\nUSER u\n"
    ⟨[], none, none⟩ ⟨[], none, none⟩ (fun _ => .empty)
    (fun _ _ g₁ g₂ => (g₁.operations.map Operation.key).Nodup ∧
      (g₁.operations.map fun o => (g₁.payloadOf o).canonical) =
        (g₂.operations.map fun o => (g₂.payloadOf o).canonical) ∧
      (g₁.operations.map fun o => (o.id, o.inputs)) = [(⟨0, 0⟩, []), (⟨1, 0⟩, [⟨0, 0⟩])] ∧
      (g₂.operations.map fun o => (o.id, o.inputs)) = [(⟨1, 1⟩, []), (⟨2, 0⟩, [⟨1, 1⟩])])
    (fun _ _ _ _ => inferInstance) (by decide +kernel)
  have hn₁ := Document.numbered_of_parse hd₁
  have hn₂ := Document.numbered_of_parse hd₂
  obtain ⟨_, _, _, run₁⟩ := lower_ok hg₁
  obtain ⟨_, _, _, run₂⟩ := lower_ok hg₂
  have hsame : g₁.payloadTexts = g₂.payloadTexts := by
    ext text
    exact List.mem_map.symm.trans ((iff_of_eq (congrArg (text ∈ ·) htexts)).trans List.mem_map)
  have hsha : (g₁.payloadTexts ∪ g₂.payloadTexts).InjOn Sha256.ofText := by
    rw [← hsame, Set.union_self]
    exact (run₁.keyed hn₁).injOn_of_nodup hnodup
  obtain ⟨a₁, rest, hops₁, -, hrest⟩ := List.map_eq_cons_iff.1 hids₁
  obtain ⟨o₁, rfl, ho₁⟩ := List.map_eq_singleton_iff.1 hrest
  obtain ⟨a₂, rest, hops₂, -, hrest⟩ := List.map_eq_cons_iff.1 hids₂
  obtain ⟨o₂, rfl, ho₂⟩ := List.map_eq_singleton_iff.1 hrest
  have hmem₁ : o₁ ∈ g₁.operations := by simp [hops₁]
  have hmem₂ : o₂ ∈ g₂.operations := by simp [hops₂]
  rw [hops₁, hops₂] at htexts
  have hkey : o₁.key = o₂.key := Graph.key_eq_of_canonical_eq (run₁.keyed hn₁) (run₂.keyed hn₂)
    hmem₁ hmem₂ (List.cons.inj (List.cons.inj htexts).2).1
  exact ⟨d₁, d₂, g₁, g₂, o₁, o₂, hd₁, hd₂, hg₁, hg₂, hsha, hmem₁, hmem₂, (Prod.mk.inj ho₁).2,
    (Prod.mk.inj ho₂).2, hkey, (key_binds_upstream hn₁ hn₂ hg₁ hg₂ hsha hmem₁ hmem₂).1 hkey⟩

end Dockerfile
