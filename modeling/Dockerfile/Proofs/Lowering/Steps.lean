import Dockerfile.Lower

/-!
# The steps of a lowering

What each function of a lowering can do, said once: the result of an instruction (`Step`), of the
walk over a stage (`Walked`), of a stage (`lowerStage_ok`) and of the stages in their order
(`Built`), and for each of them the faults that can end it. Other modules argue about these
relations and do not open the functions.
-/

namespace Dockerfile.Lower

/-! ### Traced results -/

namespace Traced

variable {α β : Type} {x : Traced α} {f : α → Traced β}

theorem bind_eq_ok {b : β} :
    (x >>= f).result = .ok b ↔ ∃ a, x.result = .ok a ∧ (f a).result = .ok b := by
  show (andThen x f).result = .ok b ↔ _
  unfold andThen
  cases x.result with
  | error | ok => simp

theorem bind_eq_error {fault : Fault} :
    (x >>= f).result = .error fault ↔
      x.result = .error fault ∨ ∃ a, x.result = .ok a ∧ (f a).result = .error fault := by
  show (andThen x f).result = .error fault ↔ _
  unfold andThen
  cases x.result with
  | error | ok => simp

theorem result_ofExcept (x : Except Fault α) : (ofExcept x).result = x := by
  cases x <;> rfl

end Traced

open Traced

/-- A report can only fail because of a required variable at its place. -/
theorem report_error {place : Place} {expansions : List Template.Expansion} {fault : Fault}
    (h : (report place expansions).result = .error fault) :
    ∃ unset, fault = .required unset place := by
  induction expansions with
  | nil => cases h
  | cons e rest ih =>
    unfold report at h
    split at h
    · rename_i unset _
      cases h
      exact ⟨unset, rfl⟩
    · exact ih h

/-! ### Looking up -/

theorem lookUpStages_ok {done : List Lowered} {indices : List Nat}
    (h : ∀ n ∈ indices, ∃ s, find? done n = some s) : lookUpStages done indices = .ok () := by
  induction indices with
  | nil => rfl
  | cons n rest ih =>
    obtain ⟨s, hs⟩ := h n List.mem_cons_self
    unfold lookUpStages
    rw [hs]
    exact ih fun m hm => h m (List.mem_cons_of_mem n hm)

variable {made : List Operation} {id : OperationId} {ids : List OperationId}

theorem keyOf?_isSome_iff : (keyOf? made id).isSome ↔ id ∈ made.map Operation.id := by
  unfold keyOf?
  rw [Option.isSome_map, List.find?_isSome, List.mem_map]
  simp

/-- The key of an operation does not depend on what is made behind it. -/
theorem keyOf?_append {more : List Operation} (h : id ∈ made.map Operation.id) :
    keyOf? (made ++ more) id = keyOf? made id := by
  have hsome := keyOf?_isSome_iff.2 h
  unfold keyOf? at hsome ⊢
  rw [Option.isSome_map] at hsome
  rw [List.find?_append, Option.or_of_isSome hsome]

theorem lookUpKeys_ok (h : ∀ id ∈ ids, id ∈ made.map Operation.id) :
    ∃ keys, lookUpKeys made ids = .ok keys := by
  induction ids with
  | nil => exact ⟨[], rfl⟩
  | cons id rest ih =>
    obtain ⟨key, hkey⟩ := Option.isSome_iff_exists.1 (keyOf?_isSome_iff.2 (h id List.mem_cons_self))
    obtain ⟨keys, hkeys⟩ := ih fun other ho => h other (List.mem_cons_of_mem id ho)
    refine ⟨key :: keys, ?_⟩
    unfold lookUpKeys
    rw [hkey, hkeys]
    rfl

/-- Keys that are looked up are those of the operations, in their order. -/
theorem keyOf?_of_lookUpKeys {keys : List String} (h : lookUpKeys made ids = .ok keys) :
    ids.map (keyOf? made) = keys.map some := by
  induction ids generalizing keys with
  | nil =>
    cases h
    rfl
  | cons id rest ih =>
    unfold lookUpKeys at h
    split at h
    · cases h
    · rename_i key hkey
      cases hrest : lookUpKeys made rest with
      | error fault =>
        rw [hrest] at h
        cases h
      | ok found =>
        rw [hrest] at h
        cases h
        rw [List.map_cons, hkey, ih hrest, List.map_cons]

theorem mem_of_lookUpKeys {keys : List String} (h : lookUpKeys made ids = .ok keys)
    (hid : id ∈ ids) : id ∈ made.map Operation.id := by
  have hmem : keyOf? made id ∈ keys.map some := by
    rw [← keyOf?_of_lookUpKeys h]
    exact List.mem_map_of_mem hid
  obtain ⟨key, -, hkey⟩ := List.mem_map.1 hmem
  rw [← keyOf?_isSome_iff, ← hkey]
  rfl

/-! ### Instructions -/

namespace StageFrame

variable {f : StageFrame} {p q start : Progress} {n : Nat} {i : Instruction}
  {instructions : List Instruction} {fault : Fault}

/-- The arguments behind an instruction. -/
def argsAfter (f : StageFrame) (p : Progress) (i : Instruction) : Table (Option String) :=
  (p.scope.after f.frame.setting f.frame.metas i.body).args

/-- The walk behind an instruction that comes to an operation. -/
def behind (f : StageFrame) (p : Progress) (i : Instruction) (o : Operation) : Progress where
  config := configAfter p.config o.task
  args := f.argsAfter p i
  ownCmd := p.ownCmd || i.kind = .cmd
  previous := some o.id
  operations := p.operations ++ [o]

/-- What an instruction at a position can do to a walk. -/
inductive Step (f : StageFrame) (p : Progress) (n : Nat) (i : Instruction) : Progress → Prop where
  /-- It comes to no operation. -/
  | pass (htask : (f.surroundings p n).task? i.body = none) :
    Step f p n i { p with args := f.argsAfter p i }
  /-- It comes to an operation that builds on operations with these keys. -/
  | make (task : Task) (keys : List String)
    (htask : (f.surroundings p n).task? i.body = some task)
    (hkeys : lookUpKeys (f.made p) (f.inputs p n i) = .ok keys) :
    Step f p n i (f.behind p i (f.operation p n i task keys))

theorem lowerInstruction_ok (h : (f.lowerInstruction p n i).result = .ok q) :
    (report (f.place i.kind i.position)
        (p.scope.expansions f.frame.setting f.frame.metas i.body)).result = .ok () ∧
      lookUpStages f.done (f.plan.stagesAt n) = .ok () ∧ f.Step p n i q := by
  unfold lowerInstruction at h
  obtain ⟨_, hreport, h⟩ := bind_eq_ok.1 h
  obtain ⟨_, hstages, h⟩ := bind_eq_ok.1 h
  rw [result_ofExcept] at hstages
  refine ⟨hreport, hstages, ?_⟩
  split at h
  · rename_i htask
    cases h
    exact .pass htask
  · rename_i task htask
    obtain ⟨keys, hkeys, h⟩ := bind_eq_ok.1 h
    rw [result_ofExcept] at hkeys
    cases h
    exact .make task keys htask hkeys

theorem lowerInstruction_error (h : (f.lowerInstruction p n i).result = .error fault) :
    (report (f.place i.kind i.position)
        (p.scope.expansions f.frame.setting f.frame.metas i.body)).result = .error fault ∨
      lookUpStages f.done (f.plan.stagesAt n) = .error fault ∨
      lookUpKeys (f.made p) (f.inputs p n i) = .error fault := by
  unfold lowerInstruction at h
  rcases bind_eq_error.1 h with h | ⟨_, -, h⟩
  · exact Or.inl h
  rcases bind_eq_error.1 h with h | ⟨_, -, h⟩
  · rw [result_ofExcept] at h
    exact Or.inr (Or.inl h)
  split at h
  · cases h
  · rcases bind_eq_error.1 h with h | ⟨_, -, h⟩
    · rw [result_ofExcept] at h
      exact Or.inr (Or.inr h)
    · cases h

/-! ### Walks -/

/-- A walk over the first instructions of a stage. -/
inductive Walked (f : StageFrame) (start : Progress) : List Instruction → Progress → Prop where
  | nil : Walked f start [] start
  | concat {instructions : List Instruction} {p q : Progress} {i : Instruction}
    (before : Walked f start instructions p)
    (step : (f.lowerInstruction p instructions.length i).result = .ok q) :
    Walked f start (instructions ++ [i]) q

theorem lowerFrom_ok {rest : List Instruction} (hp : f.Walked start instructions p)
    (h : (f.lowerFrom p instructions.length rest).result = .ok q) :
    f.Walked start (instructions ++ rest) q := by
  induction rest generalizing instructions p with
  | nil =>
    cases h
    rwa [List.append_nil]
  | cons i rest ih =>
    obtain ⟨p', hstep, h⟩ := bind_eq_ok.1 h
    have hlen : instructions.length + 1 = (instructions ++ [i]).length := by simp
    rw [hlen] at h
    have := ih (hp.concat hstep) h
    rwa [List.append_assoc] at this

/-- A walk passes through all its positions. -/
theorem lowerFrom_append_ok {front back : List Instruction}
    (h : (f.lowerFrom p n (front ++ back)).result = .ok q) :
    ∃ m, (f.lowerFrom p n front).result = .ok m ∧
      (f.lowerFrom m (n + front.length) back).result = .ok q := by
  induction front generalizing p n with
  | nil => exact ⟨p, rfl, h⟩
  | cons i front ih =>
    obtain ⟨p', hstep, hrest⟩ := bind_eq_ok.1 h
    obtain ⟨m, hfront, hback⟩ := ih hrest
    refine ⟨m, bind_eq_ok.2 ⟨p', hstep, hfront⟩, ?_⟩
    rwa [List.length_cons, Nat.add_comm front.length, ← Nat.add_assoc]

/-- A walk that fails gets to an instruction that fails. -/
theorem lowerFrom_error {rest : List Instruction} (hp : f.Walked start instructions p)
    (h : (f.lowerFrom p instructions.length rest).result = .error fault) :
    ∃ before i after p', rest = before ++ i :: after ∧
      f.Walked start (instructions ++ before) p' ∧
      (f.lowerInstruction p' (instructions ++ before).length i).result = .error fault := by
  induction rest generalizing instructions p with
  | nil => cases h
  | cons i rest ih =>
    rcases bind_eq_error.1 h with h | ⟨p', hstep, h⟩
    · exact ⟨[], i, rest, p, rfl, by rwa [List.append_nil], by rwa [List.append_nil]⟩
    · have hlen : instructions.length + 1 = (instructions ++ [i]).length := by simp
      rw [hlen] at h
      obtain ⟨before, j, after, p'', rfl, hw, hj⟩ := ih (hp.concat hstep) h
      rw [List.append_assoc] at hw hj
      exact ⟨i :: before, j, after, p'', rfl, hw, hj⟩

end StageFrame

/-! ### Stages -/

/-- What is the same for all instructions of a stage with a platform. -/
def stageFrame (frame : Frame) (done : List Lowered) (plan : Plan) (platform : Option String) :
    StageFrame :=
  ⟨frame, plan, done, platform, frame.root done plan⟩

/-- The place of the `FROM` of a stage. -/
def basePlace (stage : Stage) : Place := ⟨some (stage.index, stage.name), .base, stage.position⟩

/-- A stage has no platform if it names one that disagrees with the requested one. -/
theorem stagePlatform_error {requested : Option Platform} {pinned : Option String}
    {base : Option Lowered} {place : Place} {fault : Fault}
    (h : stagePlatform requested pinned base place = .error fault) :
    ∃ own platform, requested = some platform ∧
      pinned.bind (fun text => (Platform.parse text).toOption) = some own ∧
      own.agrees platform = false ∧ fault = .platformConflict own platform place := by
  simp only [stagePlatform] at h
  split at h
  · rename_i platform own hown
    obtain ⟨text, htext, hparse⟩ := Option.bind_eq_some_iff.1 hown
    split at h
    · cases h
    · rename_i hdisagree
      cases h
      refine ⟨own, platform, rfl, ?_, eq_false_of_ne_true hdisagree, rfl⟩
      exact Option.bind_eq_some_iff.2 ⟨text, (Option.filter_eq_some_iff.1 htext).1, hparse⟩
  · cases h
  · cases h
  · split at h <;> cases h

section Stages

variable {frame : Frame} {done : List Lowered} {plans : List Plan} {plan : Plan} {l : Lowered}
  {order : List Nat} {fault : Fault}

/-- A stage is lowered if the texts of its `FROM` can be expanded, it has a platform and the walk over
its instructions goes through. -/
theorem lowerStage_eq_ok : (lowerStage frame done plan).result = .ok l ↔
    (report (basePlace plan.stage) ((basePhrases plan.stage.base).map
      (Phrase.expand frame.setting.escape (frame.setting.globalLookup frame.metas)))).result =
      .ok () ∧
    ∃ platform p,
      stagePlatform frame.platform (plan.stage.base.platform.map frame.value) (baseIn? done plan)
        (basePlace plan.stage) = .ok platform ∧
      ((stageFrame frame done plan platform).lowerFrom (.start (baseIn? done plan)) 0
        plan.stage.instructions).result = .ok p ∧
      l = (stageFrame frame done plan platform).lowered p := by
  unfold lowerStage
  constructor
  · intro h
    obtain ⟨_, -, h⟩ := bind_eq_ok.1 h
    obtain ⟨_, hreport, h⟩ := bind_eq_ok.1 h
    obtain ⟨platform, hplatform, h⟩ := bind_eq_ok.1 h
    rw [result_ofExcept] at hplatform
    obtain ⟨p, hp, h⟩ := bind_eq_ok.1 h
    cases h
    exact ⟨hreport, platform, p, hplatform, hp, rfl⟩
  · rintro ⟨hreport, platform, p, hplatform, hp, rfl⟩
    refine bind_eq_ok.2 ⟨(), rfl, bind_eq_ok.2 ⟨(), hreport, bind_eq_ok.2 ⟨platform, ?_, ?_⟩⟩⟩
    · rw [result_ofExcept]
      exact hplatform
    · exact bind_eq_ok.2 ⟨p, hp, rfl⟩

theorem lowerStage_ok (h : (lowerStage frame done plan).result = .ok l) :
    ∃ platform p,
      stagePlatform frame.platform (plan.stage.base.platform.map frame.value) (baseIn? done plan)
        (basePlace plan.stage) = .ok platform ∧
      (stageFrame frame done plan platform).Walked (.start (baseIn? done plan))
        plan.stage.instructions p ∧
      l = (stageFrame frame done plan platform).lowered p := by
  obtain ⟨-, platform, p, hplatform, hp, hl⟩ := lowerStage_eq_ok.1 h
  exact ⟨platform, p, hplatform, StageFrame.lowerFrom_ok .nil hp, hl⟩

/-- A stage fails at its `FROM`, or at the first of its instructions that fails. -/
theorem lowerStage_error (h : (lowerStage frame done plan).result = .error fault) :
    (report (basePlace plan.stage) ((basePhrases plan.stage.base).map
        (Phrase.expand frame.setting.escape (frame.setting.globalLookup frame.metas)))).result =
        .error fault ∨
      stagePlatform frame.platform (plan.stage.base.platform.map frame.value) (baseIn? done plan)
        (basePlace plan.stage) = .error fault ∨
      ∃ platform before i after p, plan.stage.instructions = before ++ i :: after ∧
        (stageFrame frame done plan platform).Walked (.start (baseIn? done plan)) before p ∧
        ((stageFrame frame done plan platform).lowerInstruction p before.length i).result =
          .error fault := by
  unfold lowerStage at h
  rcases bind_eq_error.1 h with h | ⟨_, -, h⟩
  · cases h
  rcases bind_eq_error.1 h with h | ⟨_, -, h⟩
  · exact Or.inl h
  rcases bind_eq_error.1 h with h | ⟨platform, -, h⟩
  · rw [result_ofExcept] at h
    exact Or.inr (Or.inl h)
  rcases bind_eq_error.1 h with h | ⟨p, -, h⟩
  · obtain ⟨before, i, after, p, hsplit, hw, hi⟩ := StageFrame.lowerFrom_error .nil h
    exact Or.inr (Or.inr ⟨platform, before, i, after, p, hsplit, hw, hi⟩)
  · cases h

/-- Planned stages that are lowered one after the other. -/
inductive Built (frame : Frame) (plans : List Plan) : List Nat → List Lowered → Prop where
  | nil : Built frame plans [] []
  | concat {order : List Nat} {done : List Lowered} {n : Nat} {plan : Plan} {l : Lowered}
    (before : Built frame plans order done) (hplan : plans[n]? = some plan)
    (step : (lowerStage frame done plan).result = .ok l) :
    Built frame plans (order ++ [n]) (done ++ [l])

theorem Built.concat_inv {all : List Lowered} {n : Nat} (h : Built frame plans (order ++ [n]) all) :
    ∃ done plan l, all = done ++ [l] ∧ Built frame plans order done ∧ plans[n]? = some plan ∧
      (lowerStage frame done plan).result = .ok l := by
  generalize horder : order ++ [n] = whole at h
  cases h with
  | nil => simp at horder
  | @concat order done m plan l before hplan step =>
    obtain ⟨rfl, hlast⟩ := List.append_inj' horder rfl
    cases hlast
    exact ⟨done, plan, l, rfl, before, hplan, step⟩

theorem lowerStages_ok {rest : List Nat} {all : List Lowered} (hb : Built frame plans order done)
    (h : (lowerStages frame plans done rest).result = .ok all) :
    Built frame plans (order ++ rest) all := by
  induction rest generalizing order done with
  | nil =>
    cases h
    rwa [List.append_nil]
  | cons n rest ih =>
    unfold lowerStages at h
    split at h
    · cases h
    · rename_i plan hplan
      obtain ⟨l, hl, h⟩ := bind_eq_ok.1 h
      have := ih (hb.concat hplan hl) h
      rwa [List.append_assoc] at this

/-- Stages fail at one that is not planned or that cannot be lowered. -/
theorem lowerStages_error {rest : List Nat} (hb : Built frame plans order done)
    (h : (lowerStages frame plans done rest).result = .error fault) :
    ∃ before n after done', rest = before ++ n :: after ∧
      Built frame plans (order ++ before) done' ∧
      (plans[n]? = none ∧ fault = .unplanned n ∨
        ∃ plan, plans[n]? = some plan ∧ (lowerStage frame done' plan).result = .error fault) := by
  induction rest generalizing order done with
  | nil => cases h
  | cons n rest ih =>
    unfold lowerStages at h
    split at h
    · rename_i hplan
      cases h
      exact ⟨[], n, rest, done, rfl, by rwa [List.append_nil], Or.inl ⟨hplan, rfl⟩⟩
    · rename_i plan hplan
      rcases bind_eq_error.1 h with h | ⟨l, hl, h⟩
      · exact ⟨[], n, rest, done, rfl, by rwa [List.append_nil], Or.inr ⟨plan, hplan, h⟩⟩
      · obtain ⟨before, m, after, done', rfl, hbuilt, hm⟩ := ih (hb.concat hplan hl) h
        rw [List.append_assoc] at hbuilt
        exact ⟨n :: before, m, after, done', rfl, hbuilt, hm⟩

end Stages

end Dockerfile.Lower
