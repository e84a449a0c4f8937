import Mathlib.Data.List.Induction
import Mathlib.Logic.Function.Basic
import SoloMiner.Lib.StepSystem
import SoloMiner.Stratum.Job

/-!
# The current work

The network thread replaces the work of the miner, and the mining threads take snapshots
of it. Both are done in two steps: a new work is stored and then counted, and a snapshot
is cloned and then labelled with the count. A label says whether a snapshot is still
current, as long as it is the count of the work that was cloned.

`SoloMiner.WorkSystem.always_labelsCurrent_iff` says when it is, for every run: a snapshot has
to be labelled in time, and a number that comes round must not be the label of an earlier
snapshot. Below `2^64` sets no number comes round, since no label is past the count
(`SoloMiner.WorkSystem.LabelsCounted`), and only the first half is left
(`SoloMiner.WorkSystem.always_labelsCurrent_iff_loadsInTime`). It is a matter of the schedule:
labels are right if no work is both stored and counted between the two steps of a snapshot
(`SoloMiner.WorkSystem.always_labelsCurrent_of_schedule`).
-/

namespace SoloMiner

/-- A job with the details of the connection. -/
structure Work where
  /-- The job from `mining.notify`. -/
  job : Job
  /-- This connection's extranonce prefix. -/
  extranonce1 : Bytes
  /-- How many extranonce bytes we supply. -/
  extranonce2Size : ℕ
  /-- The target a header must meet. -/
  target : Target
  deriving DecidableEq

/-- The miner's current work. -/
structure WorkState where
  /-- The work, if there is one yet. -/
  current : Option Work
  /-- How often work was set. -/
  generation : UInt64
  /-- The generation that a solution was found for last. -/
  solved : UInt64
  deriving DecidableEq

namespace WorkState

/-- Empty state. The greatest number means that nothing was solved. -/
def new : WorkState := ⟨none, 0, 0xFFFFFFFFFFFFFFFF⟩

/-- The first step of `set`, under the lock. -/
def store (self : WorkState) (work : Work) : WorkState := { self with current := some work }

/-- The second step of `set`. -/
def bump (self : WorkState) : WorkState := { self with generation := self.generation + 1 }

/-- Records that a solution was found. -/
def markSolved (self : WorkState) (generation : UInt64) : WorkState :=
  { self with solved := generation }

/-- Whether the generation is still worth working on. -/
def isCurrent (self : WorkState) (generation : UInt64) : Bool :=
  self.generation == generation && self.solved != generation

theorem isCurrent_eq_false_iff {self : WorkState} {generation : UInt64} :
    self.isCurrent generation = false ↔
      (self.generation = generation → self.solved = generation) := by
  rw [isCurrent, Bool.and_eq_false_iff, beq_eq_false_iff_ne, bne_eq_false_iff_eq, imp_iff_not_or]

end WorkState

/-- The current work, and who is in the middle of what. -/
structure WorkSystem where
  state : WorkState
  /-- Whether a work has been stored and is not yet counted. -/
  setting : Bool
  /-- What a thread has cloned and not yet labelled. -/
  cloned : ℕ → Option Work
  /-- The snapshots that were returned, kept for reference. -/
  returned : List (Work × UInt64)

/-- The steps of the network thread and of the mining threads. Reading whether a
generation is current changes nothing. -/
inductive WorkAction where
  /-- `set` stores a work. -/
  | store (work : Work)
  /-- `set` counts it. -/
  | bump
  /-- `snapshot` clones the work. -/
  | clone (i : ℕ)
  /-- `snapshot` reads the count, and returns. -/
  | load (i : ℕ)
  /-- `mark_solved`. -/
  | markSolved (generation : UInt64)

namespace WorkSystem

/-- Before anything has happened. -/
def init : WorkSystem := ⟨.new, false, fun _ => none, []⟩

/-- One step, if it can be taken. -/
def step (s : WorkSystem) : WorkAction → Option WorkSystem
  | .store work =>
    if s.setting then none else some { s with state := s.state.store work, setting := true }
  | .bump => if s.setting then some { s with state := s.state.bump, setting := false } else none
  | .clone i =>
    match s.cloned i, s.state.current with
    | none, some work => some { s with cloned := Function.update s.cloned i (some work) }
    | none, none => some s
    | some _, _ => none
  | .load i =>
    match s.cloned i with
    | some work =>
      some { s with
        cloned := Function.update s.cloned i none
        returned := (work, s.state.generation) :: s.returned }
    | none => none
  | .markSolved generation => some { s with state := s.state.markSolved generation }

/-- **A snapshot is never stale under a current label**: if its label is still the count,
and no work is being set, then its work is the one stored last. -/
def LabelsCurrent (s : WorkSystem) : Prop :=
  ∀ (work : Work) (generation : UInt64), (work, generation) ∈ s.returned →
    s.state.generation = generation → s.setting = false → s.state.current = some work

/-- A step that does not disturb a snapshot: when a snapshot is labelled, what it has
cloned has not been replaced, or the replacement is not counted yet; and a work that is
counted does not get the number of an earlier snapshot of another one. -/
def Undisturbed (s : WorkSystem) : WorkAction → Prop
  | .load i => s.setting = false → ∀ work, s.cloned i = some work → s.state.current = some work
  | .bump => ∀ work, (work, s.state.generation + 1) ∈ s.returned → s.state.current = some work
  | _ => True

theorem labelsCurrent_init : LabelsCurrent init := fun _ _ h => absurd h List.not_mem_nil

variable {s s' : WorkSystem} {action : WorkAction}

/-- What a store does. -/
theorem step_store {work : Work} (h : step s (.store work) = some s') :
    s.setting = false ∧ s' = { s with state := s.state.store work, setting := true } := by
  rw [step] at h
  split_ifs at h with hsetting
  exact ⟨(Bool.not_eq_true _).mp hsetting, (Option.some.inj h).symm⟩

/-- What a count does. -/
theorem step_bump (h : step s .bump = some s') :
    s.setting = true ∧ s' = { s with state := s.state.bump, setting := false } := by
  rw [step] at h
  split_ifs at h with hsetting
  exact ⟨hsetting, (Option.some.inj h).symm⟩

/-- What a clone does. -/
theorem step_clone {i : ℕ} (h : step s (.clone i) = some s') : s.cloned i = none ∧
    (s' = s ∨ ∃ work, s.state.current = some work ∧
      s' = { s with cloned := Function.update s.cloned i (some work) }) := by
  rw [step] at h
  split at h
  · next work hcloned hcurrent => exact ⟨hcloned, Or.inr ⟨work, hcurrent, (Option.some.inj h).symm⟩⟩
  · next hcloned _ => exact ⟨hcloned, Or.inl (Option.some.inj h).symm⟩
  · exact absurd h (by simp)

/-- What a load does. -/
theorem step_load {i : ℕ} (h : step s (.load i) = some s') : ∃ work, s.cloned i = some work ∧
    s' = { s with
      cloned := Function.update s.cloned i none
      returned := (work, s.state.generation) :: s.returned } := by
  rw [step] at h
  split at h
  · next work hcloned => exact ⟨work, hcloned, (Option.some.inj h).symm⟩
  · exact absurd h (by simp)

/-- **One step** keeps the labels right precisely if it disturbs no snapshot. -/
theorem labelsCurrent_step_iff (hs : LabelsCurrent s) (h : step s action = some s') :
    LabelsCurrent s' ↔ Undisturbed s action := by
  cases action with
  | store work =>
    obtain ⟨-, rfl⟩ := step_store h
    -- Now a work is being set.
    exact iff_of_true (fun _ _ _ _ hidle => absurd hidle (by simp)) trivial
  | bump =>
    obtain ⟨-, rfl⟩ := step_bump h
    constructor
    · exact fun hcurrent work hmem => hcurrent work _ hmem rfl rfl
    · rintro hundisturbed work generation hmem rfl -
      exact hundisturbed work hmem
  | clone i =>
    refine iff_of_true ?_ trivial
    obtain ⟨-, rfl | ⟨_, -, rfl⟩⟩ := step_clone h
    · exact hs
    · exact hs
  | load i =>
    obtain ⟨cloned, hcloned, rfl⟩ := step_load h
    constructor
    · intro hcurrent hidle work hwork
      obtain rfl : cloned = work := Option.some.inj (hcloned.symm.trans hwork)
      exact hcurrent _ _ List.mem_cons_self rfl hidle
    · intro hundisturbed work generation hmem hgeneration hidle
      -- Either the snapshot that was just returned, or one from before.
      rcases List.mem_cons.mp hmem with heq | hmem
      · obtain ⟨rfl, -⟩ := Prod.mk.inj heq
        exact hundisturbed hidle work hcloned
      · exact hs work generation hmem hgeneration hidle
  | markSolved generation =>
    obtain rfl := Option.some.inj h
    exact iff_of_true hs trivial

/-- **When a label says whether a snapshot is current.** However the steps of the network
thread and of any number of mining threads are interleaved, no snapshot is ever stale
under a current label precisely if no step disturbs one. -/
theorem always_labelsCurrent_iff (actions : List WorkAction) :
    StepSystem.Always step LabelsCurrent init actions ↔
      StepSystem.EachStep step Undisturbed init actions :=
  StepSystem.always_iff_eachStep (I := fun _ => True) (fun _ _ _ _ _ => trivial)
    (fun _ _ _ _ hs h => labelsCurrent_step_iff hs h) actions trivial labelsCurrent_init

/-! ### Labels and the count

Below `2^64` sets the numbers do not come round, and a count that is new is a new label. Then
all that matters is when a snapshot is labelled. -/

/-- A snapshot is labelled in time: what it has cloned has not been replaced, or the
replacement is not counted yet. -/
def LoadsInTime (s : WorkSystem) : WorkAction → Prop
  | .load i => s.setting = false → ∀ work, s.cloned i = some work → s.state.current = some work
  | _ => True

/-- No label is past the count. -/
def LabelsCounted (s : WorkSystem) : Prop :=
  ∀ work generation, (work, generation) ∈ s.returned → generation ≤ s.state.generation

/-- How often a work is counted in a run. -/
def bumps (actions : List WorkAction) : ℕ := actions.countP (· matches .bump)

/-- A number that does not come round. -/
theorem toNat_add_one {generation : UInt64} (h : generation.toNat + 1 < 2 ^ 64) :
    (generation + 1).toNat = generation.toNat + 1 := by
  rw [UInt64.toNat_add]
  exact Nat.mod_eq_of_lt h

theorem labelsCounted_init : LabelsCounted init := fun _ _ h => absurd h List.not_mem_nil

/-- **One step** labels nothing past the count, unless the count comes round. -/
theorem LabelsCounted.of_step (hs : LabelsCounted s)
    (hroom : s.state.generation.toNat + bumps [action] < 2 ^ 64) (h : step s action = some s') :
    LabelsCounted s' ∧ s'.state.generation.toNat = s.state.generation.toNat + bumps [action] := by
  cases action with
  | store work =>
    obtain ⟨-, rfl⟩ := step_store h
    exact ⟨hs, rfl⟩
  | bump =>
    obtain ⟨-, rfl⟩ := step_bump h
    have hcount := toNat_add_one hroom
    refine ⟨fun work generation hmem => ?_, hcount⟩
    have hle := UInt64.le_iff_toNat_le.mp (hs work generation hmem)
    exact UInt64.le_iff_toNat_le.mpr (hle.trans (by simp [WorkState.bump, hcount]))
  | clone i =>
    obtain ⟨-, rfl | ⟨_, -, rfl⟩⟩ := step_clone h
    · exact ⟨hs, rfl⟩
    · exact ⟨hs, rfl⟩
  | load i =>
    obtain ⟨_, -, rfl⟩ := step_load h
    refine ⟨fun work generation hmem => ?_, rfl⟩
    rcases List.mem_cons.mp hmem with heq | hmem
    · obtain ⟨-, rfl⟩ := Prod.mk.inj heq
      exact UInt64.le_refl _
    · exact hs work generation hmem
  | markSolved generation =>
    obtain rfl := Option.some.inj h
    exact ⟨hs, rfl⟩

/-- While the count does not come round, only the labelling of a snapshot can disturb one. -/
theorem undisturbed_iff_loadsInTime (hs : LabelsCounted s)
    (hroom : s.state.generation.toNat + bumps [action] < 2 ^ 64) :
    Undisturbed s action ↔ LoadsInTime s action := by
  cases action with
  | bump =>
    refine iff_of_true (fun work hmem => absurd (hs work _ hmem) ?_) trivial
    have hcount := toNat_add_one hroom
    rw [UInt64.le_iff_toNat_le, hcount]
    exact Nat.not_succ_le_self _
  | _ => exact Iff.rfl

theorem eachStep_undisturbed_iff {actions : List WorkAction} (hs : LabelsCounted s)
    (hroom : s.state.generation.toNat + bumps actions < 2 ^ 64) :
    StepSystem.EachStep step Undisturbed s actions ↔
      StepSystem.EachStep step LoadsInTime s actions := by
  induction actions generalizing s with
  | nil => exact Iff.rfl
  | cons action actions ih =>
    have hsum : bumps ([action] ++ actions) = bumps [action] + bumps actions :=
      List.countP_append
    rw [List.singleton_append] at hsum
    refine forall₂_congr fun s' hs' => ?_
    obtain ⟨hs'', hcount⟩ := hs.of_step (by omega) hs'
    exact and_congr (undisturbed_iff_loadsInTime hs (by omega)) (ih hs'' (by omega))

/-- **Below `2^64` sets**, the labels say whether a snapshot is current precisely if every
snapshot is labelled in time. -/
theorem always_labelsCurrent_iff_loadsInTime {actions : List WorkAction}
    (h : bumps actions < 2 ^ 64) :
    StepSystem.Always step LabelsCurrent init actions ↔
      StepSystem.EachStep step LoadsInTime init actions :=
  (always_labelsCurrent_iff actions).trans
    (eachStep_undisturbed_iff labelsCounted_init (by simpa [init, WorkState.new] using h))

/-! ### Schedules -/

/-- A work is both stored and counted. -/
def Overtakes (between : List WorkAction) : Prop :=
  ∃ work, [.store work, .bump].Sublist between

/-- The thread has cloned nothing but the work that is stored. -/
def ClonedCurrent (s : WorkSystem) (i : ℕ) : Prop :=
  ∀ work, s.cloned i = some work → s.state.current = some work

/-- Only a store replaces the work, and only a count ends the setting of one. -/
theorem rest_of_step (hstore : ∀ work, action ≠ .store work) (h : step s action = some s') :
    s'.state.current = s.state.current ∧ (action ≠ .bump → s'.setting = s.setting) := by
  cases action with
  | store work => exact absurd rfl (hstore work)
  | bump =>
    obtain ⟨-, rfl⟩ := step_bump h
    exact ⟨rfl, fun hne => absurd rfl hne⟩
  | clone i =>
    obtain ⟨-, rfl | ⟨_, -, rfl⟩⟩ := step_clone h
    · exact ⟨rfl, fun _ => rfl⟩
    · exact ⟨rfl, fun _ => rfl⟩
  | load i =>
    obtain ⟨_, -, rfl⟩ := step_load h
    exact ⟨rfl, fun _ => rfl⟩
  | markSolved generation =>
    obtain rfl := Option.some.inj h
    exact ⟨rfl, fun _ => rfl⟩

/-- What a thread holds after a step it has just cloned, or has held before. -/
theorem cloned_of_step {i : ℕ} {work : Work} (h : step s action = some s')
    (hwork : s'.cloned i = some work) :
    action = .clone i ∨ (action ≠ .clone i ∧ action ≠ .load i) ∧ s.cloned i = some work := by
  cases action with
  | store _ =>
    obtain ⟨-, rfl⟩ := step_store h
    exact Or.inr ⟨⟨by simp, by simp⟩, hwork⟩
  | bump =>
    obtain ⟨-, rfl⟩ := step_bump h
    exact Or.inr ⟨⟨by simp, by simp⟩, hwork⟩
  | clone j =>
    by_cases hij : i = j
    · exact Or.inl (hij ▸ rfl)
    · refine Or.inr ⟨⟨by simp [Ne.symm hij], by simp⟩, ?_⟩
      obtain ⟨-, rfl | ⟨_, -, rfl⟩⟩ := step_clone h
      · exact hwork
      · exact (Function.update_of_ne hij _ _).symm.trans hwork
  | load j =>
    obtain ⟨_, -, rfl⟩ := step_load h
    have hij : i ≠ j := by
      rintro rfl
      exact absurd hwork (by simp)
    exact Or.inr ⟨⟨by simp, by simp [hij.symm]⟩, (Function.update_of_ne hij _ _).symm.trans hwork⟩
  | markSolved generation =>
    obtain rfl := Option.some.inj h
    exact Or.inr ⟨⟨by simp, by simp⟩, hwork⟩

/-- What a thread has just cloned is what is stored. -/
theorem clonedCurrent_clone {i : ℕ} (h : step s (.clone i) = some s') : s'.ClonedCurrent i := by
  intro cloned hcloned
  obtain ⟨hnone, rfl | ⟨work, hcurrent, rfl⟩⟩ := step_clone h
  · exact absurd (hnone.symm.trans hcloned) (by simp)
  · exact hcurrent.trans ((Function.update_self i (some work) s.cloned).symm.trans hcloned)

/-- A step that stores nothing replaces nothing that was cloned. -/
theorem ClonedCurrent.of_step {i : ℕ} (hs : s.ClonedCurrent i)
    (hstore : ∀ work, action ≠ .store work) (h : step s action = some s') :
    s'.ClonedCurrent i := by
  intro cloned hcloned
  rcases cloned_of_step h hcloned with rfl | ⟨-, hbefore⟩
  · exact clonedCurrent_clone h cloned hcloned
  · exact (rest_of_step hstore h).1.trans (hs cloned hbefore)

/-- What is stored waits for its count. -/
theorem setting_of_exec {actions : List WorkAction} (hs : s.setting = true)
    (hbump : .bump ∉ actions) (h : StepSystem.exec step s actions = some s') :
    s'.setting = true := by
  induction actions generalizing s with
  | nil => exact Option.some.inj h ▸ hs
  | cons action actions ih =>
    obtain ⟨s₁, hs₁, hrest⟩ := Option.bind_eq_some_iff.mp h
    obtain ⟨hne, hlater⟩ := not_or.mp (List.mem_cons.not.mp hbump)
    have hstore : ∀ work, action ≠ .store work := by
      rintro work rfl
      exact absurd (hs.symm.trans (step_store hs₁).1) (by simp)
    exact ih (((rest_of_step hstore hs₁).2 (Ne.symm hne)).trans hs) hlater hrest

/-- **Nothing is overtaken** where no work is both stored and counted. -/
theorem ClonedCurrent.of_exec {i : ℕ} {between : List WorkAction} (hs : s.ClonedCurrent i)
    (hbetween : ¬ Overtakes between) (h : StepSystem.exec step s between = some s')
    (hidle : s'.setting = false) : s'.ClonedCurrent i := by
  induction between generalizing s with
  | nil => exact Option.some.inj h ▸ hs
  | cons action between ih =>
    obtain ⟨s₁, hs₁, hrest⟩ := Option.bind_eq_some_iff.mp h
    by_cases hstore : ∃ work, action = .store work
    · obtain ⟨work, rfl⟩ := hstore
      have hbump : .bump ∉ between := fun hmem =>
        hbetween ⟨work, (List.singleton_sublist.mpr hmem).cons_cons _⟩
      obtain ⟨-, rfl⟩ := step_store hs₁
      exact absurd hidle (by simp [setting_of_exec rfl hbump hrest])
    · have hlater : ¬ Overtakes between := by
        rintro ⟨work, hsub⟩
        exact hbetween ⟨work, hsub.cons _⟩
      exact ih (hs.of_step (not_exists.mp hstore) hs₁) hlater hrest

/-- What a thread holds it has cloned, and it has done nothing since. -/
theorem exists_clone_of_cloned {i : ℕ} {actions : List WorkAction}
    (h : StepSystem.exec step init actions = some s) {work : Work}
    (hwork : s.cloned i = some work) :
    ∃ before between, actions = before ++ .clone i :: between ∧
      .clone i ∉ between ∧ .load i ∉ between := by
  induction actions using List.reverseRecOn generalizing s with
  | nil =>
    obtain rfl := Option.some.inj h
    exact absurd hwork (by simp [init])
  | append_singleton actions action ih =>
    rw [StepSystem.exec_append] at h
    obtain ⟨s₁, hs₁, hlast⟩ := Option.bind_eq_some_iff.mp h
    obtain ⟨s₂, hs₂, hnil⟩ := Option.bind_eq_some_iff.mp hlast
    obtain rfl := Option.some.inj hnil
    rcases cloned_of_step hs₂ hwork with rfl | ⟨⟨hclone, hload⟩, hwork⟩
    · exact ⟨actions, [], rfl, List.not_mem_nil, List.not_mem_nil⟩
    · obtain ⟨before, between, rfl, hclones, hloads⟩ := ih hs₁ hwork
      refine ⟨before, between ++ [action], by simp, ?_, ?_⟩
      · simpa [hclones] using hclone.symm
      · simpa [hloads] using hload.symm

/-- **Schedules under which labels are right**: below `2^64` sets, no snapshot is ever stale
under a current label if no work is both stored and counted between the two steps of a
snapshot, whatever else happens between them. -/
theorem always_labelsCurrent_of_schedule {actions : List WorkAction} (h : bumps actions < 2 ^ 64)
    (hschedule : ∀ before i between after,
      actions = before ++ .clone i :: between ++ .load i :: after →
        .clone i ∉ between → .load i ∉ between → ¬ Overtakes between) :
    StepSystem.Always step LabelsCurrent init actions := by
  refine (always_labelsCurrent_iff_loadsInTime h).mpr (StepSystem.eachStep_of_exec ?_)
  intro k action s hk hexec
  cases action with
  | load i =>
    intro hidle work hwork
    obtain ⟨before, between, htake, hclone, hload⟩ := exists_clone_of_cloned hexec hwork
    obtain ⟨hlt, haction⟩ := List.getElem?_eq_some_iff.mp hk
    have hsplit : actions = before ++ .clone i :: between ++ .load i :: actions.drop (k + 1) := by
      rw [← htake, ← haction, ← List.drop_eq_getElem_cons hlt, List.take_append_drop]
    rw [htake, StepSystem.exec_append] at hexec
    obtain ⟨s₀, -, hrest⟩ := Option.bind_eq_some_iff.mp hexec
    obtain ⟨s₁, hs₁, hrest⟩ := Option.bind_eq_some_iff.mp hrest
    exact (clonedCurrent_clone hs₁).of_exec (hschedule _ _ _ _ hsplit hclone hload) hrest hidle
      work hwork
  | _ => exact trivial

/-! ### A snapshot that is overtaken -/

/-- A work on an empty job of the given id. -/
def plainWork (jobId : Str) : Work :=
  ⟨⟨jobId, .ZERO, [], [], [], 1, 0x207FFFFF, 0, true⟩, [0, 0, 0, 0], 4, ⟨zeroArr 32⟩⟩

/-- A work is set, and cloned by a thread; another work is set; and then the thread reads
the count. -/
def overtaken : List WorkAction :=
  [.store (plainWork ['1']), .bump, .clone 0, .store (plainWork ['2']), .bump, .load 0]

/-- The thread holds the first work under the label of the second. -/
theorem not_always_labelsCurrent : ¬ StepSystem.Always step LabelsCurrent init overtaken := by
  intro h
  obtain ⟨s, hexec, hcurrent, hidle, hgeneration, hmem⟩ :
      ∃ s, StepSystem.exec step init overtaken = some s ∧
        s.state.current = some (plainWork ['2']) ∧ s.setting = false ∧ s.state.generation = 2 ∧
          (plainWork ['1'], 2) ∈ s.returned :=
    ⟨_, rfl, rfl, rfl, rfl, List.mem_cons_self⟩
  have hstale := h.last hexec _ _ hmem hgeneration hidle
  rw [hcurrent] at hstale
  exact absurd hstale (by decide)

end WorkSystem

end SoloMiner
