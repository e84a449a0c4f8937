import SoloMiner.Miner.Work
import SoloMiner.Mining.Search
import SoloMiner.Stratum.Share

/-!
# The mining threads

A mining thread takes a snapshot of the work, claims an extranonce that no other thread
has, and sweeps the nonces batch by batch, as long as its generation is current. The
first solution retires the generation: the thread marks it solved, submits its share and
waits for new work.

Which generation was solved is one cell, shared by threads that may be on different
generations. `SoloMiner.Miner.always_retired_iff` says when a solved generation stays
retired: precisely if nobody who is late marks an older one over it.
-/

namespace SoloMiner

open Search

/-- Nonces per batch, between checks for new work. -/
def BATCH : UInt32 := 0x100000

/-- The inclusive end of the batch beginning at `start`, saturating. -/
def batchEnd (start : UInt32) : UInt32 :=
  if 0xFFFFFFFF - start < BATCH - 1 then 0xFFFFFFFF else start + (BATCH - 1)

/-- Encodes the extranonce counter into exactly `size` bytes, big-endian, truncating from
the top. -/
def encodeExtranonce2 (counter : UInt64) (size : ℕ) : Bytes :=
  let bytes := Base256.toBE 8 counter.toNat
  let copy := min size 8
  List.replicate (size - copy) 0 ++ bytes.drop (8 - copy)

/-- What a thread holds during a sweep of the nonces. -/
structure Sweep where
  work : Work
  generation : UInt64
  extranonce2 : Bytes
  header : BlockHeader
  start : UInt32

/-- Where a mining thread stands, between two accesses to what is shared. -/
inductive Mining where
  /-- At the top of the loop, before the snapshot. -/
  | top
  /-- Inside the snapshot, with the work cloned. -/
  | cloned (work : Work)
  /-- Behind the snapshot, before the check whether it is solved already. -/
  | fresh (work : Work) (generation : UInt64)
  /-- Before claiming an extranonce. -/
  | claiming (work : Work) (generation : UInt64)
  /-- Before a batch, at the check whether the generation is current. -/
  | checking (sweep : Sweep)
  /-- In a batch. -/
  | searching (sweep : Sweep)
  /-- With a solution, before marking the generation solved. -/
  | found (sweep : Sweep) (solution : Solution)
  /-- Before taking an id for the share. -/
  | submitting (sweep : Sweep) (solution : Solution)
  /-- Before sending the share under its id. -/
  | sending (sweep : Sweep) (solution : Solution) (id : UInt64)
  /-- Waiting for new work, or for the timeout. -/
  | waiting (generation : UInt64)

/-- The miner. What was returned and marked, and how many ids of shares were taken, is kept for
reference. -/
structure Miner where
  state : WorkState
  /-- Whether the network thread has stored a work and not yet counted it. -/
  setting : Bool
  /-- Handed out one per thread per nonce sweep. -/
  extranonceCounter : UInt64
  /-- Ids for submissions. -/
  submitId : UInt64
  /-- The shares sent, with their ids, the latest first. -/
  outbound : List (UInt64 × Share)
  threads : ℕ → Mining
  returned : List (Work × UInt64)
  marked : List UInt64
  submitted : ℕ

/-- What can happen next. -/
inductive MinerAction where
  /-- The network thread installs a job, up to its storing. -/
  | install (job : Job)
  /-- The network thread counts the work it has stored. -/
  | bump
  /-- A mining thread goes on to its next access. -/
  | run (i : ℕ)

namespace Miner

/-- The miner before its first job. -/
def init : Miner := ⟨.new, false, 0, 100, [], fun _ => .top, [], [], 0⟩

/-- The miner with another state of a thread. -/
def setThread (s : Miner) (i : ℕ) (t : Mining) : Miner :=
  { s with threads := Function.update s.threads i t }

/-- What a thread does with the result of a batch. -/
def afterBatch (s : Miner) (i : ℕ) (sweep : Sweep) : Option Solution → Miner
  | some solution => s.setThread i (.found sweep solution)
  | none =>
    -- The nonce space is exhausted: a new extranonce is claimed, for a new snapshot.
    if batchEnd sweep.start = 0xFFFFFFFF then s.setThread i .top
    else s.setThread i (.checking { sweep with start := batchEnd sweep.start + 1 })

/-- What a thread does next in `mine`. -/
def mine (worker : Str) (s : Miner) (i : ℕ) : Miner :=
  match s.threads i with
  | .top =>
    match s.state.current with
    -- No job yet: it sleeps and tries again.
    | none => s
    | some work => s.setThread i (.cloned work)
  | .cloned work =>
    { s.setThread i (.fresh work s.state.generation) with
      returned := (work, s.state.generation) :: s.returned }
  | .fresh work generation =>
    -- Another thread may have solved this job already.
    if s.state.isCurrent generation then s.setThread i (.claiming work generation)
    else s.setThread i (.waiting generation)
  | .claiming work generation =>
    let extranonce2 := encodeExtranonce2 s.extranonceCounter work.extranonce2Size
    let header := work.job.header work.extranonce1 extranonce2 work.job.time 0
    { s.setThread i (.checking ⟨work, generation, extranonce2, header, 0⟩) with
      extranonceCounter := s.extranonceCounter + 1 }
  | .checking sweep =>
    if s.state.isCurrent sweep.generation then s.setThread i (.searching sweep)
    else s.setThread i .top
  | .searching sweep =>
    s.afterBatch i sweep
      (search sweep.header sweep.work.target sweep.start (batchEnd sweep.start)).solution
  | .found sweep solution =>
    { s.setThread i (.submitting sweep solution) with
      state := s.state.markSolved sweep.generation
      marked := sweep.generation :: s.marked }
  | .submitting sweep solution =>
    { s.setThread i (.sending sweep solution s.submitId) with
      submitId := s.submitId + 1
      submitted := s.submitted + 1 }
  | .sending sweep solution id =>
    let share : Share :=
      ⟨worker, sweep.work.job.jobId, sweep.extranonce2, sweep.work.job.time, solution.nonce⟩
    { s.setThread i (.waiting sweep.generation) with outbound := (id, share) :: s.outbound }
  | .waiting _ => s.setThread i .top

/-- One action, if it can happen. The connection has its extranonce1 and the size of its
extranonce2. -/
def step (worker : Str) (extranonce1 : Bytes) (extranonce2Size : ℕ) (s : Miner) :
    MinerAction → Option Miner
  | .install job =>
    if s.setting then none
    else
      match Target.fromCompact job.bits with
      -- A job with an undecodable target is ignored.
      | .error _ => some s
      | .ok target =>
        some { s with
          state := s.state.store ⟨job, extranonce1, extranonce2Size, target⟩
          setting := true }
  | .bump => if s.setting then some { s with state := s.state.bump, setting := false } else none
  | .run i => some (s.mine worker i)

/-- **A solved generation stays retired.** -/
def Retired (s : Miner) : Prop :=
  ∀ generation ∈ s.marked, s.state.isCurrent generation = false

/-- A step that does not come too late: a generation that is marked is the current one,
if that was solved already; and a work that is counted does not get the number of a
solved generation that is not marked any more. -/
def InTime (s : Miner) : MinerAction → Prop
  | .install _ => True
  | .bump => s.state.generation + 1 ∈ s.marked → s.state.solved = s.state.generation + 1
  | .run i =>
    match s.threads i with
    | .found sweep _ => s.state.generation ∈ s.marked → sweep.generation = s.state.generation
    | _ => True

variable {worker : Str} {extranonce1 : Bytes} {extranonce2Size : ℕ} {s s' : Miner} {i : ℕ}
  {action : MinerAction}

/-! ### What a step does to what is shared -/

theorem afterBatch_shared (s : Miner) (i : ℕ) (sweep : Sweep) (solution : Option Solution) :
    (s.afterBatch i sweep solution).state = s.state ∧
      (s.afterBatch i sweep solution).marked = s.marked := by
  cases solution with
  | some solution => exact ⟨rfl, rfl⟩
  | none =>
    rw [afterBatch]
    split_ifs <;> exact ⟨rfl, rfl⟩

/-- **What a mining thread does to the work**: it marks its generation if it has a
solution, and changes nothing otherwise. -/
theorem mine_cases (worker : Str) (s : Miner) (i : ℕ) :
    (∃ sweep solution, s.threads i = .found sweep solution ∧
      (s.mine worker i).state = s.state.markSolved sweep.generation ∧
        (s.mine worker i).marked = sweep.generation :: s.marked) ∨
    (∀ sweep solution, s.threads i ≠ .found sweep solution) ∧
      (s.mine worker i).state = s.state ∧ (s.mine worker i).marked = s.marked := by
  rw [mine]
  cases hphase : s.threads i with
  | found sweep solution => exact Or.inl ⟨sweep, solution, rfl, rfl, rfl⟩
  | top =>
    refine Or.inr ⟨by simp, ?_⟩
    cases s.state.current <;> exact ⟨rfl, rfl⟩
  | fresh work generation =>
    refine Or.inr ⟨by simp, ?_⟩
    dsimp only
    split_ifs <;> exact ⟨rfl, rfl⟩
  | checking sweep =>
    refine Or.inr ⟨by simp, ?_⟩
    dsimp only
    split_ifs <;> exact ⟨rfl, rfl⟩
  | searching sweep => exact Or.inr ⟨by simp, afterBatch_shared s i sweep _⟩
  | cloned work => exact Or.inr ⟨by simp, rfl, rfl⟩
  | claiming work generation => exact Or.inr ⟨by simp, rfl, rfl⟩
  | submitting sweep solution => exact Or.inr ⟨by simp, rfl, rfl⟩
  | sending sweep solution id => exact Or.inr ⟨by simp, rfl, rfl⟩
  | waiting generation => exact Or.inr ⟨by simp, rfl, rfl⟩

/-- What the network thread does to it when it installs a job. -/
theorem step_install {job : Job}
    (h : step worker extranonce1 extranonce2Size s (.install job) = some s') :
    s' = s ∨ s.setting = false ∧
      ∃ work, s' = { s with state := s.state.store work, setting := true } := by
  rw [step] at h
  split_ifs at h with hsetting
  split at h
  · exact Or.inl (Option.some.inj h).symm
  · exact Or.inr ⟨(Bool.not_eq_true _).mp hsetting, _, (Option.some.inj h).symm⟩

theorem step_bump (h : step worker extranonce1 extranonce2Size s .bump = some s') :
    s.setting = true ∧ s' = { s with state := s.state.bump, setting := false } := by
  rw [step] at h
  split_ifs at h with hsetting
  exact ⟨hsetting, (Option.some.inj h).symm⟩

/-! ### What a step does to the threads -/

theorem threads_setThread_of_ne {j : ℕ} (h : j ≠ i) (t : Mining) :
    (s.setThread i t).threads j = s.threads j :=
  Function.update_of_ne h _ _

theorem threads_afterBatch_of_ne {j : ℕ} (h : j ≠ i) (sweep : Sweep)
    (solution : Option Solution) : (s.afterBatch i sweep solution).threads j = s.threads j := by
  cases solution with
  | some solution => exact threads_setThread_of_ne h _
  | none =>
    rw [afterBatch]
    split_ifs <;> exact threads_setThread_of_ne h _

/-- A thread leaves the others alone. -/
theorem threads_mine_of_ne {j : ℕ} (h : j ≠ i) (worker : Str) (s : Miner) :
    (s.mine worker i).threads j = s.threads j := by
  have hset : ∀ t, (s.setThread i t).threads j = s.threads j := threads_setThread_of_ne h
  cases hphase : s.threads i with
  | top =>
    cases hcurrent : s.state.current with
    | none => simp only [mine, hphase, hcurrent]
    | some work => simp only [mine, hphase, hcurrent, hset]
  | fresh work generation =>
    simp only [mine, hphase]
    split_ifs <;> exact hset _
  | checking sweep =>
    simp only [mine, hphase]
    split_ifs <;> exact hset _
  | searching sweep => simp only [mine, hphase, threads_afterBatch_of_ne h]
  | cloned work => simp only [mine, hphase, hset]
  | claiming work generation => simp only [mine, hphase, hset]
  | found sweep solution => simp only [mine, hphase, hset]
  | submitting sweep solution => simp only [mine, hphase, hset]
  | sending sweep solution id => simp only [mine, hphase, hset]
  | waiting generation => simp only [mine, hphase, hset]

/-- A step of another party leaves a thread where it is. -/
theorem threads_step (hne : action ≠ .run i)
    (h : step worker extranonce1 extranonce2Size s action = some s') :
    s'.threads i = s.threads i := by
  cases action with
  | install job =>
    obtain rfl | ⟨-, work, rfl⟩ := step_install h
    · rfl
    · rfl
  | bump =>
    obtain ⟨-, rfl⟩ := step_bump h
    rfl
  | run j =>
    obtain rfl := Option.some.inj h
    exact threads_mine_of_ne (fun hij => hne (congrArg MinerAction.run hij.symm)) worker s

/-! ### Solved generations -/

/-- Only the current generation needs looking at. -/
theorem retired_iff : Retired s ↔ (s.state.generation ∈ s.marked →
    s.state.solved = s.state.generation) := by
  constructor
  · exact fun h hmem => WorkState.isCurrent_eq_false_iff.mp (h _ hmem) rfl
  · rintro h generation hmem
    refine WorkState.isCurrent_eq_false_iff.mpr ?_
    rintro rfl
    exact h hmem

theorem retired_init : Retired init := fun _ h => absurd h List.not_mem_nil

/-- **One step** keeps the solved generations retired precisely if it is in time. -/
theorem retired_step_iff (hs : Retired s)
    (h : step worker extranonce1 extranonce2Size s action = some s') :
    Retired s' ↔ InTime s action := by
  cases action with
  | install job =>
    refine iff_of_true ?_ trivial
    obtain rfl | ⟨-, work, rfl⟩ := step_install h
    · exact hs
    · exact retired_iff.mpr (retired_iff.mp hs)
  | bump =>
    obtain ⟨-, rfl⟩ := step_bump h
    exact retired_iff
  | run i =>
    obtain rfl := Option.some.inj h
    rw [retired_iff, InTime]
    obtain ⟨sweep, solution, hphase, hstate, hmarked⟩ | ⟨hphase, hstate, hmarked⟩ :=
      mine_cases worker s i
    · rw [hphase, hstate, hmarked]
      -- The cell has the new mark now, and has lost the one before.
      refine ⟨fun h hmem => h (List.mem_cons_of_mem _ hmem), fun h hmem => ?_⟩
      rcases List.mem_cons.mp hmem with heq | hmem
      · exact heq.symm
      · exact h hmem
    · rw [hstate, hmarked]
      refine iff_of_true (retired_iff.mp hs) ?_
      split
      · next sweep solution heq => exact absurd heq (hphase sweep solution)
      · exact trivial

/-- **When solved generations stay retired.** For every worker and connection, and however
the steps of the network thread and of any number of mining threads are interleaved, no
generation that was marked solved is ever current again precisely if every step is in
time. -/
theorem always_retired_iff (worker : Str) (extranonce1 : Bytes) (extranonce2Size : ℕ)
    (actions : List MinerAction) :
    StepSystem.Always (step worker extranonce1 extranonce2Size) Retired init actions ↔
      StepSystem.EachStep (step worker extranonce1 extranonce2Size) InTime init actions :=
  StepSystem.always_iff_eachStep (I := fun _ => True) (fun _ _ _ _ _ => trivial)
    (fun _ _ _ _ hs h => retired_step_iff hs h) actions trivial retired_init

/-! ### A solution that comes late -/

/-- A job that a nonce in two solves. -/
def easyJob : Job := ⟨['1'], .ZERO, [], [], [], 1, 0x207FFFFF, 7, true⟩

/-- A thread is in a batch when new work is set. Another thread solves the new work, and
then the first one finishes its batch, with a solution for the old one. -/
def lateSolution : List MinerAction :=
  [.install easyJob, .bump] ++ List.replicate 5 (.run 0) ++
    [.install easyJob, .bump] ++ List.replicate 7 (.run 1) ++ [.run 0, .run 0]

/-- Generation 2 has been solved, and is current again. -/
theorem not_always_retired :
    ¬ StepSystem.Always (step [] [0, 0, 0, 0] 4) Retired init lateSolution := by
  intro h
  have hlast : (StepSystem.exec (step [] [0, 0, 0, 0] 4) init lateSolution).map
      (fun s => (s.state.generation, s.state.solved, s.marked)) = some (2, 1, [1, 2]) := by
    decide +kernel
  obtain ⟨s, hexec, hs⟩ := Option.map_eq_some_iff.mp hlast
  obtain ⟨hgeneration, hsolved, hmarked⟩ : s.state.generation = 2 ∧ s.state.solved = 1 ∧
      s.marked = [1, 2] := by
    simpa only [Prod.mk.injEq] using hs
  have hretired := retired_iff.mp (h.last hexec)
  rw [hgeneration, hsolved, hmarked] at hretired
  exact absurd (hretired (by simp)) (by decide)

/-! ### The snapshots of the mining threads -/

/-- What a thread has cloned and not yet labelled. -/
def clonedWork : Mining → Option Work
  | .cloned work => some work
  | _ => none

/-- The miner as far as the current work and its snapshots are concerned. -/
def toWorkSystem (s : Miner) : WorkSystem :=
  ⟨s.state, s.setting, fun i => clonedWork (s.threads i), s.returned⟩

theorem toWorkSystem_setThread (s : Miner) (i : ℕ) (t : Mining) :
    (s.setThread i t).toWorkSystem =
      { s.toWorkSystem with cloned := Function.update s.toWorkSystem.cloned i (clonedWork t) } := by
  refine congrArg (fun f => WorkSystem.mk s.state s.setting f s.returned) (funext fun j => ?_)
  change clonedWork (Function.update s.threads i t j) = _
  by_cases hj : j = i
  · subst hj
    rw [Function.update_self, Function.update_self]
  · rw [Function.update_of_ne hj, Function.update_of_ne hj]
    rfl

/-- A thread that has cloned nothing, before or after, changes nothing there. -/
theorem toWorkSystem_setThread_of_none {t : Mining} (hs : clonedWork (s.threads i) = none)
    (ht : clonedWork t = none) : (s.setThread i t).toWorkSystem = s.toWorkSystem := by
  have hself : Function.update s.toWorkSystem.cloned i none = s.toWorkSystem.cloned :=
    Function.update_eq_self_iff.mpr hs.symm
  rw [toWorkSystem_setThread, ht, hself]

theorem toWorkSystem_afterBatch {sweep : Sweep} (hs : clonedWork (s.threads i) = none)
    (solution : Option Solution) :
    (s.afterBatch i sweep solution).toWorkSystem = s.toWorkSystem := by
  cases solution with
  | some solution => exact toWorkSystem_setThread_of_none hs rfl
  | none =>
    rw [afterBatch]
    split_ifs
    · exact toWorkSystem_setThread_of_none hs rfl
    · exact toWorkSystem_setThread_of_none hs rfl

/-- What a mining thread does is at most one step on the current work. -/
theorem exists_exec_of_mine (worker : Str) (s : Miner) (i : ℕ) :
    ∃ actions, StepSystem.exec WorkSystem.step s.toWorkSystem actions =
      some (s.mine worker i).toWorkSystem := by
  -- Nothing happens to the current work unless the thread clones, labels or marks.
  have hnone : ∀ {s' : Miner}, s'.toWorkSystem = s.toWorkSystem →
      ∃ actions, StepSystem.exec WorkSystem.step s.toWorkSystem actions =
        some s'.toWorkSystem := fun h => ⟨[], by rw [h]; rfl⟩
  have hset : ∀ {t : Mining}, clonedWork (s.threads i) = none → clonedWork t = none →
      ∃ actions, StepSystem.exec WorkSystem.step s.toWorkSystem actions =
        some (s.setThread i t).toWorkSystem := fun hs ht =>
    hnone (toWorkSystem_setThread_of_none hs ht)
  rw [mine]
  cases hphase : s.threads i with
  | top =>
    have hcloned : s.toWorkSystem.cloned i = none := congrArg clonedWork hphase
    cases hcurrent : s.state.current with
    | none => exact hnone rfl
    | some work =>
      refine ⟨[.clone i], ?_⟩
      have hcurrent' : s.toWorkSystem.state.current = some work := hcurrent
      simp only [StepSystem.exec, WorkSystem.step, hcloned, hcurrent', Option.bind_some]
      rw [toWorkSystem_setThread]
      rfl
  | cloned work =>
    have hcloned : s.toWorkSystem.cloned i = some work := congrArg clonedWork hphase
    refine ⟨[.load i], ?_⟩
    simp only [StepSystem.exec, WorkSystem.step, hcloned, Option.bind_some]
    have hthread := toWorkSystem_setThread s i (.fresh work s.state.generation)
    rw [WorkSystem.mk.injEq] at hthread
    exact congrArg some (congrArg (fun f => WorkSystem.mk s.state s.setting f
      ((work, s.state.generation) :: s.returned)) hthread.2.2.1.symm)
  | fresh work generation =>
    dsimp only
    split_ifs
    · exact hset (congrArg clonedWork hphase) rfl
    · exact hset (congrArg clonedWork hphase) rfl
  | claiming work generation =>
    exact hset (congrArg clonedWork hphase) rfl
  | checking sweep =>
    dsimp only
    split_ifs
    · exact hset (congrArg clonedWork hphase) rfl
    · exact hset (congrArg clonedWork hphase) rfl
  | searching sweep => exact hnone (toWorkSystem_afterBatch (congrArg clonedWork hphase) _)
  | found sweep solution =>
    refine ⟨[.markSolved sweep.generation], ?_⟩
    have hthread := toWorkSystem_setThread_of_none (t := .submitting sweep solution)
      (show clonedWork (s.threads i) = none from congrArg clonedWork hphase) rfl
    rw [toWorkSystem, toWorkSystem, WorkSystem.mk.injEq] at hthread
    exact congrArg some (congrArg (fun f => WorkSystem.mk (s.state.markSolved sweep.generation)
      s.setting f s.returned) hthread.2.2.1.symm)
  | submitting sweep solution =>
    exact hset (congrArg clonedWork hphase) rfl
  | sending sweep solution id =>
    exact hset (congrArg clonedWork hphase) rfl
  | waiting generation =>
    exact hset (congrArg clonedWork hphase) rfl

/-- **The miner refines the work system**: a run of the miner is a run of the network
thread and the snapshots of the mining threads. -/
theorem exists_exec_workSystem {actions : List MinerAction}
    (h : StepSystem.exec (step worker extranonce1 extranonce2Size) s actions = some s') :
    ∃ actions', StepSystem.exec WorkSystem.step s.toWorkSystem actions' =
      some s'.toWorkSystem := by
  induction actions generalizing s with
  | nil =>
    obtain rfl : s = s' := Option.some.inj h
    exact ⟨[], rfl⟩
  | cons action actions ih =>
    obtain ⟨s₁, hstep, hrest⟩ := Option.bind_eq_some_iff.mp h
    obtain ⟨later, hlater⟩ := ih hrest
    obtain ⟨first, hfirst⟩ : ∃ first, StepSystem.exec WorkSystem.step s.toWorkSystem first =
        some s₁.toWorkSystem := by
      cases action with
      | install job =>
        obtain rfl | ⟨hsetting, work, rfl⟩ := step_install hstep
        · exact ⟨[], rfl⟩
        · exact ⟨[.store work], by simp [StepSystem.exec, WorkSystem.step, toWorkSystem, hsetting]⟩
      | bump =>
        obtain ⟨hsetting, rfl⟩ := step_bump hstep
        exact ⟨[.bump], by simp [StepSystem.exec, WorkSystem.step, toWorkSystem, hsetting]⟩
      | run i =>
        obtain rfl := Option.some.inj hstep
        exact exists_exec_of_mine worker s i
    exact ⟨first ++ later, by rw [StepSystem.exec_append, hfirst, Option.bind_some, hlater]⟩

end Miner

end SoloMiner
