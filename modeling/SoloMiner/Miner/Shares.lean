import SoloMiner.Miner.Claims

/-!
# The shares that a miner sends

A share is put together at the end of a long way: a job is decoded and installed, cloned by
one of the mining threads, spread over batches, and the solution of a batch is sent after
three more accesses to what is shared, while the network thread may have installed other jobs
many times over. Nothing is mixed up on the way: every share that is ever sent is a solution
of one job that was installed, for this connection's half of the extranonce and with all the
bytes of its own half (`SoloMiner.Miner.shares_solve`).

The invariant follows a thread from phase to phase (`SoloMiner.Miner.Holds`): what it has
is first a work, then a sweep of that work, and then a sweep with a solution.
-/

namespace SoloMiner

open Search

/-- **The share solves the job** on a connection: it names the job, keeps its time, has its
own half of the extranonce in full, and its header meets the target of the job. -/
structure Share.Solves (share : Share) (job : Job) (extranonce1 : Bytes) (extranonce2Size : ℕ) :
    Prop where
  jobId : share.jobId = job.jobId
  time : share.time = job.time
  width : share.extranonce2.length = extranonce2Size
  met : ∃ target, Target.fromCompact job.bits = .ok target ∧
    target.isMetBy (job.header extranonce1 share.extranonce2 share.time share.nonce).hash = true

namespace Miner

/-! ### What a thread has -/

section

variable (J : Job → Prop) (extranonce1 : Bytes) (extranonce2Size : ℕ)

/-- A work on one of the jobs, as `install` makes it. -/
structure WorkOf (work : Work) : Prop where
  job : J work.job
  extranonce1 : work.extranonce1 = extranonce1
  extranonce2Size : work.extranonce2Size = extranonce2Size
  target : Target.fromCompact work.job.bits = .ok work.target

/-- A sweep of such a work: its header is that of the job, for an extranonce in full. -/
structure SweepOf (sweep : Sweep) : Prop where
  work : WorkOf J extranonce1 extranonce2Size sweep.work
  width : sweep.extranonce2.length = extranonce2Size
  header : sweep.header =
    sweep.work.job.header extranonce1 sweep.extranonce2 sweep.work.job.time 0

/-- A solution of such a sweep. -/
def Solved (sweep : Sweep) (solution : Solution) : Prop :=
  SweepOf J extranonce1 extranonce2Size sweep ∧
    sweep.work.target.isMetBy { sweep.header with nonce := solution.nonce }.hash = true

/-- **What a thread has in each phase.** -/
def Holds : Mining → Prop
  | .top | .waiting _ => True
  | .cloned work | .fresh work _ | .claiming work _ => WorkOf J extranonce1 extranonce2Size work
  | .checking sweep | .searching sweep => SweepOf J extranonce1 extranonce2Size sweep
  | .found sweep solution | .submitting sweep solution | .sending sweep solution _ =>
    Solved J extranonce1 extranonce2Size sweep solution

/-- **What a run keeps** about the work, the threads and the shares, if the jobs that are
installed are among the given ones. -/
structure Sound (worker : Str) (s : Miner) : Prop where
  current : ∀ work, s.state.current = some work → WorkOf J extranonce1 extranonce2Size work
  threads : ∀ i, Holds J extranonce1 extranonce2Size (s.threads i)
  outbound : ∀ entry ∈ s.outbound, entry.2.worker = worker ∧
    ∃ job, J job ∧ entry.2.Solves job extranonce1 extranonce2Size

end

variable {J J' : Job → Prop} {worker : Str} {extranonce1 : Bytes} {extranonce2Size : ℕ}
  {s s' : Miner} {i : ℕ} {action : MinerAction}

theorem sound_init : Sound J extranonce1 extranonce2Size worker init where
  current _ h := absurd h (Option.some_ne_none _).symm
  threads _ := trivial
  outbound _ h := absurd h List.not_mem_nil

theorem WorkOf.mono (hJ : ∀ job, J job → J' job) {work : Work}
    (h : WorkOf J extranonce1 extranonce2Size work) : WorkOf J' extranonce1 extranonce2Size work :=
  ⟨hJ _ h.job, h.extranonce1, h.extranonce2Size, h.target⟩

theorem SweepOf.mono (hJ : ∀ job, J job → J' job) {sweep : Sweep}
    (h : SweepOf J extranonce1 extranonce2Size sweep) :
    SweepOf J' extranonce1 extranonce2Size sweep :=
  ⟨h.work.mono hJ, h.width, h.header⟩

theorem Holds.mono (hJ : ∀ job, J job → J' job) {t : Mining}
    (h : Holds J extranonce1 extranonce2Size t) : Holds J' extranonce1 extranonce2Size t := by
  cases t with
  | top | waiting => exact trivial
  | cloned | fresh | claiming => exact WorkOf.mono hJ h
  | checking | searching => exact SweepOf.mono hJ h
  | found | submitting | sending => exact ⟨h.1.mono hJ, h.2⟩

/-- More jobs may be installed. -/
theorem Sound.mono (hJ : ∀ job, J job → J' job)
    (hs : Sound J extranonce1 extranonce2Size worker s) :
    Sound J' extranonce1 extranonce2Size worker s where
  current work hwork := (hs.current work hwork).mono hJ
  threads i := (hs.threads i).mono hJ
  outbound entry hentry := by
    obtain ⟨hworker, job, hjob, hsolves⟩ := hs.outbound entry hentry
    exact ⟨hworker, job, hJ job hjob, hsolves⟩

/-! ### One step -/

/-- The threads after one of them has moved. -/
theorem holds_update {threads : ℕ → Mining}
    (h : ∀ j, Holds J extranonce1 extranonce2Size (threads j)) {t : Mining}
    (ht : Holds J extranonce1 extranonce2Size t) (j : ℕ) :
    Holds J extranonce1 extranonce2Size (Function.update threads i t j) := by
  by_cases hj : j = i
  · subst hj
    rw [Function.update_self]
    exact ht
  · rw [Function.update_of_ne hj]
    exact h j

/-- A thread that has moved, where nothing else has changed. -/
theorem Sound.setThread (hs : Sound J extranonce1 extranonce2Size worker s) {t : Mining}
    (ht : Holds J extranonce1 extranonce2Size t) :
    Sound J extranonce1 extranonce2Size worker (s.setThread i t) :=
  ⟨hs.current, holds_update hs.threads ht, hs.outbound⟩

/-- The end of a batch: its solution is one of the header that was swept. -/
theorem Sound.afterBatch (hs : Sound J extranonce1 extranonce2Size worker s) {sweep : Sweep}
    (hsweep : SweepOf J extranonce1 extranonce2Size sweep) :
    Sound J extranonce1 extranonce2Size worker (s.afterBatch i sweep
      (search sweep.header sweep.work.target sweep.start (batchEnd sweep.start)).solution) := by
  cases hsolution :
      (search sweep.header sweep.work.target sweep.start (batchEnd sweep.start)).solution with
  | some solution => exact hs.setThread ⟨hsweep, (search_solution hsolution).2⟩
  | none =>
    rw [Miner.afterBatch]
    split_ifs
    · exact hs.setThread trivial
    · exact hs.setThread ⟨hsweep.work, hsweep.width, hsweep.header⟩

/-- The share of a solution solves the job. -/
theorem Solved.share_solves {sweep : Sweep} {solution : Solution}
    (h : Solved J extranonce1 extranonce2Size sweep solution) (worker : Str) :
    Share.Solves ⟨worker, sweep.work.job.jobId, sweep.extranonce2, sweep.work.job.time,
      solution.nonce⟩ sweep.work.job extranonce1 extranonce2Size := by
  obtain ⟨hsweep, hmet⟩ := h
  refine ⟨rfl, rfl, hsweep.width, _, hsweep.work.target, ?_⟩
  rw [hsweep.header] at hmet
  exact hmet

/-- **One move of a mining thread** keeps everything sound: one case for each phase. -/
theorem Sound.mine (hs : Sound J extranonce1 extranonce2Size worker s) (i : ℕ) :
    Sound J extranonce1 extranonce2Size worker (s.mine worker i) := by
  have hthread := hs.threads i
  rw [Miner.mine]
  cases hphase : s.threads i with
  | top =>
    cases hcurrent : s.state.current with
    | none => exact hs
    | some work => exact hs.setThread (hs.current work hcurrent)
  | cloned work =>
    rw [hphase] at hthread
    exact ⟨hs.current, holds_update hs.threads hthread, hs.outbound⟩
  | fresh work generation =>
    rw [hphase] at hthread
    dsimp only
    split_ifs
    · exact hs.setThread hthread
    · exact hs.setThread trivial
  | claiming work generation =>
    rw [hphase] at hthread
    have hthread : WorkOf J extranonce1 extranonce2Size work := hthread
    refine ⟨hs.current, holds_update hs.threads ⟨hthread, ?_, ?_⟩, hs.outbound⟩
    · rw [encodeExtranonce2_eq, Base256.length_toBE, hthread.extranonce2Size]
    · rw [hthread.extranonce1]
  | checking sweep =>
    rw [hphase] at hthread
    dsimp only
    split_ifs
    · exact hs.setThread hthread
    · exact hs.setThread trivial
  | searching sweep =>
    rw [hphase] at hthread
    exact hs.afterBatch hthread
  | found sweep solution =>
    rw [hphase] at hthread
    exact ⟨hs.current, holds_update hs.threads hthread, hs.outbound⟩
  | submitting sweep solution =>
    rw [hphase] at hthread
    exact ⟨hs.current, holds_update hs.threads hthread, hs.outbound⟩
  | sending sweep solution id =>
    rw [hphase] at hthread
    have hthread : Solved J extranonce1 extranonce2Size sweep solution := hthread
    refine ⟨hs.current, holds_update hs.threads trivial, fun entry hentry => ?_⟩
    rcases List.mem_cons.mp hentry with rfl | hentry
    · exact ⟨rfl, _, hthread.1.work.job, hthread.share_solves worker⟩
    · exact hs.outbound entry hentry
  | waiting generation => exact hs.setThread trivial

/-- **One step**, of any party. -/
theorem Sound.step (hs : Sound J extranonce1 extranonce2Size worker s)
    (haction : ∀ job, action = .install job → J job)
    (h : step worker extranonce1 extranonce2Size s action = some s') :
    Sound J extranonce1 extranonce2Size worker s' := by
  cases action with
  | install job =>
    rw [Miner.step] at h
    split_ifs at h
    split at h
    · obtain rfl := Option.some.inj h
      exact hs
    · next target htarget =>
      obtain rfl := Option.some.inj h
      refine ⟨fun work hwork => ?_, hs.threads, hs.outbound⟩
      obtain rfl := Option.some.inj hwork
      exact ⟨haction job rfl, rfl, rfl, htarget⟩
  | bump =>
    obtain ⟨-, rfl⟩ := step_bump h
    exact ⟨hs.current, hs.threads, hs.outbound⟩
  | run i =>
    obtain rfl := Option.some.inj h
    exact hs.mine i

/-! ### The ids of the shares -/

/-- The id that a thread has taken for its share and not used yet. -/
def takenId : Mining → Option UInt64
  | .sending _ _ id => some id
  | _ => none

/-- The ids that are taken and not used yet, by their threads. -/
def pending (s : Miner) (i : ℕ) : Option UInt64 := takenId (s.threads i)

/-- **What a step does to the ids**: nothing; or a thread takes the next one; or a thread sends
its share under the one that it has. -/
inductive Submits (s s' : Miner) : Prop
  | stays (hpending : s'.pending = s.pending) (houtbound : s'.outbound = s.outbound)
    (hid : s'.submitId = s.submitId) (hcount : s'.submitted = s.submitted)
  | takes {i : ℕ} (hpending : s'.pending = Function.update s.pending i (some s.submitId))
    (houtbound : s'.outbound = s.outbound) (hid : s'.submitId = s.submitId + 1)
    (hcount : s'.submitted = s.submitted + 1)
  | sends {i : ℕ} {id : UInt64} {share : Share} (htaken : s.pending i = some id)
    (hpending : s'.pending = Function.update s.pending i none)
    (houtbound : s'.outbound = (id, share) :: s.outbound)
    (hid : s'.submitId = s.submitId) (hcount : s'.submitted = s.submitted)

theorem pending_of_update {t : Mining} (h : s'.threads = Function.update s.threads i t) :
    s'.pending = Function.update s.pending i (takenId t) := by
  funext j
  rw [pending, h]
  by_cases hj : j = i
  · subst hj
    rw [Function.update_self, Function.update_self]
  · rw [Function.update_of_ne hj, Function.update_of_ne hj]
    rfl

/-- A thread that moves where no share is concerned. -/
theorem Submits.of_update {t : Mining} (hs : takenId (s.threads i) = none)
    (ht : takenId t = none) (h : s'.threads = Function.update s.threads i t)
    (houtbound : s'.outbound = s.outbound) (hid : s'.submitId = s.submitId)
    (hcount : s'.submitted = s.submitted) : Submits s s' := by
  refine .stays ?_ houtbound hid hcount
  rw [pending_of_update h, ht]
  exact Function.update_eq_self_iff.mpr hs.symm

theorem submits_afterBatch (hs : takenId (s.threads i) = none) (sweep : Sweep)
    (solution : Option Solution) : Submits s (s.afterBatch i sweep solution) := by
  cases solution with
  | some solution => exact .of_update hs rfl rfl rfl rfl rfl
  | none =>
    rw [Miner.afterBatch]
    split_ifs
    · exact .of_update hs rfl rfl rfl rfl rfl
    · exact .of_update hs rfl rfl rfl rfl rfl

/-- One case for each phase. -/
theorem submits_mine (worker : Str) (s : Miner) (i : ℕ) : Submits s (s.mine worker i) := by
  have hthread : ∀ {t}, s.threads i = t → takenId t = none → takenId (s.threads i) = none :=
    fun hphase ht => hphase ▸ ht
  rw [Miner.mine]
  cases hphase : s.threads i with
  | top =>
    cases s.state.current with
    | none => exact .stays rfl rfl rfl rfl
    | some work => exact .of_update (hthread hphase rfl) rfl rfl rfl rfl rfl
  | cloned work => exact .of_update (hthread hphase rfl) rfl rfl rfl rfl rfl
  | fresh work generation =>
    dsimp only
    split_ifs
    · exact .of_update (hthread hphase rfl) rfl rfl rfl rfl rfl
    · exact .of_update (hthread hphase rfl) rfl rfl rfl rfl rfl
  | claiming work generation => exact .of_update (hthread hphase rfl) rfl rfl rfl rfl rfl
  | checking sweep =>
    dsimp only
    split_ifs
    · exact .of_update (hthread hphase rfl) rfl rfl rfl rfl rfl
    · exact .of_update (hthread hphase rfl) rfl rfl rfl rfl rfl
  | searching sweep => exact submits_afterBatch (hthread hphase rfl) sweep _
  | found sweep solution => exact .of_update (hthread hphase rfl) rfl rfl rfl rfl rfl
  | submitting sweep solution =>
    exact .takes (pending_of_update (t := .sending sweep solution s.submitId) rfl) rfl rfl rfl
  | sending sweep solution id =>
    exact .sends (congrArg takenId hphase)
      (pending_of_update (t := .waiting sweep.generation) rfl) rfl rfl rfl
  | waiting generation => exact .of_update (hthread hphase rfl) rfl rfl rfl rfl rfl

theorem submits_step (h : Miner.step worker extranonce1 extranonce2Size s action = some s') :
    Submits s s' := by
  cases action with
  | install job =>
    obtain rfl | ⟨-, work, rfl⟩ := step_install h
    · exact .stays rfl rfl rfl rfl
    · exact .stays rfl rfl rfl rfl
  | bump =>
    obtain ⟨-, rfl⟩ := step_bump h
    exact .stays rfl rfl rfl rfl
  | run i =>
    obtain rfl := Option.some.inj h
    exact submits_mine worker s i

/-- No step takes back a share. -/
theorem outbound_step (h : Miner.step worker extranonce1 extranonce2Size s action = some s') :
    s.outbound <:+ s'.outbound := by
  cases submits_step h with
  | stays _ houtbound => rw [houtbound]
  | takes _ houtbound => rw [houtbound]
  | sends _ _ houtbound =>
    rw [houtbound]
    exact List.suffix_cons _ _

/-- The id of the share of this number. -/
def shareId (k : ℕ) : UInt64 := 100 + UInt64.ofNat k

/-- Before the counter wraps, the numbers can be told from the ids, and no share has the id of
a handshake. -/
theorem toNat_shareId {k : ℕ} (h : 100 + k < 2 ^ 64) : (shareId k).toNat = 100 + k := by
  rw [shareId, UInt64.toNat_add, UInt64.toNat_ofNat', show (100 : UInt64).toNat = 100 from rfl]
  rw [Nat.mod_eq_of_lt (a := k) (by omega), Nat.mod_eq_of_lt h]

/-- **The ids are those of the counter**: each one, whether a share was sent under it or it is
still pending, is the id of a number that was taken, and until the counter wraps no two of them
are the same. A thread may be overtaken between taking an id and sending under it, so the shares
are not always sent in the order of their ids. -/
structure Numbered (s : Miner) : Prop where
  next : s.submitId = shareId s.submitted
  sent : ∀ entry ∈ s.outbound, ∃ k < s.submitted, entry.1 = shareId k
  taken : ∀ i id, s.pending i = some id → ∃ k < s.submitted, id = shareId k
  nodup : 100 + s.submitted ≤ 2 ^ 64 → (s.outbound.map Prod.fst).Nodup
  unsent : 100 + s.submitted ≤ 2 ^ 64 → ∀ i id, s.pending i = some id →
    id ∉ s.outbound.map Prod.fst
  apart : 100 + s.submitted ≤ 2 ^ 64 → ∀ i j id, s.pending i = some id → s.pending j = some id →
    i = j

theorem numbered_init : init.Numbered where
  next := rfl
  sent _ h := absurd h List.not_mem_nil
  taken _ _ h := absurd h (Option.some_ne_none _).symm
  nodup _ := List.nodup_nil
  unsent _ _ _ h := absurd h (Option.some_ne_none _).symm
  apart _ _ _ _ h := absurd h (Option.some_ne_none _).symm

/-- The next id is a new one. -/
theorem Numbered.next_ne (hs : s.Numbered) (hbound : 100 + (s.submitted + 1) ≤ 2 ^ 64)
    {id : UInt64} (hid : ∃ k < s.submitted, id = shareId k) : id ≠ s.submitId := by
  obtain ⟨k, hk, rfl⟩ := hid
  rw [hs.next]
  intro heq
  have hnat := congrArg UInt64.toNat heq
  rw [toNat_shareId (by omega), toNat_shareId (by omega)] at hnat
  omega

theorem Numbered.step (hs : s.Numbered)
    (h : Miner.step worker extranonce1 extranonce2Size s action = some s') : s'.Numbered := by
  cases submits_step h with
  | stays hpending houtbound hid hcount =>
    refine ⟨?_, ?_, ?_, ?_, ?_, ?_⟩ <;> simp only [hpending, houtbound, hid, hcount]
    exacts [hs.next, hs.sent, hs.taken, hs.nodup, hs.unsent, hs.apart]
  | @takes i hpending houtbound hid hcount =>
    -- The ids that there were, and the new one.
    have hcases : ∀ j id, s'.pending j = some id →
        (j = i ∧ id = s.submitId) ∨ (j ≠ i ∧ s.pending j = some id) := by
      intro j id hj
      rw [hpending, Function.update_apply] at hj
      split_ifs at hj with hji
      · exact Or.inl ⟨hji, (Option.some.inj hj).symm⟩
      · exact Or.inr ⟨hji, hj⟩
    have hmore : ∀ {id}, (∃ k < s.submitted, id = shareId k) →
        ∃ k < s.submitted + 1, id = shareId k := fun ⟨k, hk, heq⟩ => ⟨k, by omega, heq⟩
    refine ⟨?_, ?_, fun j id hj => ?_, ?_, fun hbound j id hj => ?_,
      fun hbound j l id hj hl => ?_⟩
    · rw [hid, hcount, hs.next, shareId, shareId, UInt64.ofNat_add, UInt64.add_assoc]
      rfl
    · rw [houtbound, hcount]
      exact fun entry hentry => hmore (hs.sent entry hentry)
    · rw [hcount]
      rcases hcases j id hj with ⟨-, rfl⟩ | ⟨-, hj⟩
      · exact ⟨s.submitted, by omega, hs.next⟩
      · exact hmore (hs.taken j id hj)
    · rw [houtbound, hcount]
      exact fun hbound => hs.nodup (by omega)
    · rw [hcount] at hbound
      rw [houtbound]
      rcases hcases j id hj with ⟨-, rfl⟩ | ⟨-, hj⟩
      · intro hmem
        obtain ⟨entry, hentry, heq⟩ := List.mem_map.mp hmem
        exact hs.next_ne hbound (hs.sent entry hentry) heq
      · exact hs.unsent (by omega) j id hj
    · rw [hcount] at hbound
      rcases hcases j id hj with ⟨rfl, rfl⟩ | ⟨-, hj⟩
      · rcases hcases l _ hl with ⟨rfl, -⟩ | ⟨-, hl⟩
        · rfl
        · exact absurd rfl (hs.next_ne hbound (hs.taken l _ hl))
      · rcases hcases l _ hl with ⟨rfl, rfl⟩ | ⟨-, hl⟩
        · exact absurd rfl (hs.next_ne hbound (hs.taken j _ hj))
        · exact hs.apart (by omega) j l id hj hl
  | @sends i sent share htaken hpending houtbound hid hcount =>
    have hold : ∀ j id, s'.pending j = some id → j ≠ i ∧ s.pending j = some id := by
      intro j id hj
      rw [hpending, Function.update_apply] at hj
      split_ifs at hj with hji
      exact ⟨hji, hj⟩
    refine ⟨?_, ?_, fun j id hj => ?_, fun hbound => ?_, fun hbound j id hj => ?_,
      fun hbound j l id hj hl => ?_⟩
    · rw [hid, hcount, hs.next]
    · rw [houtbound, hcount]
      exact List.forall_mem_cons.mpr ⟨hs.taken i sent htaken, hs.sent⟩
    · rw [hcount]
      exact hs.taken j id (hold j id hj).2
    · rw [hcount] at hbound
      rw [houtbound]
      exact List.nodup_cons.mpr ⟨hs.unsent hbound i sent htaken, hs.nodup hbound⟩
    · rw [hcount] at hbound
      obtain ⟨hne, hj⟩ := hold j id hj
      rw [houtbound, List.map_cons, List.mem_cons, not_or]
      refine ⟨?_, hs.unsent hbound j id hj⟩
      rintro rfl
      exact hne (hs.apart hbound j i _ hj htaken)
    · rw [hcount] at hbound
      exact hs.apart hbound j l id (hold j id hj).2 (hold l id hl).2

/-- **Every share solves a job.** For every worker and connection, and however the steps of
the network thread and of any number of mining threads are interleaved, every share that
was sent bears the worker's name and solves one of the jobs that were installed. -/
theorem shares_solve (worker : Str) (extranonce1 : Bytes) (extranonce2Size : ℕ)
    (actions : List MinerAction) :
    StepSystem.Always (step worker extranonce1 extranonce2Size)
      (fun s => ∀ entry ∈ s.outbound, entry.2.worker = worker ∧
        ∃ job, MinerAction.install job ∈ actions ∧
          entry.2.Solves job extranonce1 extranonce2Size) init actions := by
  have hactions : StepSystem.EachStep (step worker extranonce1 extranonce2Size)
      (fun _ action => ∀ job, action = .install job → MinerAction.install job ∈ actions)
      init actions :=
    StepSystem.eachStep_of_forall_mem fun action haction job heq => heq ▸ haction
  have hrun := StepSystem.always_of_eachStep
    (fun _ _ _ hs haction hstep => Sound.step hs haction hstep) sound_init hactions
  exact hrun.mono fun s hs => hs.outbound

end Miner

end SoloMiner
