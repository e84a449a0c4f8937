import SoloMiner.Pool.Stage

/-!
# The jobs of a run

The poller numbers its jobs, installs some of them, and the state keeps the last eight.
Over a whole run, with readers in between, the ids that were allocated are all distinct,
so a lookup by id finds the one job that was installed under it, as long as it is among
the last eight (`SoloMiner.Server.jobs_exact`).

The invariant is `SoloMiner.Server.Recorded`: the state's jobs are the last eight of all
that were installed, and the ids of these are among those that were allocated, in order.
-/

namespace SoloMiner

open Json

/-- The ids of the first jobs, the latest first. -/
def jobIds : ℕ → List Str
  | 0 => []
  | n + 1 => Nat.toDigits 16 (n + 1) :: jobIds n

@[simp] theorem length_jobIds (n : ℕ) : (jobIds n).length = n := by
  induction n with
  | zero => rfl
  | succ n ih => rw [jobIds, List.length_cons, ih]

theorem exists_of_mem_jobIds {n : ℕ} {jobId : Str} (h : jobId ∈ jobIds n) :
    ∃ k, 0 < k ∧ k ≤ n ∧ jobId = Nat.toDigits 16 k := by
  induction n with
  | zero => exact absurd h List.not_mem_nil
  | succ n ih =>
    rcases List.mem_cons.mp h with rfl | h
    · exact ⟨n + 1, by omega, le_rfl, rfl⟩
    · obtain ⟨k, hpos, hk, rfl⟩ := ih h
      exact ⟨k, hpos, by omega, rfl⟩

/-- **Job ids are distinct.** -/
theorem nodup_jobIds (n : ℕ) : (jobIds n).Nodup := by
  induction n with
  | zero => exact List.nodup_nil
  | succ n ih =>
    refine List.nodup_cons.mpr ⟨fun hmem => ?_, ih⟩
    obtain ⟨k, -, hk, heq⟩ := exists_of_mem_jobIds hmem
    have := Hex.toDigits_injective heq
    omega

namespace Server

/-! ### The invariant -/

/-- The ids of the jobs that were installed, the latest first. -/
def installedIds (s : Server) : List Str := s.installed.map fun active => active.job.jobId

/-- **What a run keeps of its jobs**, as long as the counter does not wrap. -/
structure Recorded (s : Server) : Prop where
  /-- The counter counts the jobs. -/
  next : s.pool.nextJobId = UInt64.ofNat (s.allocated.length + 1)
  /-- The ids are those of the counter. -/
  allocated : s.allocated.length < 2 ^ 64 → s.allocated = jobIds s.allocated.length
  /-- The state has the last eight jobs. -/
  jobs : s.pool.jobs = s.installed.take JOB_HISTORY
  /-- Every job was installed under an id of its own. -/
  ids : s.installedIds.Sublist s.allocated
  /-- And so will be the job that is being built. -/
  building : ∀ jobId, s.poller = .building jobId →
    ∃ rest, s.allocated = jobId :: rest ∧ s.installedIds.Sublist rest

theorem recorded_init : init.Recorded where
  next := rfl
  allocated _ := rfl
  jobs := rfl
  ids := List.Sublist.refl _
  building jobId h := absurd h (by simp [init])

variable {fromStr : Str → Option Value} {difficulty : UInt32 → Value} {s s' : Server}

/-- An event of a connection leaves the jobs alone. -/
theorem Recorded.of_eq (h : s.Recorded) (hjobs : s'.pool.jobs = s.pool.jobs)
    (hnext : s'.pool.nextJobId = s.pool.nextJobId) (hpoller : s'.poller = s.poller)
    (hallocated : s'.allocated = s.allocated) (hinstalled : s'.installed = s.installed) :
    s'.Recorded := by
  have hids : s'.installedIds = s.installedIds := by rw [installedIds, hinstalled, installedIds]
  refine ⟨?_, ?_, ?_, ?_, ?_⟩
  · rw [hnext, hallocated, h.next]
  · rw [hallocated]
    exact h.allocated
  · rw [hjobs, hinstalled, h.jobs]
  · rw [hids, hallocated]
    exact h.ids
  · rw [hids, hallocated, hpoller]
    exact h.building

theorem Recorded.startJob (h : s.Recorded) : Recorded { s with
    pool := s.pool.allocateJobId.2
    poller := .building s.pool.allocateJobId.1
    allocated := s.pool.allocateJobId.1 :: s.allocated } := by
  refine ⟨?_, fun hlt => ?_, h.jobs, h.ids.trans (List.sublist_cons_self _ _),
    fun jobId hjobId => ?_⟩
  · change s.pool.nextJobId + 1 = UInt64.ofNat (s.allocated.length + 1 + 1)
    rw [h.next, UInt64.ofNat_add, UInt64.ofNat_add, UInt64.ofNat_add]
    rfl
  · -- The counter is still below its bound, so the id is its number.
    have hlt : s.allocated.length + 1 < 2 ^ 64 := hlt
    have hnumber : s.pool.nextJobId.toNat = s.allocated.length + 1 := by
      rw [h.next, UInt64.toNat_ofNat', Nat.mod_eq_of_lt hlt]
    change Nat.toDigits 16 s.pool.nextJobId.toNat :: s.allocated = jobIds (s.allocated.length + 1)
    rw [hnumber, jobIds, ← h.allocated (by omega)]
  · obtain rfl := PollerPhase.building.inj hjobId
    exact ⟨s.allocated, rfl, h.ids⟩

theorem Recorded.install (h : s.Recorded) {active : ActiveJob}
    (hpoller : s.poller = .building active.job.jobId) : Recorded { s with
      pool := s.pool.setCurrentJob active
      poller := .announcing active
      installed := active :: s.installed } := by
  obtain ⟨rest, hallocated, hsub⟩ := h.building _ hpoller
  refine ⟨h.next, h.allocated, ?_, ?_, fun jobId hjobId => absurd hjobId (by simp)⟩
  · change (active :: s.pool.jobs).take JOB_HISTORY = (active :: s.installed).take JOB_HISTORY
    rw [h.jobs, JOB_HISTORY, List.take_succ_cons, List.take_succ_cons, List.take_take]
    rfl
  · change (active.job.jobId :: s.installedIds).Sublist s.allocated
    rw [hallocated]
    exact hsub.cons_cons _

/-- **The step lemma.** -/
theorem Recorded.of_step (h : s.Recorded) {event : Event}
    (hstep : step fromStr difficulty s event = some s') : s'.Recorded := by
  cases event with
  | connect =>
    obtain rfl := step_connect hstep
    exact h.of_eq rfl rfl rfl rfl rfl
  | refuse =>
    obtain rfl := step_refuse hstep
    exact h.of_eq rfl rfl rfl rfl rfl
  | line i text =>
    obtain ⟨t, -, -, ⟨-, rfl⟩ | ⟨-, rfl⟩⟩ := step_line hstep
    · exact h
    · exact h.of_eq rfl rfl rfl rfl rfl
  | perform i world =>
    obtain ⟨t, request, effect, next, -, -, rfl⟩ := step_perform hstep
    exact h.of_eq (affect_jobs s.pool effect).1 (affect_jobs s.pool effect).2 rfl rfl rfl
  | hangUp i =>
    obtain ⟨t, -, -, rfl⟩ := step_hangUp hstep
    exact h.of_eq rfl rfl rfl rfl rfl
  | unregister i =>
    obtain ⟨t, -, -, rfl⟩ := step_unregister hstep
    exact h.of_eq rfl rfl rfl rfl rfl
  | writerEnds i =>
    obtain ⟨t, -, rfl⟩ := step_writerEnds hstep
    exact h.of_eq rfl rfl rfl rfl rfl
  | startJob =>
    obtain ⟨-, rfl⟩ := step_startJob hstep
    exact h.startJob
  | abandon =>
    obtain ⟨jobId, -, rfl⟩ := step_abandon hstep
    exact ⟨h.next, h.allocated, h.jobs, h.ids, fun jobId hjobId => absurd hjobId (by simp)⟩
  | install active =>
    obtain ⟨hpoller, rfl⟩ := step_install hstep
    exact h.install hpoller
  | announce =>
    obtain ⟨active, -, rfl⟩ := step_announce hstep
    exact ⟨h.next, h.allocated, h.jobs, h.ids, fun jobId hjobId => absurd hjobId (by simp)⟩

/-! ### Every state of a run -/

/-- The operations that do not answer `job_not_found`. -/
def FindsJob (effect : Effect) : Prop :=
  ∀ id, effect ≠ .send (.response (.failure id .jobNotFound))

/-- What `on_submit` does once it has the job of a share. -/
def checking (session : Session) (id : Option UInt64) (share : Share) (active : ActiveJob) :
    PoolProg Unit := do
  let outcome ← check active share session.extranonce1.toList
  Session.answerShare id outcome

/-- **The jobs of a state are exact.** Lists of jobs have the latest first, so that the
job at place `0` is the one that was installed last. -/
structure JobsExact (s : Server) : Prop where
  /-- All ids that were allocated are distinct strings. -/
  distinct : s.allocated.Nodup
  /-- Jobs were installed under ids that were allocated, in the same order. -/
  named : s.installedIds.Sublist s.allocated
  /-- The current job is the one that was installed last. -/
  current : s.pool.currentJob = s.installed.head?
  /-- A job is found under its id if it is among the last eight, and otherwise nothing is. -/
  lookup : ∀ k active, s.installed[k]? = some active →
    s.pool.jobById active.job.jobId = if k < JOB_HISTORY then some active else none
  /-- Nothing is found under an id that none of the last eight has. -/
  unknown : ∀ jobId, (∀ active ∈ s.installed.take JOB_HISTORY, active.job.jobId ≠ jobId) →
    s.pool.jobById jobId = none
  /-- A share for one of the last eight is checked against that very job. -/
  share : ∀ k active, s.installed[k]? = some active → k < JOB_HISTORY →
    ∀ (session : Session) (request : Request) (share : Share), session.authorized = true →
      Share.fromSubmitParams request.params = .ok share → share.jobId = active.job.jobId →
        (∃ next, session.onSubmit request = .op (.jobById share.jobId) next ∧
          ∀ world, next (answer s.pool world (.jobById share.jobId)) =
            checking session request.id share active) ∧
          (checking session request.id share active).Only FindsJob

/-- In a list without repetitions, an element is the first with its key. -/
theorem find?_of_nodup {l : List ActiveJob}
    (h : (l.map fun active => active.job.jobId).Nodup) {active : ActiveJob} (hmem : active ∈ l) :
    l.find? (fun job => job.job.jobId == active.job.jobId) = some active := by
  rcases hfind : l.find? (fun job => job.job.jobId == active.job.jobId) with _ | found
  · exact absurd (List.find?_eq_none.mp hfind active hmem) (by simp)
  · have heq : found.job.jobId = active.job.jobId := by simpa using List.find?_some hfind
    obtain rfl := List.inj_on_of_nodup_map h (List.mem_of_find?_eq_some hfind) hmem heq
    exact hfind

theorem findsJob_answerShare (id : Option UInt64) (outcome : Except ValidationError Verdict) :
    (Session.answerShare id outcome).Only FindsJob := by
  have hother : ∀ message, FindsJob (.send (.response (.failure id (.other message)))) := by
    intro message id' heq
    simp [Response.failure, StratumError.other, StratumError.jobNotFound] at heq
  have hok : FindsJob (.send (.response (.ok id (.bool true)))) := by
    intro id' heq
    simp [Response.ok, Response.failure] at heq
  have hrefresh : FindsJob .requestRefresh := fun id' heq => by simp at heq
  rcases outcome with error | ⟨_, _⟩ | ⟨_, _⟩ | ⟨_, _⟩ | ⟨_, _⟩
  · exact ⟨hother _, fun _ => trivial⟩
  · exact ⟨hok, fun _ => ⟨hrefresh, fun _ => trivial⟩⟩
  · exact ⟨hok, fun _ => ⟨hrefresh, fun _ => trivial⟩⟩
  · exact ⟨hother _, fun _ => trivial⟩
  · exact ⟨hok, fun _ => trivial⟩

theorem findsJob_check (active : ActiveJob) (share : Share) (extranonce1 : Bytes) :
    (check active share extranonce1).Only FindsJob := by
  refine (Session.only_check active share extranonce1).mono fun effect honNode id heq => ?_
  rw [heq] at honNode
  exact honNode

/-- **A recorded state is exact**, as long as the counter has not wrapped. -/
theorem Recorded.jobsExact (h : s.Recorded) (hlt : s.allocated.length < 2 ^ 64) :
    s.JobsExact := by
  have hdistinct : s.allocated.Nodup := by
    rw [h.allocated hlt]
    exact nodup_jobIds _
  have hids : s.installedIds.Nodup := h.ids.nodup hdistinct
  have hrecent : ((s.installed.take JOB_HISTORY).map fun active => active.job.jobId).Nodup := by
    rw [List.map_take]
    exact (List.take_sublist _ _).nodup hids
  have hlookup : ∀ k active, s.installed[k]? = some active →
      s.pool.jobById active.job.jobId = if k < JOB_HISTORY then some active else none := by
    intro k active hk
    rw [PoolState.jobById, h.jobs]
    split_ifs with hrange
    · refine find?_of_nodup hrecent (List.mem_iff_getElem?.mpr ⟨k, ?_⟩)
      rw [List.getElem?_take, if_pos hrange, hk]
    · refine List.find?_eq_none.mpr fun job hjob heq => ?_
      -- A job of that id among the last eight would be installed twice.
      obtain ⟨j, hj⟩ := List.mem_iff_getElem?.mp hjob
      rw [List.getElem?_take] at hj
      split_ifs at hj with hjrange
      have hjk : s.installedIds[j]? = s.installedIds[k]? := by
        rw [installedIds, List.getElem?_map, List.getElem?_map, hj, hk, Option.map_some,
          Option.map_some, eq_of_beq heq]
      have hjlt : j < s.installedIds.length := by
        rw [installedIds, List.length_map]
        exact (List.getElem?_eq_some_iff.mp hj).1
      have := (List.getElem?_inj hjlt hids).mp hjk
      omega
  refine ⟨hdistinct, h.ids, ?_, hlookup, fun jobId hnone => ?_, ?_⟩
  · rw [PoolState.currentJob, h.jobs, JOB_HISTORY, List.head?_take]
    rfl
  · rw [PoolState.jobById, h.jobs]
    exact List.find?_eq_none.mpr fun active hactive heq => hnone active hactive (eq_of_beq heq)
  · intro k active hk hrange session request share hauth hshare hid
    have hsubmit : session.onSubmit request = session.onShare request.id share := by
      rw [Session.onSubmit, hauth, hshare]
      rfl
    refine ⟨⟨_, hsubmit, fun world => ?_⟩,
      (findsJob_check _ _ _).bind fun outcome => findsJob_answerShare _ outcome⟩
    have hjob : answer s.pool world (.jobById share.jobId) = some active := by
      change s.pool.jobById share.jobId = some active
      rw [hid, hlookup k active hk, if_pos hrange]
    rw [hjob]
    rfl

/-- **The history of jobs is exact over whole runs.** Whatever the connections do in
between, in every state of a run with fewer than `2 ^ 64` job ids allocated, the ids are
distinct, the current job is the last installed, and a job is found by its id precisely
as long as it is among the last eight. -/
theorem jobs_exact (fromStr : Str → Option Value) (difficulty : UInt32 → Value)
    (events : List Event) :
    StepSystem.Always (step fromStr difficulty)
      (fun s => s.allocated.length < 2 ^ 64 → s.JobsExact) init events :=
  (StepSystem.always_of_step (fun _ _ _ h hstep => Recorded.of_step h hstep) recorded_init
    events).mono fun _ h => h.jobsExact

end Server

end SoloMiner
