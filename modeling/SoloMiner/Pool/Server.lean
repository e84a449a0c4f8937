import SoloMiner.Lib.StepSystem
import SoloMiner.Pool.Session

/-!
# The threads of the pool

The pool's process is one poller, and for each connection a reader, which runs the code
of its session, and a writer, which drains the connection's channel. They share the
`SoloMiner.PoolState` and nothing else, so a run of the process is a list of events, each
of them one thread performing one operation: the order of the list is the interleaving.

A reader stands between two of its operations, with the rest of its code in hand
(`SoloMiner.Phase`). What the code is comes from `SoloMiner.Session.dispatch` alone; the
events only say who goes next, what lines arrive, and what the node and the clock answer.

What an event does is said once for each, from `SoloMiner.Server.step_connect` to
`SoloMiner.Server.step_announce`, and the proofs about runs use nothing else of the step
function.
-/

namespace SoloMiner

open Json

/-- `line.trim().is_empty()`. -/
def isBlank (line : Str) : Bool := line.all isWhitespace

/-! ### Threads -/

/-- Where the reader of a connection stands. -/
inductive Phase where
  /-- In wait of a line. -/
  | waiting
  /-- In the middle of a line, with this code left to run. The request that the line
  holds, if any, is kept for reference. -/
  | handling (request : Option Request) (code : PoolProg (Session × Bool))
  /-- Past the loop over the lines, still to unregister. -/
  | closing
  /-- `handle` has returned. -/
  | returned
  /-- A panic has unwound the thread. -/
  | crashed

/-- One connection: its reader, its channel and its writer. -/
structure Thread where
  session : Session
  phase : Phase
  /-- The lines put on the channel so far, the latest first. -/
  sent : List Incoming
  /-- Whether the writer still takes lines. -/
  writing : Bool
  /-- The requests handled so far, the latest first. -/
  handled : List Request

namespace Thread

/-- The connection that `handle` sets up. -/
def new (connectionId : UInt64) (outbound : Channel) : Thread where
  session := .new connectionId outbound
  phase := .waiting
  sent := []
  writing := true
  handled := []

/-- The reader goes on with its code, up to the next operation. -/
def resume (self : Thread) (request : Option Request) : PoolProg (Session × Bool) → Thread
  | .ret (session, true) =>
    { self with session := session, phase := .waiting, handled := request.toList ++ self.handled }
  | .ret (session, false) =>
    { self with session := session, phase := .closing, handled := request.toList ++ self.handled }
  | .panic => { self with phase := .crashed }
  | .op o next => { self with phase := .handling request (.op o next) }

/-- The channel with further lines on it, as long as there is someone to take them. -/
def put (self : Thread) (lines : List Incoming) : List Incoming :=
  if self.writing then lines ++ self.sent else self.sent

/-- Lines are put on the channel. -/
def receive (self : Thread) (lines : List Incoming) : Thread :=
  { self with sent := self.put lines }

theorem put_nil (self : Thread) : self.put [] = self.sent := by
  rw [put, List.nil_append, ite_self]

theorem receive_nil (self : Thread) : self.receive [] = self := by
  rw [receive, put_nil]

/-- `handle` is running. -/
def Alive (self : Thread) : Prop := self.phase ≠ .returned ∧ self.phase ≠ .crashed

/-- A reader runs on unless its code panics. -/
theorem alive_resume_iff {self : Thread} {request : Option Request}
    {code : PoolProg (Session × Bool)} : (self.resume request code).Alive ↔ code ≠ .panic := by
  rcases code with ⟨session, _ | _⟩ | _ | _ <;> simp [resume, Alive]

end Thread

/-- Where the poller stands. -/
inductive PollerPhase where
  /-- Between two jobs. -/
  | idle
  /-- Building the job of this id. -/
  | building (jobId : Str)
  /-- Past `set_current_job`, before the broadcast. -/
  | announcing (active : ActiveJob)

/-- The pool's process. What was allocated and installed so far, the latest first, is
kept for reference. -/
structure Server where
  pool : PoolState
  poller : PollerPhase
  /-- The connections, each at the number of its channel. -/
  threads : List Thread
  allocated : List Str
  installed : List ActiveJob

/-- What the clock and the node answer. -/
structure World where
  now : ℤ
  node : Except Str (Option Str)

/-- What can happen next. -/
inductive Event where
  /-- A connection is accepted. -/
  | connect
  /-- A connection is accepted whose socket cannot be split, and dropped. -/
  | refuse
  /-- A line arrives at a reader. -/
  | line (i : ℕ) (text : Str)
  /-- A reader performs its next operation. -/
  | perform (i : ℕ) (world : World)
  /-- A reader finds its connection closed. -/
  | hangUp (i : ℕ)
  /-- A reader unregisters its connection, and `handle` returns. -/
  | unregister (i : ℕ)
  /-- A writer fails to write and ends. -/
  | writerEnds (i : ℕ)
  /-- The poller allocates the id of a job. -/
  | startJob
  /-- The poller fails to build the job. -/
  | abandon
  /-- The poller installs the job. -/
  | install (active : ActiveJob)
  /-- The poller broadcasts the job it has installed. -/
  | announce

namespace Server

/-- The process before its first event. -/
def init : Server := ⟨.new, .idle, [], [], []⟩

/-- The line that announces a job. -/
def notifyLine (active : ActiveJob) : Incoming :=
  .request (.notification method.NOTIFY active.job.toNotifyParams)

/-- What the operation of a reader is answered. -/
def answer (pool : PoolState) (world : World) : (effect : Effect) → effect.Answer
  | .unixNow => world.now
  | .sleep _ => ()
  | .submitBlock _ => world.node
  | .send _ => ()
  | .subscribe _ _ => ()
  | .currentJob => pool.currentJob
  | .jobById jobId => pool.jobById jobId
  | .requestRefresh => ()

/-- What the operation of a reader does to the shared state. -/
def affect (pool : PoolState) : Effect → PoolState
  | .subscribe id outbound => pool.subscribe id outbound
  | _ => pool

/-- The lines that the operation of a reader puts on its channel. -/
def linesOf : Effect → List Incoming
  | .send line => [line]
  | _ => []

/-- Whether someone takes the lines of the channel. -/
def isWriting (s : Server) (outbound : Channel) : Bool :=
  match s.threads[outbound]? with
  | some t => t.writing
  | none => false

/-- How often the channel is among the subscribers'. -/
def entries (pool : PoolState) (outbound : Channel) : ℕ :=
  pool.subscribers.countP fun subscriber => subscriber.outbound == outbound

/-- The connection `i` is among the subscribers. -/
def Subscribed (s : Server) (i : ℕ) : Prop := ∃ entry ∈ s.pool.subscribers, entry.outbound = i

/-- The process with another state of the connection `i`. -/
def setThread (s : Server) (i : ℕ) (t : Thread) : Server := { s with threads := s.threads.set i t }

variable (fromStr : Str → Option Value) (difficulty : UInt32 → Value)

/-- The request on a line, if that is what it holds. -/
def requestOf (text : Str) : Option Request :=
  match Incoming.parse fromStr text with
  | some (.request request) => some request
  | _ => none

/-- One event, if it can happen. -/
def step (s : Server) : Event → Option Server
  | .connect =>
    let (id, pool) := s.pool.allocateConnectionId
    some { s with pool := pool, threads := s.threads ++ [.new id s.threads.length] }
  | .refuse => some { s with pool := s.pool.allocateConnectionId.2 }
  | .line i text =>
    match s.threads[i]? with
    | some t =>
      match t.phase with
      | .waiting =>
        if isBlank text then some s
        else
          let code := t.session.dispatch fromStr difficulty text
          some (s.setThread i (t.resume (requestOf fromStr text) code))
      | _ => none
    | none => none
  | .perform i world =>
    match s.threads[i]? with
    | some t =>
      match t.phase with
      | .handling request (.op effect next) =>
        let t := (t.receive (linesOf effect)).resume request (next (answer s.pool world effect))
        some { s.setThread i t with pool := affect s.pool effect }
      | _ => none
    | none => none
  | .hangUp i =>
    match s.threads[i]? with
    | some t =>
      match t.phase with
      | .waiting => some (s.setThread i { t with phase := .closing })
      | _ => none
    | none => none
  | .unregister i =>
    match s.threads[i]? with
    | some t =>
      match t.phase with
      | .closing =>
        some { s.setThread i { t with phase := .returned } with
          pool := s.pool.unsubscribe t.session.connectionId }
      | _ => none
    | none => none
  | .writerEnds i =>
    match s.threads[i]? with
    | some t => some (s.setThread i { t with writing := false })
    | none => none
  | .startJob =>
    match s.poller with
    | .idle =>
      let (jobId, pool) := s.pool.allocateJobId
      some { s with pool := pool, poller := .building jobId, allocated := jobId :: s.allocated }
    | _ => none
  | .abandon =>
    match s.poller with
    | .building _ => some { s with poller := .idle }
    | _ => none
  | .install active =>
    match s.poller with
    | .building jobId =>
      if active.job.jobId = jobId then
        some { s with
          pool := s.pool.setCurrentJob active
          poller := .announcing active
          installed := active :: s.installed }
      else none
    | _ => none
  | .announce =>
    match s.poller with
    | .announcing active =>
      some { s with
        pool := s.pool.broadcast s.isWriting
        poller := .idle
        threads := s.threads.mapIdx fun i t =>
          t.receive (List.replicate (entries s.pool i) (notifyLine active)) }
    | _ => none

/-! ### What an event does -/

variable {fromStr difficulty}
variable {s s' : Server} {i : ℕ}

theorem step_connect (h : step fromStr difficulty s .connect = some s') :
    s' = { s with
      pool := s.pool.allocateConnectionId.2
      threads := s.threads ++ [.new s.pool.nextConnectionId s.threads.length] } :=
  (Option.some.inj h).symm

theorem step_refuse (h : step fromStr difficulty s .refuse = some s') :
    s' = { s with pool := s.pool.allocateConnectionId.2 } :=
  (Option.some.inj h).symm

theorem step_line {text : Str} (h : step fromStr difficulty s (.line i text) = some s') :
    ∃ t, s.threads[i]? = some t ∧ t.phase = .waiting ∧
      (isBlank text = true ∧ s' = s ∨ isBlank text = false ∧ s' = s.setThread i
        (t.resume (requestOf fromStr text) (t.session.dispatch fromStr difficulty text))) := by
  rw [step] at h
  split at h
  · next t ht =>
    split at h
    · next hphase =>
      split_ifs at h with hblank
      · exact ⟨t, ht, hphase, Or.inl ⟨hblank, (Option.some.inj h).symm⟩⟩
      · exact ⟨t, ht, hphase,
          Or.inr ⟨(Bool.not_eq_true _).mp hblank, (Option.some.inj h).symm⟩⟩
    · exact absurd h (by simp)
  · exact absurd h (by simp)

theorem step_perform {world : World}
    (h : step fromStr difficulty s (.perform i world) = some s') :
    ∃ t request effect next, s.threads[i]? = some t ∧
      t.phase = .handling request (.op effect next) ∧
        s' = { s.setThread i ((t.receive (linesOf effect)).resume request
          (next (answer s.pool world effect))) with pool := affect s.pool effect } := by
  rw [step] at h
  split at h
  · next t ht =>
    split at h
    · next request effect next hphase =>
      exact ⟨t, request, effect, next, ht, hphase, (Option.some.inj h).symm⟩
    · exact absurd h (by simp)
  · exact absurd h (by simp)

theorem step_hangUp (h : step fromStr difficulty s (.hangUp i) = some s') :
    ∃ t, s.threads[i]? = some t ∧ t.phase = .waiting ∧
      s' = s.setThread i { t with phase := .closing } := by
  rw [step] at h
  split at h
  · next t ht =>
    split at h
    · next hphase => exact ⟨t, ht, hphase, (Option.some.inj h).symm⟩
    · exact absurd h (by simp)
  · exact absurd h (by simp)

theorem step_unregister (h : step fromStr difficulty s (.unregister i) = some s') :
    ∃ t, s.threads[i]? = some t ∧ t.phase = .closing ∧
      s' = { s.setThread i { t with phase := .returned } with
        pool := s.pool.unsubscribe t.session.connectionId } := by
  rw [step] at h
  split at h
  · next t ht =>
    split at h
    · next hphase => exact ⟨t, ht, hphase, (Option.some.inj h).symm⟩
    · exact absurd h (by simp)
  · exact absurd h (by simp)

theorem step_writerEnds (h : step fromStr difficulty s (.writerEnds i) = some s') :
    ∃ t, s.threads[i]? = some t ∧
      s' = s.setThread i { t with writing := false } := by
  rw [step] at h
  split at h
  · next t ht => exact ⟨t, ht, (Option.some.inj h).symm⟩
  · exact absurd h (by simp)

theorem step_startJob (h : step fromStr difficulty s .startJob = some s') :
    s.poller = .idle ∧ s' = { s with
      pool := s.pool.allocateJobId.2
      poller := .building s.pool.allocateJobId.1
      allocated := s.pool.allocateJobId.1 :: s.allocated } := by
  rw [step] at h
  split at h
  · next hpoller => exact ⟨hpoller, (Option.some.inj h).symm⟩
  · exact absurd h (by simp)

theorem step_abandon (h : step fromStr difficulty s .abandon = some s') :
    ∃ jobId, s.poller = .building jobId ∧ s' = { s with poller := .idle } := by
  rw [step] at h
  split at h
  · next jobId hpoller => exact ⟨jobId, hpoller, (Option.some.inj h).symm⟩
  · exact absurd h (by simp)

theorem step_install {active : ActiveJob}
    (h : step fromStr difficulty s (.install active) = some s') :
    s.poller = .building active.job.jobId ∧ s' = { s with
      pool := s.pool.setCurrentJob active
      poller := .announcing active
      installed := active :: s.installed } := by
  rw [step] at h
  split at h
  · next jobId hpoller =>
    split_ifs at h with hid
    exact ⟨by rw [hpoller, hid], (Option.some.inj h).symm⟩
  · exact absurd h (by simp)

theorem step_announce (h : step fromStr difficulty s .announce = some s') :
    ∃ active, s.poller = .announcing active ∧ s' = { s with
      pool := s.pool.broadcast s.isWriting
      poller := .idle
      threads := s.threads.mapIdx fun i t =>
        t.receive (List.replicate (entries s.pool i) (notifyLine active)) } := by
  rw [step] at h
  split at h
  · next active hpoller => exact ⟨active, hpoller, (Option.some.inj h).symm⟩
  · exact absurd h (by simp)

/-- No operation of a reader touches the jobs. -/
theorem affect_jobs (pool : PoolState) (effect : Effect) :
    (affect pool effect).jobs = pool.jobs ∧ (affect pool effect).nextJobId = pool.nextJobId := by
  cases effect <;> exact ⟨rfl, rfl⟩

/-- A thread after one was changed: that one, or another as it was. -/
theorem getElem?_set_cases {threads : List Thread} {i j : ℕ} {t u : Thread}
    (h : (threads.set i t)[j]? = some u) :
    (j = i ∧ u = t) ∨ (j ≠ i ∧ threads[j]? = some u) := by
  rw [List.getElem?_set] at h
  split_ifs at h with hij hlt
  · exact Or.inl ⟨hij.symm, (Option.some.inj h).symm⟩
  · exact Or.inr ⟨Ne.symm hij, h⟩

/-- A thread after a connection: an old one, or the one that was set up. -/
theorem getElem?_concat_cases {threads : List Thread} {j : ℕ} {t u : Thread}
    (h : (threads ++ [t])[j]? = some u) :
    threads[j]? = some u ∨ (j = threads.length ∧ u = t) := by
  rw [List.getElem?_append] at h
  split_ifs at h with hlt
  · exact Or.inl h
  · rw [List.getElem?_singleton] at h
    split_ifs at h with hzero
    exact Or.inr ⟨by omega, (Option.some.inj h).symm⟩

/-! ### Who gets a broadcast -/

theorem subscribed_iff_mem {i : ℕ} :
    s.Subscribed i ↔ i ∈ s.pool.subscribers.map Subscriber.outbound := by
  rw [Subscribed, List.mem_map]

theorem entries_eq_count (pool : PoolState) (i : ℕ) :
    entries pool i = (pool.subscribers.map Subscriber.outbound).count i := by
  rw [entries, List.count, List.countP_map]
  rfl

theorem entries_pos_iff : 0 < entries s.pool i ↔ s.Subscribed i := by
  rw [entries_eq_count, List.count_pos_iff, subscribed_iff_mem]

/-- A broadcast, as seen by one connection. -/
theorem getElem?_announce {active : ActiveJob} (hpoller : s.poller = .announcing active)
    (h : step fromStr difficulty s .announce = some s') {i : ℕ} {t : Thread}
    (ht : s.threads[i]? = some t) :
    s'.threads[i]? =
      some (t.receive (List.replicate (entries s.pool i) (notifyLine active))) := by
  obtain ⟨active', hpoller', rfl⟩ := step_announce h
  rw [hpoller] at hpoller'
  obtain rfl := PollerPhase.announcing.inj hpoller'
  rw [List.getElem?_mapIdx, ht]
  rfl

end Server

end SoloMiner
