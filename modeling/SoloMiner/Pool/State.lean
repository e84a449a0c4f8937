import SoloMiner.Lib.Prog
import SoloMiner.Pool.MinDifficulty
import SoloMiner.Stratum.Message

/-!
# The state the pool's threads share

One poller installs jobs and one thread per miner reads them. The state keeps the last
eight jobs, since a share may arrive for a job that has just been replaced, and the
connections to push new work to. Every job in a reachable state is one that the poller
can install (`SoloMiner.PoolState.Reachable.installable`).

A thread acts on this state, on the node and on its connection by operations
(`SoloMiner.Effect`), each of them atomic: every access to the state is one critical
section of its mutex.
-/

namespace SoloMiner

/-- How many recent jobs stay valid for share submission. -/
def JOB_HISTORY : ℕ := 8

/-- The sending end of a connection's channel. Each connection makes one, and the number
tells which. -/
abbrev Channel : Type := ℕ

/-- A connected miner's outbound line channel. -/
structure Subscriber where
  id : UInt64
  outbound : Channel
  deriving DecidableEq

/-- Everything shared between the pool's threads. -/
structure PoolState where
  /-- Most recent first. -/
  jobs : List ActiveJob
  /-- The connections to push work to. -/
  subscribers : List Subscriber
  /-- The id of the next connection. -/
  nextConnectionId : UInt64
  /-- The number of the next job. -/
  nextJobId : UInt64

namespace PoolState

/-- Empty state. -/
def new : PoolState := ⟨[], [], 1, 1⟩

/-- Allocates an id for a new connection. -/
def allocateConnectionId (self : PoolState) : UInt64 × PoolState :=
  (self.nextConnectionId, { self with nextConnectionId := self.nextConnectionId + 1 })

/-- Allocates a job id: the number in hex, `{:x}`. -/
def allocateJobId (self : PoolState) : Str × PoolState :=
  (Nat.toDigits 16 self.nextJobId.toNat, { self with nextJobId := self.nextJobId + 1 })

/-- Installs a new job. -/
def setCurrentJob (self : PoolState) (job : ActiveJob) : PoolState :=
  { self with jobs := (job :: self.jobs).take JOB_HISTORY }

/-- The job miners should currently be working on. -/
def currentJob (self : PoolState) : Option ActiveJob := self.jobs.head?

/-- Looks up a job by id, including recently retired ones. -/
def jobById (self : PoolState) (jobId : Str) : Option ActiveJob :=
  self.jobs.find? fun job => job.job.jobId == jobId

/-- Registers a connection to receive pushed work. -/
def subscribe (self : PoolState) (id : UInt64) (outbound : Channel) : PoolState :=
  { self with subscribers := self.subscribers ++ [⟨id, outbound⟩] }

/-- Removes a connection. -/
def unsubscribe (self : PoolState) (id : UInt64) : PoolState :=
  { self with subscribers := self.subscribers.filter fun subscriber => subscriber.id != id }

/-- Sends a line to every subscriber; those whose writer is gone are dropped. The
subscribers that are left are those whose channel the line is in. -/
def broadcast (self : PoolState) (alive : Channel → Bool) : PoolState :=
  { self with subscribers := self.subscribers.filter fun subscriber => alive subscriber.outbound }

/-- How many miners are connected. -/
def subscriberCount (self : PoolState) : ℕ := self.subscribers.length

/-! ### The reachable states -/

/-- What the threads do to the state. -/
inductive Step : PoolState → PoolState → Prop
  /-- A miner connects. -/
  | connect (s : PoolState) : Step s s.allocateConnectionId.2
  /-- The poller starts on a job. -/
  | startJob (s : PoolState) : Step s s.allocateJobId.2
  /-- The poller installs a job. -/
  | install (s : PoolState) {active : ActiveJob} (h : Installable active) :
    Step s (s.setCurrentJob active)
  /-- A session subscribes. -/
  | subscribe (s : PoolState) (id : UInt64) (outbound : Channel) : Step s (s.subscribe id outbound)
  /-- A session ends. -/
  | unsubscribe (s : PoolState) (id : UInt64) : Step s (s.unsubscribe id)
  /-- The poller announces a job. -/
  | broadcast (s : PoolState) (alive : Channel → Bool) : Step s (s.broadcast alive)

/-- The states that the pool can come to. -/
inductive Reachable : PoolState → Prop
  | new : Reachable .new
  | step {s s' : PoolState} (hs : Reachable s) (h : Step s s') : Reachable s'

/-- **Every job in a reachable state was installed by the poller.** -/
theorem Reachable.installable {s : PoolState} (hs : s.Reachable) :
    ∀ active ∈ s.jobs, Installable active := by
  induction hs with
  | new => exact fun active hactive => absurd hactive List.not_mem_nil
  | step _ h ih =>
    cases h with
    | install hjob =>
      intro active hactive
      rcases List.mem_cons.mp (List.mem_of_mem_take hactive) with rfl | hold
      · exact hjob
      · exact ih active hold
    | connect => exact ih
    | startJob => exact ih
    | subscribe => exact ih
    | unsubscribe => exact ih
    | broadcast => exact ih

theorem Reachable.coherent_of_jobById {s : PoolState} (hs : s.Reachable) {jobId : Str}
    {active : ActiveJob} (h : s.jobById jobId = some active) : active.Coherent :=
  (hs.installable active (List.mem_of_find?_eq_some h)).coherent

end PoolState

/-! ### The operations of a thread -/

/-- What a thread of the pool does to the world around it. -/
inductive Effect where
  /-- Reads the clock. -/
  | unixNow
  /-- Sleeps for so many seconds. -/
  | sleep (seconds : ℤ)
  /-- Asks the node to take a block, given in hex. -/
  | submitBlock (block : Str)
  /-- Puts a line on the connection's channel. The line is kept as the message that it is
  the text of. -/
  | send (line : Incoming)
  /-- Registers the connection to receive pushed work. -/
  | subscribe (id : UInt64) (outbound : Channel)
  /-- Reads the current job. -/
  | currentJob
  /-- Looks up a job. -/
  | jobById (jobId : Str)
  /-- Wakes the poller. -/
  | requestRefresh

/-- What the world answers. The node answers with the text of an error, or with nothing
when it takes the block, or with its reason not to. -/
@[reducible] def Effect.Answer : Effect → Type
  | unixNow => ℤ
  | sleep _ => Unit
  | submitBlock _ => Except Str (Option Str)
  | send _ => Unit
  | subscribe _ _ => Unit
  | currentJob => Option ActiveJob
  | jobById _ => Option ActiveJob
  | requestRefresh => Unit

/-- The code of a thread of the pool. -/
abbrev PoolProg : Type → Type := Prog Effect Effect.Answer

/-- The code that performs one operation. -/
abbrev perform (effect : Effect) : PoolProg effect.Answer := Prog.perform effect

end SoloMiner
