import SoloMiner.Lib.Protocol
import SoloMiner.Pool.Readiness

/-!
# Watching the node

The program of the pool's main thread, up to the accepting of connections, and of the
poller that it starts. At the start the node is checked, the address that is paid is
resolved to a script, and the socket is bound. Then the poller makes its passes: it asks
for a template and installs a job if there is a reason to
(`SoloMiner.Watch.poll`), it stops the pool if no job was installed for two minutes, and
from time to time it checks the node again (`SoloMiner.Watch.recheck`).

The node, the clocks, the shared state and the sockets are asked by operations, so a run is
whatever they answer. An `Instant` is its number of nanoseconds.
-/

namespace SoloMiner

open Readiness

/-! ### Operations -/

/-- The moments that the poller measures from. -/
inductive Timer where
  /-- When the last job was built. -/
  | lastBuilt
  /-- When the last job was installed. -/
  | lastJobInstalled
  /-- When the node was last checked. -/
  | lastReadinessCheck
  deriving DecidableEq

/-- What the main thread and the poller do to the world around them. -/
inductive WatchOp where
  | getBlockchainInfo
  | getConnectionCount
  | ensureWallet (name : Str)
  | getNewAddress (wallet : Str)
  | validateAddress (address : Str)
  | getBlockTemplate
  | getBlockHeader (hash : Str)
  /-- Binds the socket that miners connect to. -/
  | bind
  /-- Reads the wall clock. -/
  | unixNow
  /-- Reads the clock that does not go back. -/
  | instantNow
  /-- The time that has passed since a moment, `Instant::elapsed`. -/
  | elapsed (timer : Timer) (since : ℕ)
  | allocateJobId
  | setCurrentJob (active : ActiveJob)
  | broadcast (line : Incoming)
  /-- Sleeps until the interval is over or a session asks for fresh work, and drops all
  such requests that have piled up. -/
  | wait

/-- What an operation returns. Of a header only its timestamp is used. -/
@[reducible] def WatchOp.Answer : WatchOp → Type
  | getBlockchainInfo => Except Str BlockchainInfo
  | getConnectionCount => Except Str UInt32
  | ensureWallet _ => Except Str Unit
  | getNewAddress _ => Except Str Str
  | validateAddress _ => Except Str AddressInfo
  | getBlockTemplate => Except Str BlockTemplate
  | getBlockHeader _ => Except Str UInt32
  | bind => Except Str Unit
  | unixNow => Int64
  | instantNow => ℕ
  | elapsed _ _ => ℕ
  | allocateJobId => Str
  | setCurrentJob _ => Unit
  | broadcast _ => Unit
  | wait => Unit

/-- The code of the two threads. -/
abbrev WatchProg : Type → Type := Prog WatchOp WatchOp.Answer

/-- The code that performs one operation. -/
abbrev WatchOp.ask (o : WatchOp) : WatchProg o.Answer := Prog.perform o

/-- Why the pool ends, or why it does not start. -/
inductive Stop where
  /-- Talking to the node failed. -/
  | rpc (message : Str)
  /-- The node is not fit to mine on. -/
  | notReady (reason : NotReady)
  /-- An address is needed on this network. -/
  | addressRequired
  /-- The node considers the address invalid. -/
  | invalidAddress (address : Str)
  /-- The node knows no script for the address. -/
  | noScript
  /-- The script is not hex. -/
  | badScript (error : Hex.HexError)
  /-- The socket cannot be bound. -/
  | bind (message : Str)
  /-- No job was installed for too long. -/
  | outage
  deriving DecidableEq

/-! ### A pass of the poller -/

/-- How often the job is rebuilt although nothing has changed, in nanoseconds. -/
def REFRESH_INTERVAL : ℕ := 30 * 10 ^ 9

/-- How long the node may fail to give a template. -/
def MAX_TEMPLATE_OUTAGE : ℕ := 120 * 10 ^ 9

/-- How often the node is checked again. -/
def READINESS_INTERVAL : ℕ := 60 * 10 ^ 9

/-- What the poller remembers from pass to pass. -/
structure Watch where
  poller : Poller
  lastBuilt : ℕ
  lastJobInstalled : ℕ
  lastReadinessCheck : ℕ

namespace Watch

open WatchOp (ask)

/-- The timestamp of the parent, which is asked for where it matters. -/
def parentTime (network : Network) (template : BlockTemplate) : WatchProg (Option UInt32) :=
  if network = .testnet4 then do
    let time ← ask (.getBlockHeader template.previousBlockHash)
    pure time.toOption
  else pure none

/-- Building a job that is due, and installing it. -/
def install (network : Network) (payoutScript : Bytes) (self : Watch) (template : BlockTemplate)
    (bits : Option UInt32) (clean : Bool) : WatchProg (Except PollError Watch) := do
  let jobId ← ask .allocateJobId
  .attempt (Checked.mapErr .build (build jobId template payoutScript clean)) fun built => do
    let time ← parentTime network template
    let active := built.withWindow (network == .testnet4) time
    ask (.setCurrentJob active)
    ask (.broadcast (Server.notifyLine active))
    let now ← ask .instantNow
    pure (.ok ⟨⟨some template.previousBlockHash, bits⟩, now, now, self.lastReadinessCheck⟩)

/-- Asking for a template, and making a job of it if there is a reason to. -/
def poll (network : Network) (payoutScript : Bytes) (self : Watch) :
    WatchProg (Except PollError Watch) := do
  match ← ask .getBlockTemplate with
  | .error message => pure (.error (.fetch message))
  | .ok template =>
    .attempt (Checked.dropErr template.compactBits) fun bits => do
      let elapsed ← ask (.elapsed .lastBuilt self.lastBuilt)
      let clean := self.poller.changed template bits
      if clean || decide (REFRESH_INTERVAL ≤ elapsed) then
        install network payoutScript self template bits clean
      else pure (.ok self)

/-- Checking the node again, if it is time. A failure to ask is not a failure of the node. -/
def recheck (network : Network) (self : Watch) : WatchProg (Except Stop Watch) := do
  let elapsed ← ask (.elapsed .lastReadinessCheck self.lastReadinessCheck)
  if READINESS_INTERVAL ≤ elapsed then do
    let now ← ask .instantNow
    let info ← ask .getBlockchainInfo
    let peers ← ask .getConnectionCount
    match info, peers with
    | .ok info, .ok peers => do
      let unix ← ask .unixNow
      match Readiness.check network info peers unix with
      | .error reason => pure (.error (.notReady reason))
      | .ok () => pure (.ok { self with lastReadinessCheck := now })
    | _, _ => pure (.ok { self with lastReadinessCheck := now })
  else pure (.ok self)

/-- One pass of `poll_templates`. What goes wrong with the template is printed. -/
def pass (network : Network) (payoutScript : Bytes) (self : Watch) :
    WatchProg (Except Stop Watch) := do
  let polled ← poll network payoutScript self
  let self := polled.toOption.getD self
  let outage ← ask (.elapsed .lastJobInstalled self.lastJobInstalled)
  if MAX_TEMPLATE_OUTAGE ≤ outage then pure (.error .outage)
  else do
    match ← recheck network self with
    | .error stop => pure (.error stop)
    | .ok self => do
      ask .wait
      pure (.ok self)

/-- So many passes. -/
def passes (network : Network) (payoutScript : Bytes) :
    ℕ → Watch → WatchProg (Except Stop Watch)
  | 0, self => pure (.ok self)
  | n + 1, self => do
    match ← pass network payoutScript self with
    | .error stop => pure (.error stop)
    | .ok self => passes network payoutScript n self

/-- The first `n` passes of `poll_templates`. -/
def pollTemplates (network : Network) (payoutScript : Bytes) (n : ℕ) :
    WatchProg (Except Stop Watch) := do
  let lastBuilt ← ask .instantNow
  let lastJobInstalled ← ask .instantNow
  let lastReadinessCheck ← ask .instantNow
  passes network payoutScript n ⟨.new, lastBuilt, lastJobInstalled, lastReadinessCheck⟩

/-! ### A first pass -/

/-- What a poller does that is given a template and builds its first job. -/
def firstPass (template : BlockTemplate) (jobId : Str) (active : ActiveJob) :
    Prog.Trace WatchOp.Answer :=
  [⟨.instantNow, (5 : ℕ)⟩, ⟨.instantNow, (6 : ℕ)⟩, ⟨.instantNow, (7 : ℕ)⟩,
    ⟨.getBlockTemplate, .ok template⟩, ⟨.elapsed .lastBuilt 5, (3 : ℕ)⟩,
    ⟨.allocateJobId, jobId⟩, ⟨.setCurrentJob active, ()⟩,
    ⟨.broadcast (Server.notifyLine active), ()⟩, ⟨.instantNow, (9 : ℕ)⟩,
    ⟨.elapsed .lastJobInstalled 9, (1 : ℕ)⟩, ⟨.elapsed .lastReadinessCheck 7, (4 : ℕ)⟩,
    ⟨.wait, ()⟩]

/-- On a network where the parent's timestamp does not matter, such a pass is a run. -/
theorem runs_firstPass {network : Network} {template : BlockTemplate} {payoutScript : Bytes}
    {bits : Option UInt32} {built : ActiveJob} {jobId : Str}
    (hbits : Checked.dropErr template.compactBits = (.ok bits : Checked PollError _))
    (hbuild : build jobId template payoutScript true = .ok built)
    (hnetwork : network ≠ .testnet4) :
    Prog.Runs (pollTemplates network payoutScript 1)
      (firstPass template jobId (built.withWindow false none))
      (some (.ok ⟨⟨some template.previousBlockHash, bits⟩, 9, 9, 7⟩)) := by
  have hexploit : (network == .testnet4) = false := by simpa using hnetwork
  have hpoll : Prog.Runs (poll network payoutScript ⟨.new, 5, 6, 7⟩)
      [⟨.getBlockTemplate, .ok template⟩, ⟨.elapsed .lastBuilt 5, (3 : ℕ)⟩,
        ⟨.allocateJobId, jobId⟩, ⟨.setCurrentJob (built.withWindow false none), ()⟩,
        ⟨.broadcast (Server.notifyLine (built.withWindow false none)), ()⟩,
        ⟨.instantNow, (9 : ℕ)⟩]
      (some (.ok ⟨⟨some template.previousBlockHash, bits⟩, 9, 9, 7⟩)) := by
    refine Prog.runs_perform_bind_iff.mpr ⟨.ok template, _, rfl, .attempt hbits ?_⟩
    refine Prog.runs_perform_bind_iff.mpr ⟨(3 : ℕ), _, rfl, ?_⟩
    -- Nothing is remembered yet, so the job is due.
    change Prog.Runs (install network payoutScript ⟨.new, 5, 6, 7⟩ template bits true) _ _
    rw [install, parentTime, if_neg hnetwork, hexploit]
    exact .op (.attempt (Checked.mapErr_eq_ok.mpr hbuild) (.op (.op (.op (.ret _)))))
  have hpass : Prog.Runs (pass network payoutScript ⟨.new, 5, 6, 7⟩)
      (_ ++ [⟨.elapsed .lastJobInstalled 9, (1 : ℕ)⟩, ⟨.elapsed .lastReadinessCheck 7, (4 : ℕ)⟩,
        ⟨.wait, ()⟩])
      (some (.ok ⟨⟨some template.previousBlockHash, bits⟩, 9, 9, 7⟩)) :=
    hpoll.bind (.op (.op (.op (.ret _))))
  exact .op (.op (.op (hpass.bind (.ret _))))

end Watch

end SoloMiner
