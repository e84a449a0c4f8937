import SoloMiner.Pool.Agreement
import SoloMiner.Pool.Told
import SoloMiner.Pool.Watch

/-!
# The poller in the process

`SoloMiner.Server` knows of the poller only when it starts on a job, gives it up, installs it
and announces it. Here the code of the poller itself runs among the sessions, one operation
at a time (`SoloMiner.Process.Step`), and each of its operations is carried out by the
events that it stands for (`SoloMiner.Process.serve`).

`SoloMiner.Process.refines` says that this is no other process. Whatever the node and the
clocks answer the poller, and however its operations fall among those of the sessions, the
server can always carry out the next one: a job is installed under the id that was
allocated for it, and what is broadcast is the job that has just been installed. And the jobs
that are installed are those of a run of `SoloMiner.PollRun`. The other way round, a run of
the poller that takes the ids that the server gives is one of the process
(`SoloMiner.Process.exists_of_runs`).
-/

namespace SoloMiner

open Json

namespace Process

/-! ### What the poller may do -/

variable (network : Network) (payoutScript : Bytes)

/-- Some run of the poller installs these jobs, the latest first. -/
def History (installed : List ActiveJob) : Prop :=
  ∃ ticks poller, StepSystem.exec (PollRun.step network payoutScript) .init ticks =
    some ⟨poller, installed⟩

/-- What is seen of the poller from the server. -/
structure View where
  phase : PollerPhase
  installed : List ActiveJob

/-- No job is waiting for its broadcast. -/
def View.Settled (s : View) : Prop := ∀ active, s.phase ≠ .announcing active

/-- **What the server relies on**: a job is installed under the id that was allocated, it is
announced before anything else is done, and it is the next one of a run of the poller. -/
def protocol : Protocol View WatchOp WatchOp.Answer where
  may
    | s, .setCurrentJob active => s.phase = .building active.job.jobId ∧
        History network payoutScript (active :: s.installed)
    | s, .broadcast line => ∃ active, s.phase = .announcing active ∧
        s.installed.head? = some active ∧ line = Server.notifyLine active
    | s, _ => s.Settled
  next
    | s, .allocateJobId, jobId => { s with phase := .building jobId }
    | s, .setCurrentJob active, _ => ⟨.announcing active, active :: s.installed⟩
    -- The header is fetched while the job is being built.
    | s, .getBlockHeader _, _ => s
    | s, _, _ => { s with phase := .idle }

/-! ### The code keeps to it -/

variable {network payoutScript} {watch : Watch} {s : View}

variable (network payoutScript) in
/-- Where the poller stands: what it remembers is what a run of it does. -/
structure Follows (watch : Watch) (s : View) : Prop where
  settled : s.Settled
  run : ∃ ticks, StepSystem.exec (PollRun.step network payoutScript) .init ticks =
    some ⟨watch.poller, s.installed⟩

/-- Operations that do not concern the server leave no job to be built or announced. -/
theorem Follows.idle (h : Follows network payoutScript watch s) :
    Follows network payoutScript watch { s with phase := .idle } :=
  ⟨fun _ => by simp, h.run⟩

theorem keepsTo_parentTime {template : BlockTemplate} (h : s.Settled) :
    (Watch.parentTime network template).KeepsTo (protocol network payoutScript)
      (fun s' time => s = s' ∧ ∃ answer : Except Str UInt32, time = answer.toOption) s := by
  unfold Watch.parentTime
  split_ifs
  · exact .perform h fun answer => ⟨rfl, answer, rfl⟩
  · exact ⟨rfl, .error [], rfl⟩

/-- **A job that is due** is the next one of the run. -/
theorem keepsTo_install {template : BlockTemplate} {bits : Option UInt32} {stale : Bool}
    (h : Follows network payoutScript watch s)
    (hbits : Checked.dropErr template.compactBits = (.ok bits : Checked PollError _))
    (hdue : (watch.poller.changed template bits || stale) = true) :
    (Watch.install network payoutScript watch template bits
      (watch.poller.changed template bits)).KeepsTo (protocol network payoutScript)
        (fun s' polled => Follows network payoutScript (polled.toOption.getD watch) s') s := by
  obtain ⟨ticks, hrun⟩ := h.run
  refine .perform h.settled fun jobId => .attempt (fun built hbuilt => ?_) fun _ _ => ?_
  · rw [Checked.mapErr_eq_ok] at hbuilt
    obtain ⟨-, hcompact, hjobId, -, -⟩ := build_job hbuilt
    rw [hcompact] at hbits
    obtain rfl : some built.job.bits = bits := Except.ok.inj hbits
    refine (keepsTo_parentTime (by simp [View.Settled, protocol])).bind ?_
    rintro _ time ⟨rfl, answer, rfl⟩
    obtain ⟨-, hjobId', -, -⟩ := built.withWindow_job (network == .testnet4) answer.toOption
    -- The answers of this pass are the next tick of the run.
    have hinstalls : PollRun.Installs payoutScript watch.poller ⟨.ok template, stale, jobId, answer⟩
        template built := ⟨rfl, hdue, hbuilt⟩
    have hexec : StepSystem.exec (PollRun.step network payoutScript) .init
        (ticks ++ [⟨.ok template, stale, jobId, answer⟩]) =
          some ⟨⟨some template.previousBlockHash, some built.job.bits⟩,
            built.withWindow (network == .testnet4) answer.toOption :: s.installed⟩ := by
      rw [StepSystem.exec_append, hrun]
      exact congrArg (Option.bind · _) hinstalls.step_eq
    refine .perform ⟨?_, _, _, hexec⟩ fun _ => .perform ⟨_, rfl, rfl, rfl⟩ fun _ =>
      .perform (by simp [protocol, View.Settled]) fun now => ?_
    · rw [hjobId', hjobId]
      rfl
    · exact ⟨fun _ => by simp [protocol], _, hexec⟩
  · exact ⟨fun _ => by simp [protocol], ticks, hrun⟩

theorem keepsTo_poll (h : Follows network payoutScript watch s) :
    (Watch.poll network payoutScript watch).KeepsTo (protocol network payoutScript)
      (fun s' polled => Follows network payoutScript (polled.toOption.getD watch) s') s := by
  refine .perform h.settled fun answer => ?_
  cases answer with
  | error message => exact h.idle
  | ok template =>
    refine .attempt (fun bits hbits => ?_) fun _ _ => h.idle
    refine .perform h.idle.settled fun elapsed => ?_
    dsimp only
    split_ifs with hdue
    · exact keepsTo_install h.idle hbits hdue
    · exact h.idle

/-- The check of the node does not concern the server. -/
theorem keepsTo_recheck (h : Follows network payoutScript watch s) :
    (Watch.recheck network watch).KeepsTo (protocol network payoutScript)
      (fun s' checked => ∀ watch', checked = .ok watch' → Follows network payoutScript watch' s')
        s := by
  have hsame : ∀ {now : ℕ} {watch' : Watch},
      (Except.ok { watch with lastReadinessCheck := now } : Except Stop Watch) = .ok watch' →
        Follows network payoutScript watch' { s with phase := .idle } := by
    intro now watch' heq
    obtain rfl := Except.ok.inj heq
    exact ⟨h.idle.settled, h.run⟩
  have hsettled : View.Settled { s with phase := .idle } := h.idle.settled
  refine .perform h.settled fun elapsed => ?_
  split_ifs
  · refine .perform hsettled fun now => .perform hsettled fun info =>
      .perform hsettled fun peers => ?_
    cases info with
    | error message => exact fun _ heq => hsame heq
    | ok info =>
      cases peers with
      | error message => exact fun _ heq => hsame heq
      | ok peers =>
        refine .perform hsettled fun unix => ?_
        cases Readiness.check network info peers unix with
        | error reason => exact fun _ heq => absurd heq (by simp)
        | ok _ => exact fun _ heq => hsame heq
  · exact fun _ heq => Except.ok.inj heq ▸ h.idle

/-- **One pass** goes on with the run. -/
theorem keepsTo_pass (h : Follows network payoutScript watch s) :
    (Watch.pass network payoutScript watch).KeepsTo (protocol network payoutScript)
      (fun s' passed => ∀ watch', passed = .ok watch' → Follows network payoutScript watch' s')
        s := by
  refine (keepsTo_poll h).bind fun s' polled hpolled => ?_
  generalize polled.toOption.getD watch = watch' at hpolled
  refine .perform hpolled.settled fun elapsed => ?_
  split_ifs
  · exact fun _ heq => absurd heq (by simp)
  · refine (keepsTo_recheck hpolled.idle).bind fun s'' checked hchecked => ?_
    cases checked with
    | error stop => exact fun _ heq => absurd heq (by simp)
    | ok watch'' =>
      have hfollows := hchecked watch'' rfl
      exact .perform hfollows.settled fun _ _ heq => Except.ok.inj heq ▸ hfollows.idle

theorem keepsTo_passes (n : ℕ) (h : Follows network payoutScript watch s) :
    (Watch.passes network payoutScript n watch).KeepsTo (protocol network payoutScript)
      (fun _ _ => True) s := by
  induction n generalizing watch s with
  | zero => exact trivial
  | succ n ih =>
    refine (keepsTo_pass h).bind fun s' passed hpassed => ?_
    cases passed with
    | error stop => exact trivial
    | ok watch' => exact ih (hpassed watch' rfl)

/-- **The poller keeps to it** from the start. -/
theorem keepsTo_pollTemplates (n : ℕ) :
    (Watch.pollTemplates network payoutScript n).KeepsTo (protocol network payoutScript)
      (fun _ _ => True) ⟨.idle, []⟩ := by
  have hsettled : View.Settled ⟨.idle, []⟩ := fun _ => by simp
  exact .perform hsettled fun _ => .perform hsettled fun _ => .perform hsettled fun _ =>
    keepsTo_passes n ⟨hsettled, [], rfl⟩

/-! ### The process -/

/-- The events of the poller. -/
def OfPoller : Event → Prop
  | .startJob => True
  | .abandon => True
  | .install _ => True
  | .announce => True
  | _ => False

section Serve

variable (fromStr : Str → Option Value) (difficulty : UInt32 → Value)

/-- What the server answers the poller: job ids are its own. -/
def Answers (server : Server) : (o : WatchOp) → o.Answer → Prop
  | .allocateJobId, jobId => jobId = server.pool.allocateJobId.1
  | _, _ => True

/-- A job that could not be built is given up as soon as something else is done. -/
def settle (server : Server) : Option Server :=
  match server.poller with
  | .building _ => Server.step fromStr difficulty server .abandon
  | _ => some server

/-- **The events that an operation of the poller stands for.** -/
def serve (server : Server) : WatchOp → Option Server
  | .allocateJobId => do
    let server ← settle fromStr difficulty server
    Server.step fromStr difficulty server .startJob
  | .setCurrentJob active => Server.step fromStr difficulty server (.install active)
  | .broadcast _ => Server.step fromStr difficulty server .announce
  | .getBlockHeader _ => some server
  | _ => settle fromStr difficulty server

end Serve

end Process

/-- The server, and what is left of the code of its poller. -/
structure Process where
  server : Server
  code : WatchProg (Except Stop Watch)

namespace Process

section Steps

variable (fromStr : Str → Option Value) (difficulty : UInt32 → Value)

/-- **One step of the process**: an event of the sessions, or an operation of the poller.
There are none when the poller has stopped the process. -/
inductive Step : Process → Process → Prop
  | session {server server' : Server} {code : WatchProg (Except Stop Watch)} {event : Event}
    (hother : ¬ OfPoller event) (hrunning : ∀ stop, code ≠ .ret (.error stop))
    (h : Server.step fromStr difficulty server event = some server') :
    Step ⟨server, code⟩ ⟨server', code⟩
  | watch {server server' : Server} {o : WatchOp}
    {next : o.Answer → WatchProg (Except Stop Watch)} (answer : o.Answer)
    (hanswer : Answers server o answer) (h : serve fromStr difficulty server o = some server') :
    Step ⟨server, .op o next⟩ ⟨server', next answer⟩

end Steps

variable {fromStr : Str → Option Value} {difficulty : UInt32 → Value} {p p' : Process}
  {server server' : Server} {event : Event} {o : WatchOp}

/-- Other events leave the poller and its jobs alone. -/
theorem poller_of_other (hother : ¬ OfPoller event)
    (h : Server.step fromStr difficulty server event = some server') :
    server'.poller = server.poller ∧ server'.installed = server.installed := by
  cases event with
  | connect =>
    obtain rfl := Server.step_connect h
    exact ⟨rfl, rfl⟩
  | refuse =>
    obtain rfl := Server.step_refuse h
    exact ⟨rfl, rfl⟩
  | line i text =>
    obtain ⟨t, -, -, ⟨-, rfl⟩ | ⟨-, rfl⟩⟩ := Server.step_line h
    · exact ⟨rfl, rfl⟩
    · exact ⟨rfl, rfl⟩
  | perform i world =>
    obtain ⟨t, _, _, _, -, -, rfl⟩ := Server.step_perform h
    exact ⟨rfl, rfl⟩
  | hangUp i =>
    obtain ⟨t, -, -, rfl⟩ := Server.step_hangUp h
    exact ⟨rfl, rfl⟩
  | unregister i =>
    obtain ⟨t, -, -, rfl⟩ := Server.step_unregister h
    exact ⟨rfl, rfl⟩
  | writerEnds i =>
    obtain ⟨t, -, rfl⟩ := Server.step_writerEnds h
    exact ⟨rfl, rfl⟩
  | startJob => exact absurd trivial hother
  | abandon => exact absurd trivial hother
  | install active => exact absurd trivial hother
  | announce => exact absurd trivial hother

/-- Outside an announcement the server can always settle. -/
theorem exists_settle (hsettled : ∀ active, server.poller ≠ .announcing active) :
    settle fromStr difficulty server = some { server with poller := .idle } := by
  rcases server with ⟨pool, _ | jobId | active, threads, allocated, installed⟩
  · rfl
  · rfl
  · exact absurd rfl (hsettled active)

/-- **The server can carry out what is in order**, and is then where the observer stands. -/
theorem exists_serve {s : View} (hphase : s.phase = server.poller)
    (hinstalled : s.installed = server.installed)
    (hmay : (protocol network payoutScript).may s o) {answer : o.Answer}
    (hanswer : Answers server o answer) :
    ∃ server', serve fromStr difficulty server o = some server' ∧
      ((protocol network payoutScript).next s o answer).phase = server'.poller ∧
      ((protocol network payoutScript).next s o answer).installed = server'.installed := by
  obtain ⟨phase, installed⟩ := s
  obtain rfl : phase = server.poller := hphase
  obtain rfl : installed = server.installed := hinstalled
  cases o with
  | allocateJobId =>
    obtain rfl : answer = server.pool.allocateJobId.1 := hanswer
    refine ⟨{ server with
      pool := server.pool.allocateJobId.2
      poller := .building server.pool.allocateJobId.1
      allocated := server.pool.allocateJobId.1 :: server.allocated }, ?_, rfl, rfl⟩
    rw [serve, exists_settle hmay]
    rfl
  | setCurrentJob active =>
    obtain ⟨hbuilding, -⟩ := hmay
    refine ⟨{ server with
      pool := server.pool.setCurrentJob active
      poller := .announcing active
      installed := active :: server.installed }, ?_, rfl, rfl⟩
    rw [serve, Server.step, show server.poller = .building active.job.jobId from hbuilding]
    exact if_pos rfl
  | broadcast line =>
    obtain ⟨active, hannouncing, -, -⟩ := hmay
    refine ⟨{ server with
      pool := server.pool.broadcast server.isWriting
      poller := .idle
      threads := server.threads.mapIdx fun i t => t.receive
        (List.replicate (Server.entries server.pool i) (Server.notifyLine active)) }, ?_, rfl, rfl⟩
    rw [serve, Server.step, show server.poller = .announcing active from hannouncing]
  | getBlockHeader hash => exact ⟨server, rfl, rfl, rfl⟩
  | getBlockchainInfo | getConnectionCount | ensureWallet _ | getNewAddress _
  | validateAddress _ | getBlockTemplate | bind | unixNow | instantNow | elapsed _ _ | wait =>
    exact ⟨_, exists_settle hmay, rfl, rfl⟩

/-- What is installed is a history again. -/
theorem history_next {s : View} (hmay : (protocol network payoutScript).may s o)
    (h : History network payoutScript s.installed) {answer : o.Answer} :
    History network payoutScript ((protocol network payoutScript).next s o answer).installed := by
  cases o with
  | setCurrentJob active => exact hmay.2
  | allocateJobId => exact h
  | broadcast line => exact h
  | getBlockHeader hash => exact h
  | getBlockchainInfo | getConnectionCount | ensureWallet _ | getNewAddress _
  | validateAddress _ | getBlockTemplate | bind | unixNow | instantNow | elapsed _ _ | wait =>
    exact h

/-- What serves an operation is a run of the server. -/
theorem exec_of_serve (h : serve fromStr difficulty server o = some server') :
    ∃ events, StepSystem.exec (Server.step fromStr difficulty) server events = some server' := by
  have hstep : ∀ {server₁ server₂ : Server} (event : Event),
      Server.step fromStr difficulty server₁ event = some server₂ →
        ∃ events, StepSystem.exec (Server.step fromStr difficulty) server₁ events =
          some server₂ := by
    intro server₁ server₂ event h
    exact ⟨[event], by rw [StepSystem.exec_cons, h]; rfl⟩
  have hsettle : ∀ {server₁ : Server}, settle fromStr difficulty server = some server₁ →
      ∃ events, StepSystem.exec (Server.step fromStr difficulty) server events = some server₁ := by
    intro server₁ h
    rw [settle] at h
    split at h
    · exact hstep .abandon h
    · exact ⟨[], h⟩
  cases o with
  | allocateJobId =>
    obtain ⟨server₁, hsettled, hstart⟩ := Option.bind_eq_some_iff.mp h
    obtain ⟨events, hevents⟩ := hsettle hsettled
    refine ⟨events ++ [.startJob], ?_⟩
    rw [StepSystem.exec_append, hevents, Option.bind_some, StepSystem.exec_cons, hstart]
    rfl
  | setCurrentJob active => exact hstep (.install active) h
  | broadcast line => exact hstep .announce h
  | getBlockHeader hash => exact ⟨[], h⟩
  | getBlockchainInfo | getConnectionCount | ensureWallet _ | getNewAddress _
  | validateAddress _ | getBlockTemplate | bind | unixNow | instantNow | elapsed _ _ | wait =>
    exact hsettle h

variable (network payoutScript) in
/-- **What holds all along**: the server has made a run of its own, the poller stands where the
server has it, and what is left of its code keeps to what the server relies on. -/
structure Sound (fromStr : Str → Option Value) (difficulty : UInt32 → Value) (p : Process) :
    Prop where
  run : ∃ events,
    StepSystem.exec (Server.step fromStr difficulty) .init events = some p.server
  history : History network payoutScript p.server.installed
  code : p.code.KeepsTo (protocol network payoutScript) (fun _ _ => True)
    ⟨p.server.poller, p.server.installed⟩

theorem sound_init (n : ℕ) : Sound network payoutScript fromStr difficulty
    ⟨.init, Watch.pollTemplates network payoutScript n⟩ :=
  ⟨⟨[], rfl⟩, ⟨[], _, rfl⟩, keepsTo_pollTemplates n⟩

/-- **One step** keeps it. -/
theorem Sound.of_step (hp : Sound network payoutScript fromStr difficulty p)
    (h : Step fromStr difficulty p p') : Sound network payoutScript fromStr difficulty p' := by
  obtain ⟨events, hrun⟩ := hp.run
  cases h with
  | @session server server' code event hother _ hstep =>
    obtain ⟨hpoller, hinstalled⟩ := poller_of_other hother hstep
    refine ⟨⟨events ++ [event], ?_⟩, ?_, ?_⟩
    · rw [StepSystem.exec_append, hrun, Option.bind_some, StepSystem.exec_cons, hstep]
      rfl
    · exact hinstalled ▸ hp.history
    · exact hpoller ▸ hinstalled ▸ hp.code
  | watch answer hanswer hserve =>
    obtain ⟨more, hmore⟩ := exec_of_serve hserve
    obtain ⟨hmay, hnext⟩ := hp.code
    obtain ⟨_, hserve', hphase, hinstalled⟩ := exists_serve rfl rfl hmay hanswer
    obtain rfl := Option.some.inj (hserve.symm.trans hserve')
    refine ⟨⟨events ++ more, ?_⟩, ?_, ?_⟩
    · rw [StepSystem.exec_append, hrun]
      exact hmore
    · exact hinstalled ▸ history_next hmay hp.history
    · exact hphase ▸ hinstalled ▸ hnext answer

/-- **The code of the poller refines the poller of the server.** In every state that the
process comes to, the server has made a run of its own, the jobs it has installed are
those of a run of the poller's passes, and the next operation of the code, whatever its
answer, is one that the server can carry out; a broadcast is that of the job installed
last. -/
theorem refines (n : ℕ) (h : Relation.ReflTransGen (Step fromStr difficulty)
    ⟨.init, Watch.pollTemplates network payoutScript n⟩ p) :
    (∃ events, StepSystem.exec (Server.step fromStr difficulty) .init events = some p.server) ∧
      (∃ ticks poller, StepSystem.exec (PollRun.step network payoutScript) .init ticks =
        some ⟨poller, p.server.installed⟩) ∧
      ∀ o next, p.code = .op o next →
        (∀ answer, Answers p.server o answer → ∃ p', Step fromStr difficulty p p' ∧
          p'.code = next answer) ∧
        ∀ line, o = .broadcast line → ∃ active older, p.server.installed = active :: older ∧
          p.server.poller = .announcing active ∧ line = Server.notifyLine active := by
  have hsound : Sound network payoutScript fromStr difficulty p := by
    induction h with
    | refl => exact sound_init n
    | tail _ hstep ih => exact ih.of_step hstep
  refine ⟨hsound.run, hsound.history, fun o next hcode => ?_⟩
  obtain ⟨server, code⟩ := p
  obtain rfl : code = .op o next := hcode
  obtain ⟨hmay, -⟩ := hsound.code
  refine ⟨fun answer hanswer => ?_, ?_⟩
  · obtain ⟨server', hserve, -⟩ := exists_serve rfl rfl hmay hanswer
    exact ⟨_, .watch answer hanswer hserve, rfl⟩
  · rintro line rfl
    obtain ⟨active, hannouncing, hhead, hline⟩ := hmay
    obtain ⟨older, hinstalled⟩ := List.head?_eq_some_iff.mp hhead
    exact ⟨active, older, hinstalled, hannouncing, hline⟩

/-! ### The runs of the poller -/

/-- The job ids in a run are those that the server gives, one after the other. -/
def IdsFrom : UInt64 → Prog.Trace WatchOp.Answer → Prop
  | _, [] => True
  | nextJobId, ⟨.allocateJobId, jobId⟩ :: rest =>
    jobId = Nat.toDigits 16 nextJobId.toNat ∧ IdsFrom (nextJobId + 1) rest
  | nextJobId, _ :: rest => IdsFrom nextJobId rest

theorem pool_settle (h : settle fromStr difficulty server = some server') :
    server'.pool = server.pool := by
  rw [settle] at h
  split at h
  · obtain ⟨_, -, rfl⟩ := Server.step_abandon h
    rfl
  · exact Option.some.inj h ▸ rfl

theorem answers_of_idsFrom {answer : o.Answer} {rest : Prog.Trace WatchOp.Answer}
    (hids : IdsFrom server.pool.nextJobId (⟨o, answer⟩ :: rest)) : Answers server o answer := by
  cases o with
  | allocateJobId => exact hids.1
  | _ => exact trivial

/-- The ids go on where the server does. -/
theorem idsFrom_of_serve {answer : o.Answer} {rest : Prog.Trace WatchOp.Answer}
    (hids : IdsFrom server.pool.nextJobId (⟨o, answer⟩ :: rest))
    (h : serve fromStr difficulty server o = some server') :
    IdsFrom server'.pool.nextJobId rest := by
  cases o with
  | allocateJobId =>
    obtain ⟨-, hrest⟩ := hids
    obtain ⟨server₁, hsettled, hstart⟩ := Option.bind_eq_some_iff.mp h
    obtain ⟨-, rfl⟩ := Server.step_startJob hstart
    change IdsFrom (server₁.pool.nextJobId + 1) rest
    rwa [pool_settle hsettled]
  | setCurrentJob active =>
    have hstep : Server.step fromStr difficulty server (.install active) = some server' := h
    obtain ⟨-, rfl⟩ := Server.step_install hstep
    exact hids
  | broadcast line =>
    have hstep : Server.step fromStr difficulty server .announce = some server' := h
    obtain ⟨_, -, rfl⟩ := Server.step_announce hstep
    exact hids
  | getBlockHeader hash =>
    obtain rfl := Option.some.inj h
    exact hids
  | getBlockchainInfo | getConnectionCount | ensureWallet _ | getNewAddress _
  | validateAddress _ | getBlockTemplate | bind | unixNow | instantNow | elapsed _ _ | wait =>
    rw [pool_settle h]
    exact hids

/-- **Every run of the poller is one of the process**, as far as it takes the ids that the
server gives. -/
theorem exists_of_runs (hp : Sound network payoutScript fromStr difficulty p)
    {before after : Prog.Trace WatchOp.Answer} {result : Option (Except Stop Watch)}
    (hrun : Prog.Runs p.code (before ++ after) result)
    (hids : IdsFrom p.server.pool.nextJobId before) :
    ∃ p', Relation.ReflTransGen (Step fromStr difficulty) p p' ∧
      Prog.Runs p'.code after result := by
  induction before generalizing p with
  | nil => exact ⟨p, .refl, hrun⟩
  | cons event before ih =>
    obtain ⟨server, code⟩ := p
    cases hrun with
    | @op o next answer _ _ hrest =>
      obtain ⟨hmay, -⟩ := hp.code
      have hanswer : Answers server o answer := answers_of_idsFrom hids
      obtain ⟨server', hserve, -⟩ := exists_serve rfl rfl hmay hanswer
      have hstep : Step fromStr difficulty ⟨server, .op o next⟩ ⟨server', next answer⟩ :=
        .watch answer hanswer hserve
      obtain ⟨p', hreaches, hafter⟩ :=
        ih (hp.of_step hstep) hrest (idsFrom_of_serve hids hserve)
      exact ⟨p', .head hstep hreaches, hafter⟩

/-- A miner connects, and the poller installs a job. -/
theorem refines_broadcast : ∃ server p active older,
    Server.step (fun _ => none) (fun _ => .null) .init .connect = some server ∧
      Relation.ReflTransGen (Step (fun _ => none) fun _ => .null)
        ⟨server, Watch.pollTemplates .regtest [0x51] 1⟩ p ∧
      p.server.poller = .announcing active ∧ p.server.installed = active :: older ∧
      (∃ events, StepSystem.exec (Server.step (fun _ => none) fun _ => .null) .init events =
        some p.server) ∧
      (∃ ticks poller, StepSystem.exec (PollRun.step .regtest [0x51]) .init ticks =
        some ⟨poller, p.server.installed⟩) ∧
      ∃ p', Step (fun _ => none) (fun _ => .null) p p' := by
  have hconnect : Step (fun _ => none) (fun _ => .null)
      ⟨.init, Watch.pollTemplates .regtest [0x51] 1⟩ ⟨_, Watch.pollTemplates .regtest [0x51] 1⟩ :=
    .session id (fun _ h => by cases h)
      (rfl : Server.step (fun _ => none) (fun _ => .null) .init .connect = some _)
  -- The first pass up to the broadcast, and what follows.
  let trace := Watch.firstPass sampleTemplate ['1'] sampleJob
  have hrun : Prog.Runs (Watch.pollTemplates .regtest [0x51] 1) (trace.take 7 ++ trace.drop 7) _ :=
    Watch.runs_firstPass dropErr_sampleTemplate build_sampleJob (by decide)
  obtain ⟨p, hreaches, hafter⟩ := exists_of_runs ((sound_init 1).of_step hconnect) hrun
    ⟨by decide, trivial⟩
  obtain ⟨server, code⟩ := p
  cases hafter with
  | @op o next answer _ _ hrest =>
    obtain ⟨hserver, hpoller, hcode⟩ := refines 1 (.head hconnect hreaches)
    obtain ⟨hnext, hbroadcast⟩ := hcode _ _ rfl
    obtain ⟨active', older, hinstalled, hannouncing, -⟩ := hbroadcast _ rfl
    obtain ⟨p', hp', -⟩ := hnext () trivial
    exact ⟨_, _, active', older, rfl, hreaches, hannouncing, hinstalled, hserver, hpoller, p', hp'⟩

end Process

end SoloMiner
