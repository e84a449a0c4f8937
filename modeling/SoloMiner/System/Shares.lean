import SoloMiner.System.Moves

/-!
# What becomes of a miner's shares

The pool checks every share by itself, and the miner prints it if the pool finds fault with
one: it would mean that the two do not agree. They do. In every state of every run of the
pool with its miners, however their threads and the lines between them are interleaved, and
whatever the node, the clock and the other connections do (`SoloMiner.System.shares_answered`):

* a miner's handshake succeeds, and the session that serves it does not panic;
* every share solves a job that was installed, in the eyes of the pool as well, and as long
  as the pool has the job the check of the share submits a block;
* a reply that is not a yes says that the job is gone, or passes on what the node said.
-/

namespace SoloMiner

open Json

namespace System

variable {fromStr : Str → Option Value} {print : Value → Str} {difficulty : UInt32 → Value}
  {workers : ℕ → Str} {stopped : ℕ → Prop}

/-! ### What becomes of the shares -/

/-- **A share that solves the job is a block** in the eyes of the pool: its check submits one,
whatever the node and the clock answer. -/
theorem submits_of_runs_check {active : ActiveJob} (h : active.Coherent) {share : Share}
    {extranonce1 : Bytes} (h1 : extranonce1.length = 4)
    (hsolves : share.Solves active.job extranonce1 EXTRANONCE2_SIZE)
    {trace : Prog.Trace Effect.Answer} {result : Option (Except ValidationError Verdict)}
    (hrun : Prog.Runs (check active share extranonce1) trace result) :
    ∃ block answer, (⟨.submitBlock block, answer⟩ : Sigma Effect.Answer) ∈ trace := by
  obtain ⟨coinbase, -, hrebuild⟩ := h.rebuild_eq share h1 hsolves.width
  obtain ⟨target, htarget, hmet⟩ := hsolves.met
  obtain rfl : target = active.networkTarget :=
    Except.ok.inj (htarget.symm.trans h.networkTarget)
  rw [check, hrebuild] at hrun
  change Prog.Runs (if active.networkTarget.isMetBy (active.job.header extranonce1
      share.extranonce2 share.time share.nonce).hash = true then
    submitShare active coinbase _ else _) trace result at hrun
  rw [if_pos hmet, submitShare, h.assemble_eq] at hrun
  -- It waits first, and a wait does not panic.
  obtain ⟨first, rest, _, rfl, -, hsubmit⟩ := (safe_hold _).runs_bind hrun
  obtain ⟨answer, last, rfl, -⟩ := Prog.runs_perform_bind_iff.mp hsubmit
  exact ⟨_, answer, List.mem_append_right _ List.mem_cons_self⟩

/-- **What a miner can rely on**, on its connection: the session runs on, nobody turns the
miner away, a share that is not accepted has lost its job or was turned down by the node,
and a share whose job the pool still has is submitted as a block. -/
structure Answered (s : System) (stopped : Prop) (link : Link) (t : Thread) : Prop where
  running : t.phase ≠ .crashed
  welcome : link.client.phase = .ended → stopped
  replies : ∀ response, Incoming.response response ∈ t.sent →
    response.error = none ∨ OwnReply response
  solves : ∀ entry ∈ link.client.miner.outbound, ∃ active ∈ s.server.installed,
    entry.2.Solves active.job t.session.extranonce1.toList EXTRANONCE2_SIZE
  submitted : s.server.allocated.length < 2 ^ 64 → ∀ entry ∈ link.client.miner.outbound,
    ∀ active, s.server.pool.jobById entry.2.jobId = some active → ∀ trace result,
      Prog.Runs (check active entry.2 t.session.extranonce1.toList) trace result →
        ∃ block answer, (⟨.submitBlock block, answer⟩ : Sigma Effect.Answer) ∈ trace

theorem Served.answered {s : System} (hs : s.Served difficulty workers stopped) {i : ℕ}
    {link : Link} (hlink : s.links i = some link) {t : Thread}
    (ht : s.server.threads[i]? = some t) : s.Answered (stopped i) link t := by
  have hlinked := hs.linked i link t hlink ht
  have hsolves : ∀ entry ∈ link.client.miner.outbound, ∃ active ∈ s.server.installed,
      entry.2.Solves active.job t.session.extranonce1.toList EXTRANONCE2_SIZE := by
    intro entry hentry
    obtain ⟨-, _, ⟨active, hactive, rfl⟩, hsolves⟩ := hlinked.sound.outbound entry hentry
    exact ⟨active, hactive, hsolves⟩
  refine ⟨hlinked.serves.running, hlinked.ended, fun response hresponse => ?_, hsolves,
    fun hlt entry hentry found hfound trace result hrun => ?_⟩
  · have hline := hlinked.lines _ hresponse
    generalize hgiven : Incoming.response response = line at hline
    cases hline with
    | subscribed =>
      obtain rfl := Incoming.response.inj hgiven
      exact Or.inl rfl
    | authorized =>
      obtain rfl := Incoming.response.inj hgiven
      exact Or.inl rfl
    | share _ hreply =>
      obtain rfl := Incoming.response.inj hgiven
      exact Or.inr hreply
    | difficulty => exact absurd hgiven (by simp [difficultyLine])
    | job => exact absurd hgiven (by simp [Server.notifyLine])
  · obtain ⟨active, hactive, hsolves⟩ := hsolves entry hentry
    rw [hsolves.jobId] at hfound
    obtain rfl := Server.eq_of_jobById hs.told.recorded hlt hactive hfound
    exact submits_of_runs_check (hs.coherent found hactive) t.session.extranonce1.toList_length
      hsolves hrun

/-- **Every share is answered as it should be.** In every state of every run of the pool with
its miners in which lines are read back as they were written and the poller installs what it
can build: each miner has a session, and can rely on it. -/
theorem shares_answered (fromStr : Str → Option Value) (print : Value → Str)
    (difficulty : UInt32 → Value) (workers : ℕ → Str) {events : List SystemEvent}
    (h : StepSystem.EachStep (step fromStr print difficulty workers)
      (Fair fromStr print fun i => SystemEvent.stop i ∈ events) init events) :
    StepSystem.Always (step fromStr print difficulty workers)
      (fun s => ∀ i link, s.links i = some link → ∃ t, s.server.threads[i]? = some t ∧
        s.Answered (SystemEvent.stop i ∈ events) link t) init events := by
  have hrun := StepSystem.always_of_eachStep
    (fun _ _ _ hs hfair hstep => Served.of_step hs hfair hstep) served_init h
  refine hrun.mono fun s hs i link hlink => ?_
  have hthread := List.getElem?_eq_getElem (hs.links i link hlink)
  exact ⟨_, hthread, hs.answered hlink hthread⟩

/-! ### A run -/

mutual

/-- A value as text, as the library writes it if it has no floats and nothing to escape. -/
def textOf : Value → Str
  | .null => "null".toList
  | .bool b => (if b then "true" else "false").toList
  | .number (.posInt n) => decimal n.toNat
  | .number (.negInt n) => '-' :: decimal n.toInt.natAbs
  | .number (.float _) => []
  | .string s => '"' :: s ++ ['"']
  | .array items => '[' :: (itemsText items).drop 1 ++ [']']
  | .object fields => '\x7b' :: (fieldsText fields).drop 1 ++ ['\x7d']

@[inherit_doc textOf]
def itemsText : List Value → Str
  | [] => []
  | item :: items => ',' :: textOf item ++ itemsText items

@[inherit_doc textOf]
def fieldsText : List (Str × Value) → Str
  | [] => []
  | (name, value) :: fields => ',' :: '"' :: name ++ '"' :: ':' :: textOf value ++ fieldsText fields

end

/-- The share that a miner finds for that job, under its first id. -/
def minedShare : UInt64 × Share := (100, ⟨"mac".toList, ['1'], [0, 0, 0, 0], 1700000000, 0⟩)

/-- The messages of a handshake, of the job, and of the share. -/
def sampleMessages : List Incoming :=
  [.request subscribeRequest,
    .response (.ok (some 1) (Session.subscribeReply 1 [0, 0, 0, 1])),
    .request (authorizeRequest "mac".toList),
    .response (.ok (some 2) (.bool true)),
    Server.notifyLine sampleJob,
    .request (submitRequest minedShare),
    .response (.ok (some 100) (.bool true))]

/-- The reading of their lines. -/
def readLines (text : Str) : Option Value :=
  (sampleMessages.find? fun message => textOf message.toValue == text).map Incoming.toValue

/-- A miner connects, subscribes and is authorized; then a job is installed and announced, and
the miner takes it, finds a share, and submits it. -/
def sampleRun : List SystemEvent :=
  [.join, .deliver 0, .pool (.perform 0 ⟨0, .ok none⟩), .pool (.perform 0 ⟨0, .ok none⟩),
    .receive 0, .deliver 0, .pool (.perform 0 ⟨0, .ok none⟩), .pool (.perform 0 ⟨0, .ok none⟩),
    .receive 0, .pool .startJob, .pool (.install sampleJob), .pool .announce, .receive 0,
    .act 0 .bump] ++ List.replicate 9 (.act 0 (.run 0)) ++
      .deliver 0 :: List.replicate 4 (.pool (.perform 0 ⟨0, .ok none⟩)) ++ [.receive 0]

/-- The system of the run. -/
abbrev sampleStep : System → SystemEvent → Option System :=
  step readLines textOf (fun _ => .null) fun _ => "mac".toList

theorem reads_messages {message : Incoming} (h : message ∈ sampleMessages) :
    Reads readLines textOf message := by
  have hread : ∀ message ∈ sampleMessages, isBlank (textOf message.toValue) = false ∧
      readLines (textOf message.toValue) = some message.toValue := by
    decide +kernel
  exact ⟨(hread message h).1, _, (hread message h).2, fun _ => Or.inr rfl⟩

/-- What is seen of an event: its line is one of the messages, and no session is sending a
job. -/
def Seen (s : System) (event : SystemEvent) : Prop :=
  (∀ message ∈ s.carried event, message ∈ sampleMessages) ∧
    (s.server.requesting 0).all (fun r => !isNotify (.request r)) = true

instance (s : System) (event : SystemEvent) : Decidable (s.Seen event) :=
  inferInstanceAs (Decidable (_ ∧ _))

theorem seen_sampleRun : StepSystem.EachStep sampleStep Seen init sampleRun ∧
    ((StepSystem.exec sampleStep init sampleRun).bind fun s =>
      (s.links 0).map fun link => (link.client.miner.outbound, link.received)) =
        some ([minedShare], 4) := by
  decide +kernel

theorem eachStep_sampleRun : StepSystem.EachStep sampleStep
    (fun s event => s.Seen event ∧ event ∈ sampleRun) init sampleRun :=
  seen_sampleRun.1.and (StepSystem.eachStep_of_forall_mem fun _ hevent => hevent)

/-- The events of the run are fair. -/
theorem fair_sampleRun (stopped : ℕ → Prop) :
    StepSystem.EachStep sampleStep (Fair readLines textOf stopped) init sampleRun := by
  refine eachStep_sampleRun.mono fun s event hevent => ?_
  obtain ⟨⟨hcarried, -⟩, hevent⟩ := hevent
  refine ⟨fun message hmessage => reads_messages (hcarried message hmessage), ?_, ?_⟩
  · rintro active rfl
    obtain rfl : active = sampleJob := by simpa [sampleRun] using hevent
    exact .mk false none build_sampleJob
  · rintro i rfl
    exact absurd hevent (by simp [sampleRun])

/-- In that run the miner has its share answered. -/
theorem shares_answered_sample : ∃ s link t, StepSystem.exec sampleStep init sampleRun = some s ∧
    s.links 0 = some link ∧ link.client.miner.outbound = [minedShare] ∧ link.received = 4 ∧
      s.server.threads[0]? = some t ∧
        s.Answered (SystemEvent.stop 0 ∈ sampleRun) link t := by
  obtain ⟨s, hexec, hlink⟩ := Option.bind_eq_some_iff.mp seen_sampleRun.2
  obtain ⟨link, hlink, hview⟩ := Option.map_eq_some_iff.mp hlink
  obtain ⟨houtbound, hreceived⟩ := Prod.mk.inj hview
  obtain ⟨t, ht, hanswered⟩ :=
    (shares_answered _ _ _ _ (fair_sampleRun _)).last hexec 0 link hlink
  exact ⟨s, link, t, hexec, hlink, houtbound, hreceived, ht, hanswered⟩

end System

end SoloMiner
