import SoloMiner.Pool.Difficulty
import SoloMiner.Pool.History

/-!
# The jobs on the channels

A job gets onto the channel of a connection in two ways, by the session that has read it
and by the broadcast of the poller, and in both cases some time after it was looked up. It
is a job that was installed all the same, on every channel and in every state of a run
(`SoloMiner.Server.Told`): what a reader has in hand, between the reading of the current
job and its sending, is part of the invariant.
-/

namespace SoloMiner

open Json

/-! ### One channel -/

/-- The line announces one of those jobs. -/
def Announces (J : ActiveJob → Prop) (line : Incoming) : Prop :=
  ∃ active, J active ∧ line = Server.notifyLine active

/-- **The jobs that a connection was told of**, or is about to be, are among those. -/
structure Thread.Tells (difficulty : UInt32 → Value) (J : ActiveJob → Prop) (t : Thread) :
    Prop where
  sent : ∀ line ∈ t.sent, isNotify line = true → Announces J line
  announcing : ∀ request active,
    t.phase = .handling request (t.session.announcing difficulty active) →
      Announces J (Server.notifyLine active)
  notifying : ∀ request active,
    t.phase = .handling request (t.session.notifying active) →
      Announces J (Server.notifyLine active)

theorem Announces.mono {J J' : ActiveJob → Prop} (hJ : ∀ active, J active → J' active)
    {line : Incoming} (h : Announces J line) : Announces J' line := by
  obtain ⟨active, hactive, rfl⟩ := h
  exact ⟨active, hJ active hactive, rfl⟩

namespace Session

variable {difficulty : UInt32 → Value} {session session' : Session} {active active' : ActiveJob}

/-- The code before the sending of a job tells which line it is. -/
theorem notifyLine_of_notifying (h : session.notifying active = session'.notifying active') :
    Server.notifyLine active = Server.notifyLine active' :=
  Effect.send.inj (Prog.op.inj h).1

theorem notifyLine_of_announcing
    (h : session.announcing difficulty active = session'.announcing difficulty active') :
    Server.notifyLine active = Server.notifyLine active' := by
  have hnext := h
  rw [announcing, announcing] at hnext
  have hline := Effect.send.inj (Prog.op.inj hnext).1
  rw [hline] at hnext
  exact notifyLine_of_notifying (congrFun (eq_of_heq (Prog.op.inj hnext).2) ())

/-- A difficulty is no job. -/
theorem announcing_ne_notifying :
    session.announcing difficulty active ≠ session'.notifying active' := by
  intro h
  have hline : difficultyLine difficulty active.job.bits = Server.notifyLine active' :=
    Effect.send.inj (Prog.op.inj h).1
  have hnotify := isNotify_notifyLine active'
  rw [← hline, isNotify_difficultyLine] at hnotify
  exact absurd hnotify (by simp)

end Session

namespace Thread.Tells

variable {difficulty : UInt32 → Value} {J J' : ActiveJob → Prop} {t t' : Thread}

theorem mono (hJ : ∀ active, J active → J' active) (h : t.Tells difficulty J) :
    t.Tells difficulty J' :=
  ⟨fun line hline hnotify => (h.sent line hline hnotify).mono hJ,
    fun request active hphase => (h.announcing request active hphase).mono hJ,
    fun request active hphase => (h.notifying request active hphase).mono hJ⟩

/-- A line on the channel is a new one, or was there before. -/
theorem mem_put {line : Incoming} {lines : List Incoming} (h : line ∈ t.put lines) :
    line ∈ lines ∨ line ∈ t.sent := by
  rw [put] at h
  split_ifs at h
  · exact List.mem_append.mp h
  · exact Or.inr h

/-- A reader that is not about to send a job, and has sent none. -/
theorem of_phase (h : t.Tells difficulty J) {session : Session} {phase : Phase} {writing : Bool}
    {handled : List Request} {sent : List Incoming}
    (hphase : ∀ request r next, phase ≠ .handling request (.op (.send (.request r)) next))
    (hsent : ∀ line ∈ sent, isNotify line = true → line ∈ t.sent) :
    (⟨session, phase, sent, writing, handled⟩ : Thread).Tells difficulty J :=
  ⟨fun line hline hnotify => h.sent line (hsent line hline hnotify) hnotify,
    fun request _ heq => absurd heq (hphase request _ _),
    fun request _ heq => absurd heq (hphase request _ _)⟩

/-- Replies are no jobs. -/
theorem mem_of_responses {responses : List Response} {line : Incoming}
    (h : line ∈ t.put (responses.map .response)) (hnotify : isNotify line = true) :
    line ∈ t.sent := by
  rcases mem_put h with hnew | hold
  · obtain ⟨response, -, rfl⟩ := List.mem_map.mp hnew
    exact absurd hnotify (by simp [isNotify])
  · exact hold

/-- Nor is one reply. -/
theorem mem_of_response {response : Response} {line : Incoming}
    (h : line ∈ t.put [.response response]) (hnotify : isNotify line = true) : line ∈ t.sent := by
  have h : line ∈ t.put ([response].map .response) := h
  exact mem_of_responses h hnotify

theorem not_send_of_quiet {code : PoolProg (Session × Bool)} (h : code.Only Effect.IsQuiet)
    {request request' : Option Request} {r : Request}
    {next : Unit → PoolProg (Session × Bool)} :
    Phase.handling request code ≠ .handling request' (.op (.send (.request r)) next) := by
  intro heq
  obtain ⟨-, rfl⟩ := Phase.handling.inj heq
  exact h.1

theorem begins (h : t.Tells difficulty J) (hbegins : Begins difficulty t t') :
    t'.Tells difficulty J := by
  cases hbegins with
  | handling hopening =>
    refine h.of_phase (fun request r next => ?_) fun _ hline _ => hline
    cases hopening with
    | subscribing => simp [Session.subscribing]
    | authorizing => simp [Session.authorizing]
    | quiet _ honly => exact not_send_of_quiet honly
  | ends => exact h.of_phase (by simp) fun _ hline _ => hline
  | crashes => exact h.of_phase (by simp) fun _ hline _ => hline

/-- **One operation of a reader** tells of no other jobs than the current one. -/
theorem advance (h : t.Tells difficulty J) {pool pool' : PoolState}
    (hpool : ∀ active, pool.currentJob = some active → J active)
    (hadvance : Advance difficulty pool t pool' t') : t'.Tells difficulty J := by
  cases hadvance with
  | replySubscribe =>
    exact h.of_phase (by simp [Session.registering]) fun _ => mem_of_response
  | register => exact h.of_phase (by simp) fun _ hline _ => hline
  | replyAuthorize =>
    exact h.of_phase (by simp [Session.reading]) fun _ => mem_of_response
  | readNone => exact h.of_phase (by simp) fun _ hline _ => hline
  | readSome _ _ hjob =>
    refine ⟨h.sent, fun request active heq => ?_, fun request active heq => ?_⟩
    · rw [← Session.notifyLine_of_announcing (Phase.handling.inj heq).2]
      exact ⟨_, hpool _ hjob, rfl⟩
    · exact absurd (Phase.handling.inj heq).2 Session.announcing_ne_notifying
  | sendDifficulty _ hphase =>
    refine ⟨fun line hline hnotify => ?_, fun request active heq => ?_,
      fun request active heq => ?_⟩
    · rcases mem_put hline with hnew | hold
      · obtain rfl := List.mem_singleton.mp hnew
        exact absurd hnotify (by rw [isNotify_difficultyLine]; simp)
      · exact h.sent line hold hnotify
    · exact absurd (Phase.handling.inj heq).2.symm Session.announcing_ne_notifying
    · rw [← Session.notifyLine_of_notifying (Phase.handling.inj heq).2]
      exact h.announcing _ _ hphase
  | sendNotify _ hphase =>
    refine ⟨fun line hline hnotify => ?_, by simp, by simp⟩
    rcases mem_put hline with hnew | hold
    · obtain rfl := List.mem_singleton.mp hnew
      exact h.notifying _ _ hphase
    · exact h.sent line hold hnotify
  | quiet _ _ _ responses honly =>
    exact h.of_phase (fun _ _ _ => not_send_of_quiet honly) fun _ => mem_of_responses
  | quietEnds => exact h.of_phase (by simp) fun _ => mem_of_responses
  | quietCrashes => exact h.of_phase (by simp) fun _ => mem_of_responses

/-- A broadcast tells of the job that is announced. -/
theorem receive (h : t.Tells difficulty J) {n : ℕ} {active : ActiveJob} (hactive : J active) :
    (t.receive (List.replicate n (Server.notifyLine active))).Tells difficulty J := by
  refine ⟨fun line hline hnotify => ?_, h.announcing, h.notifying⟩
  rcases mem_put hline with hnew | hold
  · rw [List.eq_of_mem_replicate hnew]
    exact ⟨active, hactive, rfl⟩
  · exact h.sent line hold hnotify

end Thread.Tells

/-! ### All channels -/

namespace Server

variable {fromStr : Str → Option Value} {difficulty : UInt32 → Value} {s s' : Server}
  {event : Event}

/-- What is installed changes by an installation alone. -/
theorem installed_cases (h : step fromStr difficulty s event = some s') :
    (∃ active, event = .install active ∧ s'.installed = active :: s.installed) ∨
      (∀ active, event ≠ .install active) ∧ s'.installed = s.installed := by
  cases event with
  | connect =>
    obtain rfl := step_connect h
    exact Or.inr ⟨by simp, rfl⟩
  | refuse =>
    obtain rfl := step_refuse h
    exact Or.inr ⟨by simp, rfl⟩
  | line i text =>
    obtain ⟨t, -, -, ⟨-, rfl⟩ | ⟨-, rfl⟩⟩ := step_line h
    · exact Or.inr ⟨by simp, rfl⟩
    · exact Or.inr ⟨by simp, rfl⟩
  | perform i world =>
    obtain ⟨t, _, _, _, -, -, rfl⟩ := step_perform h
    exact Or.inr ⟨by simp, rfl⟩
  | hangUp i =>
    obtain ⟨t, -, -, rfl⟩ := step_hangUp h
    exact Or.inr ⟨by simp, rfl⟩
  | unregister i =>
    obtain ⟨t, -, -, rfl⟩ := step_unregister h
    exact Or.inr ⟨by simp, rfl⟩
  | writerEnds i =>
    obtain ⟨t, -, rfl⟩ := step_writerEnds h
    exact Or.inr ⟨by simp, rfl⟩
  | startJob =>
    obtain ⟨-, rfl⟩ := step_startJob h
    exact Or.inr ⟨by simp, rfl⟩
  | abandon =>
    obtain ⟨_, -, rfl⟩ := step_abandon h
    exact Or.inr ⟨by simp, rfl⟩
  | install active =>
    obtain ⟨-, rfl⟩ := step_install h
    exact Or.inl ⟨active, rfl, rfl⟩
  | announce =>
    obtain ⟨active, -, rfl⟩ := step_announce h
    exact Or.inr ⟨by simp, rfl⟩

/-- What is installed stays so. -/
theorem installed_mono (h : step fromStr difficulty s event = some s') :
    ∀ active ∈ s.installed, active ∈ s'.installed := by
  intro active hactive
  obtain ⟨_, -, heq⟩ | ⟨-, heq⟩ := installed_cases h
  · rw [heq]
    exact List.mem_cons_of_mem _ hactive
  · rw [heq]
    exact hactive

/-- No connection is ever removed. -/
theorem length_threads_mono (h : step fromStr difficulty s event = some s') :
    s.threads.length ≤ s'.threads.length := by
  have hset : ∀ i t, s.threads.length ≤ (s.setThread i t).threads.length := fun i t => by
    rw [Server.setThread, List.length_set]
  cases event with
  | connect =>
    obtain rfl := step_connect h
    exact (List.length_append ▸ Nat.le_add_right _ _)
  | refuse =>
    obtain rfl := step_refuse h
    exact le_rfl
  | line i text =>
    obtain ⟨t, -, -, ⟨-, rfl⟩ | ⟨-, rfl⟩⟩ := step_line h
    · exact le_rfl
    · exact hset i _
  | perform i world =>
    obtain ⟨t, _, _, _, -, -, rfl⟩ := step_perform h
    exact hset i _
  | hangUp i =>
    obtain ⟨t, -, -, rfl⟩ := step_hangUp h
    exact hset i _
  | unregister i =>
    obtain ⟨t, -, -, rfl⟩ := step_unregister h
    exact hset i _
  | writerEnds i =>
    obtain ⟨t, -, rfl⟩ := step_writerEnds h
    exact hset i _
  | startJob =>
    obtain ⟨-, rfl⟩ := step_startJob h
    exact le_rfl
  | abandon =>
    obtain ⟨_, -, rfl⟩ := step_abandon h
    exact le_rfl
  | install active =>
    obtain ⟨-, rfl⟩ := step_install h
    exact le_rfl
  | announce =>
    obtain ⟨_, -, rfl⟩ := step_announce h
    exact (List.length_mapIdx ▸ le_rfl)

/-- **No miner is told of a job that was not installed.** -/
structure Told (difficulty : UInt32 → Value) (s : Server) : Prop where
  wired : s.Wired difficulty
  recorded : s.Recorded
  announcing : ∀ active, s.poller = .announcing active → active ∈ s.installed
  threads : ∀ (i : ℕ) (t : Thread), s.threads[i]? = some t → t.Tells difficulty (· ∈ s.installed)

theorem told_init : init.Told difficulty where
  wired := wired_init
  recorded := recorded_init
  announcing active h := absurd h (by simp [init])
  threads i t h := absurd h (by simp [init])

/-- The job that is read is installed. -/
theorem Told.currentJob (hs : s.Told difficulty) {active : ActiveJob}
    (h : s.pool.currentJob = some active) : active ∈ s.installed := by
  have hmem : active ∈ s.pool.jobs := List.mem_of_head? h
  rw [hs.recorded.jobs] at hmem
  exact List.mem_of_mem_take hmem

/-- A job that is found under the id of an installed one is that one, if the counter has not
wrapped. -/
theorem eq_of_jobById (hs : s.Recorded) (hlt : s.allocated.length < 2 ^ 64)
    {active found : ActiveJob} (hactive : active ∈ s.installed)
    (hfound : s.pool.jobById active.job.jobId = some found) : found = active := by
  have hexact := hs.jobsExact hlt
  rw [PoolState.jobById] at hfound
  have hmem : found ∈ s.installed :=
    List.mem_of_mem_take (hs.jobs ▸ List.mem_of_find?_eq_some hfound)
  have hid : found.job.jobId = active.job.jobId := by simpa using List.find?_some hfound
  exact List.inj_on_of_nodup_map (hs.ids.nodup hexact.distinct) hmem hactive hid

/-- Where the poller stands is between installing a job and announcing it, or it has just
installed one, or it is elsewhere. -/
theorem announcing_of_step (hs : s.Told difficulty)
    (h : step fromStr difficulty s event = some s') {active : ActiveJob}
    (hactive : s'.poller = .announcing active) : active ∈ s'.installed := by
  cases event with
  | connect =>
    obtain rfl := step_connect h
    exact hs.announcing active hactive
  | refuse =>
    obtain rfl := step_refuse h
    exact hs.announcing active hactive
  | line i text =>
    obtain ⟨t, -, -, ⟨-, rfl⟩ | ⟨-, rfl⟩⟩ := step_line h
    · exact hs.announcing active hactive
    · exact hs.announcing active hactive
  | perform i world =>
    obtain ⟨t, _, _, _, -, -, rfl⟩ := step_perform h
    exact hs.announcing active hactive
  | hangUp i =>
    obtain ⟨t, -, -, rfl⟩ := step_hangUp h
    exact hs.announcing active hactive
  | unregister i =>
    obtain ⟨t, -, -, rfl⟩ := step_unregister h
    exact hs.announcing active hactive
  | writerEnds i =>
    obtain ⟨t, -, rfl⟩ := step_writerEnds h
    exact hs.announcing active hactive
  | startJob =>
    obtain ⟨-, rfl⟩ := step_startJob h
    exact absurd hactive (by simp)
  | abandon =>
    obtain ⟨_, -, rfl⟩ := step_abandon h
    exact absurd hactive (by simp)
  | install active' =>
    obtain ⟨-, rfl⟩ := step_install h
    obtain rfl := PollerPhase.announcing.inj hactive
    exact List.mem_cons_self
  | announce =>
    obtain ⟨_, -, rfl⟩ := step_announce h
    exact absurd hactive (by simp)

/-- **One event**, of any thread. -/
theorem Told.of_step (hs : s.Told difficulty) (h : step fromStr difficulty s event = some s') :
    s'.Told difficulty := by
  refine ⟨hs.wired.of_step h, hs.recorded.of_step h, fun active => announcing_of_step hs h,
    fun j u hu => ?_⟩
  have hmono := installed_mono h
  by_cases hannounce : event = .announce
  · subst hannounce
    obtain ⟨active, hpoller, rfl⟩ := step_announce h
    rw [List.getElem?_mapIdx] at hu
    obtain ⟨t, ht, rfl⟩ := Option.map_eq_some_iff.mp hu
    exact (hs.threads j t ht).receive (hs.announcing active hpoller)
  · rcases hs.wired.thread_cases h hu with ⟨t, ht, hbecomes⟩ | ⟨-, -, rfl⟩
    · have htells := (hs.threads j t ht).mono hmono
      cases hbecomes with
      | same => exact htells
      | begins _ hbegins => exact htells.begins hbegins
      | advance hadvance =>
        exact htells.advance (fun active hactive => hmono active (hs.currentJob hactive)) hadvance
      | hangUp => exact htells.of_phase (by simp) fun _ hline _ => hline
      | unregister => exact htells.of_phase (by simp) fun _ hline _ => hline
      | writerEnds => exact ⟨htells.sent, htells.announcing, htells.notifying⟩
      | announce => exact absurd rfl hannounce
    · exact ⟨fun line hline => absurd hline List.not_mem_nil, fun _ _ => Phase.noConfusion,
        fun _ _ => Phase.noConfusion⟩

end Server

end SoloMiner
