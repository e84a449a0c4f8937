import SoloMiner.Pool.Stage

/-!
# The difficulty that goes with a job

A miner is told a difficulty and a job by its session, when it is authorized, and further
jobs by the poller's broadcasts, which tell no difficulty. So what a miner was told last
may not be the difficulty of the job it has: because there was no job when it was
authorized, because the broadcast came first, or because the difficulty has changed
since.

All the lines of the sessions are in order (`SoloMiner.Server.announced_of_advance`), so it
depends on the broadcasts alone whether every job on a channel is preceded by its difficulty:
each must be of the difficulty that was put on the channels of its receivers last
(`SoloMiner.Server.AllPoised.jobsHaveDifficulty_iff`). What was put there is a matter of the
handshakes, and left to `SoloMiner.Pool.Briefing`.
-/

namespace SoloMiner

open Json

/-! ### The lines of a channel -/

/-- Whether a line announces a job. -/
def isNotify : Incoming → Bool
  | .request request => request.method == method.NOTIFY
  | .response _ => false

/-- Whether a line announces a difficulty. -/
def isDifficulty : Incoming → Bool
  | .request request => request.method == method.SET_DIFFICULTY
  | .response _ => false

/-- The miner was answered `true`. The first time that is the answer to
`mining.authorize`, since shares are refused before. -/
def Authorized (sent : List Incoming) : Prop := ∃ id, .response (.ok id (.bool true)) ∈ sent

/-- The line is a job whose difficulty is the one that was announced last. -/
def HasDifficulty (difficulty : UInt32 → Value) (older : List Incoming) (line : Incoming) : Prop :=
  ∃ job : Job, line = .request (.notification method.NOTIFY job.toNotifyParams) ∧
    older.find? isDifficulty = some (difficultyLine difficulty job.bits)

/-- **The jobs of a channel have their difficulty**, as far as they came after the
authorization. The latest line is first. -/
def Announced (difficulty : UInt32 → Value) : List Incoming → Prop
  | [] => True
  | line :: older => Announced difficulty older ∧
    (isNotify line = true → Authorized older → HasDifficulty difficulty older line)

variable {difficulty : UInt32 → Value} {sent : List Incoming}

theorem isNotify_notifyLine (active : ActiveJob) : isNotify (Server.notifyLine active) = true :=
  beq_self_eq_true _

theorem isDifficulty_notifyLine (active : ActiveJob) :
    isDifficulty (Server.notifyLine active) = false := by
  have h : method.NOTIFY ≠ method.SET_DIFFICULTY := by decide
  exact beq_false_of_ne h

theorem isNotify_difficultyLine (bits : UInt32) :
    isNotify (difficultyLine difficulty bits) = false := by
  have h : method.SET_DIFFICULTY ≠ method.NOTIFY := by decide
  exact beq_false_of_ne h

theorem isDifficulty_difficultyLine (bits : UInt32) :
    isDifficulty (difficultyLine difficulty bits) = true :=
  beq_self_eq_true _

theorem Announced.responses (h : Announced difficulty sent) (responses : List Response) :
    Announced difficulty (responses.map .response ++ sent) := by
  induction responses with
  | nil => exact h
  | cons response responses ih => exact ⟨ih, fun hnotify => absurd hnotify (by simp [isNotify])⟩

theorem find?_isDifficulty_replicate (n : ℕ) (active : ActiveJob) (sent : List Incoming) :
    (List.replicate n (Server.notifyLine active) ++ sent).find? isDifficulty =
      sent.find? isDifficulty := by
  induction n with
  | zero => rfl
  | succ n ih =>
    rw [List.replicate_succ, List.cons_append, List.find?_cons_of_neg, ih]
    rw [isDifficulty_notifyLine]
    exact Bool.false_ne_true

theorem authorized_replicate_iff (n : ℕ) (active : ActiveJob) (sent : List Incoming) :
    Authorized (List.replicate n (Server.notifyLine active) ++ sent) ↔ Authorized sent := by
  refine ⟨fun ⟨id, hmem⟩ => ?_, fun ⟨id, hmem⟩ => ⟨id, List.mem_append_right _ hmem⟩⟩
  rcases List.mem_append.mp hmem with hmem | hmem
  · exact absurd (List.eq_of_mem_replicate hmem) (by simp [Server.notifyLine])
  · exact ⟨id, hmem⟩

theorem hasDifficulty_notifyLine_iff {active : ActiveJob} :
    HasDifficulty difficulty sent (Server.notifyLine active) ↔
      sent.find? isDifficulty = some (difficultyLine difficulty active.job.bits) := by
  refine ⟨fun ⟨job, hline, hfind⟩ => ?_, fun hfind => ⟨active.job, rfl, hfind⟩⟩
  -- A job is determined by its parameters.
  have hparams : active.job.toNotifyParams = job.toNotifyParams := by
    simpa [Server.notifyLine, Request.notification] using hline
  have hjob := congrArg Job.fromNotifyParams hparams
  rw [Job.fromNotifyParams_toNotifyParams, Job.fromNotifyParams_toNotifyParams] at hjob
  rw [Except.ok.inj hjob, hfind]

/-- **A broadcast keeps a channel in order** precisely if the job has the difficulty that
was announced last, or the miner is not authorized. -/
theorem announced_replicate_iff {n : ℕ} (hn : 0 < n) {active : ActiveJob} :
    Announced difficulty (List.replicate n (Server.notifyLine active) ++ sent) ↔
      Announced difficulty sent ∧ (Authorized sent →
        sent.find? isDifficulty = some (difficultyLine difficulty active.job.bits)) := by
  induction n with
  | zero => exact absurd hn (lt_irrefl 0)
  | succ n ih =>
    rw [List.replicate_succ, List.cons_append, Announced, isNotify_notifyLine,
      authorized_replicate_iff, hasDifficulty_notifyLine_iff, find?_isDifficulty_replicate]
    rcases Nat.eq_zero_or_pos n with rfl | hpos
    · exact ⟨fun h => ⟨h.1, h.2 rfl⟩, fun h => ⟨h.1, fun _ => h.2⟩⟩
    · rw [ih hpos]
      exact ⟨fun h => h.1, fun h => ⟨h, fun _ => h.2⟩⟩

namespace Server

variable (difficulty) in
/-- **Every job on a channel has its difficulty.** -/
def JobsHaveDifficulty (s : Server) : Prop :=
  ∀ (i : ℕ) (t : Thread), s.threads[i]? = some t → Announced difficulty t.sent

variable (difficulty) in
/-- A broadcast is of the difficulty that stands last on the channels of its receivers, as
far as they are authorized. -/
def KnownDifficulty (s : Server) : Event → Prop
  | .announce => ∀ active, s.poller = .announcing active → ∀ i t, s.threads[i]? = some t →
    s.Subscribed i → t.writing = true → Authorized t.sent →
      t.sent.find? isDifficulty = some (difficultyLine difficulty active.job.bits)
  | _ => True

/-! ### The lines of the sessions -/

variable (difficulty) in
/-- A reader that is about to send a job has announced its difficulty. -/
def Poised (t : Thread) : Prop :=
  ∀ request line next, t.phase = .handling request (.op (.send line) next) →
    isNotify line = true → t.writing = true → HasDifficulty difficulty t.sent line

variable {t t' : Thread}

theorem Poised.of_phase (h : ∀ request code, t.phase ≠ .handling request code) :
    Poised difficulty t :=
  fun request _ _ hphase => absurd hphase (h request _)

/-- Code that sends no job next. -/
theorem Poised.of_code {request : Option Request} {code : PoolProg (Session × Bool)}
    (hphase : t.phase = .handling request code)
    (hcode : ∀ line next, code = .op (.send line) next → isNotify line = false) :
    Poised difficulty t := by
  intro request' line next hphase' hnotify
  obtain ⟨-, hcode'⟩ := Phase.handling.inj (hphase.symm.trans hphase')
  rw [hcode line next hcode'] at hnotify
  exact absurd hnotify (by simp)

/-- Quiet code sends no job. -/
theorem isNotify_of_quiet {code : PoolProg (Session × Bool)} (h : code.Only Effect.IsQuiet) :
    ∀ line next, code = .op (.send line) next → isNotify line = false := by
  rintro line next rfl
  cases line with
  | request request => exact absurd h.1 id
  | response response => rfl

theorem Poised.begins (hbegins : Begins difficulty t t') : Poised difficulty t' := by
  cases hbegins with
  | handling h =>
    refine .of_code rfl ?_
    cases h with
    | subscribing =>
      rintro line next hcode
      obtain ⟨hline, -⟩ := Prog.op.inj hcode
      rw [← Effect.send.inj hline]
      rfl
    | authorizing =>
      rintro line next hcode
      obtain ⟨hline, -⟩ := Prog.op.inj hcode
      rw [← Effect.send.inj hline]
      rfl
    | quiet _ honly => exact isNotify_of_quiet honly
  | ends => exact .of_phase (by simp)
  | crashes => exact .of_phase (by simp)

theorem Poised.advance {pool pool' : PoolState} (hadvance : Advance difficulty pool t pool' t') :
    Poised difficulty t' := by
  cases hadvance with
  | replySubscribe =>
    exact .of_code rfl fun _ _ hcode => absurd hcode (by simp [Session.registering])
  | register => exact .of_phase (by simp)
  | replyAuthorize => exact .of_code rfl fun _ _ hcode => absurd hcode (by simp [Session.reading])
  | readNone => exact .of_phase (by simp)
  | readSome =>
    refine .of_code rfl fun line next hcode => ?_
    obtain ⟨hline, -⟩ := Prog.op.inj hcode
    rw [← Effect.send.inj hline, isNotify_difficultyLine]
  | sendDifficulty _ hphase =>
    intro request line next hcode hnotify hwriting
    obtain ⟨-, hcode⟩ := Phase.handling.inj hcode
    obtain ⟨hline, -⟩ := Prog.op.inj hcode
    rw [← Effect.send.inj hline, hasDifficulty_notifyLine_iff]
    dsimp only at hwriting ⊢
    rw [Thread.put, if_pos hwriting]
    exact List.find?_cons_of_pos (isDifficulty_difficultyLine _)
  | sendNotify => exact .of_phase (by simp)
  | quiet _ _ _ _ honly => exact .of_code rfl (isNotify_of_quiet honly)
  | quietEnds => exact .of_phase (by simp)
  | quietCrashes => exact .of_phase (by simp)

/-- Every reader is poised. -/
theorem Poised.receive (h : Poised difficulty t) (n : ℕ) (active : ActiveJob) :
    Poised difficulty (t.receive (List.replicate n (notifyLine active))) := by
  intro request line next hphase hnotify hwriting
  obtain ⟨job, hline, hfind⟩ := h request line next hphase hnotify hwriting
  refine ⟨job, hline, ?_⟩
  rw [Thread.receive, Thread.put, if_pos (show t.writing = true from hwriting)]
  exact (find?_isDifficulty_replicate n active t.sent).trans hfind

/-- **The lines of a session are in order.** -/
theorem announced_of_advance {pool pool' : PoolState} (hpoised : Poised difficulty t)
    (h : Announced difficulty t.sent) (hadvance : Advance difficulty pool t pool' t') :
    Announced difficulty t'.sent := by
  have hresponses : ∀ responses : List Response,
      Announced difficulty (t.put (responses.map .response)) := by
    intro responses
    rw [Thread.put]
    split_ifs
    · exact h.responses responses
    · exact h
  cases hadvance with
  | replySubscribe => exact hresponses [_]
  | register => exact h
  | replyAuthorize => exact hresponses [_]
  | readNone => exact h
  | readSome => exact h
  | sendDifficulty =>
    dsimp only
    rw [Thread.put]
    split_ifs
    · exact ⟨h, fun hnotify => absurd hnotify (by simp [isNotify_difficultyLine])⟩
    · exact h
  | sendNotify _ hphase =>
    dsimp only
    rw [Thread.put]
    split_ifs with hwriting
    · exact ⟨h, fun hnotify _ => hpoised _ _ _ hphase hnotify hwriting⟩
    · exact h
  | quiet _ _ _ responses => exact hresponses responses
  | quietEnds _ _ _ responses => exact hresponses responses
  | quietCrashes _ _ _ responses => exact hresponses responses

/-! ### Runs -/

variable {fromStr : Str → Option Value} {s s' : Server} {event : Event}

variable (difficulty) in
/-- What is true along every run: the readers are wired, and poised. -/
def AllPoised (s : Server) : Prop :=
  s.Wired difficulty ∧ ∀ (i : ℕ) (t : Thread), s.threads[i]? = some t → Poised difficulty t

theorem allPoised_init : init.AllPoised difficulty :=
  ⟨wired_init, fun _ _ ht => absurd ht (by simp [init])⟩

/-- An event keeps a reader poised. -/
theorem Poised.becomes {pool : PoolState} (h : Poised difficulty t)
    (hbecomes : t.Becomes difficulty pool event t') : Poised difficulty t' := by
  cases hbecomes with
  | same => exact h
  | begins _ hbegins => exact .begins hbegins
  | advance hadvance => exact .advance hadvance
  | hangUp => exact .of_phase (by simp)
  | unregister => exact .of_phase (by simp)
  | writerEnds => exact fun _ _ _ _ _ hwriting => absurd hwriting (by simp)
  | announce n active => exact h.receive n active

theorem AllPoised.of_step (hs : s.AllPoised difficulty)
    (h : step fromStr difficulty s event = some s') : s'.AllPoised difficulty := by
  obtain ⟨hwired, hpoised⟩ := hs
  refine ⟨hwired.of_step h, fun j u hu => ?_⟩
  rcases hwired.thread_cases h hu with ⟨t, ht, hbecomes⟩ | ⟨-, -, rfl⟩
  · exact (hpoised j t ht).becomes hbecomes
  · exact .of_phase (by simp [Thread.new])

/-- An event that is no broadcast keeps the lines of a session in order. -/
theorem announced_of_becomes {pool : PoolState} (hevent : event ≠ .announce)
    (hpoised : Poised difficulty t) (h : Announced difficulty t.sent)
    (hbecomes : t.Becomes difficulty pool event t') : Announced difficulty t'.sent := by
  cases hbecomes with
  | same => exact h
  | begins _ hbegins => cases hbegins <;> exact h
  | advance hadvance => exact announced_of_advance hpoised h hadvance
  | hangUp => exact h
  | unregister => exact h
  | writerEnds => exact h
  | announce => exact absurd rfl hevent

/-- What a broadcast does to one channel. -/
theorem announced_receive_iff {active : ActiveJob} {i : ℕ} (h : Announced difficulty t.sent) :
    Announced difficulty
        (t.receive (List.replicate (entries s.pool i) (notifyLine active))).sent ↔
      (s.Subscribed i → t.writing = true → Authorized t.sent →
        t.sent.find? isDifficulty = some (difficultyLine difficulty active.job.bits)) := by
  rw [Thread.receive]
  dsimp only
  rw [Thread.put]
  split_ifs with hwriting
  · rcases Nat.eq_zero_or_pos (entries s.pool i) with hzero | hpos
    · rw [hzero]
      exact iff_of_true h fun hsub => absurd (entries_pos_iff.mpr hsub) (by omega)
    · rw [announced_replicate_iff hpos]
      exact ⟨fun h' _ _ => h'.2, fun h' => ⟨h, h' (entries_pos_iff.mp hpos) hwriting⟩⟩
  · exact iff_of_true h fun _ hwriting' => absurd hwriting' hwriting

/-- **One event keeps the jobs with their difficulty** precisely if it is no broadcast, or
one of a known difficulty. -/
theorem AllPoised.jobsHaveDifficulty_iff (hs : s.AllPoised difficulty)
    (h : s.JobsHaveDifficulty difficulty)
    (hstep : step fromStr difficulty s event = some s') :
    s'.JobsHaveDifficulty difficulty ↔ s.KnownDifficulty difficulty event := by
  obtain ⟨hwired, hpoised⟩ := hs
  have hother : event ≠ .announce → s'.JobsHaveDifficulty difficulty := by
    intro hevent j u hu
    rcases hwired.thread_cases hstep hu with ⟨t, ht, hbecomes⟩ | ⟨-, -, rfl⟩
    · exact announced_of_becomes hevent (hpoised j t ht) (h j t ht) hbecomes
    · exact trivial
  cases event with
  | announce =>
    obtain ⟨active, hpoller, rfl⟩ := step_announce hstep
    constructor
    · intro h' active' hpoller' i t ht
      obtain rfl := PollerPhase.announcing.inj (hpoller.symm.trans hpoller')
      refine (announced_receive_iff (h i t ht)).mp (h' i _ ?_)
      rw [List.getElem?_mapIdx, ht]
      rfl
    · intro hknown j u hu
      rw [List.getElem?_mapIdx] at hu
      obtain ⟨t, ht, rfl⟩ := Option.map_eq_some_iff.mp hu
      exact (announced_receive_iff (h j t ht)).mpr (hknown active hpoller j t ht)
  | _ => exact iff_of_true (hother (by simp)) trivial

/-! ### A miner that comes before the first job -/

/-- A miner subscribes and is authorized, and then the first job is built, installed and
broadcast. -/
def beforeFirstJob : List Event :=
  .connect :: (request method.SUBSCRIBE 2 ++ request method.AUTHORIZE 2 ++
    [.startJob, .install (plainJob ['1']), .announce])

/-- It gets the job without a difficulty. -/
theorem not_always_jobsHaveDifficulty :
    ¬ StepSystem.Always (step readHandshake fun _ => .null) (JobsHaveDifficulty fun _ => .null)
      init beforeFirstJob := by
  intro h
  have hsent : (StepSystem.exec (step readHandshake fun _ => .null) init beforeFirstJob).map
      (fun s => s.threads.map Thread.sent) =
        some [[notifyLine (plainJob ['1']), .response (.ok (some 1) (.bool true)),
          .response (.ok (some 1) (Session.new 1 0).subscribeResult)]] := by
    rfl
  obtain ⟨s, hexec, hs⟩ := Option.map_eq_some_iff.mp hsent
  obtain ⟨t, ht, hsent⟩ : ∃ t, s.threads[0]? = some t ∧
      t.sent = [notifyLine (plainJob ['1']), .response (.ok (some 1) (.bool true)),
        .response (.ok (some 1) (Session.new 1 0).subscribeResult)] := by
    have hfirst := congrArg (fun sent => sent[0]?) hs
    rw [List.getElem?_map] at hfirst
    exact Option.map_eq_some_iff.mp hfirst
  have hannounced := h.last hexec 0 t ht
  rw [hsent] at hannounced
  obtain ⟨job, -, hfind⟩ := hannounced.2 rfl ⟨some 1, List.mem_cons_self⟩
  exact absurd hfind (by simp [isDifficulty])

end Server

end SoloMiner
