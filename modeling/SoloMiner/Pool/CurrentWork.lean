import SoloMiner.Pool.Difficulty

/-!
# The last job a miner was told about

A job reaches a miner in two ways: its own session reads the current job when the miner
is authorized and sends it, and the poller broadcasts every job after it has installed
it. Both write to one channel, and the session reads and sends at different moments. So
a job that is installed and broadcast in between is followed on the channel by the one
that it replaced, and the miner is left with that.

`SoloMiner.Server.always_lastJobIsCurrent` says that this is the only way: along every run in
which no session sends a job that has been replaced and broadcast over, the last job on
the channel of a miner that has subscribed and then been authorized is the current one.
-/

namespace SoloMiner

open Json

/-! ### What a miner has done -/

/-- A subscription was handled. -/
def Subscribes (handled : List Request) : Prop := ∃ r ∈ handled, r.method = method.SUBSCRIBE

/-- A subscription was handled, and later an authorization. The latest request is first. -/
def Joined : List Request → Prop
  | [] => False
  | r :: older => Joined older ∨ (r.method = method.AUTHORIZE ∧ Subscribes older)

theorem Joined.subscribes {handled : List Request} (h : Joined handled) : Subscribes handled := by
  induction handled with
  | nil => exact absurd h id
  | cons r older ih =>
    rcases h with h | ⟨-, r', hr', hmethod⟩
    · obtain ⟨r', hr', hmethod⟩ := ih h
      exact ⟨r', List.mem_cons_of_mem _ hr', hmethod⟩
    · exact ⟨r', List.mem_cons_of_mem _ hr', hmethod⟩

theorem subscribe_ne_authorize : method.SUBSCRIBE ≠ method.AUTHORIZE := by decide

/-- Other requests do not subscribe. -/
theorem subscribes_cons_iff {r : Request} (h : r.method ≠ method.SUBSCRIBE)
    {handled : List Request} : Subscribes (r :: handled) ↔ Subscribes handled := by
  constructor
  · rintro ⟨r', hr', hmethod⟩
    rcases List.mem_cons.mp hr' with rfl | hr'
    · exact absurd hmethod h
    · exact ⟨r', hr', hmethod⟩
  · rintro ⟨r', hr', hmethod⟩
    exact ⟨r', List.mem_cons_of_mem _ hr', hmethod⟩

theorem IsOther.subscribes_iff {request : Option Request} (h : IsOther request)
    {handled : List Request} :
    Subscribes (request.toList ++ handled) ↔ Subscribes handled := by
  cases request with
  | none => exact Iff.rfl
  | some r => exact subscribes_cons_iff (h r rfl).1

theorem IsOther.joined_iff {request : Option Request} (h : IsOther request)
    {handled : List Request} : Joined (request.toList ++ handled) ↔ Joined handled := by
  cases request with
  | none => exact Iff.rfl
  | some r => exact or_iff_left fun hauth => (h r rfl).2 hauth.1

namespace Thread

/-- The session is between its reading of the current job and its sending of it: its next
operation is to send a notification. -/
def MidSend (t : Thread) : Prop :=
  ∃ request r next, t.phase = .handling request (.op (.send (.request r)) next)

/-- **The last job on the channel is that one**, if the miner has joined, there is a
writer, and the session is not in the middle of sending. -/
def UpToDate (job : Option ActiveJob) (t : Thread) : Prop :=
  t.writing = true → Joined t.handled → ¬ t.MidSend → ∀ active, job = some active →
    t.sent.find? isNotify = some (Server.notifyLine active)

theorem not_midSend_of_phase {t : Thread} (h : ∀ request code, t.phase ≠ .handling request code) :
    ¬ t.MidSend := fun ⟨request, _, _, hphase⟩ => h request _ hphase

theorem not_midSend_of_op {t : Thread} {request : Option Request} {effect : Effect}
    {next : effect.Answer → PoolProg (Session × Bool)}
    (hphase : t.phase = .handling request (.op effect next))
    (heffect : ∀ r, effect ≠ .send (.request r)) : ¬ t.MidSend := by
  rintro ⟨_, r, _, hphase'⟩
  obtain ⟨-, hcode⟩ := Phase.handling.inj (hphase.symm.trans hphase')
  exact heffect r (Prog.op.inj hcode).1

theorem not_midSend_of_quiet {t : Thread} {request : Option Request}
    {code : PoolProg (Session × Bool)} (hphase : t.phase = .handling request code)
    (hcode : code.Only Effect.IsQuiet) : ¬ t.MidSend := by
  rintro ⟨request', r, next, hphase'⟩
  obtain ⟨-, rfl⟩ := Phase.handling.inj (hphase.symm.trans hphase')
  exact hcode.1

theorem find?_isNotify_responses (responses : List Response) (sent : List Incoming) :
    (responses.map Incoming.response ++ sent).find? isNotify = sent.find? isNotify := by
  induction responses with
  | nil => rfl
  | cons response responses ih => exact ih

theorem find?_isNotify_put (t : Thread) (responses : List Response) :
    (t.put (responses.map .response)).find? isNotify = t.sent.find? isNotify := by
  rw [put]
  split_ifs
  · exact find?_isNotify_responses responses t.sent
  · rfl

namespace UpToDate

variable {difficulty : UInt32 → Value} {job : Option ActiveJob} {t t' : Thread}

theorem begins (h : t.UpToDate job) (hphase : t.phase = .waiting)
    (hbegins : Begins difficulty t t') : t'.UpToDate job := by
  have hmid : ¬ t.MidSend := not_midSend_of_phase (by simp [hphase])
  cases hbegins with
  | handling => exact fun hwriting hjoined _ => h hwriting hjoined hmid
  | ends hother =>
    exact fun hwriting hjoined _ => h hwriting (hother.joined_iff.mp hjoined) hmid
  | crashes => exact fun hwriting hjoined _ => h hwriting hjoined hmid

/-- **One operation keeps a channel up to date**, unless it sends a job that is no longer
the current one. -/
theorem advance {pool pool' : PoolState} (h : t.UpToDate pool.currentJob)
    (hadvance : Advance difficulty pool t pool' t')
    (hcurrent : ∀ request active, t.phase = .handling request (t.session.notifying active) →
      t.writing = true → Subscribes t.handled → ∀ current, pool.currentJob = some current →
        Server.notifyLine active = Server.notifyLine current) :
    t'.UpToDate pool.currentJob := by
  cases hadvance with
  | replySubscribe _ hphase =>
    intro hwriting hjoined _ active hjob
    exact (t.find?_isNotify_put [_]).trans
      (h hwriting hjoined (not_midSend_of_op hphase (by simp)) active hjob)
  | register hmethod hphase =>
    intro hwriting hjoined _
    refine h hwriting (hjoined.resolve_right fun hauth => ?_)
      (not_midSend_of_op hphase (by simp))
    exact subscribe_ne_authorize (hmethod.symm.trans hauth.1)
  | replyAuthorize _ hphase =>
    intro hwriting hjoined _ active hjob
    exact (t.find?_isNotify_put [_]).trans
      (h hwriting hjoined (not_midSend_of_op hphase (by simp)) active hjob)
  | readNone _ _ hnone =>
    intro _ _ _ active hjob
    exact absurd (hnone.symm.trans hjob) (by simp)
  | readSome =>
    -- The session is about to send now.
    intro _ _ hmid
    exact absurd ⟨_, _, _, rfl⟩ hmid
  | sendDifficulty =>
    intro _ _ hmid
    exact absurd ⟨_, _, _, rfl⟩ hmid
  | sendNotify hmethod hphase =>
    intro hwriting hjoined _ active hjob
    have hsubscribes : Subscribes t.handled := by
      rcases hjoined with hjoined | ⟨-, hsubscribes⟩
      · exact hjoined.subscribes
      · exact hsubscribes
    dsimp only at hwriting ⊢
    rw [hcurrent _ _ hphase hwriting hsubscribes active hjob, put, if_pos hwriting]
    exact List.find?_cons_of_pos (isNotify_notifyLine active)
  | quiet _ hphase hcode responses =>
    intro hwriting hjoined _ active hjob
    exact (t.find?_isNotify_put responses).trans
      (h hwriting hjoined (not_midSend_of_quiet hphase hcode) active hjob)
  | quietEnds hother hphase hcode responses =>
    intro hwriting hjoined _ active hjob
    exact (t.find?_isNotify_put responses).trans (h hwriting (hother.joined_iff.mp hjoined)
      (not_midSend_of_quiet hphase hcode) active hjob)
  | quietCrashes _ hphase hcode responses =>
    intro hwriting hjoined _ active hjob
    exact (t.find?_isNotify_put responses).trans
      (h hwriting hjoined (not_midSend_of_quiet hphase hcode) active hjob)

end UpToDate

end Thread

namespace Server

variable {fromStr : Str → Option Value} {difficulty : UInt32 → Value} {s s' : Server}
  {event : Event} {i : ℕ} {t t' : Thread}

/-- The poller is not between installing a job and broadcasting it. -/
def Settled (s : Server) : Prop := ∀ active, s.poller ≠ .announcing active

/-- **The last job a miner was told about is the current one**: for every session that
runs, and a poller that is not in the middle of a job. -/
def LastJobIsCurrent (s : Server) : Prop :=
  s.Settled → ∀ (i : ℕ) (t : Thread), s.threads[i]? = some t → t.Alive →
    t.UpToDate s.pool.currentJob

/-- What a step must not do: send a job to a subscribed miner that has been replaced and
broadcast over; or unregister a connection under an id that another one has, too. -/
def InOrder (s : Server) : Event → Prop
  | .perform i _ => s.Settled → ∀ (t : Thread) request r next, s.threads[i]? = some t →
    t.phase = .handling request (.op (.send (.request r)) next) →
      isNotify (.request r) = true → t.writing = true → Subscribes t.handled →
        ∀ current, s.pool.currentJob = some current → .request r = notifyLine current
  | .unregister i => ∀ (t : Thread), s.threads[i]? = some t → ∀ entry ∈ s.pool.subscribers,
    entry.id = t.session.connectionId → entry.outbound = i
  | _ => True

/-! ### The subscribers -/

/-- The session is in the list if it has subscribed, as long as it runs and has a writer. -/
def Entered (s : Server) (i : ℕ) (t : Thread) : Prop :=
  t.Alive → t.writing = true → Subscribes t.handled → s.Subscribed i

/-- **What is true along every run that is in order**: the readers are wired, who has
subscribed is in the list, and the job that is being announced is the current one. -/
structure Kept (difficulty : UInt32 → Value) (s : Server) : Prop where
  wired : s.Wired difficulty
  entered : ∀ i t, s.threads[i]? = some t → s.Entered i t
  announcing : ∀ active, s.poller = .announcing active → s.pool.currentJob = some active

theorem kept_init : init.Kept difficulty :=
  ⟨wired_init, fun _ _ ht => absurd ht (by simp [init]), fun _ h => absurd h (by simp [init])⟩

/-- Only registrations and other events of its own change whether a session is entered. -/
theorem Entered.of_le (h : s.Entered i t)
    (hsub : s.Subscribed i → s'.Subscribed i) (halive : t'.Alive → t.Alive)
    (hwriting : t'.writing = true → t.writing = true)
    (hsubscribes : Subscribes t'.handled → Subscribes t.handled) : s'.Entered i t' :=
  fun ha hw hs => hsub (h (halive ha) (hwriting hw) (hsubscribes hs))

theorem entered_begins (h : s.Entered i t) (hphase : t.phase = .waiting)
    (hbegins : Begins difficulty t t') : s.Entered i t' := by
  have halive : t.Alive := Thread.alive_of_waiting hphase
  cases hbegins with
  | handling => exact h.of_le id (fun _ => halive) id id
  | ends hother => exact h.of_le id (fun _ => halive) id hother.subscribes_iff.mp
  | crashes => exact h.of_le id (fun _ => halive) id id

theorem entered_advance {pool' : PoolState} (houtbound : t.session.outbound = i)
    (h : s.Entered i t) (hadvance : Advance difficulty s.pool t pool' t') :
    ({ s.setThread i t' with pool := pool' } : Server).Entered i t' := by
  have halive := hadvance.alive
  have hauthorize : ∀ {r : Request}, r.method = method.AUTHORIZE →
      r.method ≠ method.SUBSCRIBE := fun hr heq => subscribe_ne_authorize (heq.symm.trans hr)
  cases hadvance with
  | register =>
    intro _ _ _
    exact ⟨⟨t.session.connectionId, t.session.outbound⟩,
      List.mem_append_right _ (List.mem_singleton_self _), houtbound⟩
  | readNone hmethod =>
    exact h.of_le id (fun _ => halive) id (subscribes_cons_iff (hauthorize hmethod)).mp
  | sendNotify hmethod =>
    exact h.of_le id (fun _ => halive) id (subscribes_cons_iff (hauthorize hmethod)).mp
  | quietEnds hother => exact h.of_le id (fun _ => halive) id hother.subscribes_iff.mp
  | replySubscribe => exact h.of_le id (fun _ => halive) id id
  | replyAuthorize => exact h.of_le id (fun _ => halive) id id
  | readSome => exact h.of_le id (fun _ => halive) id id
  | sendDifficulty => exact h.of_le id (fun _ => halive) id id
  | quiet => exact h.of_le id (fun _ => halive) id id
  | quietCrashes => exact h.of_le id (fun _ => halive) id id

/-- An operation of a reader removes no entry. -/
theorem subscribed_of_advance {pool' : PoolState} (hadvance : Advance difficulty s.pool t pool' t')
    {j : ℕ} (h : s.Subscribed j) :
    ({ s.setThread i t' with pool := pool' } : Server).Subscribed j := by
  obtain ⟨entry, hentry, hj⟩ := h
  rcases hadvance.subscribers with rfl | ⟨rfl, -⟩
  · exact ⟨entry, hentry, hj⟩
  · exact ⟨entry, List.mem_append_left _ hentry, hj⟩

/-- Nor does it change the jobs. -/
theorem currentJob_of_advance {pool pool' : PoolState}
    (hadvance : Advance difficulty pool t pool' t') : pool'.currentJob = pool.currentJob := by
  rcases hadvance.subscribers with rfl | ⟨rfl, -⟩ <;> rfl

/-- The threads after an event of the connection `i`. -/
theorem forall_setThread {P : ℕ → Thread → Prop}
    (h : ∀ j u, j ≠ i → s.threads[j]? = some u → P j u) (ht' : P i t') :
    ∀ j u, (s.setThread i t').threads[j]? = some u → P j u := by
  intro j u hu
  rcases getElem?_set_cases hu with ⟨rfl, rfl⟩ | ⟨hne, hu⟩
  · exact ht'
  · exact h j u hne hu

/-- Who has subscribed stays in the list. -/
theorem Kept.entered_of_step (hs : s.Kept difficulty)
    (h : step fromStr difficulty s event = some s') (horder : s.InOrder event) :
    ∀ i t, s'.threads[i]? = some t → s'.Entered i t := by
  cases event with
  | connect =>
    obtain rfl := step_connect h
    intro j u hu
    rcases getElem?_concat_cases hu with hu | ⟨rfl, rfl⟩
    · exact hs.entered j u hu
    · exact fun _ _ hsub => absurd hsub (by simp [Subscribes, Thread.new])
  | refuse =>
    obtain rfl := step_refuse h
    exact hs.entered
  | line i text =>
    obtain ⟨t, ht, hphase, rfl | ⟨t', hbegins, rfl⟩⟩ := begins_of_step_line h
    · exact hs.entered
    · exact forall_setThread (fun j u _ => hs.entered j u)
        (entered_begins (hs.entered i t ht) hphase hbegins)
  | perform i world =>
    obtain ⟨t, pool', t', ht, hadvance, rfl⟩ := hs.wired.perform h
    exact forall_setThread (P := fun j u =>
        ({ s.setThread i t' with pool := pool' } : Server).Entered j u)
      (fun j u _ hu => (hs.entered j u hu).of_le (subscribed_of_advance hadvance) id id id)
      (entered_advance (hs.wired i t ht).outbound (hs.entered i t ht) hadvance)
  | hangUp i =>
    obtain ⟨t, ht, hphase, rfl⟩ := step_hangUp h
    exact forall_setThread (fun j u _ => hs.entered j u)
      ((hs.entered i t ht).of_le id (fun _ => Thread.alive_of_waiting hphase) id id)
  | unregister i =>
    obtain ⟨t, ht, -, rfl⟩ := step_unregister h
    refine forall_setThread (fun j u hne hu ha hw hsub => ?_) fun halive => absurd rfl halive.1
    -- Entries of other connections have other ids, so they are still there.
    obtain ⟨entry, hentry, rfl⟩ := hs.entered j u hu ha hw hsub
    exact ⟨entry, List.mem_filter.mpr ⟨hentry, bne_iff_ne.mpr fun hid =>
      hne (horder t ht entry hentry hid)⟩, rfl⟩
  | writerEnds i =>
    obtain ⟨t, ht, rfl⟩ := step_writerEnds h
    exact forall_setThread (fun j u _ => hs.entered j u) fun _ hw => absurd hw (by simp)
  | startJob =>
    obtain ⟨-, rfl⟩ := step_startJob h
    exact hs.entered
  | abandon =>
    obtain ⟨_, -, rfl⟩ := step_abandon h
    exact hs.entered
  | install active =>
    obtain ⟨-, rfl⟩ := step_install h
    exact hs.entered
  | announce =>
    obtain ⟨active, -, rfl⟩ := step_announce h
    intro j u hu ha hw hsub
    rw [List.getElem?_mapIdx] at hu
    obtain ⟨t, ht, rfl⟩ := Option.map_eq_some_iff.mp hu
    obtain ⟨entry, hentry, rfl⟩ := hs.entered j t ht ha hw hsub
    refine ⟨entry, List.mem_filter.mpr ⟨hentry, ?_⟩, rfl⟩
    rw [isWriting, ht]
    exact hw

/-- The job that is being announced stays the current one. -/
theorem Kept.announcing_of_step (hs : s.Kept difficulty)
    (h : step fromStr difficulty s event = some s') :
    ∀ active, s'.poller = .announcing active → s'.pool.currentJob = some active := by
  cases event with
  | connect =>
    obtain rfl := step_connect h
    exact hs.announcing
  | refuse =>
    obtain rfl := step_refuse h
    exact hs.announcing
  | line i text =>
    obtain ⟨t, -, -, rfl | ⟨t', -, rfl⟩⟩ := begins_of_step_line h
    · exact hs.announcing
    · exact hs.announcing
  | perform i world =>
    obtain ⟨t, pool', t', -, hadvance, rfl⟩ := hs.wired.perform h
    exact fun active hactive =>
      (currentJob_of_advance hadvance).trans (hs.announcing active hactive)
  | hangUp i =>
    obtain ⟨t, -, -, rfl⟩ := step_hangUp h
    exact hs.announcing
  | unregister i =>
    obtain ⟨t, -, -, rfl⟩ := step_unregister h
    exact hs.announcing
  | writerEnds i =>
    obtain ⟨t, -, rfl⟩ := step_writerEnds h
    exact hs.announcing
  | startJob =>
    obtain ⟨-, rfl⟩ := step_startJob h
    exact fun active hactive => absurd hactive (by simp)
  | abandon =>
    obtain ⟨_, -, rfl⟩ := step_abandon h
    exact fun active hactive => absurd hactive (by simp)
  | install active =>
    obtain ⟨-, rfl⟩ := step_install h
    intro active' hactive'
    obtain rfl := PollerPhase.announcing.inj hactive'
    rfl
  | announce =>
    obtain ⟨active, -, rfl⟩ := step_announce h
    exact fun active hactive => absurd hactive (by simp)

theorem Kept.of_step (hs : s.Kept difficulty)
    (h : step fromStr difficulty s event = some s') (horder : s.InOrder event) :
    s'.Kept difficulty :=
  ⟨hs.wired.of_step h, hs.entered_of_step h horder, hs.announcing_of_step h⟩

/-! ### The channels -/

/-- A broadcast brings a channel up to date. -/
theorem upToDate_receive {active : ActiveJob} (hentered : s.Entered i t) (halive : t.Alive) :
    (t.receive (List.replicate (entries s.pool i) (notifyLine active))).UpToDate (some active) := by
  intro hwriting hjoined _ current hcurrent
  obtain rfl := Option.some.inj hcurrent
  have hwriting : t.writing = true := hwriting
  have hpos := entries_pos_iff.mpr (hentered halive hwriting hjoined.subscribes)
  obtain ⟨n, hn⟩ := Nat.exists_eq_succ_of_ne_zero hpos.ne'
  rw [Thread.receive, hn, List.replicate_succ]
  dsimp only
  rw [Thread.put, if_pos hwriting]
  exact List.find?_cons_of_pos (isNotify_notifyLine active)

theorem upToDate_writerEnds {job : Option ActiveJob} :
    ({ t with writing := false } : Thread).UpToDate job := fun hw => absurd hw (by simp)

/-- **One event in order keeps the last jobs current.** -/
theorem LastJobIsCurrent.of_step (h : s.LastJobIsCurrent) (hs : s.Kept difficulty)
    (hstep : step fromStr difficulty s event = some s') (horder : s.InOrder event) :
    s'.LastJobIsCurrent := by
  intro hsettled
  cases event with
  | connect =>
    obtain rfl := step_connect hstep
    intro j u hu
    rcases getElem?_concat_cases hu with hu | ⟨rfl, rfl⟩
    · exact h hsettled j u hu
    · exact fun _ _ hjoined => absurd hjoined id
  | refuse =>
    obtain rfl := step_refuse hstep
    exact h hsettled
  | line i text =>
    obtain ⟨t, ht, hphase, rfl | ⟨t', hbegins, rfl⟩⟩ := begins_of_step_line hstep
    · exact h hsettled
    · exact forall_setThread (fun j u _ => h hsettled j u) fun _ =>
        (h hsettled i t ht (Thread.alive_of_waiting hphase)).begins hphase hbegins
  | perform i world =>
    obtain ⟨t, pool', t', ht, hadvance, rfl⟩ := hs.wired.perform hstep
    have hjob : pool'.currentJob = s.pool.currentJob := currentJob_of_advance hadvance
    dsimp only
    rw [hjob]
    refine forall_setThread (fun j u _ => h hsettled j u) fun _ =>
      (h hsettled i t ht hadvance.alive).advance hadvance fun request active hphase => ?_
    exact horder hsettled t request _ _ ht hphase (isNotify_notifyLine active)
  | hangUp i =>
    obtain ⟨t, ht, hphase, rfl⟩ := step_hangUp hstep
    refine forall_setThread (fun j u _ => h hsettled j u) fun _ hwriting hjoined _ => ?_
    exact h hsettled i t ht (Thread.alive_of_waiting hphase) hwriting hjoined
      (Thread.not_midSend_of_phase (by simp [hphase]))
  | unregister i =>
    obtain ⟨t, -, -, rfl⟩ := step_unregister hstep
    exact forall_setThread (fun j u _ => h hsettled j u) fun halive => absurd rfl halive.1
  | writerEnds i =>
    obtain ⟨t, -, rfl⟩ := step_writerEnds hstep
    exact forall_setThread (fun j u _ => h hsettled j u) fun _ => upToDate_writerEnds
  | startJob =>
    obtain ⟨hpoller, rfl⟩ := step_startJob hstep
    exact h (by simp [Settled, hpoller])
  | abandon =>
    obtain ⟨_, hpoller, rfl⟩ := step_abandon hstep
    exact h (by simp [Settled, hpoller])
  | install active =>
    obtain ⟨-, rfl⟩ := step_install hstep
    exact absurd rfl (hsettled active)
  | announce =>
    obtain ⟨active, hpoller, rfl⟩ := step_announce hstep
    intro j u hu halive
    rw [List.getElem?_mapIdx] at hu
    obtain ⟨t, ht, rfl⟩ := Option.map_eq_some_iff.mp hu
    rw [show (s.pool.broadcast s.isWriting).currentJob = some active from
      hs.announcing active hpoller]
    exact upToDate_receive (hs.entered j t ht) halive

theorem lastJobIsCurrent_init : init.LastJobIsCurrent :=
  fun _ _ _ ht => absurd ht (by simp [init])

/-- **When the last job a miner was told about is the current one.** Along every run that
is in order, in every state in which the poller is not between installing a job and
broadcasting it: the last job on the channel of every session that has subscribed and then
been authorized, and is not in the middle of sending a job itself, is the current one. -/
theorem always_lastJobIsCurrent {events : List Event}
    (h : StepSystem.EachStep (step fromStr difficulty) InOrder init events) :
    StepSystem.Always (step fromStr difficulty) LastJobIsCurrent init events :=
  (StepSystem.always_of_eachStep (I := fun s => s.Kept difficulty ∧ s.LastJobIsCurrent)
    (fun _ _ _ hs horder hstep =>
      ⟨hs.1.of_step hstep horder, hs.2.of_step hs.1 hstep horder⟩)
    ⟨kept_init, lastJobIsCurrent_init⟩ h).mono fun _ hs => hs.2

/-! ### Two runs -/

/-- The request that the reader `i` is about to send. -/
def requesting (s : Server) (i : ℕ) : Option Request := do
  let t ← s.threads[i]?
  match t.phase with
  | .handling _ (.op (.send (.request r)) _) => some r
  | _ => none

theorem requesting_eq {i : ℕ} {t : Thread} {request : Option Request} {r : Request}
    {next : Unit → PoolProg (Session × Bool)} (ht : s.threads[i]? = some t)
    (hphase : t.phase = .handling request (.op (.send (.request r)) next)) :
    s.requesting i = some r := by
  simp [requesting, ht, hphase]

/-- Whoever sends no job is in order. -/
theorem inOrder_of_requesting {i : ℕ} (world : World)
    (h : (s.requesting i).all (fun r => !isNotify (.request r)) = true) :
    s.InOrder (.perform i world) := by
  intro _ t request r next ht hphase hnotify
  rw [requesting_eq ht hphase, Option.all_some, hnotify] at h
  exact absurd h (by simp)

/-- Whoever sends the current job is in order. -/
theorem inOrder_of_notifyLine {i : ℕ} (world : World) {active : ActiveJob}
    (hcurrent : s.pool.currentJob = some active)
    (h : (s.requesting i).map Incoming.request = some (notifyLine active)) :
    s.InOrder (.perform i world) := by
  intro _ t request r next ht hphase _ _ _ current hsome
  rw [requesting_eq ht hphase] at h
  obtain rfl := Option.some.inj (hcurrent.symm.trans hsome)
  exact Option.some.inj h

/-- Another miner connects, subscribes and is authorized. -/
def lateSession : List Event :=
  [.connect, .line 1 (bareText method.SUBSCRIBE), .perform 1 ⟨0, .ok none⟩,
    .perform 1 ⟨0, .ok none⟩, .line 1 (bareText method.AUTHORIZE)] ++
      List.replicate 4 (.perform 1 ⟨0, .ok none⟩)

/-- A run with a miner that comes before the first job, and one that comes after it and is
sent that job by its own session, is in order. -/
theorem always_lastJobIsCurrent_lateSession :
    StepSystem.EachStep (step readHandshake fun _ => .null) InOrder init
        (beforeFirstJob ++ lateSession) ∧
      StepSystem.Always (step readHandshake fun _ => .null) LastJobIsCurrent init
        (beforeFirstJob ++ lateSession) := by
  have h : StepSystem.EachStep (step readHandshake fun _ => .null) InOrder init
      (beforeFirstJob ++ lateSession) := by
    -- The first miner, and then the first job.
    refine .cons rfl trivial ?_
    refine .cons rfl trivial ?_
    refine .cons rfl (inOrder_of_requesting _ rfl) ?_
    refine .cons rfl (inOrder_of_requesting _ rfl) ?_
    refine .cons rfl trivial ?_
    refine .cons rfl (inOrder_of_requesting _ rfl) ?_
    refine .cons rfl (inOrder_of_requesting _ rfl) ?_
    refine .cons rfl trivial ?_
    refine .cons rfl trivial ?_
    refine .cons rfl trivial ?_
    -- The second miner. All it is sent of jobs is the current one.
    refine .cons rfl trivial ?_
    refine .cons rfl trivial ?_
    refine .cons rfl (inOrder_of_requesting _ rfl) ?_
    refine .cons rfl (inOrder_of_requesting _ rfl) ?_
    refine .cons rfl trivial ?_
    refine .cons rfl (inOrder_of_requesting _ rfl) ?_
    refine .cons rfl (inOrder_of_requesting _ rfl) ?_
    refine .cons rfl (inOrder_of_requesting _ rfl) ?_
    exact .cons rfl (inOrder_of_notifyLine _ rfl rfl) trivial
  exact ⟨h, always_lastJobIsCurrent h⟩

/-- A miner subscribes and is authorized; between the reading of the job `1` and its
sending, the job `2` is installed and broadcast. -/
def overtaken : List Event :=
  .connect :: (request method.SUBSCRIBE 2 ++
    [.startJob, .install (plainJob ['1']), .announce] ++ request method.AUTHORIZE 2 ++
    [.startJob, .install (plainJob ['2']), .announce] ++
    [.perform 0 ⟨0, .ok none⟩, .perform 0 ⟨0, .ok none⟩])

/-- The miner is left with the job `1`. -/
theorem not_always_lastJobIsCurrent :
    ¬ StepSystem.Always (step readHandshake fun _ => .null) LastJobIsCurrent init overtaken := by
  intro h
  have hview : (StepSystem.exec (step readHandshake fun _ => .null) init overtaken).map
      (fun s => (s.poller, s.pool.currentJob, s.threads.map fun t =>
        (t.phase, t.writing, t.handled.map Request.method, t.sent.find? isNotify))) =
      some (.idle, some (plainJob ['2']), [(.waiting, true, [method.AUTHORIZE, method.SUBSCRIBE],
        some (notifyLine (plainJob ['1'])))]) := by
    rfl
  obtain ⟨s, hexec, hs⟩ := Option.map_eq_some_iff.mp hview
  obtain ⟨hpoller, hs⟩ := Prod.mk.inj hs
  obtain ⟨hcurrent, hthreads⟩ := Prod.mk.inj hs
  have hfirst := congrArg (fun views => views[0]?) hthreads
  rw [List.getElem?_map] at hfirst
  obtain ⟨t, ht, hview⟩ := Option.map_eq_some_iff.mp hfirst
  simp only [Prod.mk.injEq] at hview
  obtain ⟨hphase, hwriting, hhandled, hsent⟩ := hview
  have hjoined : Joined t.handled := by
    obtain ⟨authorize, rest, hlist, hauthorize, hrest⟩ := List.map_eq_cons_iff.mp hhandled
    obtain ⟨subscribe, rest', rfl, hsubscribe, -⟩ := List.map_eq_cons_iff.mp hrest
    rw [hlist]
    exact Or.inr ⟨hauthorize, subscribe, List.mem_cons_self, hsubscribe⟩
  have hlast := h.last hexec (fun active hactive => absurd (hpoller.symm.trans hactive) (by simp))
    0 t ht (Thread.alive_of_waiting hphase) hwriting hjoined
    (Thread.not_midSend_of_phase (by simp [hphase])) _ hcurrent
  rw [hsent] at hlast
  have hjob : (plainJob ['1']).job.toNotifyParams = (plainJob ['2']).job.toNotifyParams := by
    simpa [notifyLine, Request.notification] using hlast
  have hdecoded := congrArg Job.fromNotifyParams hjob
  rw [Job.fromNotifyParams_toNotifyParams, Job.fromNotifyParams_toNotifyParams] at hdecoded
  exact absurd (congrArg Job.jobId (Except.ok.inj hdecoded)) (by decide)

end Server

end SoloMiner
