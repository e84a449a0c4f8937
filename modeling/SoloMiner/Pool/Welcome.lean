import SoloMiner.Pool.CurrentWork

/-!
# After the yes

A miner looks for jobs once its authorization has been answered, and drops what came before.
So it is not enough that the last job on its channel is the current one: that job must be
behind the answer. It is (`SoloMiner.Server.Welcoming`), along every run that is in order:
either the session itself sends a job after its answer, or there was none at that time, and
then the first one is broadcast later.
-/

namespace SoloMiner

open Json

/-- Behind a yes there is a job. The latest line is first. -/
def JobAfterYes (sent : List Incoming) : Prop :=
  ∃ newer yes older, sent = newer ++ yes :: older ∧ IsYes yes ∧ ∃ line ∈ newer, isNotify line = true

theorem JobAfterYes.mono {sent sent' : List Incoming} (h : JobAfterYes sent)
    (hsent : sent <:+ sent') : JobAfterYes sent' := by
  obtain ⟨newer, yes, older, rfl, hyes, line, hline, hnotify⟩ := h
  obtain ⟨front, rfl⟩ := hsent
  exact ⟨front ++ newer, yes, older, List.append_assoc _ _ _ ▸ rfl, hyes, line,
    List.mem_append_right _ hline, hnotify⟩

/-- A job that comes after a yes. -/
theorem jobAfterYes_cons {line : Incoming} {sent : List Incoming} (hnotify : isNotify line = true)
    (h : ∃ yes ∈ sent, IsYes yes) : JobAfterYes (line :: sent) := by
  obtain ⟨yes, hmem, hyes⟩ := h
  obtain ⟨newer, older, rfl⟩ := List.append_of_mem hmem
  exact ⟨line :: newer, yes, older, rfl, hyes, line, List.mem_cons_self, hnotify⟩

namespace Thread

variable {difficulty : UInt32 → Value} {pool pool' : PoolState} {t t' : Thread}

theorem suffix_put (t : Thread) (lines : List Incoming) : t.sent <:+ t.put lines := by
  rw [put]
  split_ifs
  · exact List.suffix_append _ _
  · exact List.suffix_rfl

/-- The session has answered an authorization and goes on with it. -/
def PastYes (difficulty : UInt32 → Value) (t : Thread) : Prop :=
  ∃ request code, t.phase = .handling request code ∧ (code = t.session.reading difficulty ∨
    ∃ active, code = t.session.announcing difficulty active ∨ code = t.session.notifying active)

/-- **Who has joined was told yes**, as long as there is a writer. -/
def Accepted (difficulty : UInt32 → Value) (t : Thread) : Prop :=
  t.writing = true → Joined t.handled ∨ t.PastYes difficulty → ∃ yes ∈ t.sent, IsYes yes

/-- **Who has joined was told a job after the yes**, if there is one, the writer runs, and
the session is not about to send one. -/
def Begun (job : Option ActiveJob) (t : Thread) : Prop :=
  t.writing = true → Joined t.handled → ¬ t.MidSend → job.isSome = true → JobAfterYes t.sent

theorem not_pastYes_of_phase (h : ∀ request code, t.phase ≠ .handling request code) :
    ¬ t.PastYes difficulty := fun ⟨request, code, hphase, _⟩ => h request code hphase

/-- An operation after the answer asks for the job or sends a request. -/
theorem not_pastYes_of_op {request : Option Request} {effect : Effect}
    {next : effect.Answer → PoolProg (Session × Bool)}
    (hphase : t.phase = .handling request (.op effect next)) (hjob : effect ≠ .currentJob)
    (hsend : ∀ r, effect ≠ .send (.request r)) : ¬ t.PastYes difficulty := by
  rintro ⟨_, code, hphase', hcode⟩
  obtain ⟨-, rfl⟩ := Phase.handling.inj (hphase.symm.trans hphase')
  obtain hcode | ⟨active, hcode | hcode⟩ := hcode
  · exact hjob (Prog.op.inj hcode).1
  · exact hsend _ (Prog.op.inj hcode).1
  · exact hsend _ (Prog.op.inj hcode).1

theorem not_pastYes_of_quiet {request : Option Request} {code : PoolProg (Session × Bool)}
    (hphase : t.phase = .handling request code) (hcode : code.Only Effect.IsQuiet) :
    ¬ t.PastYes difficulty := by
  rintro ⟨_, code', hphase', hcode'⟩
  obtain ⟨-, rfl⟩ := Phase.handling.inj (hphase.symm.trans hphase')
  obtain rfl | ⟨active, rfl | rfl⟩ := hcode'
  · exact hcode.1
  · exact hcode.1
  · exact hcode.1

/-- A reader that has not just answered, and has joined no more than before. -/
theorem Accepted.of_le (h : t.Accepted difficulty) (hwriting : t'.writing = true → t.writing = true)
    (hjoined : Joined t'.handled → Joined t.handled ∨ t.PastYes difficulty)
    (hpast : ¬ t'.PastYes difficulty) (hsent : t.sent <:+ t'.sent) : t'.Accepted difficulty := by
  intro hw hcase
  obtain ⟨yes, hyes, hisYes⟩ := h (hwriting hw) (hjoined (hcase.resolve_right hpast))
  exact ⟨yes, hsent.subset hyes, hisYes⟩

theorem Accepted.begins (h : t.Accepted difficulty) (hbegins : Begins difficulty t t') :
    t'.Accepted difficulty := by
  cases hbegins with
  | handling hopening =>
    refine h.of_le id Or.inl ?_ List.suffix_rfl
    cases hopening with
    | subscribing => exact not_pastYes_of_op rfl (by simp) (by simp)
    | authorizing => exact not_pastYes_of_op rfl (by simp) (by simp)
    | quiet _ honly => exact not_pastYes_of_quiet rfl honly
  | ends hother =>
    exact h.of_le id (fun hjoined => Or.inl (hother.joined_iff.mp hjoined))
      (not_pastYes_of_phase (by simp)) List.suffix_rfl
  | crashes => exact h.of_le id Or.inl (not_pastYes_of_phase (by simp)) List.suffix_rfl

/-- A reader that goes on with an authorization. -/
theorem Accepted.of_pastYes (h : t.Accepted difficulty) (hpast : t.PastYes difficulty)
    (hwriting : t'.writing = true → t.writing = true) (hsent : t.sent <:+ t'.sent) :
    t'.Accepted difficulty := by
  intro hw _
  obtain ⟨yes, hyes, hisYes⟩ := h (hwriting hw) (Or.inr hpast)
  exact ⟨yes, hsent.subset hyes, hisYes⟩

/-- **One operation of a reader.** -/
theorem Accepted.advance (h : t.Accepted difficulty)
    (hadvance : Advance difficulty pool t pool' t') : t'.Accepted difficulty := by
  cases hadvance with
  | replySubscribe =>
    exact h.of_le id Or.inl (not_pastYes_of_op rfl (by simp) (by simp)) (t.suffix_put _)
  | register hmethod =>
    refine h.of_le id (fun hjoined => Or.inl (hjoined.resolve_right fun hauth => ?_))
      (not_pastYes_of_phase (by simp)) List.suffix_rfl
    exact subscribe_ne_authorize (hmethod.symm.trans hauth.1)
  | @replyAuthorize request =>
    intro hwriting _
    refine ⟨.response (.ok request.id (.bool true)), ?_, _, rfl⟩
    dsimp only at hwriting ⊢
    rw [put, if_pos hwriting]
    exact List.mem_cons_self
  | readNone _ hphase =>
    exact h.of_pastYes ⟨_, _, hphase, Or.inl rfl⟩ id List.suffix_rfl
  | readSome _ hphase =>
    exact h.of_pastYes ⟨_, _, hphase, Or.inl rfl⟩ id List.suffix_rfl
  | sendDifficulty _ hphase =>
    exact h.of_pastYes ⟨_, _, hphase, Or.inr ⟨_, Or.inl rfl⟩⟩ id (t.suffix_put _)
  | sendNotify _ hphase =>
    exact h.of_pastYes ⟨_, _, hphase, Or.inr ⟨_, Or.inr rfl⟩⟩ id (t.suffix_put _)
  | quiet _ _ _ _ honly =>
    exact h.of_le id Or.inl (not_pastYes_of_quiet rfl honly) (t.suffix_put _)
  | quietEnds hother =>
    exact h.of_le id (fun hjoined => Or.inl (hother.joined_iff.mp hjoined))
      (not_pastYes_of_phase (by simp)) (t.suffix_put _)
  | quietCrashes =>
    exact h.of_le id Or.inl (not_pastYes_of_phase (by simp)) (t.suffix_put _)

/-- **An event keeps who has joined accepted.** -/
theorem Accepted.becomes (h : t.Accepted difficulty) {event : Event}
    (hbecomes : t.Becomes difficulty pool event t') : t'.Accepted difficulty := by
  cases hbecomes with
  | same => exact h
  | begins _ hbegins => exact h.begins hbegins
  | advance hadvance => exact h.advance hadvance
  | hangUp => exact h.of_le id Or.inl (not_pastYes_of_phase (by simp)) List.suffix_rfl
  | unregister => exact h.of_le id Or.inl (not_pastYes_of_phase (by simp)) List.suffix_rfl
  | writerEnds => exact fun hw => absurd hw (by simp)
  | announce n active =>
    intro hwriting hcase
    obtain ⟨yes, hyes, hisYes⟩ := h hwriting hcase
    exact ⟨yes, (t.suffix_put _).subset hyes, hisYes⟩

/-- **One operation keeps who has joined told**, whether or not there is a job by now. -/
theorem Begun.advance (h : t.Begun pool.currentJob) (haccepted : t.Accepted difficulty)
    (hadvance : Advance difficulty pool t pool' t') : t'.Begun pool.currentJob := by
  cases hadvance with
  | replySubscribe _ hphase =>
    exact fun hwriting hjoined _ hjob =>
      (h hwriting hjoined (not_midSend_of_op hphase (by simp)) hjob).mono (t.suffix_put _)
  | register hmethod hphase =>
    intro hwriting hjoined _
    refine h hwriting (hjoined.resolve_right fun hauth => ?_) (not_midSend_of_op hphase (by simp))
    exact subscribe_ne_authorize (hmethod.symm.trans hauth.1)
  | replyAuthorize _ hphase =>
    exact fun hwriting hjoined _ hjob =>
      (h hwriting hjoined (not_midSend_of_op hphase (by simp)) hjob).mono (t.suffix_put _)
  | readNone _ _ hnone =>
    -- There was no job to be told.
    intro _ _ _ hjob
    rw [hnone] at hjob
    exact absurd hjob (by simp)
  | readSome =>
    intro _ _ hmid
    exact absurd ⟨_, _, _, rfl⟩ hmid
  | sendDifficulty =>
    intro _ _ hmid
    exact absurd ⟨_, _, _, rfl⟩ hmid
  | sendNotify _ hphase =>
    intro hwriting _ _ _
    have hyes := haccepted hwriting (Or.inr ⟨_, _, hphase, Or.inr ⟨_, Or.inr rfl⟩⟩)
    dsimp only at hwriting ⊢
    rw [put, if_pos hwriting]
    exact jobAfterYes_cons (isNotify_notifyLine _) hyes
  | quiet _ hphase hcode =>
    exact fun hwriting hjoined _ hjob =>
      (h hwriting hjoined (not_midSend_of_quiet hphase hcode) hjob).mono (t.suffix_put _)
  | quietEnds hother hphase hcode =>
    exact fun hwriting hjoined _ hjob => (h hwriting (hother.joined_iff.mp hjoined)
      (not_midSend_of_quiet hphase hcode) hjob).mono (t.suffix_put _)
  | quietCrashes _ hphase hcode =>
    exact fun hwriting hjoined _ hjob =>
      (h hwriting hjoined (not_midSend_of_quiet hphase hcode) hjob).mono (t.suffix_put _)

theorem Begun.begins {job : Option ActiveJob} (h : t.Begun job) (hphase : t.phase = .waiting)
    (hbegins : Begins difficulty t t') : t'.Begun job := by
  have hmid : ¬ t.MidSend := not_midSend_of_phase (by simp [hphase])
  cases hbegins with
  | handling => exact fun hwriting hjoined _ => h hwriting hjoined hmid
  | ends hother =>
    exact fun hwriting hjoined _ => h hwriting (hother.joined_iff.mp hjoined) hmid
  | crashes => exact fun hwriting hjoined _ => h hwriting hjoined hmid

end Thread

namespace Server

variable {fromStr : Str → Option Value} {difficulty : UInt32 → Value} {s s' : Server}
  {event : Event}

/-- **Who has joined is welcome**: it was told yes and, unless the poller is in the middle of a
job, a job after that. -/
structure Welcoming (difficulty : UInt32 → Value) (s : Server) : Prop where
  accepted : ∀ (i : ℕ) (t : Thread), s.threads[i]? = some t → t.Accepted difficulty
  begun : s.Settled → ∀ (i : ℕ) (t : Thread), s.threads[i]? = some t → t.Alive →
    t.Begun s.pool.currentJob

theorem welcoming_init : init.Welcoming difficulty :=
  ⟨fun _ _ ht => absurd ht (by simp [init]), fun _ _ _ ht => absurd ht (by simp [init])⟩

theorem Welcoming.accepted_of_step (h : s.Welcoming difficulty) (hwired : s.Wired difficulty)
    (hstep : step fromStr difficulty s event = some s') :
    ∀ (i : ℕ) (t : Thread), s'.threads[i]? = some t → t.Accepted difficulty := by
  intro i u hu
  rcases hwired.thread_cases hstep hu with ⟨t, ht, hbecomes⟩ | ⟨-, -, rfl⟩
  · exact (h.accepted i t ht).becomes hbecomes
  · intro _ hcase
    rcases hcase with hjoined | hpast
    · exact absurd hjoined id
    · exact absurd hpast (Thread.not_pastYes_of_phase (by simp [Thread.new]))

/-- **One event in order.** -/
theorem Welcoming.of_step (h : s.Welcoming difficulty) (hs : s.Kept difficulty)
    (hstep : step fromStr difficulty s event = some s') : s'.Welcoming difficulty := by
  refine ⟨h.accepted_of_step hs.wired hstep, fun hsettled => ?_⟩
  cases event with
  | connect =>
    obtain rfl := step_connect hstep
    intro j u hu
    rcases getElem?_concat_cases hu with hu | ⟨rfl, rfl⟩
    · exact h.begun hsettled j u hu
    · exact fun _ _ hjoined => absurd hjoined id
  | refuse =>
    obtain rfl := step_refuse hstep
    exact h.begun hsettled
  | line i text =>
    obtain ⟨t, ht, hphase, rfl | ⟨t', hbegins, rfl⟩⟩ := begins_of_step_line hstep
    · exact h.begun hsettled
    · exact forall_setThread (fun j u _ => h.begun hsettled j u) fun _ =>
        (h.begun hsettled i t ht (Thread.alive_of_waiting hphase)).begins hphase hbegins
  | perform i world =>
    obtain ⟨t, pool', t', ht, hadvance, rfl⟩ := hs.wired.perform hstep
    have hjob : pool'.currentJob = s.pool.currentJob := currentJob_of_advance hadvance
    dsimp only
    rw [hjob]
    exact forall_setThread (fun j u _ => h.begun hsettled j u) fun _ =>
      (h.begun hsettled i t ht hadvance.alive).advance (h.accepted i t ht) hadvance
  | hangUp i =>
    obtain ⟨t, ht, hphase, rfl⟩ := step_hangUp hstep
    refine forall_setThread (fun j u _ => h.begun hsettled j u) fun _ hwriting hjoined _ => ?_
    exact h.begun hsettled i t ht (Thread.alive_of_waiting hphase) hwriting hjoined
      (Thread.not_midSend_of_phase (by simp [hphase]))
  | unregister i =>
    obtain ⟨t, -, -, rfl⟩ := step_unregister hstep
    exact forall_setThread (fun j u _ => h.begun hsettled j u) fun halive => absurd rfl halive.1
  | writerEnds i =>
    obtain ⟨t, -, rfl⟩ := step_writerEnds hstep
    exact forall_setThread (fun j u _ => h.begun hsettled j u) fun _ hw => absurd hw (by simp)
  | startJob =>
    obtain ⟨hpoller, rfl⟩ := step_startJob hstep
    exact h.begun (by simp [Settled, hpoller])
  | abandon =>
    obtain ⟨_, hpoller, rfl⟩ := step_abandon hstep
    exact h.begun (by simp [Settled, hpoller])
  | install active =>
    obtain ⟨-, rfl⟩ := step_install hstep
    exact absurd rfl (hsettled active)
  | announce =>
    obtain ⟨active, hpoller, rfl⟩ := step_announce hstep
    intro j u hu halive
    rw [List.getElem?_mapIdx] at hu
    obtain ⟨t, ht, rfl⟩ := Option.map_eq_some_iff.mp hu
    -- Who has joined is among the subscribers, so the broadcast reaches it.
    intro hwriting hjoined _ _
    have hwriting : t.writing = true := hwriting
    have hjoined : Joined t.handled := hjoined
    have hpos := entries_pos_iff.mpr (hs.entered j t ht halive hwriting hjoined.subscribes)
    obtain ⟨n, hn⟩ := Nat.exists_eq_succ_of_ne_zero hpos.ne'
    obtain ⟨yes, hyes, hisYes⟩ := h.accepted j t ht hwriting (Or.inl hjoined)
    rw [Thread.receive, hn, List.replicate_succ]
    dsimp only
    rw [Thread.put, if_pos hwriting]
    exact jobAfterYes_cons (isNotify_notifyLine active)
      ⟨yes, List.mem_append_right _ hyes, hisYes⟩

end Server

end SoloMiner
