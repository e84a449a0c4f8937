import SoloMiner.Pool.Welcome

/-!
# What a session has told of the difficulty

Only the handshake of a session tells a miner a difficulty: that of the job which the session
read when it authorized the miner. A broadcast brings further jobs and no difficulty. So the
jobs of a run have their difficulties precisely if every broadcast finds its receivers briefed:
each of them was authorized when there was a job, has been sent the difficulty of that job, and
the job that is broadcast has the same one (`SoloMiner.Server.always_jobsHaveDifficulty_iff`).

Which job a session has read is not to be seen in its state afterwards, so it is noted beside
it, operation by operation (`SoloMiner.Briefing`). What is on the channels is not looked at;
that it agrees with the notes is the invariant (`SoloMiner.Thread.Briefed`).
-/

namespace SoloMiner

open Json

/-! ### Who is authorized -/

/-- The session has authorized its miner: it remembers that it has, or has just said so. -/
def Thread.IsAuthorized (difficulty : UInt32 → Value) (t : Thread) : Prop :=
  t.session.authorized = true ∨ t.PastYes difficulty

variable {difficulty : UInt32 → Value}

/-- **A miner is told yes when it is authorized**, and not before. -/
structure Thread.Admits (difficulty : UInt32 → Value) (t : Thread) : Prop where
  hushed : t.session.authorized = false → ∀ request code, t.phase = .handling request code →
    IsOther request → code.Only Effect.IsNo
  yes : Authorized t.sent → t.IsAuthorized difficulty
  sent : t.IsAuthorized difficulty → t.writing = true → Authorized t.sent

namespace Thread.Admits

variable {t t' : Thread} {pool pool' : PoolState}

/-- Lines without a yes. -/
theorem authorized_put_iff {lines : List Incoming} (h : ∀ line ∈ lines, ¬ IsYes line) :
    Authorized (t.put lines) ↔ Authorized t.sent := by
  rw [put]
  split_ifs
  · constructor
    · rintro ⟨id, hmem⟩
      rcases List.mem_append.mp hmem with hmem | hmem
      · exact absurd ⟨id, rfl⟩ (h _ hmem)
      · exact ⟨id, hmem⟩
    · rintro ⟨id, hmem⟩
      exact ⟨id, List.mem_append_right _ hmem⟩
  · exact Iff.rfl

/-- A reader whose session is as before, and not in the middle of an authorization. -/
theorem of_session (h : t.Admits difficulty) (hpast : ¬ t.PastYes difficulty)
    (hsession : t'.session = t.session) (hpast' : ¬ t'.PastYes difficulty)
    (hwriting : t'.writing = true → t.writing = true) (hsuffix : t.sent <:+ t'.sent)
    (hsent : t.session.authorized = false → Authorized t'.sent → Authorized t.sent)
    (hhushed : t.session.authorized = false → ∀ request code, t'.phase = .handling request code →
      IsOther request → code.Only Effect.IsNo) : t'.Admits difficulty := by
  have hiff : t'.IsAuthorized difficulty ↔ t.IsAuthorized difficulty := by
    rw [IsAuthorized, IsAuthorized, hsession, or_iff_left hpast, or_iff_left hpast']
  refine ⟨fun hauthorized => hhushed (hsession ▸ hauthorized), fun hyes => ?_,
    fun hauthorized hw => ?_⟩
  · cases hflag : t.session.authorized with
    | true => exact Or.inl (hsession ▸ hflag)
    | false => exact hiff.mpr (h.yes (hsent hflag hyes))
  · obtain ⟨id, hmem⟩ := h.sent (hiff.mp hauthorized) (hwriting hw)
    exact ⟨id, hsuffix.subset hmem⟩

/-- A reader that goes on with an authorization. -/
theorem of_pastYes (h : t.Admits difficulty) (hpast : t.PastYes difficulty)
    (hauthorized : t'.IsAuthorized difficulty) (hwriting : t'.writing = true → t.writing = true)
    (hsuffix : t.sent <:+ t'.sent)
    (hother : ∀ request code, t'.phase = .handling request code → ¬ IsOther request) :
    t'.Admits difficulty := by
  refine ⟨fun _ request code hphase his => absurd his (hother request code hphase),
    fun _ => hauthorized, fun _ hw => ?_⟩
  obtain ⟨id, hmem⟩ := h.sent (Or.inr hpast) (hwriting hw)
  exact ⟨id, hsuffix.subset hmem⟩

theorem not_isOther {r : Request} {code code' : PoolProg (Session × Bool)}
    (hmethod : r.method = method.SUBSCRIBE ∨ r.method = method.AUTHORIZE)
    {request : Option Request} (hphase : Phase.handling (some r) code = .handling request code') :
    ¬ IsOther request := by
  obtain ⟨rfl, -⟩ := Phase.handling.inj hphase
  exact fun hother => hmethod.elim (hother r rfl).1 (hother r rfl).2

theorem begins (h : t.Admits difficulty) (hphase : t.phase = .waiting)
    (hbegins : Begins difficulty t t') : t'.Admits difficulty := by
  have hpast : ¬ t.PastYes difficulty := not_pastYes_of_phase (by simp [hphase])
  cases hbegins with
  | handling hopening =>
    cases hopening with
    | subscribing hmethod =>
      exact h.of_session hpast rfl (not_pastYes_of_op rfl (by simp) (by simp)) id List.suffix_rfl
        (fun _ => id) fun _ _ _ heq hother => absurd hother (not_isOther (Or.inl hmethod) heq)
    | authorizing hmethod =>
      exact h.of_session hpast rfl (not_pastYes_of_op rfl (by simp) (by simp)) id List.suffix_rfl
        (fun _ => id) fun _ _ _ heq hother => absurd hother (not_isOther (Or.inr hmethod) heq)
    | quiet _ honly _ hno =>
      refine h.of_session hpast rfl (not_pastYes_of_quiet rfl honly) id List.suffix_rfl
        (fun _ => id) fun hflag _ _ heq _ => ?_
      obtain ⟨-, rfl⟩ := Phase.handling.inj heq
      exact hno hflag
  | ends =>
    exact h.of_session hpast rfl (not_pastYes_of_phase (by simp)) id List.suffix_rfl
      (fun _ => id) (by simp)
  | crashes =>
    exact h.of_session hpast rfl (not_pastYes_of_phase (by simp)) id List.suffix_rfl
      (fun _ => id) (by simp)

/-- Responses without a yes. -/
theorem authorized_of_put {responses : List Response}
    (hno : ∀ response ∈ responses, ¬ IsYes (.response response))
    (h : Authorized (t.put (responses.map .response))) : Authorized t.sent := by
  refine (authorized_put_iff fun line hline => ?_).mp h
  obtain ⟨response, hresponse, rfl⟩ := List.mem_map.mp hline
  exact hno response hresponse

/-- **One operation of a reader.** -/
theorem advance (h : t.Admits difficulty) (hadvance : Advance difficulty pool t pool' t') :
    t'.Admits difficulty := by
  cases hadvance with
  | replySubscribe hmethod hphase =>
    refine h.of_session (not_pastYes_of_op hphase (by simp) (by simp)) rfl
      (not_pastYes_of_op rfl (by simp) (by simp)) id (t.suffix_put _) (fun _ => ?_)
      fun _ _ _ heq hother => absurd hother (not_isOther (Or.inl hmethod) heq)
    refine (authorized_put_iff fun line hline => ?_).mp
    obtain rfl := List.mem_singleton.mp hline
    rintro ⟨id, hyes⟩
    simp [Session.subscribeResult, Session.subscribeReply, Response.ok] at hyes
  | register _ hphase =>
    exact h.of_session (not_pastYes_of_op hphase (by simp) (by simp)) rfl
      (not_pastYes_of_phase (by simp)) id List.suffix_rfl (fun _ => id) (by simp)
  | @replyAuthorize request hmethod =>
    -- From here on the session is past its yes.
    refine ⟨fun _ _ _ heq hother => absurd hother (not_isOther (Or.inr hmethod) heq),
      fun _ => Or.inr ⟨_, _, rfl, Or.inl rfl⟩, fun _ hwriting => ⟨request.id, ?_⟩⟩
    dsimp only at hwriting ⊢
    rw [put, if_pos hwriting]
    exact List.mem_cons_self
  | readNone _ hphase =>
    exact h.of_pastYes ⟨_, _, hphase, Or.inl rfl⟩ (Or.inl rfl) id List.suffix_rfl (by simp)
  | readSome hmethod hphase =>
    exact h.of_pastYes ⟨_, _, hphase, Or.inl rfl⟩ (Or.inr ⟨_, _, rfl, Or.inr ⟨_, Or.inl rfl⟩⟩) id
      List.suffix_rfl fun _ _ => not_isOther (Or.inr hmethod)
  | sendDifficulty hmethod hphase =>
    exact h.of_pastYes ⟨_, _, hphase, Or.inr ⟨_, Or.inl rfl⟩⟩
      (Or.inr ⟨_, _, rfl, Or.inr ⟨_, Or.inr rfl⟩⟩) id (t.suffix_put _)
      fun _ _ => not_isOther (Or.inr hmethod)
  | sendNotify _ hphase =>
    exact h.of_pastYes ⟨_, _, hphase, Or.inr ⟨_, Or.inr rfl⟩⟩ (Or.inl rfl) id (t.suffix_put _)
      (by simp)
  | quiet _ hphase hcode responses honly _ hno =>
    refine h.of_session (not_pastYes_of_quiet hphase hcode) rfl (not_pastYes_of_quiet rfl honly) id
      (t.suffix_put _) (fun hflag => authorized_of_put (hno hflag).1) fun hflag _ _ heq _ => ?_
    obtain ⟨-, rfl⟩ := Phase.handling.inj heq
    exact (hno hflag).2
  | quietEnds _ hphase hcode responses hno =>
    exact h.of_session (not_pastYes_of_quiet hphase hcode) rfl (not_pastYes_of_phase (by simp)) id
      (t.suffix_put _) (fun hflag => authorized_of_put (hno hflag)) (by simp)
  | quietCrashes _ hphase hcode responses hno =>
    exact h.of_session (not_pastYes_of_quiet hphase hcode) rfl (not_pastYes_of_phase (by simp)) id
      (t.suffix_put _) (fun hflag => authorized_of_put (hno hflag)) (by simp)

/-- **An event keeps who is authorized admitted.** -/
theorem becomes (h : t.Admits difficulty) {event : Event}
    (hbecomes : t.Becomes difficulty pool event t') : t'.Admits difficulty := by
  cases hbecomes with
  | same => exact h
  | begins hphase hbegins => exact h.begins hphase hbegins
  | advance hadvance => exact h.advance hadvance
  | hangUp hphase =>
    exact h.of_session (not_pastYes_of_phase (by simp [hphase])) rfl
      (not_pastYes_of_phase (by simp)) id List.suffix_rfl (fun _ => id) (by simp)
  | unregister hphase =>
    exact h.of_session (not_pastYes_of_phase (by simp [hphase])) rfl
      (not_pastYes_of_phase (by simp)) id List.suffix_rfl (fun _ => id) (by simp)
  | writerEnds => exact ⟨h.hushed, h.yes, fun _ hwriting => absurd hwriting (by simp)⟩
  | announce n active =>
    have hlines : ∀ line ∈ List.replicate n (Server.notifyLine active), ¬ IsYes line := by
      rintro line hline ⟨id, rfl⟩
      exact absurd (List.eq_of_mem_replicate hline) (by simp [Server.notifyLine])
    exact ⟨h.hushed, fun hyes => h.yes ((authorized_put_iff hlines).mp hyes),
      fun hauthorized hwriting => (authorized_put_iff hlines).mpr (h.sent hauthorized hwriting)⟩

theorem new (connectionId : UInt64) (outbound : Channel) :
    (Thread.new connectionId outbound).Admits difficulty where
  hushed _ _ _ hphase := absurd hphase (by simp [Thread.new])
  yes h := by
    obtain ⟨id, hmem⟩ := h
    exact absurd hmem List.not_mem_nil
  sent h _ := by
    rcases h with hflag | hpast
    · exact absurd hflag Bool.false_ne_true
    · exact absurd hpast (not_pastYes_of_phase (by simp [Thread.new]))

end Thread.Admits

/-! ### Which job a session has read -/

/-- What is noted of a session. -/
structure Briefing where
  /-- The job that it read last, if there was one. -/
  read : Option ActiveJob
  /-- The job that it had read when it last sent a difficulty. -/
  told : Option ActiveJob

/-- Nothing yet. -/
def Briefing.new : Briefing := ⟨none, none⟩

/-- The note that is made of an operation. -/
def Briefing.after (self : Briefing) (pool : PoolState) : Effect → Briefing
  | .currentJob => { self with read := pool.currentJob }
  | .send line => if isDifficulty line then { self with told := self.read } else self
  | _ => self

/-- A quiet operation is not noted. -/
theorem Briefing.after_of_isQuiet {effect : Effect} (h : effect.IsQuiet) (self : Briefing)
    (pool : PoolState) : self.after pool effect = self := by
  cases effect with
  | send line =>
    cases line with
    | request request => exact absurd h id
    | response response => rfl
  | currentJob => exact absurd h id
  | _ => rfl

/-- **The channel has the difficulty that is noted**, as long as there is a writer, and so has
the reader that is about to send one. -/
structure Thread.Briefed (difficulty : UInt32 → Value) (briefing : Briefing) (t : Thread) :
    Prop where
  told : t.writing = true → t.sent.find? isDifficulty =
    briefing.told.map fun job => difficultyLine difficulty job.job.bits
  read : ∀ request line next, t.phase = .handling request (.op (.send line) next) →
    isDifficulty line = true →
      ∃ job, briefing.read = some job ∧ line = difficultyLine difficulty job.job.bits

namespace Thread.Briefed

variable {briefing : Briefing} {t t' : Thread} {pool pool' : PoolState}

theorem find?_isDifficulty_put (t : Thread) (lines : List Incoming)
    (h : ∀ line ∈ lines, isDifficulty line = false) :
    (t.put lines).find? isDifficulty = t.sent.find? isDifficulty := by
  have hnone : lines.find? isDifficulty = none :=
    List.find?_eq_none.mpr fun line hline => by simp [h line hline]
  rw [put]
  split_ifs
  · rw [List.find?_append, hnone, Option.none_or]
  · rfl

/-- A reader that is about to send no difficulty, and has sent none. -/
theorem of_find? (h : t.Briefed difficulty briefing)
    (hwriting : t'.writing = true → t.writing = true)
    (hsent : t'.sent.find? isDifficulty = t.sent.find? isDifficulty)
    (hphase : ∀ request line next, t'.phase = .handling request (.op (.send line) next) →
      isDifficulty line = false) : t'.Briefed difficulty briefing :=
  ⟨fun hw => hsent.trans (h.told (hwriting hw)), fun request line next heq hline =>
    absurd (hphase request line next heq) (by simp [hline])⟩

theorem isDifficulty_of_quiet {code : PoolProg (Session × Bool)} (h : code.Only Effect.IsQuiet)
    {request request' : Option Request} {line : Incoming} {next : Unit → PoolProg (Session × Bool)}
    (heq : Phase.handling request code = .handling request' (.op (.send line) next)) :
    isDifficulty line = false := by
  obtain ⟨-, rfl⟩ := Phase.handling.inj heq
  cases line with
  | request request => exact absurd h.1 id
  | response response => rfl

theorem isDifficulty_of_mem_responses {responses : List Response} :
    ∀ line ∈ responses.map Incoming.response, isDifficulty line = false := by
  intro line hline
  obtain ⟨response, -, rfl⟩ := List.mem_map.mp hline
  rfl

theorem begins (h : t.Briefed difficulty briefing) (hbegins : Begins difficulty t t') :
    t'.Briefed difficulty briefing := by
  cases hbegins with
  | handling hopening =>
    refine h.of_find? id rfl fun _ line next heq => ?_
    cases hopening with
    | subscribing =>
      obtain ⟨-, hcode⟩ := Phase.handling.inj heq
      rw [← Effect.send.inj (Prog.op.inj hcode).1]
      rfl
    | authorizing =>
      obtain ⟨-, hcode⟩ := Phase.handling.inj heq
      rw [← Effect.send.inj (Prog.op.inj hcode).1]
      rfl
    | quiet _ honly => exact isDifficulty_of_quiet honly heq
  | ends => exact h.of_find? id rfl (by simp)
  | crashes => exact h.of_find? id rfl (by simp)

/-- **One operation of a reader**, and the note that is made of it. -/
theorem advance (h : t.Briefed difficulty briefing) {request : Option Request} {effect : Effect}
    {next : effect.Answer → PoolProg (Session × Bool)}
    (hop : t.phase = .handling request (.op effect next))
    (hadvance : Advance difficulty pool t pool' t') :
    t'.Briefed difficulty (briefing.after pool effect) := by
  -- Which operation it is, in a phase with that code.
  have heffect : ∀ {request' : Option Request} {effect' : Effect}
      {next' : effect'.Answer → PoolProg (Session × Bool)},
      t.phase = .handling request' (.op effect' next') → effect = effect' := fun hphase =>
    (Prog.op.inj (Phase.handling.inj (hop.symm.trans hphase)).2).1
  have hquiet : ∀ {request' : Option Request} {code : PoolProg (Session × Bool)},
      t.phase = .handling request' code → code.Only Effect.IsQuiet →
        briefing.after pool effect = briefing := by
    intro _ _ hphase hcode
    obtain ⟨-, rfl⟩ := Phase.handling.inj (hop.symm.trans hphase)
    exact briefing.after_of_isQuiet hcode.1 pool
  cases hadvance with
  | @replySubscribe request' _ hphase =>
    obtain rfl := heffect hphase
    exact h.of_find? id (find?_isDifficulty_put t [_] (by simp [isDifficulty]))
      (by simp [Session.registering])
  | register _ hphase =>
    obtain rfl := heffect hphase
    exact h.of_find? id rfl (by simp)
  | replyAuthorize _ hphase =>
    obtain rfl := heffect hphase
    exact h.of_find? id (find?_isDifficulty_put t [_] (by simp [isDifficulty]))
      (by simp [Session.reading])
  | readNone _ hphase =>
    obtain rfl := heffect hphase
    exact ⟨h.told, by simp⟩
  | @readSome request' _ hphase active hjob =>
    obtain rfl := heffect hphase
    refine ⟨h.told, fun request line next heq _ => ⟨active, hjob, ?_⟩⟩
    obtain ⟨-, hcode⟩ := Phase.handling.inj heq
    exact (Effect.send.inj (Prog.op.inj hcode).1).symm
  | @sendDifficulty request' _ active hphase =>
    obtain rfl := heffect hphase
    obtain ⟨job, hread, hline⟩ := h.read _ _ _ hphase (isDifficulty_difficultyLine _)
    have hnote : briefing.after pool (.send (difficultyLine difficulty active.job.bits)) =
        { briefing with told := some job } := by
      rw [Briefing.after, if_pos (isDifficulty_difficultyLine _), hread]
    rw [hnote]
    refine ⟨fun hwriting => ?_, fun _ line next heq hdifficulty => ?_⟩
    · dsimp only at hwriting ⊢
      rw [put, if_pos hwriting, hline]
      exact List.find?_cons_of_pos (isDifficulty_difficultyLine _)
    · obtain ⟨-, hcode⟩ := Phase.handling.inj heq
      rw [← Effect.send.inj (Prog.op.inj hcode).1, isDifficulty_notifyLine] at hdifficulty
      exact absurd hdifficulty Bool.false_ne_true
  | @sendNotify request' _ active hphase =>
    obtain rfl := heffect hphase
    have hnote : briefing.after pool (.send (Server.notifyLine active)) = briefing := by
      rw [Briefing.after, if_neg (by rw [isDifficulty_notifyLine]; exact Bool.false_ne_true)]
    rw [hnote]
    exact h.of_find? id (find?_isDifficulty_put t [_]
      (by simpa using isDifficulty_notifyLine active)) (by simp)
  | quiet _ hphase hcode responses honly =>
    rw [hquiet hphase hcode]
    exact h.of_find? id (find?_isDifficulty_put t _ isDifficulty_of_mem_responses)
      fun _ _ _ => isDifficulty_of_quiet honly
  | quietEnds _ hphase hcode responses =>
    rw [hquiet hphase hcode]
    exact h.of_find? id (find?_isDifficulty_put t _ isDifficulty_of_mem_responses) (by simp)
  | quietCrashes _ hphase hcode responses =>
    rw [hquiet hphase hcode]
    exact h.of_find? id (find?_isDifficulty_put t _ isDifficulty_of_mem_responses) (by simp)

/-- **An event that is no operation** is not noted. -/
theorem becomes (h : t.Briefed difficulty briefing) {event : Event}
    (hevent : ∀ i world, event ≠ .perform i world)
    (hbecomes : t.Becomes difficulty pool event t') : t'.Briefed difficulty briefing := by
  cases hbecomes with
  | same => exact h
  | begins _ hbegins => exact h.begins hbegins
  | advance => exact absurd rfl (hevent _ _)
  | hangUp => exact h.of_find? id rfl (by simp)
  | unregister => exact h.of_find? id rfl (by simp)
  | writerEnds => exact ⟨fun hwriting => absurd hwriting (by simp), h.read⟩
  | announce n active =>
    refine ⟨fun hwriting => ?_, h.read⟩
    refine (find?_isDifficulty_put t _ fun line hline => ?_).trans (h.told hwriting)
    rw [List.eq_of_mem_replicate hline, isDifficulty_notifyLine]

end Thread.Briefed

/-! ### Runs -/

namespace Server

/-- The notes on all sessions. -/
def brief (s : Server) (briefings : ℕ → Briefing) : Event → ℕ → Briefing
  | .connect => Function.update briefings s.threads.length .new
  | .perform i _ =>
    match s.threads[i]? with
    | some t =>
      match t.phase with
      | .handling _ (.op effect _) =>
        Function.update briefings i ((briefings i).after s.pool effect)
      | _ => briefings
    | none => briefings
  | _ => briefings

variable (difficulty) in
/-- **At a broadcast every receiver that is authorized was briefed**: its session has sent it
the difficulty of a job that it had read, and the job that is broadcast has the same one. -/
def EachBriefed (k : Server × (ℕ → Briefing)) : Event → Prop
  | .announce => ∀ active, k.1.poller = .announcing active → ∀ i t, k.1.threads[i]? = some t →
    k.1.Subscribed i → t.writing = true → t.IsAuthorized difficulty →
      ∃ job, (k.2 i).told = some job ∧ difficulty job.job.bits = difficulty active.job.bits
  | _ => True

variable {fromStr : Str → Option Value} {s s' : Server} {briefings : ℕ → Briefing}
  {event : Event}

/-- **What is true along every run with its notes.** -/
structure Noted (difficulty : UInt32 → Value) (k : Server × (ℕ → Briefing)) : Prop where
  poised : k.1.AllPoised difficulty
  admits : ∀ (i : ℕ) (t : Thread), k.1.threads[i]? = some t → t.Admits difficulty
  briefed : ∀ (i : ℕ) (t : Thread), k.1.threads[i]? = some t → t.Briefed difficulty (k.2 i)

theorem noted_init : Noted difficulty (init, fun _ => .new) where
  poised := allPoised_init
  admits _ _ ht := absurd ht (by simp [init])
  briefed _ _ ht := absurd ht (by simp [init])

/-- **One event keeps the notes right.** -/
theorem Noted.of_step {k k' : Server × (ℕ → Briefing)} (hk : Noted difficulty k)
    (h : StepSystem.noting (step fromStr difficulty) brief k event = some k') :
    Noted difficulty k' := by
  obtain ⟨s, briefings⟩ := k
  obtain ⟨s', briefings'⟩ := k'
  obtain ⟨hstep, rfl⟩ := StepSystem.noting_eq_some.mp h
  obtain ⟨hpoised, hadmits, hbriefed⟩ := hk
  refine ⟨hpoised.of_step hstep, fun j u hu => ?_, fun j u hu => ?_⟩
  · rcases hpoised.1.thread_cases hstep hu with ⟨t, ht, hbecomes⟩ | ⟨-, -, rfl⟩
    · exact (hadmits j t ht).becomes hbecomes
    · exact .new _ _
  · by_cases hperform : ∃ i world, event = .perform i world
    · obtain ⟨i, world, rfl⟩ := hperform
      obtain ⟨t, request, effect, next, ht, hop, -⟩ := step_perform hstep
      obtain ⟨t', pool', u', ht', hadvance, rfl⟩ := hpoised.1.perform hstep
      obtain rfl := Option.some.inj (ht.symm.trans ht')
      have hbrief : brief s briefings (.perform i world) =
          Function.update briefings i ((briefings i).after s.pool effect) := by
        rw [brief, ht]
        dsimp only
        rw [hop]
      dsimp only
      rw [hbrief]
      rcases getElem?_set_cases hu with ⟨rfl, rfl⟩ | ⟨hne, hu⟩
      · rw [Function.update_self]
        exact (hbriefed j t ht).advance hop hadvance
      · rw [Function.update_of_ne hne]
        exact hbriefed j u hu
    · have hevent : ∀ i world, event ≠ .perform i world :=
        fun i world heq => hperform ⟨i, world, heq⟩
      rcases hpoised.1.thread_cases hstep hu with ⟨t, ht, hbecomes⟩ | ⟨rfl, rfl, rfl⟩
      · have hsame : brief s briefings event j = briefings j := by
          cases event with
          | connect =>
            exact Function.update_of_ne (List.getElem?_eq_some_iff.mp ht).1.ne _ _
          | perform i world => exact absurd rfl (hevent i world)
          | _ => rfl
        dsimp only
        rw [hsame]
        exact (hbriefed j t ht).becomes hevent hbecomes
      · have hnew : brief s briefings .connect s.threads.length = .new :=
          Function.update_self _ _ _
        dsimp only
        rw [hnew]
        exact ⟨fun _ => rfl, by simp [Thread.new]⟩

/-- What is on the channels agrees with the notes. -/
theorem Noted.knownDifficulty_iff {k : Server × (ℕ → Briefing)} (hk : Noted difficulty k)
    (event : Event) : k.1.KnownDifficulty difficulty event ↔ EachBriefed difficulty k event := by
  cases event with
  | announce =>
    have hthread : ∀ i t, k.1.threads[i]? = some t → t.writing = true → ∀ active : ActiveJob,
        (Authorized t.sent →
            t.sent.find? isDifficulty = some (difficultyLine difficulty active.job.bits)) ↔
          (t.IsAuthorized difficulty → ∃ job, (k.2 i).told = some job ∧
            difficulty job.job.bits = difficulty active.job.bits) := by
      intro i t ht hwriting active
      have hadmits := hk.admits i t ht
      have hauthorized : Authorized t.sent ↔ t.IsAuthorized difficulty :=
        ⟨hadmits.yes, fun h => hadmits.sent h hwriting⟩
      rw [hauthorized, (hk.briefed i t ht).told hwriting, Option.map_eq_some_iff]
      have hline : ∀ job : ActiveJob, difficultyLine difficulty job.job.bits =
          difficultyLine difficulty active.job.bits ↔
            difficulty job.job.bits = difficulty active.job.bits := by
        simp [difficultyLine, Request.notification]
      simp only [hline]
    constructor
    · intro h active hpoller i t ht hsub hwriting
      exact (hthread i t ht hwriting active).mp (h active hpoller i t ht hsub hwriting)
    · intro h active hpoller i t ht hsub hwriting
      exact (hthread i t ht hwriting active).mpr (h active hpoller i t ht hsub hwriting)
  | _ => exact Iff.rfl

/-- **When every job has its difficulty.** Along a run, every job that is put on a channel
after the authorization of its miner follows its own difficulty, precisely if at every
broadcast every authorized receiver was briefed on a job of the same difficulty. -/
theorem always_jobsHaveDifficulty_iff (fromStr : Str → Option Value)
    (difficulty : UInt32 → Value) (events : List Event) :
    StepSystem.Always (step fromStr difficulty) (JobsHaveDifficulty difficulty) init events ↔
      StepSystem.EachStep (StepSystem.noting (step fromStr difficulty) brief)
        (EachBriefed difficulty) (init, fun _ => .new) events := by
  rw [← StepSystem.always_noting_iff brief fun _ => .new]
  refine StepSystem.always_iff_eachStep (fun _ _ _ hk hstep => Noted.of_step hk hstep) ?_ events
    (noted_init : Noted difficulty _) fun _ _ ht => absurd ht (by simp [init])
  intro k event k' hk hjobs hstep
  rw [← hk.knownDifficulty_iff event]
  exact hk.poised.jobsHaveDifficulty_iff hjobs (StepSystem.noting_eq_some.mp hstep).1

end Server

end SoloMiner
