import SoloMiner.Pool.Server

/-!
# What a reader can be in the middle of

The code that a reader has in hand is what `SoloMiner.Session.dispatch` left of a line,
and there are few such things: a subscription before its reply or before its
registration, an authorization at one of its four operations, and code that touches
neither the subscribers nor the work of a miner – a share that is being checked, or a
refusal. `SoloMiner.Stage` lists them, `SoloMiner.opening_dispatch` says where a line
starts, and `SoloMiner.Stage.advance` what an operation makes of each.

The event of a reader is thereby one of eight (`SoloMiner.Advance`), each with its effect
written out, and an invariant of the process is a case analysis over these.
-/

namespace SoloMiner

open Json

/-- The operations that touch neither the subscribers nor a miner's work. -/
def Effect.IsQuiet : Effect → Prop
  | send (.request _) => False
  | subscribe _ _ => False
  | currentJob => False
  | _ => True

/-- The line says yes. -/
def IsYes (line : Incoming) : Prop := ∃ id, line = .response (.ok id (.bool true))

/-- The operation does not say yes. -/
def Effect.IsNo : Effect → Prop
  | send line => ¬ IsYes line
  | _ => True

/-- Requests that neither subscribe nor authorize, and lines that are no requests. -/
def IsOther (request : Option Request) : Prop :=
  ∀ r, request = some r → r.method ≠ method.SUBSCRIBE ∧ r.method ≠ method.AUTHORIZE

/-- The line that announces a difficulty. -/
def difficultyLine (difficulty : UInt32 → Value) (bits : UInt32) : Incoming :=
  .request (.notification method.SET_DIFFICULTY (.array [difficulty bits]))

namespace Session

variable (difficulty : UInt32 → Value) (session : Session)

/-! ### The code that is left -/

/-- A subscription after its reply. -/
def registering : PoolProg (Session × Bool) :=
  .op (.subscribe session.connectionId session.outbound) fun _ => .ret (session, true)

/-- A subscription. -/
def subscribing (request : Request) : PoolProg (Session × Bool) :=
  .op (.send (.response (.ok request.id session.subscribeResult))) fun _ => session.registering

/-- The session of an authorized miner. -/
def authorize : Session := { session with authorized := true }

/-- An authorization that is left to send the job. -/
def notifying (active : ActiveJob) : PoolProg (Session × Bool) :=
  .op (.send (Server.notifyLine active)) fun _ => .ret (session.authorize, true)

/-- An authorization that is left to send the difficulty and the job. -/
def announcing (active : ActiveJob) : PoolProg (Session × Bool) :=
  .op (.send (difficultyLine difficulty active.job.bits)) fun _ => session.notifying active

/-- An authorization after its reply. -/
def reading : PoolProg (Session × Bool) :=
  .op .currentJob fun job => match job with
    | none => .ret (session.authorize, true)
    | some active => session.announcing difficulty active

/-- An authorization. -/
def authorizing (request : Request) : PoolProg (Session × Bool) :=
  .op (.send (.response (.ok request.id (.bool true)))) fun _ => session.reading difficulty

/-! ### What is quiet -/

theorem quiet_reply (response : Response) : (reply response).Only Effect.IsQuiet :=
  ⟨trivial, fun _ => trivial⟩

theorem quiet_answerShare (id : Option UInt64) (outcome : Except ValidationError Verdict) :
    (answerShare id outcome).Only Effect.IsQuiet := by
  rcases outcome with error | ⟨_, _⟩ | ⟨_, _⟩ | ⟨_, _⟩ | ⟨_, _⟩
  · exact quiet_reply _
  · exact (quiet_reply _).bind fun _ => ⟨trivial, fun _ => trivial⟩
  · exact (quiet_reply _).bind fun _ => ⟨trivial, fun _ => trivial⟩
  · exact quiet_reply _
  · exact quiet_reply _

theorem quiet_onSubmit (request : Request) : (session.onSubmit request).Only Effect.IsQuiet := by
  rw [onSubmit]
  split_ifs
  · exact quiet_reply _
  · split
    · refine Prog.Only.bind ⟨trivial, fun _ => trivial⟩ fun job => ?_
      cases job with
      | none => exact quiet_reply _
      | some active =>
        refine Prog.Only.bind ?_ fun outcome => quiet_answerShare _ outcome
        exact (only_check _ _ _).mono fun o ho => by cases o <;> trivial
    · exact quiet_reply _
    · exact trivial

theorem isNo_failure (id : Option UInt64) (error : StratumError) :
    (Effect.send (.response (.failure id error))).IsNo := by
  rintro ⟨id', hline⟩
  simp [Response.failure, Response.ok] at hline

/-- A session that is not authorized refuses every share. -/
theorem isNo_onSubmit (h : session.authorized = false) (request : Request) :
    (session.onSubmit request).Only Effect.IsNo := by
  rw [onSubmit, h]
  exact ⟨isNo_failure _ _, fun _ => trivial⟩

end Session

/-! ### The stages -/

/-- **What a reader can be in the middle of**, with the request it is handling. -/
inductive Stage (difficulty : UInt32 → Value) (session : Session) :
    Option Request → PoolProg (Session × Bool) → Prop
  | subscribing {request : Request} (h : request.method = method.SUBSCRIBE) :
    Stage difficulty session (some request) (session.subscribing request)
  | registering {request : Request} (h : request.method = method.SUBSCRIBE) :
    Stage difficulty session (some request) session.registering
  | authorizing {request : Request} (h : request.method = method.AUTHORIZE) :
    Stage difficulty session (some request) (session.authorizing difficulty request)
  | reading {request : Request} (h : request.method = method.AUTHORIZE) :
    Stage difficulty session (some request) (session.reading difficulty)
  | announcing {request : Request} (h : request.method = method.AUTHORIZE) (active : ActiveJob) :
    Stage difficulty session (some request) (session.announcing difficulty active)
  | notifying {request : Request} (h : request.method = method.AUTHORIZE) (active : ActiveJob) :
    Stage difficulty session (some request) (session.notifying active)
  | quiet {request : Option Request} {code : PoolProg (Session × Bool)} (h : IsOther request)
    (honly : code.Only Effect.IsQuiet) (hreturns : code.Returns (· = (session, true)))
    (hno : session.authorized = false → code.Only Effect.IsNo) :
    Stage difficulty session request code

variable {fromStr : Str → Option Value} {difficulty : UInt32 → Value} {session : Session}

/-- The stages at which a line starts. -/
inductive Opening (difficulty : UInt32 → Value) (session : Session) :
    Option Request → PoolProg (Session × Bool) → Prop
  | subscribing {request : Request} (h : request.method = method.SUBSCRIBE) :
    Opening difficulty session (some request) (session.subscribing request)
  | authorizing {request : Request} (h : request.method = method.AUTHORIZE) :
    Opening difficulty session (some request) (session.authorizing difficulty request)
  | quiet {request : Option Request} {code : PoolProg (Session × Bool)} (h : IsOther request)
    (honly : code.Only Effect.IsQuiet) (hreturns : code.Returns (· = (session, true)))
    (hno : session.authorized = false → code.Only Effect.IsNo) :
    Opening difficulty session request code

theorem Opening.stage {request : Option Request} {code : PoolProg (Session × Bool)}
    (h : Opening difficulty session request code) : Stage difficulty session request code := by
  cases h with
  | subscribing h => exact .subscribing h
  | authorizing h => exact .authorizing h
  | quiet h honly hreturns hno => exact .quiet h honly hreturns hno

/-- **Where a line starts.** -/
theorem opening_dispatch (text : Str) :
    Opening difficulty session (Server.requestOf fromStr text)
      (session.dispatch fromStr difficulty text) := by
  rw [Server.requestOf, Session.dispatch]
  rcases hparse : Incoming.parse fromStr text with _ | request | response
  · exact .quiet (fun _ h => absurd h (by simp)) trivial rfl fun _ => trivial
  · dsimp only
    rw [Session.onRequest]
    split_ifs with hsubscribe hauthorize hsubmit
    · exact .subscribing hsubscribe
    · have hcode : (do let self ← session.onAuthorize difficulty request; pure (self, true)) =
          session.authorizing difficulty request := by
        refine congrArg (Prog.op _) (funext fun _ => congrArg (Prog.op _) (funext fun job => ?_))
        cases job with
        | none => rfl
        | some active => rfl
      rw [hcode]
      exact .authorizing hauthorize
    · refine .quiet (fun r hr => ?_) ?_ ?_ fun hauthorized => ?_
      · obtain rfl := Option.some.inj hr
        exact ⟨hsubscribe, hauthorize⟩
      · exact Prog.Only.bind (Prog.Only.bind (session.quiet_onSubmit request) fun _ => trivial)
          fun _ => trivial
      · refine Prog.Returns.bind (Q := (· = session)) ?_ fun _ h => congrArg (·, true) h
        exact Prog.Returns.bind (Prog.returns_true _) fun _ _ => rfl
      · exact Prog.Only.bind (Prog.Only.bind (session.isNo_onSubmit hauthorized request)
          fun _ => trivial) fun _ => trivial
    · refine .quiet (fun r hr => ?_) ⟨trivial, fun _ => trivial⟩ (fun _ => rfl)
        fun _ => ⟨Session.isNo_failure _ _, fun _ => trivial⟩
      obtain rfl := Option.some.inj hr
      exact ⟨hsubscribe, hauthorize⟩
  · exact .quiet (fun _ h => absurd h (by simp)) trivial rfl fun _ => trivial

/-! ### One operation -/

/-- **What one operation makes of a reader** and of the shared state. -/
inductive Advance (difficulty : UInt32 → Value) (pool : PoolState) (t : Thread) :
    PoolState → Thread → Prop
  | replySubscribe {request : Request} (h : request.method = method.SUBSCRIBE)
    (hphase : t.phase = .handling (some request) (t.session.subscribing request)) :
    Advance difficulty pool t pool
      { t with
        sent := t.put [.response (.ok request.id t.session.subscribeResult)]
        phase := .handling (some request) t.session.registering }
  | register {request : Request} (h : request.method = method.SUBSCRIBE)
    (hphase : t.phase = .handling (some request) t.session.registering) :
    Advance difficulty pool t (pool.subscribe t.session.connectionId t.session.outbound)
      { t with phase := .waiting, handled := request :: t.handled }
  | replyAuthorize {request : Request} (h : request.method = method.AUTHORIZE)
    (hphase : t.phase = .handling (some request) (t.session.authorizing difficulty request)) :
    Advance difficulty pool t pool
      { t with
        sent := t.put [.response (.ok request.id (.bool true))]
        phase := .handling (some request) (t.session.reading difficulty) }
  | readNone {request : Request} (h : request.method = method.AUTHORIZE)
    (hphase : t.phase = .handling (some request) (t.session.reading difficulty))
    (hjob : pool.currentJob = none) :
    Advance difficulty pool t pool
      { t with
        session := t.session.authorize, phase := .waiting, handled := request :: t.handled }
  | readSome {request : Request} (h : request.method = method.AUTHORIZE)
    (hphase : t.phase = .handling (some request) (t.session.reading difficulty))
    {active : ActiveJob} (hjob : pool.currentJob = some active) :
    Advance difficulty pool t pool
      { t with phase := .handling (some request) (t.session.announcing difficulty active) }
  | sendDifficulty {request : Request} (h : request.method = method.AUTHORIZE)
    {active : ActiveJob}
    (hphase : t.phase = .handling (some request) (t.session.announcing difficulty active)) :
    Advance difficulty pool t pool
      { t with
        sent := t.put [difficultyLine difficulty active.job.bits]
        phase := .handling (some request) (t.session.notifying active) }
  | sendNotify {request : Request} (h : request.method = method.AUTHORIZE) {active : ActiveJob}
    (hphase : t.phase = .handling (some request) (t.session.notifying active)) :
    Advance difficulty pool t pool
      { t with
        sent := t.put [Server.notifyLine active]
        session := t.session.authorize, phase := .waiting, handled := request :: t.handled }
  | quiet {request : Option Request} (h : IsOther request) {code : PoolProg (Session × Bool)}
    (hphase : t.phase = .handling request code) (hcode : code.Only Effect.IsQuiet)
    (responses : List Response) {left : PoolProg (Session × Bool)}
    (honly : left.Only Effect.IsQuiet) (hreturns : left.Returns (· = (t.session, true)))
    (hno : t.session.authorized = false → (∀ response ∈ responses, ¬ IsYes (.response response)) ∧
      left.Only Effect.IsNo) :
    Advance difficulty pool t pool
      { t with
        sent := t.put (responses.map .response), phase := .handling request left }
  | quietEnds {request : Option Request} (h : IsOther request) {code : PoolProg (Session × Bool)}
    (hphase : t.phase = .handling request code) (hcode : code.Only Effect.IsQuiet)
    (responses : List Response)
    (hno : t.session.authorized = false → ∀ response ∈ responses, ¬ IsYes (.response response)) :
    Advance difficulty pool t pool
      { t with
        sent := t.put (responses.map .response), phase := .waiting
        handled := request.toList ++ t.handled }
  | quietCrashes {request : Option Request} (h : IsOther request)
    {code : PoolProg (Session × Bool)} (hphase : t.phase = .handling request code)
    (hcode : code.Only Effect.IsQuiet) (responses : List Response)
    (hno : t.session.authorized = false → ∀ response ∈ responses, ¬ IsYes (.response response)) :
    Advance difficulty pool t pool
      { t with sent := t.put (responses.map .response), phase := .crashed }

namespace Server

/-- A quiet operation leaves the shared state alone. -/
theorem affect_of_isQuiet {effect : Effect} (h : effect.IsQuiet) (pool : PoolState) :
    affect pool effect = pool := by
  cases effect <;> first | rfl | exact absurd h id

/-- A quiet operation puts nothing but responses on the channel, and no yes unless it says
so. -/
theorem linesOf_of_isQuiet {effect : Effect} (h : effect.IsQuiet) :
    ∃ responses : List Response, linesOf effect = responses.map .response ∧
      (effect.IsNo → ∀ response ∈ responses, ¬ IsYes (.response response)) := by
  have hnone : linesOf effect = [] → ∃ responses : List Response,
      linesOf effect = responses.map .response ∧
        (effect.IsNo → ∀ response ∈ responses, ¬ IsYes (.response response)) :=
    fun hlines => ⟨[], hlines, fun _ _ hmem => absurd hmem List.not_mem_nil⟩
  cases effect with
  | send line =>
    cases line with
    | request request => exact absurd h id
    | response response =>
      refine ⟨[response], rfl, fun hno response' hmem => ?_⟩
      obtain rfl := List.mem_singleton.mp hmem
      exact hno
  | unixNow => exact hnone rfl
  | sleep => exact hnone rfl
  | submitBlock => exact hnone rfl
  | subscribe => exact hnone rfl
  | currentJob => exact hnone rfl
  | jobById => exact hnone rfl
  | requestRefresh => exact hnone rfl

end Server

/-- The stages, by their next operation. -/
theorem Stage.advance {t : Thread} {request : Option Request} {effect : Effect}
    {next : effect.Answer → PoolProg (Session × Bool)}
    (hphase : t.phase = .handling request (.op effect next))
    (h : Stage difficulty t.session request (.op effect next)) (pool : PoolState)
    (world : World) :
    Advance difficulty pool t (Server.affect pool effect)
      ((t.receive (Server.linesOf effect)).resume request
        (next (Server.answer pool world effect))) := by
  generalize hcode : Prog.op effect next = code at h hphase
  cases h with
  | subscribing h =>
    obtain ⟨rfl, rfl⟩ := Prog.op.inj hcode
    exact .replySubscribe h hphase
  | registering h =>
    obtain ⟨rfl, rfl⟩ := Prog.op.inj hcode
    change Advance difficulty pool t _ ((t.receive []).resume _ _)
    rw [Thread.receive_nil]
    exact .register h hphase
  | authorizing h =>
    obtain ⟨rfl, rfl⟩ := Prog.op.inj hcode
    exact .replyAuthorize h hphase
  | reading h =>
    obtain ⟨rfl, rfl⟩ := Prog.op.inj hcode
    have hlines : Server.linesOf .currentJob = [] := rfl
    have hanswer : Server.answer pool world .currentJob = pool.currentJob := rfl
    rw [hlines, Thread.receive_nil, hanswer]
    rcases hjob : pool.currentJob with _ | active
    · exact .readNone h hphase hjob
    · exact .readSome h hphase hjob
  | announcing h active =>
    obtain ⟨rfl, rfl⟩ := Prog.op.inj hcode
    exact .sendDifficulty h hphase
  | notifying h active =>
    obtain ⟨rfl, rfl⟩ := Prog.op.inj hcode
    exact .sendNotify h hphase
  | quiet h honly hreturns hno =>
    subst hcode
    obtain ⟨responses, hlines, hyes⟩ := Server.linesOf_of_isQuiet honly.1
    rw [Server.affect_of_isQuiet honly.1, hlines]
    have honly' := honly.2 (Server.answer pool world effect)
    have hreturns' : (next (Server.answer pool world effect)).Returns (· = (t.session, true)) :=
      hreturns (Server.answer pool world effect)
    have hno' := fun hauthorized => (hno hauthorized).2 (Server.answer pool world effect)
    have hsaid := fun hauthorized => hyes (hno hauthorized).1
    generalize next (Server.answer pool world effect) = left at honly' hreturns' hno'
    cases left with
    | ret result =>
      obtain rfl : result = (t.session, true) := hreturns'
      exact .quietEnds h hphase honly responses hsaid
    | panic => exact .quietCrashes h hphase honly responses hsaid
    | op effect' next' =>
      exact .quiet h hphase honly responses honly' hreturns' fun hauthorized =>
        ⟨hsaid hauthorized, hno' hauthorized⟩

/-- What a line makes of the reader that takes it. -/
inductive Begins (difficulty : UInt32 → Value) (t : Thread) : Thread → Prop
  | handling {request : Option Request} {code : PoolProg (Session × Bool)}
    (h : Opening difficulty t.session request code) :
    Begins difficulty t { t with phase := .handling request code }
  | ends {request : Option Request} (h : IsOther request) :
    Begins difficulty t { t with phase := .waiting, handled := request.toList ++ t.handled }
  | crashes : Begins difficulty t { t with phase := .crashed }

theorem Opening.begins {t : Thread} {request : Option Request}
    {code : PoolProg (Session × Bool)} (h : Opening difficulty t.session request code) :
    Begins difficulty t (t.resume request code) := by
  cases code with
  | ret result =>
    generalize hcode : Prog.ret result = code at h
    cases h with
    | quiet h _ hreturns =>
      subst hcode
      obtain rfl : result = (t.session, true) := hreturns
      exact .ends h
    | subscribing => exact absurd hcode (by simp [Session.subscribing])
    | authorizing => exact absurd hcode (by simp [Session.authorizing])
  | panic => exact .crashes
  | op effect next => exact .handling h

/-! ### The readers of a run -/

/-- **What an event makes of a connection** that is there before it. -/
inductive Thread.Becomes (difficulty : UInt32 → Value) (pool : PoolState) (t : Thread) :
    Event → Thread → Prop where
  /-- Every event but a broadcast leaves the other connections alone. -/
  | same {event : Event} (hevent : event ≠ .announce) : t.Becomes difficulty pool event t
  | begins {i : ℕ} {text : Str} {t' : Thread} (hphase : t.phase = .waiting)
    (hbegins : Begins difficulty t t') : t.Becomes difficulty pool (.line i text) t'
  | advance {i : ℕ} {world : World} {pool' : PoolState} {t' : Thread}
    (hadvance : Advance difficulty pool t pool' t') :
    t.Becomes difficulty pool (.perform i world) t'
  | hangUp {i : ℕ} (hphase : t.phase = .waiting) :
    t.Becomes difficulty pool (.hangUp i) { t with phase := .closing }
  | unregister {i : ℕ} (hphase : t.phase = .closing) :
    t.Becomes difficulty pool (.unregister i) { t with phase := .returned }
  | writerEnds {i : ℕ} : t.Becomes difficulty pool (.writerEnds i) { t with writing := false }
  | announce (n : ℕ) (active : ActiveJob) :
    t.Becomes difficulty pool .announce
      (t.receive (List.replicate n (Server.notifyLine active)))

/-- **What is true of a reader throughout**: its session is that of its channel and of its
connection id, and what it is in the middle of is a stage of that session. -/
structure Thread.Wired (difficulty : UInt32 → Value) (i : ℕ) (t : Thread) : Prop where
  outbound : t.session.outbound = i
  extranonce1 : t.session.extranonce1 = (Session.new t.session.connectionId i).extranonce1
  stage : ∀ request code, t.phase = .handling request code →
    Stage difficulty t.session request code

namespace Thread.Wired

variable {t t' : Thread} {i : ℕ}

theorem receive (h : t.Wired difficulty i) (lines : List Incoming) :
    (t.receive lines).Wired difficulty i :=
  ⟨h.outbound, h.extranonce1, h.stage⟩

theorem of_phase (h : t.Wired difficulty i) {phase : Phase} {writing : Bool}
    {handled : List Request} (hphase : ∀ request code, phase ≠ .handling request code) :
    ({ t with phase := phase, writing := writing, handled := handled } : Thread).Wired
      difficulty i :=
  ⟨h.outbound, h.extranonce1, fun request code hcode => absurd hcode (hphase request code)⟩

theorem begins (h : t.Wired difficulty i) (hbegins : Begins difficulty t t') :
    t'.Wired difficulty i := by
  cases hbegins with
  | handling hstage =>
    refine ⟨h.outbound, h.extranonce1, fun request code hcode => ?_⟩
    obtain ⟨rfl, rfl⟩ := Phase.handling.inj hcode
    exact hstage.stage
  | ends => exact h.of_phase (by simp)
  | crashes => exact h.of_phase (by simp)

theorem advance (h : t.Wired difficulty i) {pool pool' : PoolState}
    (hadvance : Advance difficulty pool t pool' t') : t'.Wired difficulty i := by
  have hstage : ∀ {request code}, Stage difficulty t.session request code → ∀ request' code',
      Phase.handling request code = .handling request' code' →
        Stage difficulty t.session request' code' := by
    rintro _ _ hstage _ _ heq
    obtain ⟨rfl, rfl⟩ := Phase.handling.inj heq
    exact hstage
  cases hadvance with
  | replySubscribe hmethod => exact ⟨h.outbound, h.extranonce1, hstage (.registering hmethod)⟩
  | register => exact h.of_phase (by simp)
  | replyAuthorize hmethod => exact ⟨h.outbound, h.extranonce1, hstage (.reading hmethod)⟩
  | readNone => exact ⟨h.outbound, h.extranonce1, fun _ _ hcode => absurd hcode (by simp)⟩
  | readSome hmethod =>
    exact ⟨h.outbound, h.extranonce1, hstage (.announcing hmethod _)⟩
  | sendDifficulty hmethod =>
    exact ⟨h.outbound, h.extranonce1, hstage (.notifying hmethod _)⟩
  | sendNotify => exact ⟨h.outbound, h.extranonce1, fun _ _ hcode => absurd hcode (by simp)⟩
  | quiet hother _ _ responses honly hreturns hno =>
    exact ⟨h.outbound, h.extranonce1, hstage (.quiet hother honly hreturns fun hauthorized =>
      (hno hauthorized).2)⟩
  | quietEnds => exact ⟨h.outbound, h.extranonce1, fun _ _ hcode => absurd hcode (by simp)⟩
  | quietCrashes => exact ⟨h.outbound, h.extranonce1, fun _ _ hcode => absurd hcode (by simp)⟩

/-- **An event keeps a reader wired.** -/
theorem becomes (h : t.Wired difficulty i) {pool : PoolState} {event : Event}
    (hbecomes : t.Becomes difficulty pool event t') : t'.Wired difficulty i := by
  cases hbecomes with
  | same => exact h
  | begins _ hbegins => exact h.begins hbegins
  | advance hadvance => exact h.advance hadvance
  | hangUp => exact h.of_phase (by simp)
  | unregister => exact h.of_phase (by simp)
  | writerEnds => exact ⟨h.outbound, h.extranonce1, h.stage⟩
  | announce => exact h.receive _

end Thread.Wired

namespace Server

variable {s s' : Server} {i : ℕ}

/-- Every reader is wired. -/
def Wired (difficulty : UInt32 → Value) (s : Server) : Prop :=
  ∀ (i : ℕ) (t : Thread), s.threads[i]? = some t → t.Wired difficulty i

theorem wired_init : Wired difficulty init := fun i t h => absurd h (by simp [init])

/-- **An operation of a reader**, in a process whose readers are wired. -/
theorem Wired.perform (hs : s.Wired difficulty) {world : World}
    (h : step fromStr difficulty s (.perform i world) = some s') :
    ∃ t pool' t', s.threads[i]? = some t ∧ Advance difficulty s.pool t pool' t' ∧
      s' = { s.setThread i t' with pool := pool' } := by
  obtain ⟨t, request, effect, next, ht, hphase, rfl⟩ := step_perform h
  exact ⟨t, _, _, ht, Stage.advance hphase ((hs i t ht).stage _ _ hphase) s.pool world, rfl⟩

/-- **A line at a reader.** -/
theorem begins_of_step_line {text : Str}
    (h : step fromStr difficulty s (.line i text) = some s') :
    ∃ t, s.threads[i]? = some t ∧ t.phase = .waiting ∧
      (s' = s ∨ ∃ t', Begins difficulty t t' ∧ s' = s.setThread i t') := by
  obtain ⟨t, ht, hphase, ⟨-, rfl⟩ | ⟨-, rfl⟩⟩ := step_line h
  · exact ⟨t, ht, hphase, Or.inl rfl⟩
  · exact ⟨t, ht, hphase, Or.inr ⟨_, (opening_dispatch text).begins, rfl⟩⟩

/-- **One event, as seen by one connection**: it was there before the event, and is what
the event made of it, or the event set it up. -/
theorem Wired.thread_cases (hs : s.Wired difficulty) {event : Event}
    (h : step fromStr difficulty s event = some s') {j : ℕ} {u : Thread}
    (hu : s'.threads[j]? = some u) :
    (∃ t, s.threads[j]? = some t ∧ t.Becomes difficulty s.pool event u) ∨
      (event = .connect ∧ j = s.threads.length ∧ u = .new s.pool.nextConnectionId j) := by
  have hset : ∀ {i : ℕ} {t t' : Thread}, s.threads[i]? = some t →
      t.Becomes difficulty s.pool event t' → event ≠ .announce →
        (s.setThread i t').threads[j]? = some u →
          ∃ t, s.threads[j]? = some t ∧ t.Becomes difficulty s.pool event u := by
    intro i t t' ht hbecomes hevent hu
    rcases getElem?_set_cases hu with ⟨rfl, rfl⟩ | ⟨-, hu⟩
    · exact ⟨t, ht, hbecomes⟩
    · exact ⟨u, hu, .same hevent⟩
  cases event with
  | connect =>
    obtain rfl := step_connect h
    rcases getElem?_concat_cases hu with hu | ⟨rfl, rfl⟩
    · exact Or.inl ⟨u, hu, .same (by simp)⟩
    · exact Or.inr ⟨rfl, rfl, rfl⟩
  | refuse =>
    obtain rfl := step_refuse h
    exact Or.inl ⟨u, hu, .same (by simp)⟩
  | line i text =>
    obtain ⟨t, ht, hphase, rfl | ⟨t', hbegins, rfl⟩⟩ := begins_of_step_line h
    · exact Or.inl ⟨u, hu, .same (by simp)⟩
    · exact Or.inl (hset ht (.begins hphase hbegins) (by simp) hu)
  | perform i world =>
    obtain ⟨t, pool', t', ht, hadvance, rfl⟩ := hs.perform h
    exact Or.inl (hset ht (.advance hadvance) (by simp) hu)
  | hangUp i =>
    obtain ⟨t, ht, hphase, rfl⟩ := step_hangUp h
    exact Or.inl (hset ht (.hangUp hphase) (by simp) hu)
  | unregister i =>
    obtain ⟨t, ht, hphase, rfl⟩ := step_unregister h
    exact Or.inl (hset ht (.unregister hphase) (by simp) hu)
  | writerEnds i =>
    obtain ⟨t, ht, rfl⟩ := step_writerEnds h
    exact Or.inl (hset ht .writerEnds (by simp) hu)
  | startJob =>
    obtain ⟨-, rfl⟩ := step_startJob h
    exact Or.inl ⟨u, hu, .same (by simp)⟩
  | abandon =>
    obtain ⟨_, -, rfl⟩ := step_abandon h
    exact Or.inl ⟨u, hu, .same (by simp)⟩
  | install active =>
    obtain ⟨-, rfl⟩ := step_install h
    exact Or.inl ⟨u, hu, .same (by simp)⟩
  | announce =>
    obtain ⟨active, -, rfl⟩ := step_announce h
    rw [List.getElem?_mapIdx] at hu
    obtain ⟨t, ht, rfl⟩ := Option.map_eq_some_iff.mp hu
    exact Or.inl ⟨t, ht, .announce _ active⟩

/-- **The readers stay wired.** -/
theorem Wired.of_step (hs : s.Wired difficulty) {event : Event}
    (h : step fromStr difficulty s event = some s') : s'.Wired difficulty := by
  intro j u hu
  rcases hs.thread_cases h hu with ⟨t, ht, hbecomes⟩ | ⟨-, -, rfl⟩
  · exact (hs j t ht).becomes hbecomes
  · exact ⟨rfl, rfl, fun _ _ hcode => absurd hcode (by simp [Thread.new])⟩

end Server

/-! ### One connection through an event -/

/-- The thread `u` is what `t` has become: it serves the same connection, and it runs only
if that did. -/
structure Thread.Continues (t u : Thread) : Prop where
  connectionId : u.session.connectionId = t.session.connectionId
  alive : u.Alive → t.Alive

theorem Thread.Continues.refl (t : Thread) : t.Continues t := ⟨rfl, id⟩

theorem Thread.alive_of_handling {t : Thread} {request : Option Request}
    {code : PoolProg (Session × Bool)} (h : t.phase = .handling request code) : t.Alive := by
  rw [Thread.Alive, h]
  exact ⟨by simp, by simp⟩

theorem Thread.alive_of_waiting {t : Thread} (h : t.phase = .waiting) : t.Alive := by
  rw [Thread.Alive, h]
  exact ⟨by simp, by simp⟩

theorem Thread.alive_of_closing {t : Thread} (h : t.phase = .closing) : t.Alive := by
  rw [Thread.Alive, h]
  exact ⟨by simp, by simp⟩

theorem Begins.connectionId {t t' : Thread} (h : Begins difficulty t t') :
    t'.session.connectionId = t.session.connectionId := by
  cases h <;> rfl

theorem Advance.connectionId {pool pool' : PoolState} {t t' : Thread}
    (h : Advance difficulty pool t pool' t') :
    t'.session.connectionId = t.session.connectionId := by
  cases h <;> rfl

/-- The subscribers change by a registration alone. -/
theorem Advance.subscribers {pool pool' : PoolState} {t t' : Thread}
    (h : Advance difficulty pool t pool' t') :
    pool' = pool ∨ (pool' = pool.subscribe t.session.connectionId t.session.outbound ∧
      ∃ request, t.phase = .handling (some request) t.session.registering) := by
  cases h with
  | register _ hphase => exact Or.inr ⟨rfl, _, hphase⟩
  | _ => exact Or.inl rfl

theorem Advance.alive {pool pool' : PoolState} {t t' : Thread}
    (h : Advance difficulty pool t pool' t') : t.Alive := by
  cases h with
  | replySubscribe _ hphase => exact Thread.alive_of_handling hphase
  | register _ hphase => exact Thread.alive_of_handling hphase
  | replyAuthorize _ hphase => exact Thread.alive_of_handling hphase
  | readNone _ hphase => exact Thread.alive_of_handling hphase
  | readSome _ hphase => exact Thread.alive_of_handling hphase
  | sendDifficulty _ hphase => exact Thread.alive_of_handling hphase
  | sendNotify _ hphase => exact Thread.alive_of_handling hphase
  | quiet _ hphase => exact Thread.alive_of_handling hphase
  | quietEnds _ hphase => exact Thread.alive_of_handling hphase
  | quietCrashes _ hphase => exact Thread.alive_of_handling hphase

/-- What an event makes of a connection goes on where the connection was. -/
theorem Thread.Becomes.continues {pool : PoolState} {event : Event} {t u : Thread}
    (h : t.Becomes difficulty pool event u) : t.Continues u := by
  cases h with
  | same => exact .refl t
  | begins hphase hbegins =>
    exact ⟨hbegins.connectionId, fun _ => Thread.alive_of_waiting hphase⟩
  | advance hadvance => exact ⟨hadvance.connectionId, fun _ => hadvance.alive⟩
  | hangUp hphase => exact ⟨rfl, fun _ => Thread.alive_of_waiting hphase⟩
  | unregister hphase => exact ⟨rfl, fun _ => Thread.alive_of_closing hphase⟩
  | writerEnds => exact ⟨rfl, id⟩
  | announce => exact ⟨rfl, id⟩

namespace Server

variable {s s' : Server}

/-- **Where a connection comes from**: it was there before the event, or the event set it
up. -/
theorem Wired.step_thread (hs : s.Wired difficulty) {event : Event}
    (h : step fromStr difficulty s event = some s') {j : ℕ} {u : Thread}
    (hu : s'.threads[j]? = some u) :
    (∃ t, s.threads[j]? = some t ∧ t.Continues u) ∨
      (event = .connect ∧ j = s.threads.length ∧ u = .new s.pool.nextConnectionId j) :=
  (hs.thread_cases h hu).imp_left fun ⟨t, ht, hbecomes⟩ => ⟨t, ht, hbecomes.continues⟩

end Server

/-! ### The lines of a handshake -/

/-- A request without parameters, as a line. -/
def bareText (method : Str) : Str :=
  "\x7b\"id\":1,\"method\":\"".toList ++ method ++ "\",\"params\":[]\x7d".toList

/-- The value of such a line. -/
def bareValue (method : Str) : Value :=
  .object [("id".toList, .number (.posInt 1)), ("method".toList, .string method),
    ("params".toList, .array [])]

/-- The reading of the two lines of a handshake. -/
def readHandshake (s : Str) : Option Value :=
  if s = bareText method.SUBSCRIBE then some (bareValue method.SUBSCRIBE)
  else if s = bareText method.AUTHORIZE then some (bareValue method.AUTHORIZE)
  else none

/-- The events of a request of the first connection: its line, and so many operations. -/
def request (method : Str) (operations : ℕ) : List Event :=
  .line 0 (bareText method) :: List.replicate operations (.perform 0 ⟨0, .ok none⟩)

/-- A job without transactions. -/
def plainJob (jobId : Str) : ActiveJob where
  job := ⟨jobId, .ZERO, [], [], [], 0x20000000, 0x1D00FFFF, 1700000000, true⟩
  height := 1
  coinbaseValue := 5000000000
  payoutScript := []
  witnessCommitment := []
  transactions := []
  txids := []
  networkTarget := ⟨zeroArr 32⟩
  submitNotBefore := none

end SoloMiner
