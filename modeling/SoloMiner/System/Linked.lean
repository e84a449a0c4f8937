import SoloMiner.Pool.Told
import SoloMiner.System.Link
import SoloMiner.System.Served

/-!
# A miner and its session

What a miner is told and what the session that serves it knows belong together, with the
lines in between: what has arrived of the miner's requests, and what has arrived at the
miner of the session's answers. `SoloMiner.System.Linked` says how, and that it stays so
whatever one of the two does next, or the rest of the pool: the miner has asked what its
phase says, with the session's half of the extranonce; the session has answered what has
arrived, and what is left of its code will answer the rest.
-/

namespace SoloMiner

open Json

/-! ### The requests of a miner -/

namespace Client

/-- **What a miner has asked**, as far as it has come. -/
def Asked (worker : Str) (self : Client) : Prop :=
  match self.phase with
  | .subscribing => self.handshake = [subscribeRequest] ∧ self.miner.outbound = []
  | .authorizing _ _ =>
    self.handshake = [authorizeRequest worker, subscribeRequest] ∧ self.miner.outbound = []
  | .mining _ _ => self.handshake = [authorizeRequest worker, subscribeRequest]
  | .ended => (self.handshake = [subscribeRequest] ∧ self.miner.outbound = []) ∨
    self.handshake = [authorizeRequest worker, subscribeRequest]

variable {worker : Str} {self : Client}

/-- Either the subscription alone, or both requests of the handshake and then shares. -/
theorem Asked.cases (h : self.Asked worker) : self.said.reverse = [subscribeRequest] ∨
    self.said.reverse = subscribeRequest :: authorizeRequest worker ::
      (self.miner.outbound.map submitRequest).reverse := by
  have hone : self.handshake = [subscribeRequest] → self.miner.outbound = [] →
      self.said.reverse = [subscribeRequest] := fun hhandshake houtbound => by
    rw [said, hhandshake, houtbound]
    rfl
  have htwo : self.handshake = [authorizeRequest worker, subscribeRequest] →
      self.said.reverse = subscribeRequest :: authorizeRequest worker ::
        (self.miner.outbound.map submitRequest).reverse := fun hhandshake => by
    rw [said, hhandshake, List.reverse_append]
    rfl
  rw [Asked] at h
  split at h
  · exact Or.inl (hone h.1 h.2)
  · exact Or.inr (htwo h.1)
  · exact Or.inr (htwo h)
  · rcases h with h | h
    · exact Or.inl (hone h.1 h.2)
    · exact Or.inr (htwo h)

theorem Asked.ended (h : self.Asked worker) : Asked worker { self with phase := .ended } := by
  rw [Asked] at h ⊢
  split at h
  · exact Or.inl h
  · exact Or.inr h.1
  · exact Or.inr h
  · exact h

/-- **The requests come in order.** -/
theorem Asked.ownRequest (h : self.Asked worker)
    (hwidth : ∀ entry ∈ self.miner.outbound, entry.2.extranonce2.length = 4) {k : ℕ}
    {request : Request} (hk : self.said.reverse[k]? = some request) :
    Session.OwnRequest worker k request := by
  rcases h.cases with hsaid | hsaid
  · rw [hsaid, List.getElem?_singleton] at hk
    split_ifs at hk with hzero
    exact Or.inl ⟨hzero, (Option.some.inj hk).symm⟩
  · rw [hsaid] at hk
    match k with
    | 0 => exact Or.inl ⟨rfl, (Option.some.inj hk).symm⟩
    | 1 => exact Or.inr (Or.inl ⟨rfl, (Option.some.inj hk).symm⟩)
    | k + 2 =>
      have hmem : request ∈ self.miner.outbound.map submitRequest :=
        List.mem_reverse.mp (List.mem_of_getElem? hk)
      obtain ⟨entry, hentry, rfl⟩ := List.mem_map.mp hmem
      exact Or.inr (Or.inr ⟨by omega, entry, rfl, hwidth entry hentry⟩)

end Client

/-! ### The session of a miner -/

/-- **The session serves a miner** of which so many requests have arrived: what is left of
its code answers as it should, the miner is authorized in time, and nothing panics. -/
def Thread.Serves (difficulty : UInt32 → Value) (n : ℕ) (t : Thread) : Prop :=
  match t.phase with
  | .waiting => 2 ≤ n → t.session.authorized = true
  | .handling _ code => code.Ensures (Server.Finds ActiveJob.Coherent)
      (Effect.Says (OwnLine difficulty t.session.subscribeResult n))
      fun result => result.2 = true ∧ t.session.Known n result.1
  | .closing | .returned => True
  | .crashed => False

/-- Such a session has not panicked. -/
theorem Thread.Serves.running {difficulty : UInt32 → Value} {n : ℕ} {t : Thread}
    (h : t.Serves difficulty n) : t.phase ≠ .crashed := by
  intro hcrashed
  rw [Serves, hcrashed] at h
  exact h

/-- The session has the same connection. -/
def Thread.SameConnection (t u : Thread) : Prop :=
  u.session.connectionId = t.session.connectionId ∧ u.session.extranonce1 = t.session.extranonce1

theorem Thread.SameConnection.refl (t : Thread) : t.SameConnection t := ⟨rfl, rfl⟩

theorem Thread.SameConnection.subscribeResult {t u : Thread} (h : t.SameConnection u) :
    u.session.subscribeResult = t.session.subscribeResult := by
  rw [Session.subscribeResult, Session.subscribeResult, h.1, h.2]

/-- A reader goes on as its code ensures. -/
theorem Thread.Serves.resume {difficulty : UInt32 → Value} {n : ℕ} (t : Thread)
    (request : Option Request) {code : PoolProg (Session × Bool)}
    (h : code.Ensures (Server.Finds ActiveJob.Coherent)
      (Effect.Says (OwnLine difficulty t.session.subscribeResult n))
      fun result => result.2 = true ∧ t.session.Known n result.1) :
    (t.resume request code).Serves difficulty n ∧ t.SameConnection (t.resume request code) ∧
      (t.resume request code).sent = t.sent := by
  rcases code with ⟨session, _ | _⟩ | _ | ⟨effect, next⟩
  · exact absurd h.1 (by simp)
  · obtain ⟨-, hid, hextranonce1, hauth⟩ := h
    exact ⟨hauth, ⟨hid, hextranonce1⟩, rfl⟩
  · exact absurd h id
  · exact ⟨h, .refl t, rfl⟩

/-- **One operation** of the session of a miner. -/
theorem Thread.Serves.perform {difficulty : UInt32 → Value} {n : ℕ} {t : Thread}
    {request : Option Request} {effect : Effect}
    {next : effect.Answer → PoolProg (Session × Bool)} (h : t.Serves difficulty n)
    (hphase : t.phase = .handling request (.op effect next)) {pool : PoolState}
    (hpool : ∀ active ∈ pool.jobs, active.Coherent) (world : World) :
    ((t.receive (Server.linesOf effect)).resume request
        (next (Server.answer pool world effect))).Serves difficulty n ∧
      t.SameConnection ((t.receive (Server.linesOf effect)).resume request
        (next (Server.answer pool world effect))) ∧
      ∀ line ∈ ((t.receive (Server.linesOf effect)).resume request
          (next (Server.answer pool world effect))).sent,
        line ∈ t.sent ∨ OwnLine difficulty t.session.subscribeResult n line := by
  rw [Serves, hphase] at h
  have hnext := h.2 _ (Server.finds_answer hpool world effect)
  obtain ⟨hserves, hsame, hsent⟩ :=
    Thread.Serves.resume (t.receive (Server.linesOf effect)) request hnext
  refine ⟨hserves, hsame, fun line hline => ?_⟩
  rw [hsent] at hline
  rcases Thread.Tells.mem_put hline with hnew | hold
  · refine Or.inr ?_
    cases effect with
    | send line' =>
      obtain rfl := List.mem_singleton.mp hnew
      exact h.1 _ rfl
    | _ => exact absurd hnew List.not_mem_nil
  · exact Or.inl hold

/-! ### One miner and its session -/

/-- The job is one of those. -/
def JobOf (installed : List ActiveJob) (job : Job) : Prop := ∃ active ∈ installed, active.job = job

namespace System

/-- **What a run keeps** of a miner and the session it is connected to. -/
structure Linked (difficulty : UInt32 → Value) (worker : Str) (stopped : Prop)
    (installed : List ActiveJob) (link : Link) (t : Thread) : Prop where
  asked : link.client.Asked worker
  /-- Its work and its shares are for installed jobs, with the session's extranonce. -/
  sound : Miner.Sound (JobOf installed) t.session.extranonce1.toList EXTRANONCE2_SIZE worker
    link.client.miner
  subscribed : ∀ extranonce1 extranonce2Size,
    (link.client.phase = .authorizing extranonce1 extranonce2Size ∨
      link.client.phase = .mining extranonce1 extranonce2Size) →
        extranonce1 = t.session.extranonce1.toList ∧ extranonce2Size = EXTRANONCE2_SIZE
  delivered : link.delivered ≤ link.client.said.length
  serves : t.Serves difficulty link.delivered
  lines : ∀ line ∈ t.sent, OwnLine difficulty t.session.subscribeResult link.delivered line
  ended : link.client.phase = .ended → stopped

variable {difficulty : UInt32 → Value} {worker : Str} {stopped : Prop}
  {installed installed' : List ActiveJob} {link : Link} {t u : Thread}

theorem JobOf.mono (h : ∀ active ∈ installed, active ∈ installed') (job : Job)
    (hjob : JobOf installed job) : JobOf installed' job := by
  obtain ⟨active, hactive, hjob⟩ := hjob
  exact ⟨active, h active hactive, hjob⟩

/-- The pool goes on. -/
theorem Linked.of_thread (h : Linked difficulty worker stopped installed link t)
    (hmono : ∀ active ∈ installed, active ∈ installed') (hsame : t.SameConnection u)
    (hserves : u.Serves difficulty link.delivered)
    (hlines : ∀ line ∈ u.sent, line ∈ t.sent ∨
      OwnLine difficulty t.session.subscribeResult link.delivered line) :
    Linked difficulty worker stopped installed' link u where
  asked := h.asked
  sound := by
    rw [hsame.2]
    exact h.sound.mono (JobOf.mono hmono)
  subscribed := by
    rw [hsame.2]
    exact h.subscribed
  delivered := h.delivered
  serves := hserves
  lines line hline := by
    rw [hsame.subscribeResult]
    rcases hlines line hline with hold | hnew
    · exact h.lines line hold
    · exact hnew
  ended := h.ended

/-- Its requests come in order. -/
theorem Linked.ownRequest (h : Linked difficulty worker stopped installed link t) {k : ℕ}
    {request : Request} (hrequest : link.client.said.reverse[k]? = some request) :
    Session.OwnRequest worker k request := by
  refine h.asked.ownRequest (fun entry hentry => ?_) hrequest
  obtain ⟨-, job, -, hsolves⟩ := h.sound.outbound entry hentry
  exact hsolves.width

/-- A miner announces no difficulties. -/
theorem not_isDifficulty {k : ℕ} {request : Request} (h : Session.OwnRequest worker k request) :
    ¬ isDifficulty (.request request) = true := by
  obtain ⟨-, rfl⟩ | ⟨-, rfl⟩ | ⟨-, entry, rfl, -⟩ := h
  · exact fun heq => absurd (beq_iff_eq.mp heq) (show method.SUBSCRIBE ≠ _ by decide)
  · exact fun heq => absurd (beq_iff_eq.mp heq) (show method.AUTHORIZE ≠ _ by decide)
  · exact fun heq => absurd (beq_iff_eq.mp heq) (show method.SUBMIT ≠ _ by decide)

/-- **A request arrives**: the session of the miner takes it. -/
theorem Linked.deliver (h : Linked difficulty worker stopped installed link t)
    (hphase : t.phase = .waiting) {fromStr : Str → Option Value} {text : Str} {request : Request}
    (hrequest : link.client.said.reverse[link.delivered]? = some request)
    (hparse : Incoming.parse fromStr text = some (.request request))
    (handled : Option Request) :
    Linked difficulty worker stopped installed { link with delivered := link.delivered + 1 }
      (t.resume handled (t.session.dispatch fromStr difficulty text)) := by
  have hauth : 2 ≤ link.delivered → t.session.authorized = true := by
    have hserves := h.serves
    rw [Thread.Serves, hphase] at hserves
    exact hserves
  have hensures : (t.session.dispatch fromStr difficulty text).Ensures _ _ _ :=
    Session.ensures_dispatch hparse (h.ownRequest hrequest) hauth
  obtain ⟨hserves, hsame, hsent⟩ := Thread.Serves.resume t handled hensures
  refine ⟨h.asked, ?_, ?_, ?_, hserves, fun line hline => ?_, h.ended⟩
  · rw [hsame.2]
    exact h.sound
  · rw [hsame.2]
    exact h.subscribed
  · have hlt := (List.getElem?_eq_some_iff.mp hrequest).1
    rw [List.length_reverse] at hlt
    exact hlt
  · rw [hsent] at hline
    rw [hsame.subscribeResult]
    exact (h.lines line hline).mono (Nat.le_succ _)

/-- The miner's threads go on. -/
theorem Linked.of_miner (h : Linked difficulty worker stopped installed link t) {miner : Miner}
    {extranonce1 : Bytes} {extranonce2Size : ℕ}
    (hphase : link.client.phase = .mining extranonce1 extranonce2Size) {action : MinerAction}
    (haction : ∀ job, action = .install job → JobOf installed job)
    (hstep : Miner.step worker extranonce1 extranonce2Size link.client.miner action = some miner)
    (received : ℕ) :
    Linked difficulty worker stopped installed
      ⟨{ link.client with miner := miner }, link.delivered, received⟩ t := by
  obtain ⟨rfl, rfl⟩ := h.subscribed _ _ (Or.inr hphase)
  have hasked := h.asked
  rw [Client.Asked, hphase] at hasked
  refine ⟨?_, h.sound.step haction hstep, h.subscribed, ?_, h.serves, h.lines, h.ended⟩
  · rw [Client.Asked]
    dsimp only
    rw [hphase]
    exact hasked
  · have hlength := (Miner.outbound_step hstep).length_le
    have hdelivered := h.delivered
    rw [Client.said, List.length_append, List.length_map] at hdelivered ⊢
    dsimp only
    omega

theorem answerTo_request (id : UInt64) {message : Incoming} (h : isDifficulty message = true ∨
    ∃ request, message = .request request) : answerTo id message = none := by
  cases message with
  | request request => rfl
  | response response =>
    rcases h with h | ⟨request, h⟩
    · exact absurd h (by simp [isDifficulty])
    · exact absurd h (by simp)

/-- What arrives while the first answer is waited for is that answer, or nothing. -/
theorem answer_subscribing {result : Value} {n : ℕ} (hn : n ≤ 1) {line message : Incoming}
    (hline : OwnLine difficulty result n line)
    (hmessage : message = line ∨ isDifficulty line = true ∧ isDifficulty message = true) :
    answerTo 1 message = none ∨ answerTo 1 message = some (.ok result) := by
  obtain rfl | ⟨-, hdifficulty⟩ := hmessage
  · cases hline with
    | subscribed => exact Or.inr rfl
    | authorized h => omega
    | share h => omega
    | difficulty bits => exact Or.inl rfl
    | job active => exact Or.inl rfl
  · exact Or.inl (answerTo_request 1 (Or.inl hdifficulty))

/-- And while the second one is waited for, that one. -/
theorem answer_authorizing {result : Value} {n : ℕ} (hn : n ≤ 2) {line message : Incoming}
    (hline : OwnLine difficulty result n line)
    (hmessage : message = line ∨ isDifficulty line = true ∧ isDifficulty message = true) :
    answerTo 2 message = none ∨ answerTo 2 message = some (.ok (.bool true)) := by
  obtain rfl | ⟨-, hdifficulty⟩ := hmessage
  · cases hline with
    | subscribed =>
      have hid : (Response.ok (some 1) result).id ≠ some 2 := by simp [Response.ok]
      rw [answerTo, if_neg hid]
      exact Or.inl rfl
    | authorized => exact Or.inr rfl
    | share h => omega
    | difficulty bits => exact Or.inl rfl
    | job active => exact Or.inl rfl
  · exact Or.inl (answerTo_request 2 (Or.inl hdifficulty))

/-- A job that arrives is one of those that were told, and is decoded. -/
theorem job_of_notify (htells : t.Tells difficulty (· ∈ installed)) {line : Incoming}
    {request : Request} (hline : line ∈ t.sent)
    (hmessage : Incoming.request request = line ∨
      isDifficulty line = true ∧ isDifficulty (.request request) = true)
    (hmethod : request.method = method.NOTIFY) :
    ∃ active ∈ installed, Job.fromNotifyParams request.params = .ok active.job := by
  have hnotify : isNotify (.request request) = true := beq_iff_eq.mpr hmethod
  obtain rfl | ⟨-, hdifficulty⟩ := hmessage
  · obtain ⟨active, hactive, heq⟩ := htells.sent _ hline hnotify
    obtain rfl := Incoming.request.inj heq
    exact ⟨active, hactive, Job.fromNotifyParams_toNotifyParams active.job⟩
  · have hother : request.method = method.SET_DIFFICULTY := beq_iff_eq.mp hdifficulty
    exact absurd (hmethod.symm.trans hother) (by decide)

/-- **A line arrives at the miner.** -/
theorem Linked.receive (h : Linked difficulty worker stopped installed link t)
    (htells : t.Tells difficulty (· ∈ installed)) {line message : Incoming} {client : Client}
    (hline : line ∈ t.sent)
    (hmessage : message = line ∨ isDifficulty line = true ∧ isDifficulty message = true)
    (hreceive : link.client.receive worker message = some client) :
    Linked difficulty worker stopped installed
      { link with received := link.received + 1, client := client } t := by
  have hown := h.lines line hline
  have hasked := h.asked
  have hdelivered := h.delivered
  have hsame : Linked difficulty worker stopped installed
      { link with received := link.received + 1 } t :=
    ⟨h.asked, h.sound, h.subscribed, h.delivered, h.serves, h.lines, h.ended⟩
  cases hphase : link.client.phase with
  | subscribing =>
    rw [Client.Asked, hphase] at hasked
    obtain ⟨hhandshake, houtbound⟩ := hasked
    rw [Client.said, hhandshake, houtbound] at hdelivered
    have hanswer := answer_subscribing hdelivered hown hmessage
    obtain ⟨-, rfl⟩ | ⟨answer, hsome, hcases⟩ := Client.receive_subscribing hphase hreceive
    · exact hsame
    · obtain rfl : answer = .ok t.session.subscribeResult := by
        rcases hanswer with hnone | hok
        · exact absurd (hnone.symm.trans hsome) (by simp)
        · exact Option.some.inj (hsome.symm.trans hok)
      have hparse : ((.ok t.session.subscribeResult : Checked HandshakeError Value) >>=
          parseSubscription) = .ok (t.session.extranonce1.toList, EXTRANONCE2_SIZE) :=
        parseSubscription_subscribeReply t.session.connectionId _
      obtain ⟨extranonce1, extranonce2Size, hok, rfl⟩ | ⟨⟨error, herror⟩, -⟩ := hcases
      · obtain ⟨rfl, rfl⟩ := Prod.mk.inj (Except.ok.inj (hparse.symm.trans hok))
        refine ⟨⟨by rw [hhandshake], houtbound⟩, h.sound, fun e1 size heq => ?_, ?_, h.serves,
          h.lines, nofun⟩
        · rcases heq with heq | heq
          · obtain ⟨rfl, rfl⟩ := ClientPhase.authorizing.inj heq
            exact ⟨rfl, rfl⟩
          · exact absurd heq (by simp)
        · rw [Client.said, hhandshake, houtbound]
          exact hdelivered.trans (by simp)
      · exact absurd (hparse.symm.trans herror) (by simp)
  | authorizing extranonce1 extranonce2Size =>
    rw [Client.Asked, hphase] at hasked
    obtain ⟨hhandshake, houtbound⟩ := hasked
    rw [Client.said, hhandshake, houtbound] at hdelivered
    have hanswer := answer_authorizing hdelivered hown hmessage
    obtain ⟨-, rfl⟩ | ⟨-, rfl⟩ | ⟨answer, hsome, hne, -⟩ :=
      Client.receive_authorizing hphase hreceive
    · exact hsame
    · refine ⟨hhandshake, h.sound, fun e1 size heq => ?_, h.delivered, h.serves, h.lines, nofun⟩
      rcases heq with heq | heq
      · exact absurd heq (by simp)
      · obtain ⟨rfl, rfl⟩ := ClientPhase.mining.inj heq
        exact h.subscribed _ _ (Or.inl hphase)
    · rcases hanswer with hnone | hok
      · exact absurd (hnone.symm.trans hsome) (by simp)
      · exact absurd (Option.some.inj (hsome.symm.trans hok)) hne
  | mining extranonce1 extranonce2Size =>
    obtain ⟨-, ⟨request, job, miner, rfl, hmethod, hjob, hstep, rfl⟩ |
      ⟨request, rfl, hmethod, hpanic, -⟩ | ⟨-, rfl⟩⟩ := Client.receive_mining hphase hreceive
    · obtain ⟨active, hactive, hdecode⟩ := job_of_notify htells hline hmessage hmethod
      obtain rfl := Except.ok.inj (hdecode.symm.trans hjob)
      refine h.of_miner hphase (fun job heq => ?_) hstep _
      obtain rfl := MinerAction.install.inj heq
      exact ⟨active, hactive, rfl⟩
    · obtain ⟨active, -, hdecode⟩ := job_of_notify htells hline hmessage hmethod
      exact absurd (hdecode.symm.trans hpanic) (by simp [Checked.panic])
    · exact hsame
  | ended =>
    rw [Client.receive, hphase] at hreceive
    exact absurd hreceive (by simp)

/-- A miner that is stopped. -/
theorem Linked.stop (h : Linked difficulty worker stopped installed link t) (hstopped : stopped) :
    Linked difficulty worker stopped installed { link with client.phase := .ended } t :=
  ⟨h.asked.ended, h.sound, fun _ _ heq => by
    rcases heq with heq | heq <;> exact absurd heq (by simp), h.delivered, h.serves, h.lines,
    fun _ => hstopped⟩

end System

end SoloMiner
