import SoloMiner.Miner.Client
import SoloMiner.Pool.Submissions

/-!
# What a session says to a miner

A session takes lines from anyone, but a miner of this repository sends it only three kinds
of requests, in a fixed order: a subscription, an authorization, and then shares whose
extranonce is as long as the subscription said. For these the code of the session is well
behaved, whatever the node and the clock answer and whatever jobs it finds
(`SoloMiner.Session.ensures_dispatch`): it does not panic, the miner is authorized before
its first share is looked at, and no reply finds fault with a share.
-/

namespace SoloMiner

open Json

/-! ### The lines for a miner -/

/-- What a miner can be told about a share: yes; or that the job is gone, that the node does
not want the block, or that the node was out of reach. -/
inductive OwnReply : Response → Prop
  | accepted (id : Option UInt64) : OwnReply (.ok id (.bool true))
  | late (id : Option UInt64) : OwnReply (.failure id .jobNotFound)
  | rejected (id : Option UInt64) (reason : Str) :
    OwnReply (.failure id (.other ("node rejected block: ".toList ++ reason)))
  | unreachable (id : Option UInt64) (message : Str) :
    OwnReply (.failure id (.other (ValidationError.rpc message).display))

/-- **The lines on the channel of a miner** after so many of its requests have arrived: the
answers to these, in particular no answer to a request that has not arrived; difficulties
and jobs. -/
inductive OwnLine (difficulty : UInt32 → Value) (result : Value) (n : ℕ) : Incoming → Prop
  | subscribed (h : 1 ≤ n) : OwnLine difficulty result n (.response (.ok (some 1) result))
  | authorized (h : 2 ≤ n) : OwnLine difficulty result n (.response (.ok (some 2) (.bool true)))
  | share (h : 3 ≤ n) {response : Response} (hreply : OwnReply response) :
    OwnLine difficulty result n (.response response)
  | difficulty (bits : UInt32) : OwnLine difficulty result n (difficultyLine difficulty bits)
  | job (active : ActiveJob) : OwnLine difficulty result n (Server.notifyLine active)

theorem OwnLine.mono {difficulty : UInt32 → Value} {result : Value} {n m : ℕ} (hle : n ≤ m)
    {line : Incoming} (h : OwnLine difficulty result n line) :
    OwnLine difficulty result m line := by
  cases h with
  | subscribed h => exact .subscribed (h.trans hle)
  | authorized h => exact .authorized (h.trans hle)
  | share h hreply => exact .share (h.trans hle) hreply
  | difficulty bits => exact .difficulty bits
  | job active => exact .job active

/-- The operations that put only such lines on the channel. -/
def Effect.Says (good : Incoming → Prop) (effect : Effect) : Prop :=
  ∀ line, effect = .send line → good line

theorem Effect.says_send {good : Incoming → Prop} {line : Incoming} (h : good line) :
    Effect.Says good (.send line) := by
  intro line' heq
  exact Effect.send.inj heq ▸ h

/-- What does not put a line on the channel. -/
theorem Effect.says_of_ne {good : Incoming → Prop} {effect : Effect}
    (h : ∀ line, effect ≠ .send line) : effect.Says good :=
  fun line heq => absurd heq (h line)

namespace Session

variable {difficulty : UInt32 → Value} {session : Session}

/-- What the check of such a share comes to: a verdict, or the node was out of reach. -/
theorem ensures_check {active : ActiveJob} (h : active.Coherent) {share : Share}
    {extranonce1 : Bytes} (h1 : extranonce1.length = 4) (h2 : share.extranonce2.length = 4)
    (good : Incoming → Prop) (allowed : (effect : Effect) → effect.Answer → Prop) :
    (check active share extranonce1).Ensures allowed (Effect.Says good) fun outcome =>
      ∀ error, outcome = .error error → ∃ message, error = .rpc message := by
  refine Prog.ensures_of_runs ((only_check _ _ _).mono fun effect heffect => ?_)
    (fun trace result hrun => ?_) allowed
  · refine Effect.says_of_ne fun line heq => ?_
    subst heq
    exact absurd heffect id
  · obtain ⟨coinbase, -, hrebuild⟩ := h.rebuild_eq share h1 h2
    have hcheck := runs_check h hrebuild hrun
    split_ifs at hcheck
    · obtain ⟨answer, rfl⟩ := hcheck
      refine ⟨_, rfl, fun error herror => ?_⟩
      obtain ⟨-, hrebuilt, hmismatch⟩ := verdictOf_spec active
        (active.job.header extranonce1 share.extranonce2 share.time share.nonce).hash answer
      cases error with
      | rebuild message => exact absurd herror (hrebuilt message)
      | coinbaseMismatch => exact absurd herror hmismatch
      | rpc message => exact ⟨message, rfl⟩
    · obtain ⟨-, rfl⟩ := hcheck
      exact ⟨_, rfl, fun error herror => absurd herror (by simp)⟩

theorem ensures_reply {good : Incoming → Prop} {allowed : (effect : Effect) → effect.Answer → Prop}
    {response : Response} (h : good (.response response)) :
    (reply response).Ensures allowed (Effect.Says good) fun _ => True :=
  ⟨Effect.says_send h, fun _ _ => trivial⟩

theorem ensures_answerShare {good : Incoming → Prop}
    (hgood : ∀ response, OwnReply response → good (.response response))
    (allowed : (effect : Effect) → effect.Answer → Prop) (id : Option UInt64)
    {outcome : Except ValidationError Verdict}
    (h : ∀ error, outcome = .error error → ∃ message, error = .rpc message) :
    (answerShare id outcome).Ensures allowed (Effect.Says good) fun _ => True := by
  have hrefresh : (perform .requestRefresh).Ensures allowed (Effect.Says good) fun _ => True :=
    ⟨Effect.says_of_ne (by simp), fun _ _ => trivial⟩
  rcases outcome with error | ⟨_, _⟩ | ⟨_, _⟩ | ⟨reason, _⟩ | ⟨_, _⟩
  · obtain ⟨message, rfl⟩ := h error rfl
    exact ensures_reply (hgood _ (.unreachable id message))
  · exact (ensures_reply (hgood _ (.accepted id))).bind fun _ _ => hrefresh
  · exact (ensures_reply (hgood _ (.accepted id))).bind fun _ _ => hrefresh
  · exact ensures_reply (hgood _ (.rejected id reason))
  · exact ensures_reply (hgood _ (.accepted id))

/-- **A share of a miner** that is authorized, whatever job is found for it. -/
theorem ensures_onSubmit {good : Incoming → Prop}
    (hgood : ∀ response, OwnReply response → good (.response response)) {entry : UInt64 × Share}
    (hauth : session.authorized = true) (hwidth : entry.2.extranonce2.length = 4) :
    (session.onSubmit (submitRequest entry)).Ensures (Server.Finds ActiveJob.Coherent)
      (Effect.Says good) fun _ => True := by
  have hdecode : Share.fromSubmitParams (submitRequest entry).params = .ok entry.2 :=
    Share.fromSubmitParams_toSubmitParams entry.2
  rw [onSubmit, hauth, if_neg (by simp), hdecode]
  refine ⟨Effect.says_of_ne (by simp), fun job hjob => ?_⟩
  cases job with
  | none => exact ensures_reply (hgood _ (.late _))
  | some active =>
    exact (ensures_check (hjob active rfl) session.extranonce1.toList_length hwidth good _).bind
      fun outcome houtcome => ensures_answerShare hgood _ _ houtcome

/-- An authorization. -/
theorem ensures_onAuthorize {good : Incoming → Prop} {request : Request}
    (hreply : good (.response (.ok request.id (.bool true))))
    (hdifficulty : ∀ bits, good (difficultyLine difficulty bits))
    (hjob : ∀ active, good (Server.notifyLine active))
    (allowed : (effect : Effect) → effect.Answer → Prop) :
    (session.onAuthorize difficulty request).Ensures allowed (Effect.Says good)
      (· = session.authorize) := by
  refine (ensures_reply hreply).bind fun _ _ => Prog.Ensures.bind (Q := fun _ => True) ?_
    fun _ _ => rfl
  refine ⟨Effect.says_of_ne (by simp), fun job _ => ?_⟩
  cases job with
  | none => exact trivial
  | some active =>
    exact ⟨Effect.says_send (hdifficulty active.job.bits), fun _ _ =>
      ⟨Effect.says_send (hjob active), fun _ _ => trivial⟩⟩

/-- The requests of a miner, in their order. -/
def OwnRequest (worker : Str) (k : ℕ) (request : Request) : Prop :=
  (k = 0 ∧ request = subscribeRequest) ∨ (k = 1 ∧ request = authorizeRequest worker) ∨
    2 ≤ k ∧ ∃ entry, request = submitRequest entry ∧ entry.2.extranonce2.length = 4

/-- What is known of the session once so many requests were handled. -/
def Known (session : Session) (n : ℕ) (session' : Session) : Prop :=
  session'.connectionId = session.connectionId ∧ session'.extranonce1 = session.extranonce1 ∧
    (2 ≤ n → session'.authorized = true)

/-- **The next request of a miner**: the session answers it as it should, whatever it finds,
and goes on. -/
theorem ensures_dispatch {fromStr : Str → Option Value} {text worker : Str} {k : ℕ}
    {request : Request} (hparse : Incoming.parse fromStr text = some (.request request))
    (hrequest : OwnRequest worker k request) (hauth : 2 ≤ k → session.authorized = true) :
    (session.dispatch fromStr difficulty text).Ensures (Server.Finds ActiveJob.Coherent)
      (Effect.Says (OwnLine difficulty session.subscribeResult (k + 1)))
      fun result => result.2 = true ∧ session.Known (k + 1) result.1 := by
  rw [dispatch, hparse]
  refine Prog.Ensures.bind (Q := session.Known (k + 1)) ?_ fun _ hknown => ⟨rfl, hknown⟩
  obtain ⟨rfl, rfl⟩ | ⟨rfl, rfl⟩ | ⟨hk, entry, rfl, hwidth⟩ := hrequest
  · have hmethod : subscribeRequest.method = method.SUBSCRIBE := rfl
    rw [onRequest, if_pos hmethod]
    refine Prog.Ensures.bind (Q := fun _ => True) ?_ fun _ _ => ⟨rfl, rfl, fun h => ?_⟩
    · exact (ensures_reply (.subscribed le_rfl)).bind fun _ _ =>
        ⟨Effect.says_of_ne (by simp), fun _ _ => trivial⟩
    · exact absurd h (by decide)
  · have hmethod : (authorizeRequest worker).method = method.AUTHORIZE := rfl
    rw [onRequest, if_neg (by rw [hmethod]; decide), if_pos hmethod]
    refine (ensures_onAuthorize (.authorized le_rfl) .difficulty .job _).mono (fun _ h => h) ?_
    rintro _ rfl
    exact ⟨rfl, rfl, fun _ => rfl⟩
  · have hmethod : (submitRequest entry).method = method.SUBMIT := rfl
    rw [onRequest, if_neg (by rw [hmethod]; decide), if_neg (by rw [hmethod]; decide),
      if_pos hmethod]
    refine Prog.Ensures.bind (Q := fun _ => True) ?_ fun _ _ =>
      ⟨rfl, rfl, fun _ => hauth hk⟩
    exact ensures_onSubmit (fun _ hreply => .share (by omega) hreply) (hauth hk) hwidth

end Session

end SoloMiner
