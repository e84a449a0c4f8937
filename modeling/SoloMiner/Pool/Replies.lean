import SoloMiner.Pool.Stage
import SoloMiner.Pool.Survival

/-!
# One reply for each request

A miner knows the replies to its calls by their ids and by their order. So there should
be one reply for each line that is a request with an id, and none for any other line: a
request without an id is a notification, which wants none.

The session replies to whatever it reads as a request, so that a notification is
answered, too, with the null id that it came with. And a share that its handler panics
on is not answered, and neither is anything behind it
(`SoloMiner.Session.Fatal`). `SoloMiner.Session.oneReply_iff` says that nothing else goes
wrong: the replies are as they should be precisely if the lines are
`SoloMiner.Session.Orderly`. No block is submitted before an authorization was answered,
on any lines (`SoloMiner.Session.Converses.authorized_of_submitBlock`).
-/

namespace SoloMiner

open Json

namespace Session

/-! ### A conversation -/

section Definitions

variable (fromStr : Str → Option Value) (difficulty : UInt32 → Value)

/-- One turn of the loop of `handle`: a blank line is skipped, any other dispatched. -/
def turn (self : Session) (line : Str) : PoolProg (Session × Bool) :=
  if isBlank line then pure (self, true) else self.dispatch fromStr difficulty line

/-- The request that a line is read as, if any. -/
def requestIn (line : Str) : Option Request :=
  if isBlank line then none else Server.requestOf fromStr line

/-- The request on a line that wants a reply. -/
def asking (line : Str) : Option Request :=
  (requestIn fromStr line).filter fun request => !request.isNotification

/-- **A session converses**: it reads line after line, each with the pool as it is at that
time, until there are no more or the loop ends. What it does at each line is kept. -/
inductive Converses : Session → List (Str × PoolState) → List (Prog.Trace Effect.Answer) → Prop
  /-- The connection is at its end. -/
  | ends (self : Session) : Converses self [] []
  /-- A line is read, and the loop goes on. -/
  | reads {self self' : Session} {line : Str} {pool : PoolState}
    {trace : Prog.Trace Effect.Answer} {inputs : List (Str × PoolState)}
    {traces : List (Prog.Trace Effect.Answer)}
    (hrun : Prog.Runs (self.turn fromStr difficulty line) trace (some (self', true)))
    (hconsistent : Consistent pool trace) (hrest : Converses self' inputs traces) :
    Converses self ((line, pool) :: inputs) (trace :: traces)
  /-- A line is read that ends the loop, or panics. -/
  | stops {self : Session} {line : Str} {pool : PoolState} {trace : Prog.Trace Effect.Answer}
    {inputs : List (Str × PoolState)} {result : Option (Session × Bool)}
    (hrun : Prog.Runs (self.turn fromStr difficulty line) trace result)
    (hconsistent : Consistent pool trace) (hstop : ∀ self', result ≠ some (self', true)) :
    Converses self ((line, pool) :: inputs) [trace]

/-- The response that an operation puts on the channel. -/
def responseOf : Effect → Option Response
  | .send (.response response) => some response
  | _ => none

/-- The responses of a trace, in order. -/
def responses (trace : Prog.Trace Effect.Answer) : List Response :=
  trace.filterMap fun event => responseOf event.1

/-- The response answers the request. -/
structure Answers (request : Request) (response : Response) : Prop where
  /-- The id is the one of the request. -/
  id : response.id = request.id
  /-- There is a result or an error, and not both. -/
  exclusive : response.Exclusive

/-- **One reply for each request**, and no block submitted too early. -/
structure OneReply (inputs : List (Str × PoolState)) (traces : List (Prog.Trace Effect.Answer)) :
    Prop where
  /-- The responses are, in order, one for each request that wants one. -/
  replies : List.Forall₂ Answers (inputs.filterMap fun input => asking fromStr input.1)
    (traces.flatMap responses)
  /-- No other line is answered. -/
  silent : ∀ (k : ℕ) (line : Str) (pool : PoolState), inputs[k]? = some (line, pool) →
    asking fromStr line = none → responses (traces.getD k []) = []
  /-- Before a block is submitted, an authorization was answered. -/
  authorized : ∀ (k : ℕ) (block : Str) (answer : Except Str (Option Str)),
    ⟨.submitBlock block, answer⟩ ∈ traces.getD k [] →
      ∃ j < k, ∃ line pool request, inputs[j]? = some (line, pool) ∧
        requestIn fromStr line = some request ∧ request.method = method.AUTHORIZE ∧
          .ok request.id (.bool true) ∈ responses (traces.getD j [])

end Definitions

/-- **A request that is fatal**: the share of an authorized miner with enough parameters,
strings up front, whose third cuts a character in two, or is the text of more than 516
bytes, with a known job and two numbers beside it. -/
def Fatal (authorized : Bool) (pool : PoolState) (request : Request) : Prop :=
  request.method = method.SUBMIT ∧ authorized = true ∧
    ∃ array worker jobId extranonce2, request.params.asArray = some array ∧ 5 ≤ array.length ∧
      array[0]? = some (.string worker) ∧ array[1]? = some (.string jobId) ∧
      array[2]? = some (.string extranonce2) ∧
        (Hex.SplitsChar extranonce2 ∨
          ∃ pairs time nonce active, extranonce2 = Hex.pairChars pairs ∧
            (∀ pair ∈ pairs, Hex.ReadablePair pair) ∧ 516 < pairs.length ∧
            array[3]? = some (.string time) ∧ (Hex.fromStrRadix16 32 time).isSome = true ∧
            array[4]? = some (.string nonce) ∧ (Hex.fromStrRadix16 32 nonce).isSome = true ∧
            pool.jobById jobId = some active)

/-- **The lines are orderly**: each request wants a reply and is not fatal, or it is a
fatal notification and nothing behind it wants a reply. Whether the miner is authorized
is kept along the way. -/
def Orderly (fromStr : Str → Option Value) : Bool → List (Str × PoolState) → Prop
  | _, [] => True
  | authorized, (line, pool) :: inputs =>
    match requestIn fromStr line with
    | none => Orderly fromStr authorized inputs
    | some request =>
      (request.isNotification = false ∧ ¬ Fatal authorized pool request ∧
        Orderly fromStr (authorized || decide (request.method = method.AUTHORIZE)) inputs) ∨
      (request.isNotification = true ∧ Fatal authorized pool request ∧
        ∀ input ∈ inputs, asking fromStr input.1 = none)

variable {fromStr : Str → Option Value} {difficulty : UInt32 → Value} {pool : PoolState}
  {session self : Session} {line : Str} {request : Request} {share : Share} {active : ActiveJob}
  {trace : Prog.Trace Effect.Answer}

/-! ### The responses of a trace -/

@[simp] theorem responses_nil : responses [] = [] := rfl

@[simp] theorem responses_cons (event : Sigma Effect.Answer) (trace : Prog.Trace Effect.Answer) :
    responses (event :: trace) = (responseOf event.1).toList ++ responses trace := by
  rw [responses, List.filterMap_cons, responses]
  cases responseOf event.1 <;> rfl

@[simp] theorem responses_append (first rest : Prog.Trace Effect.Answer) :
    responses (first ++ rest) = responses first ++ responses rest := List.filterMap_append

/-- The node and the clock are not answered to. -/
theorem responses_eq_nil (h : ∀ event ∈ trace, Effect.OnNode event.1) : responses trace = [] := by
  refine List.filterMap_eq_nil_iff.mpr fun event hevent => ?_
  obtain ⟨effect, answer⟩ := event
  have heffect := h _ hevent
  cases effect <;> first | rfl | exact absurd heffect id

/-! ### What a line is answered -/

/-- What is fatal is what the decoder panics on, or a share it decodes that is too long. -/
theorem fatal_iff {authorized : Bool} :
    Fatal authorized pool request ↔ request.method = method.SUBMIT ∧ authorized = true ∧
      (Share.fromSubmitParams request.params = .panic ∨
        ∃ share active, Share.fromSubmitParams request.params = .ok share ∧
          pool.jobById share.jobId = some active ∧ 516 < share.extranonce2.length) := by
  refine and_congr_right fun _ => and_congr_right fun _ => ?_
  constructor
  · rintro ⟨array, worker, jobId, extranonce2, harray, hlen, hworker, hjobId, hs, hsplits |
      ⟨pairs, time, nonce, active, rfl, hpairs, hlong, htime, ht, hnonce, hn, hjob⟩⟩
    · exact Or.inl (Share.fromSubmitParams_eq_panic_iff.mpr
        ⟨array, worker, jobId, extranonce2, harray, hlen, hworker, hjobId, hs, hsplits⟩)
    · obtain ⟨share, hshare, rfl, hwidth⟩ := Share.exists_fromSubmitParams_iff.mpr
        ⟨array, worker, pairs, time, nonce, harray, hlen, hworker, hjobId, hs, hpairs, rfl,
          htime, ht, hnonce, hn⟩
      exact Or.inr ⟨share, active, hshare, hjob, by omega⟩
  · rintro (hpanic | ⟨share, active, hshare, hjob, hlong⟩)
    · obtain ⟨array, worker, jobId, s, harray, hlen, hworker, hjobId, hs, hsplits⟩ :=
        Share.fromSubmitParams_eq_panic_iff.mp hpanic
      exact ⟨array, worker, jobId, s, harray, hlen, hworker, hjobId, hs, Or.inl hsplits⟩
    · obtain ⟨array, worker, pairs, time, nonce, harray, hlen, hworker, hjobId, hs, hpairs,
        hwidth, htime, ht, hnonce, hn⟩ :=
        Share.exists_fromSubmitParams_iff.mp ⟨share, hshare, rfl, rfl⟩
      exact ⟨array, worker, _, _, harray, hlen, hworker, hjobId, hs, Or.inr ⟨pairs, time, nonce,
        active, rfl, hpairs, by omega, htime, ht, hnonce, hn, hjob⟩⟩

/-- The trace answers the request, once. -/
def Replies (request : Request) (trace : Prog.Trace Effect.Answer) : Prop :=
  ∃ response, responses trace = [response] ∧ Answers request response

theorem replies_failure (error : StratumError) :
    Replies request [⟨.send (.response (.failure request.id error)), ()⟩] :=
  ⟨_, rfl, rfl, Response.exclusive_failure _ _⟩

/-- **The verdict on a share is answered once**, whatever it is. -/
theorem replies_answerShare {outcome : Except ValidationError Verdict} {r : Option Unit}
    (hrun : Prog.Runs (answerShare request.id outcome) trace r) :
    r = some () ∧ Replies request trace := by
  have htrue : (Response.ok request.id (.bool true)).Exclusive := Response.exclusive_ok _ (by simp)
  obtain ⟨_, rfl⟩ := (safe_answerShare _ _).of_runs hrun
  refine ⟨rfl, ?_⟩
  rcases outcome with error | ⟨_, _⟩ | ⟨_, _⟩ | ⟨_, _⟩ | ⟨_, _⟩
  · obtain ⟨rfl, -⟩ := runs_reply_iff.mp hrun
    exact replies_failure _
  · obtain ⟨_, _, rfl, hrest⟩ := Prog.runs_perform_bind_iff.mp hrun
    obtain ⟨_, _, rfl, hlast⟩ := Prog.runs_op_iff.mp hrest
    obtain ⟨rfl, -⟩ := Prog.runs_ret_iff.mp hlast
    exact ⟨_, rfl, rfl, htrue⟩
  · obtain ⟨_, _, rfl, hrest⟩ := Prog.runs_perform_bind_iff.mp hrun
    obtain ⟨_, _, rfl, hlast⟩ := Prog.runs_op_iff.mp hrest
    obtain ⟨rfl, -⟩ := Prog.runs_ret_iff.mp hlast
    exact ⟨_, rfl, rfl, htrue⟩
  · obtain ⟨rfl, -⟩ := runs_reply_iff.mp hrun
    exact replies_failure _
  · obtain ⟨rfl, -⟩ := runs_reply_iff.mp hrun
    exact ⟨_, rfl, rfl, htrue⟩

/-- A share that was decoded is fatal if it is too long, with a known job. -/
theorem fatal_iff_of_ok (hmethod : request.method = method.SUBMIT)
    (hauth : session.authorized = true)
    (hshare : Share.fromSubmitParams request.params = .ok share) :
    Fatal session.authorized pool request ↔
      ∃ active, pool.jobById share.jobId = some active ∧ 516 < share.extranonce2.length := by
  rw [fatal_iff, hshare]
  constructor
  · rintro ⟨-, -, hpanic | ⟨share', active, hok, hjob, hlong⟩⟩
    · exact absurd hpanic Checked.ok_ne_panic
    · obtain rfl := Except.ok.inj hok
      exact ⟨active, hjob, hlong⟩
  · rintro ⟨active, hjob, hlong⟩
    exact ⟨hmethod, hauth, Or.inr ⟨share, active, rfl, hjob, hlong⟩⟩

/-- **A share that was decoded is answered once**, unless it is fatal. -/
theorem onSubmit_cases_of_ok (hmethod : request.method = method.SUBMIT)
    (hauth : session.authorized = true)
    (hshare : Share.fromSubmitParams request.params = .ok share) {r : Option Unit}
    (hrun : Prog.Runs (session.onSubmit request) trace r) (hconsistent : Consistent pool trace) :
    (Fatal session.authorized pool request ∧ r = none ∧ responses trace = []) ∨
      (¬ Fatal session.authorized pool request ∧ r = some () ∧ Replies request trace) := by
  rw [fatal_iff_of_ok hmethod hauth hshare]
  obtain ⟨job, rest, rfl, hrest⟩ := (runs_onSubmit_iff_of_ok hauth hshare).mp hrun
  have hjob := hconsistent.1 share.jobId job List.mem_cons_self
  cases job with
  | none =>
    obtain ⟨rfl, rfl⟩ := runs_reply_iff.mp hrest
    refine Or.inr ⟨?_, rfl, replies_failure .jobNotFound⟩
    rintro ⟨active, hactive, -⟩
    exact absurd (hjob.trans hactive) (by simp)
  | some active =>
    have h1 : session.extranonce1.toList.length = 4 := session.extranonce1.toList_length
    have hwidth : (session.extranonce1.toList ++ share.extranonce2).length =
        4 + share.extranonce2.length := by rw [List.length_append, h1]
    rcases Prog.runs_bind_iff.mp hrest with
      ⟨checked, answered, outcome, rfl, hcheck, hanswer⟩ | ⟨rfl, hpanic⟩
    · obtain ⟨rfl, response, hresponse, hanswers⟩ := replies_answerShare hanswer
      have honNode := (only_check active share session.extranonce1.toList).of_runs hcheck
      refine Or.inr ⟨?_, rfl, response, ?_, hanswers⟩
      · -- A check that returns was given an extranonce that can be pushed.
        rintro ⟨_, -, hlong⟩
        have hpanic : rebuild active share session.extranonce1.toList = .panic :=
          rebuild_eq_panic_iff.mpr (by omega)
        rw [check, hpanic] at hcheck
        exact absurd (Prog.runs_panic_iff.mp hcheck).2 (by simp)
      · rw [responses_cons, responses_append, responses_eq_nil honNode, hresponse]
        rfl
    · obtain ⟨rfl, hlong⟩ := runs_check_none_iff.mp hpanic
      exact Or.inl ⟨⟨active, hjob.symm, by omega⟩, rfl, rfl⟩

/-- **A share is answered once**, unless it is fatal. -/
theorem onSubmit_cases (hmethod : request.method = method.SUBMIT) {r : Option Unit}
    (hrun : Prog.Runs (session.onSubmit request) trace r) (hconsistent : Consistent pool trace) :
    (Fatal session.authorized pool request ∧ r = none ∧ responses trace = []) ∨
      (¬ Fatal session.authorized pool request ∧ r = some () ∧ Replies request trace) := by
  by_cases hauth : session.authorized = true
  · rcases hdecode : Share.fromSubmitParams request.params with (error | _) | share
    · rw [onSubmit, hauth, hdecode] at hrun
      obtain ⟨rfl, rfl⟩ := runs_reply_iff.mp hrun
      refine Or.inr ⟨fun hfatal => ?_, rfl, replies_failure _⟩
      obtain ⟨-, -, hpanic | ⟨_, _, hok, -⟩⟩ := fatal_iff.mp hfatal
      · exact absurd (hdecode.symm.trans hpanic) Checked.err_ne_panic
      · exact absurd (hdecode.symm.trans hok) (by simp)
    · rw [onSubmit, hauth, hdecode] at hrun
      obtain ⟨rfl, rfl⟩ := Prog.runs_panic_iff.mp hrun
      exact Or.inl ⟨fatal_iff.mpr ⟨hmethod, hauth, Or.inl hdecode⟩, rfl, rfl⟩
    · exact onSubmit_cases_of_ok hmethod hauth hdecode hrun hconsistent
  · rw [onSubmit, Bool.eq_false_iff.mpr hauth] at hrun
    obtain ⟨rfl, rfl⟩ := runs_reply_iff.mp hrun
    exact Or.inr ⟨fun hfatal => hauth hfatal.2.1, rfl, replies_failure _⟩

theorem responses_of_onAuthorize {result : Option Session}
    (hrun : Prog.Runs (self.onAuthorize difficulty request) trace result) :
    responses trace = [.ok request.id (.bool true)] := by
  obtain ⟨-, job, rfl⟩ := runs_onAuthorize_iff.mp hrun
  cases job <;> rfl

/-- What a session that goes on has made of a request. -/
structure Answered (session session' : Session) (request : Request)
    (trace : Prog.Trace Effect.Answer) : Prop where
  /-- It was answered, once. -/
  replies : Replies request trace
  /-- The miner is authorized if it was, or asked for it. -/
  authorized :
    session'.authorized = (session.authorized || decide (request.method = method.AUTHORIZE))
  /-- An authorization is answered by yes. -/
  told : request.method = method.AUTHORIZE →
    .ok request.id (.bool true) ∈ responses trace

/-- **A request is answered once**, unless it is fatal. -/
theorem onRequest_cases {result : Option Session}
    (hrun : Prog.Runs (self.onRequest difficulty request) trace result)
    (hconsistent : Consistent pool trace) :
    (Fatal self.authorized pool request ∧ result = none ∧ responses trace = []) ∨
      (¬ Fatal self.authorized pool request ∧
        ∃ self', result = some self' ∧ Answered self self' request trace) := by
  rw [onRequest] at hrun
  split_ifs at hrun with hsubscribe hauthorize hsubmit
  · have hne : method.SUBSCRIBE ≠ method.SUBMIT := by decide
    have hne' : method.SUBSCRIBE ≠ method.AUTHORIZE := by decide
    obtain ⟨r, hhandler, rfl⟩ := Prog.runs_bind_pure_iff.mp hrun
    obtain ⟨rfl, rfl⟩ := runs_onSubscribe_iff.mp hhandler
    refine Or.inr ⟨fun hfatal => hne (hsubscribe.symm.trans hfatal.1), self, rfl, ?_, ?_, ?_⟩
    · exact ⟨_, rfl, rfl, Response.exclusive_ok _ (by simp [subscribeResult, subscribeReply])⟩
    · rw [hsubscribe, decide_eq_false hne', Bool.or_false]
    · exact fun h => absurd (hsubscribe.symm.trans h) hne'
  · have hne : method.AUTHORIZE ≠ method.SUBMIT := by decide
    have hyes := responses_of_onAuthorize hrun
    obtain ⟨rfl, -⟩ := runs_onAuthorize_iff.mp hrun
    refine Or.inr ⟨fun hfatal => hne (hauthorize.symm.trans hfatal.1), _, rfl,
      ⟨_, hyes, rfl, Response.exclusive_ok _ (by simp)⟩, ?_, fun _ => ?_⟩
    · rw [decide_eq_true hauthorize, Bool.or_true]
    · rw [hyes]
      exact List.mem_singleton_self _
  · obtain ⟨r, hhandler, rfl⟩ := Prog.runs_bind_pure_iff.mp hrun
    rcases onSubmit_cases hsubmit hhandler hconsistent with
      ⟨hfatal, rfl, hnil⟩ | ⟨hfatal, rfl, hreplies⟩
    · exact Or.inl ⟨hfatal, rfl, hnil⟩
    · refine Or.inr ⟨hfatal, self, rfl, hreplies, ?_, fun h => absurd h hauthorize⟩
      rw [decide_eq_false hauthorize, Bool.or_false]
  · obtain ⟨r, hhandler, rfl⟩ := Prog.runs_bind_pure_iff.mp hrun
    obtain ⟨rfl, rfl⟩ := runs_reply_iff.mp hhandler
    refine Or.inr ⟨fun hfatal => hsubmit hfatal.1, self, rfl, replies_failure _, ?_,
      fun h => absurd h hauthorize⟩
    rw [decide_eq_false hauthorize, Bool.or_false]

/-- **What one turn does**: nothing for a line without a request; a request is answered
once, and the loop goes on, unless it is fatal. -/
theorem turn_cases {result : Option (Session × Bool)}
    (hrun : Prog.Runs (self.turn fromStr difficulty line) trace result)
    (hconsistent : Consistent pool trace) :
    (requestIn fromStr line = none ∧ trace = [] ∧ result = some (self, true)) ∨
      ∃ request, requestIn fromStr line = some request ∧
        ((Fatal self.authorized pool request ∧ result = none ∧ responses trace = []) ∨
          (¬ Fatal self.authorized pool request ∧
            ∃ self', result = some (self', true) ∧ Answered self self' request trace)) := by
  rw [turn] at hrun
  rw [requestIn]
  split_ifs at hrun ⊢ with hblank
  · obtain ⟨rfl, rfl⟩ := Prog.runs_pure_iff.mp hrun
    exact Or.inl ⟨rfl, rfl, rfl⟩
  · rw [dispatch] at hrun
    rw [Server.requestOf]
    rcases hparse : Incoming.parse fromStr line with _ | request | response
    · rw [hparse] at hrun
      obtain ⟨rfl, rfl⟩ := Prog.runs_pure_iff.mp hrun
      exact Or.inl ⟨rfl, rfl, rfl⟩
    · rw [hparse] at hrun
      obtain ⟨r, hrequest, rfl⟩ := Prog.runs_bind_pure_iff.mp hrun
      refine Or.inr ⟨request, rfl, ?_⟩
      rcases onRequest_cases hrequest hconsistent with
        ⟨hfatal, rfl, hnil⟩ | ⟨hfatal, self', rfl, hanswered⟩
      · exact Or.inl ⟨hfatal, rfl, hnil⟩
      · exact Or.inr ⟨hfatal, self', rfl, hanswered⟩
    · rw [hparse] at hrun
      obtain ⟨rfl, rfl⟩ := Prog.runs_pure_iff.mp hrun
      exact Or.inl ⟨rfl, rfl, rfl⟩

/-- **A turn after which the loop goes on**: the line was no request, or one that was
answered. -/
theorem turn_reads {self' : Session}
    (hrun : Prog.Runs (self.turn fromStr difficulty line) trace (some (self', true)))
    (hconsistent : Consistent pool trace) :
    (requestIn fromStr line = none ∧ trace = [] ∧ self' = self) ∨
      ∃ request, requestIn fromStr line = some request ∧
        ¬ Fatal self.authorized pool request ∧ Answered self self' request trace := by
  rcases turn_cases hrun hconsistent with ⟨hnone, htrace, hself⟩ | ⟨request, hsome, hcases⟩
  · exact Or.inl ⟨hnone, htrace, (Prod.mk.inj (Option.some.inj hself)).1⟩
  · rcases hcases with ⟨-, hresult, -⟩ | ⟨hfatal, self'', hself, hanswered⟩
    · exact absurd hresult (by simp)
    · obtain ⟨rfl, -⟩ := Prod.mk.inj (Option.some.inj hself)
      exact Or.inr ⟨request, hsome, hfatal, hanswered⟩

/-- **A turn that ends the loop** is that of a fatal request. -/
theorem turn_stops {result : Option (Session × Bool)}
    (hrun : Prog.Runs (self.turn fromStr difficulty line) trace result)
    (hconsistent : Consistent pool trace) (hstop : ∀ self', result ≠ some (self', true)) :
    ∃ request, requestIn fromStr line = some request ∧ Fatal self.authorized pool request ∧
      responses trace = [] := by
  rcases turn_cases hrun hconsistent with ⟨-, -, hself⟩ | ⟨request, hsome, hcases⟩
  · exact absurd hself (hstop self)
  · rcases hcases with ⟨hfatal, -, hnil⟩ | ⟨-, self', hself, -⟩
    · exact ⟨request, hsome, hfatal, hnil⟩
    · exact absurd hself (hstop self')

/-! ### What is submitted -/

theorem only_reply (response : Response) :
    (reply response).Only fun effect => ∀ block, effect ≠ .submitBlock block :=
  ⟨fun _ => by simp, fun _ => trivial⟩

theorem only_sendCurrentWork :
    (sendCurrentWork difficulty).Only fun effect => ∀ block, effect ≠ .submitBlock block := by
  refine Prog.Only.bind ⟨fun _ => by simp, fun _ => trivial⟩ fun job => ?_
  cases job with
  | none => exact trivial
  | some active => exact ⟨fun _ => by simp, fun _ => ⟨fun _ => by simp, fun _ => trivial⟩⟩

/-- **A miner that is not authorized submits nothing.** -/
theorem only_turn (hauth : self.authorized = false) :
    (self.turn fromStr difficulty line).Only fun effect =>
      ∀ block, effect ≠ .submitBlock block := by
  rw [turn]
  split_ifs
  · exact trivial
  · rw [dispatch]
    rcases Incoming.parse fromStr line with _ | request | response
    · exact trivial
    · refine Prog.Only.bind ?_ fun _ => trivial
      rw [onRequest]
      split_ifs
      · refine Prog.Only.bind ?_ fun _ => trivial
        exact (only_reply _).bind fun _ => ⟨fun _ => by simp, fun _ => trivial⟩
      · exact (only_reply _).bind fun _ => only_sendCurrentWork.bind fun _ => trivial
      · rw [onSubmit, hauth]
        exact (only_reply _).bind fun _ => trivial
      · exact (only_reply _).bind fun _ => trivial
    · exact trivial

theorem authorized_of_submitBlock {result : Option (Session × Bool)}
    (hrun : Prog.Runs (self.turn fromStr difficulty line) trace result) {block : Str}
    {answer : Except Str (Option Str)}
    (h : (⟨.submitBlock block, answer⟩ : Sigma Effect.Answer) ∈ trace) :
    self.authorized = true := by
  by_contra hauth
  exact (only_turn (Bool.eq_false_iff.mpr hauth)).of_runs hrun _ h block rfl

/-! ### The whole conversation -/

theorem asking_of_none (h : requestIn fromStr line = none) : asking fromStr line = none := by
  rw [asking, h]
  rfl

theorem asking_of_some (h : requestIn fromStr line = some request) :
    asking fromStr line = if request.isNotification then none else some request := by
  rw [asking, h, Option.filter_some]
  cases request.isNotification <;> rfl

theorem orderly_cons_of_none {authorized : Bool} {inputs : List (Str × PoolState)}
    (h : requestIn fromStr line = none) :
    Orderly fromStr authorized ((line, pool) :: inputs) ↔ Orderly fromStr authorized inputs := by
  rw [Orderly, h]

theorem orderly_cons_of_some {authorized : Bool} {inputs : List (Str × PoolState)}
    (h : requestIn fromStr line = some request) :
    Orderly fromStr authorized ((line, pool) :: inputs) ↔
      (request.isNotification = false ∧ ¬ Fatal authorized pool request ∧
        Orderly fromStr (authorized || decide (request.method = method.AUTHORIZE)) inputs) ∨
      (request.isNotification = true ∧ Fatal authorized pool request ∧
        ∀ input ∈ inputs, asking fromStr input.1 = none) := by
  rw [Orderly, h]

/-- What is asked has an id. -/
theorem id_of_mem_asking {inputs : List (Str × PoolState)}
    (h : request ∈ inputs.filterMap fun input => asking fromStr input.1) :
    request.id ≠ none := by
  obtain ⟨input, -, hasking⟩ := List.mem_filterMap.mp h
  obtain ⟨-, hid⟩ := Option.filter_eq_some_iff.mp hasking
  rw [Request.isNotification, Bool.not_eq_true', Option.isNone_eq_false_iff] at hid
  exact Option.isSome_iff_ne_none.mp hid

namespace Converses

variable {inputs : List (Str × PoolState)} {traces : List (Prog.Trace Effect.Answer)}

/-- **The replies are as they should be precisely on orderly lines**: a notification that
is answered leaves a response that answers nothing, and a fatal request one that is
missing. -/
theorem replies_iff (h : Converses fromStr difficulty self inputs traces) :
    List.Forall₂ Answers (inputs.filterMap fun input => asking fromStr input.1)
      (traces.flatMap responses) ↔ Orderly fromStr self.authorized inputs := by
  induction h with
  | ends self => simp [Orderly]
  | @reads self self' line pool trace inputs traces hrun hconsistent hrest ih =>
    rw [List.filterMap_cons, List.flatMap_cons]
    rcases turn_reads hrun hconsistent with
      ⟨hnone, rfl, rfl⟩ | ⟨request, hsome, hfatal, hanswered⟩
    · rw [asking_of_none hnone, orderly_cons_of_none hnone, ← ih]
      rfl
    · obtain ⟨response, hresponse, hanswers⟩ := hanswered.replies
      rw [asking_of_some hsome, orderly_cons_of_some hsome, hresponse, ← hanswered.authorized,
        ← ih]
      cases hnotification : request.isNotification with
      | true =>
        -- The response has no id, and each request that is left has one.
        rw [if_pos rfl]
        constructor
        · intro hall
          obtain ⟨asked, _, hasked, -, hcons⟩ := List.forall₂_cons_right_iff.mp hall
          have hid := hasked.id.symm.trans hanswers.id
          rw [Option.isNone_iff_eq_none.mp hnotification] at hid
          exact absurd hid (id_of_mem_asking (hcons ▸ List.mem_cons_self))
        · rintro (⟨htrue, -⟩ | ⟨-, hfatal', -⟩)
          · exact absurd htrue (by simp)
          · exact absurd hfatal' hfatal
      | false =>
        rw [if_neg (by simp), List.singleton_append, List.forall₂_cons]
        constructor
        · exact fun hall => Or.inl ⟨rfl, hfatal, hall.2⟩
        · rintro (⟨-, -, hall⟩ | ⟨htrue, -⟩)
          · exact ⟨hanswers, hall⟩
          · exact absurd htrue (by simp)
  | @stops self line pool trace inputs result hrun hconsistent hstop =>
    obtain ⟨request, hsome, hfatal, hnil⟩ := turn_stops hrun hconsistent hstop
    rw [List.filterMap_cons, List.flatMap_singleton, hnil, List.forall₂_nil_right_iff,
      asking_of_some hsome, orderly_cons_of_some hsome]
    cases hnotification : request.isNotification with
    | true => simp [hfatal, List.filterMap_eq_nil_iff]
    | false => simp [hfatal]

/-- **On orderly lines, nothing else is answered.** -/
theorem silent (h : Converses fromStr difficulty self inputs traces)
    (horderly : Orderly fromStr self.authorized inputs) {k : ℕ}
    (hk : inputs[k]? = some (line, pool)) (hasking : asking fromStr line = none) :
    responses (traces.getD k []) = [] := by
  induction h generalizing k with
  | ends self => exact rfl
  | @reads self self' first pool trace inputs traces hrun hconsistent hrest ih =>
    rcases turn_reads hrun hconsistent with
      ⟨hnone, rfl, rfl⟩ | ⟨request, hsome, hfatal, hanswered⟩
    · cases k with
      | zero => exact rfl
      | succ k => exact ih ((orderly_cons_of_none hnone).mp horderly) hk
    · rcases (orderly_cons_of_some hsome).mp horderly with
        ⟨hnotification, -, hrest⟩ | ⟨-, hfatal', -⟩
      · cases k with
        | zero =>
          obtain ⟨rfl, -⟩ := Prod.mk.inj (Option.some.inj hk)
          rw [asking_of_some hsome, hnotification] at hasking
          exact absurd hasking (by simp)
        | succ k => exact ih (hanswered.authorized ▸ hrest) hk
      · exact absurd hfatal' hfatal
  | @stops self first pool trace inputs result hrun hconsistent hstop =>
    obtain ⟨request, -, -, hnil⟩ := turn_stops hrun hconsistent hstop
    cases k with
    | zero => exact hnil
    | succ k => exact rfl

/-- **A block is submitted for an authorized miner**: one that is from the start, or that
was told so before. -/
theorem authorized_of_submitBlock (h : Converses fromStr difficulty self inputs traces) {k : ℕ}
    {block : Str} {answer : Except Str (Option Str)}
    (hmem : (⟨.submitBlock block, answer⟩ : Sigma Effect.Answer) ∈ traces.getD k []) :
    self.authorized = true ∨ ∃ j < k, ∃ line pool request, inputs[j]? = some (line, pool) ∧
      requestIn fromStr line = some request ∧ request.method = method.AUTHORIZE ∧
        .ok request.id (.bool true) ∈ responses (traces.getD j []) := by
  induction h generalizing k with
  | ends self => exact absurd hmem List.not_mem_nil
  | @reads self self' line pool trace inputs traces hrun hconsistent hrest ih =>
    cases k with
    | zero => exact Or.inl (Session.authorized_of_submitBlock hrun hmem)
    | succ k =>
      rcases ih hmem with hauth | ⟨j, hj, line', pool', request, hline, hrequest, hmethod, htold⟩
      · rcases turn_reads hrun hconsistent with ⟨-, -, rfl⟩ | ⟨request, hsome, -, hanswered⟩
        · exact Or.inl hauth
        · rw [hanswered.authorized, Bool.or_eq_true, decide_eq_true_eq] at hauth
          refine hauth.imp_right fun hmethod => ?_
          exact ⟨0, Nat.succ_pos k, line, pool, request, rfl, hsome, hmethod,
            hanswered.told hmethod⟩
      · exact Or.inr ⟨j + 1, Nat.succ_lt_succ hj, line', pool', request, hline, hrequest,
          hmethod, htold⟩
  | @stops self line pool trace inputs result hrun hconsistent hstop =>
    cases k with
    | zero => exact Or.inl (Session.authorized_of_submitBlock hrun hmem)
    | succ k => exact absurd hmem (by simp)

end Converses

/-- **One reply for each request**, precisely on orderly lines: whatever the lines of a
connection, and whatever the node, the clock and the other threads do meanwhile. -/
theorem oneReply_iff {connectionId : UInt64} {outbound : Channel}
    {inputs : List (Str × PoolState)} {traces : List (Prog.Trace Effect.Answer)}
    (h : Converses fromStr difficulty (.new connectionId outbound) inputs traces) :
    OneReply fromStr inputs traces ↔ Orderly fromStr false inputs := by
  constructor
  · exact fun hreply => h.replies_iff.mp hreply.replies
  · intro horderly
    refine ⟨h.replies_iff.mpr horderly, fun k line pool hk hasking => h.silent horderly hk hasking,
      fun k block answer hmem => ?_⟩
    exact (h.authorized_of_submitBlock hmem).resolve_left (by simp [new])

/-! ### Two conversations -/

/-- A subscription without an id, as a line. -/
def noteText : Str := "\x7b\"id\":null,\"method\":\"mining.subscribe\",\"params\":[]\x7d".toList

/-- The reading of that line, and of those of a handshake. -/
def readNote (s : Str) : Option Value :=
  if s = noteText then
    some (.object [("id".toList, .null), ("method".toList, .string method.SUBSCRIBE),
      ("params".toList, .array [])])
  else readHandshake s

/-- What the first session of a pool does at a subscription with this id. -/
def subscribeTrace (id : Option UInt64) : Prog.Trace Effect.Answer :=
  [⟨.send (.response (.ok id (new 1 0).subscribeResult)), ()⟩, ⟨.subscribe 1 0, ()⟩]

/-- What it does at an authorization before the first job. -/
def authorizeTrace (id : Option UInt64) : Prog.Trace Effect.Answer :=
  [⟨.send (.response (.ok id (.bool true))), ()⟩, ⟨.currentJob, (none : Option ActiveJob)⟩]

theorem consistent_subscribeTrace (id : Option UInt64) :
    Consistent .new (subscribeTrace id) := by
  constructor <;> simp [subscribeTrace]

theorem consistent_authorizeTrace (id : Option UInt64) :
    Consistent .new (authorizeTrace id) := by
  constructor <;> simp [authorizeTrace, PoolState.new, PoolState.currentJob]

/-- A handshake gets its two replies. -/
theorem oneReply_handshake :
    OneReply readNote [(bareText method.SUBSCRIBE, .new), (bareText method.AUTHORIZE, .new)]
      [subscribeTrace (some 1), authorizeTrace (some 1)] := by
  have hconverses : Converses readNote (fun _ => .null) (.new 1 0)
      [(bareText method.SUBSCRIBE, .new), (bareText method.AUTHORIZE, .new)]
      [subscribeTrace (some 1), authorizeTrace (some 1)] :=
    .reads (.op (.op (.ret _))) (consistent_subscribeTrace _)
      (.reads (.op (.op (.ret _))) (consistent_authorizeTrace _) (.ends _))
  refine (oneReply_iff hconverses).mpr ?_
  have hsubscribe : requestIn readNote (bareText method.SUBSCRIBE) =
      some ⟨some 1, method.SUBSCRIBE, .array []⟩ := rfl
  have hauthorize : requestIn readNote (bareText method.AUTHORIZE) =
      some ⟨some 1, method.AUTHORIZE, .array []⟩ := rfl
  rw [orderly_cons_of_some hsubscribe, orderly_cons_of_some hauthorize]
  exact Or.inl ⟨rfl, fun hfatal => absurd hfatal.1 (by decide), Or.inl ⟨rfl,
    fun hfatal => absurd hfatal.1 (by decide), trivial⟩⟩

/-- **A notification is answered**, with its null id. -/
theorem not_oneReply_note :
    Converses readNote (fun _ => .null) (.new 1 0) [(noteText, .new)] [subscribeTrace none] ∧
      ¬ OneReply readNote [(noteText, .new)] [subscribeTrace none] := by
  constructor
  · exact .reads (.op (.op (.ret _))) (consistent_subscribeTrace _) (.ends _)
  · intro h
    have hasking : asking readNote noteText = none := rfl
    have hnil := h.silent 0 noteText .new rfl hasking
    exact absurd hnil (by simp [subscribeTrace, responseOf])

end Session

end SoloMiner
