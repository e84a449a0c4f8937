import SoloMiner.Pool.Validate

/-!
# One connected miner

A session answers the lines of one miner: it subscribes it, authorizes it, and checks
its shares. Its replies go to the channel of the connection, and so does the current
job once the miner is authorized.

A line is whatever the miner sends, and the text of a share reaches the hex decoder and
the coinbase as it is. Which lines a session survives is said exactly by
`SoloMiner.Session.survives_iff`: the third parameter of a share must not cut a
character in two, and a share that names a known job must not carry more than 516 bytes
of extranonce; and for malformed shares to be refused, too, one of the right width must
be written without a plus sign.
-/

namespace SoloMiner

open Json

/-- How many extranonce bytes the miner supplies. -/
def EXTRANONCE2_SIZE : ℕ := 4

/-- What a session knows of its connection. -/
structure Session where
  /-- The id of the connection. -/
  connectionId : UInt64
  /-- The pool's half of the extranonce. -/
  extranonce1 : ByteArr 4
  /-- Whether the miner was authorized. -/
  authorized : Bool
  /-- The channel of the connection. -/
  outbound : Channel

namespace Session

/-- The session that `handle` starts: the low 32 bits of the connection id, highest byte
first, are its half of the extranonce. -/
def new (connectionId : UInt64) (outbound : Channel) : Session where
  connectionId := connectionId
  extranonce1 := toArr (Base256.toBE 4 connectionId.toUInt32.toNat) (Base256.length_toBE _ _)
  authorized := false
  outbound := outbound

/-- Puts a response on the channel. -/
def reply (response : Response) : PoolProg Unit := perform (.send (.response response))

/-- Puts a notification on the channel. -/
def notify (request : Request) : PoolProg Unit := perform (.send (.request request))

/-- The result of `mining.subscribe`: the subscription ids, which nothing uses, and the
two parts of the extranonce. -/
def subscribeReply (connectionId : UInt64) (extranonce1 : Bytes) : Value :=
  let subscriptionId := Value.string (Hex.fixedHex 16 connectionId.toNat)
  .array [
    .array [
      .array [.string method.SET_DIFFICULTY, subscriptionId],
      .array [.string method.NOTIFY, subscriptionId]],
    .string (Hex.encode extranonce1),
    .number (.posInt (UInt64.ofNat EXTRANONCE2_SIZE))]

@[inherit_doc subscribeReply]
def subscribeResult (self : Session) : Value :=
  subscribeReply self.connectionId self.extranonce1.toList

/-- `mining.subscribe`. -/
def onSubscribe (self : Session) (request : Request) : PoolProg Unit := do
  reply (.ok request.id self.subscribeResult)
  perform (.subscribe self.connectionId self.outbound)

/-- Sends the difficulty and the current job to this miner. What a difficulty is as a
number is left open. -/
def sendCurrentWork (difficulty : UInt32 → Value) : PoolProg Unit := do
  match ← perform .currentJob with
  | none => pure ()
  | some active => do
    notify (.notification method.SET_DIFFICULTY (.array [difficulty active.job.bits]))
    notify (.notification method.NOTIFY active.job.toNotifyParams)

/-- `mining.authorize`: any worker name will do. -/
def onAuthorize (difficulty : UInt32 → Value) (self : Session) (request : Request) :
    PoolProg Session := do
  reply (.ok request.id (.bool true))
  sendCurrentWork difficulty
  pure { self with authorized := true }

/-- What a miner is told about its share, and whether the poller is woken. -/
def answerShare (id : Option UInt64) : Except ValidationError Verdict → PoolProg Unit
  | .ok (.blockAccepted _ _) => do
    reply (.ok id (.bool true))
    perform .requestRefresh
  | .ok (.blockStale _ _) => do
    reply (.ok id (.bool true))
    perform .requestRefresh
  | .ok (.blockRejected reason _) =>
    reply (.failure id (.other ("node rejected block: ".toList ++ reason)))
  | .ok (.share _ _) => reply (.ok id (.bool true))
  | .error error => reply (.failure id (.other error.display))

/-- The part of `on_submit` after the share is decoded. -/
def onShare (self : Session) (id : Option UInt64) (share : Share) : PoolProg Unit := do
  match ← perform (.jobById share.jobId) with
  | none => reply (.failure id .jobNotFound)
  | some active => do
    let outcome ← check active share self.extranonce1.toList
    answerShare id outcome

/-- `mining.submit`. -/
def onSubmit (self : Session) (request : Request) : PoolProg Unit :=
  if !self.authorized then reply (.failure request.id .unauthorized)
  else
    match Share.fromSubmitParams request.params with
    | .ok share => self.onShare request.id share
    | .error (.error error) => reply (.failure request.id (.other error.display))
    | .error .panic => .panic

/-- The methods of `dispatch`. -/
def onRequest (difficulty : UInt32 → Value) (self : Session) (request : Request) :
    PoolProg Session :=
  if request.method = method.SUBSCRIBE then do
    self.onSubscribe request
    pure self
  else if request.method = method.AUTHORIZE then self.onAuthorize difficulty request
  else if request.method = method.SUBMIT then do
    self.onSubmit request
    pure self
  else do
    reply (.failure request.id (.other ("unsupported method ".toList ++ request.method)))
    pure self

/-- Handles one line. The result is false when the connection should close. -/
def dispatch (fromStr : Str → Option Value) (difficulty : UInt32 → Value) (self : Session)
    (line : Str) : PoolProg (Session × Bool) :=
  match Incoming.parse fromStr line with
  | some (.request request) => do
    let self ← self.onRequest difficulty request
    pure (self, true)
  | some (.response _) => pure (self, true)
  | none => pure (self, true)

/-! ### What the handlers do -/

variable {self : Session} {request : Request} {difficulty : UInt32 → Value}
  {trace : Prog.Trace Effect.Answer}

/-- A subscription is one reply, and then one registration of the connection itself. -/
theorem runs_onSubscribe_iff {result : Option Unit} :
    Prog.Runs (self.onSubscribe request) trace result ↔
      trace = [⟨.send (.response (.ok request.id self.subscribeResult)), ()⟩,
        ⟨.subscribe self.connectionId self.outbound, ()⟩] ∧ result = some () := by
  constructor
  · intro hrun
    obtain ⟨_, rest, rfl, hrest⟩ := Prog.runs_perform_bind_iff.mp hrun
    obtain ⟨_, last, rfl, hlast⟩ := Prog.runs_op_iff.mp hrest
    obtain ⟨rfl, rfl⟩ := Prog.runs_ret_iff.mp hlast
    exact ⟨rfl, rfl⟩
  · rintro ⟨rfl, rfl⟩
    exact .op (.op (.ret ()))

/-- **An authorization** is one reply and one reading of the current job, and, if there
is one, the difficulty and the job that was read. -/
theorem runs_onAuthorize_iff {result : Option Session} :
    Prog.Runs (self.onAuthorize difficulty request) trace result ↔
      result = some { self with authorized := true } ∧ ∃ job : Option ActiveJob,
        trace = ⟨.send (.response (.ok request.id (.bool true))), ()⟩ :: ⟨.currentJob, job⟩ ::
          match job with
          | none => []
          | some active => [
            ⟨.send (.request (.notification method.SET_DIFFICULTY
              (.array [difficulty active.job.bits]))), ()⟩,
            ⟨.send (.request (.notification method.NOTIFY active.job.toNotifyParams)), ()⟩] := by
  constructor
  · intro hrun
    obtain ⟨_, afterReply, rfl, hafter⟩ := Prog.runs_perform_bind_iff.mp hrun
    rcases Prog.runs_bind_iff.mp hafter with ⟨first, rest, _, rfl, hwork, hreturn⟩ | ⟨-, hwork⟩
    · obtain ⟨rfl, rfl⟩ := Prog.runs_pure_iff.mp hreturn
      obtain ⟨job, _, rfl, hsend⟩ := Prog.runs_perform_bind_iff.mp hwork
      refine ⟨rfl, job, ?_⟩
      cases job with
      | none =>
        obtain ⟨rfl, -⟩ := Prog.runs_pure_iff.mp hsend
        rfl
      | some active =>
        obtain ⟨_, _, rfl, hnotify⟩ := Prog.runs_perform_bind_iff.mp hsend
        obtain ⟨_, _, rfl, hlast⟩ := Prog.runs_op_iff.mp hnotify
        obtain ⟨rfl, -⟩ := Prog.runs_ret_iff.mp hlast
        rfl
    · obtain ⟨job, _, rfl, hsend⟩ := Prog.runs_perform_bind_iff.mp hwork
      cases job with
      | none => exact absurd (Prog.runs_pure_iff.mp hsend).2 (by simp)
      | some active =>
        obtain ⟨_, _, -, hnotify⟩ := Prog.runs_perform_bind_iff.mp hsend
        obtain ⟨_, _, -, hlast⟩ := Prog.runs_op_iff.mp hnotify
        exact absurd (Prog.runs_ret_iff.mp hlast).2 (by simp)
  · rintro ⟨rfl, job, rfl⟩
    cases job with
    | none => exact .op (.op (.ret _))
    | some active => exact .op (.op (.op (.op (.ret _))))

theorem only_check (active : ActiveJob) (share : Share) (extranonce1 : Bytes) :
    (check active share extranonce1).Only Effect.OnNode := by
  refine Prog.Only.attempt fun rebuilt => ?_
  dsimp only
  split_ifs
  · refine Prog.Only.attempt fun block => Prog.Only.bind ?_ fun _ => ⟨trivial, fun _ => trivial⟩
    exact (only_hold active.submitNotBefore).mono fun o ho => by cases o <;> trivial
  · exact trivial

end Session

end SoloMiner
