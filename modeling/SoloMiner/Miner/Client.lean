import SoloMiner.Miner.Handshake
import SoloMiner.Miner.Shares
import SoloMiner.Stratum.Wire

/-!
# The main thread of the miner

The main thread subscribes, is authorized, starts the mining threads, and from then on
installs the jobs that the pool sends. What it does with a line depends on how far it has
come: in wait of an answer it drops everything else, jobs included, and only a miner that
has started minds the jobs (`SoloMiner.Client.receive`).

The loop that waits for an answer is one such line after the other
(`SoloMiner.waitForResponse_cons`).
-/

namespace SoloMiner

open Json

/-! ### What the miner says -/

/-- The first request. -/
def subscribeRequest : Request :=
  .call 1 method.SUBSCRIBE (.array [.string "mac-miner/0.1.0".toList])

/-- The second request. -/
def authorizeRequest (worker : Str) : Request :=
  .call 2 method.AUTHORIZE (.array [.string worker, .string ['x']])

/-- The request that submits a share under its id. -/
def submitRequest (entry : UInt64 × Share) : Request :=
  .call entry.1 method.SUBMIT entry.2.toSubmitParams

/-! ### The answer that is waited for -/

/-- What a message says to a request, if it is the answer. -/
def answerTo (id : UInt64) : Incoming → Option (Checked HandshakeError Value)
  | .response response =>
    if response.id = some id then
      some (match response.error with
        | some error => .err (.refused error)
        | none => .ok response.result)
    else none
  | .request _ => none

/-- Waiting for an answer goes line by line. -/
theorem waitForResponse_cons (id : UInt64) (message : Incoming) (rest : List Incoming) :
    waitForResponse id (message :: rest) =
      (answerTo id message).getD (waitForResponse id rest) := by
  cases message with
  | request r => rfl
  | response r =>
    rw [waitForResponse, answerTo]
    split_ifs <;> rfl

/-! ### The main thread -/

/-- Where the main thread stands. -/
inductive ClientPhase where
  /-- In wait of the answer to the subscription. -/
  | subscribing
  /-- In wait of the answer to the authorization. -/
  | authorizing (extranonce1 : Bytes) (extranonce2Size : ℕ)
  /-- In the loop over the messages of the pool. -/
  | mining (extranonce1 : Bytes) (extranonce2Size : ℕ)
  /-- The process has ended. -/
  | ended
  deriving DecidableEq

/-- The miner's process: its main thread and its mining threads. -/
structure Client where
  phase : ClientPhase
  miner : Miner
  /-- The requests of the handshake so far, the latest first. -/
  handshake : List Request

namespace Client

/-- A miner that has connected, and asked for a subscription. -/
def new : Client := ⟨.subscribing, .init, [subscribeRequest]⟩

/-- All requests so far, the latest first. -/
def said (self : Client) : List Request := self.miner.outbound.map submitRequest ++ self.handshake

/-- What the main thread does with a message, if it is there to take it: it is not while it
is setting a work. -/
def receive (worker : Str) (self : Client) (message : Incoming) : Option Client :=
  match self.phase with
  | .subscribing =>
    match answerTo 1 message with
    | none => some self
    | some answer =>
      match answer >>= parseSubscription with
      | .ok (extranonce1, extranonce2Size) =>
        some { self with
          phase := .authorizing extranonce1 extranonce2Size
          handshake := authorizeRequest worker :: self.handshake }
      | .error _ => some { self with phase := .ended }
  | .authorizing extranonce1 extranonce2Size =>
    match answerTo 2 message with
    | none => some self
    | some (.ok (.bool true)) => some { self with phase := .mining extranonce1 extranonce2Size }
    | some _ => some { self with phase := .ended }
  | .mining extranonce1 extranonce2Size =>
    if self.miner.setting then none
    else
      match message with
      | .request request =>
        if request.method = method.NOTIFY then
          match Job.fromNotifyParams request.params with
          | .ok job =>
            (Miner.step worker extranonce1 extranonce2Size self.miner (.install job)).map
              fun miner => { self with miner := miner }
          -- A bad job is printed and dropped.
          | .error (.error _) => some self
          | .error .panic => some { self with phase := .ended }
        else some self
      | .response _ => some self
  | .ended => none

/-- What the process does besides: the main thread counts the work it has stored, or a
mining thread moves. -/
def act (worker : Str) (self : Client) (action : MinerAction) : Option Client :=
  match self.phase with
  | .mining extranonce1 extranonce2Size =>
    match action with
    | .install _ => none
    | action => (Miner.step worker extranonce1 extranonce2Size self.miner action).map
        fun miner => { self with miner := miner }
  | _ => none

/-! ### What a message does -/

variable {worker : Str} {self self' : Client} {message : Incoming}

/-- **In wait of the first answer** a message is dropped, or it ends the miner, or it is the
subscription. -/
theorem receive_subscribing (hphase : self.phase = .subscribing)
    (h : self.receive worker message = some self') :
    (answerTo 1 message = none ∧ self' = self) ∨
      ∃ answer, answerTo 1 message = some answer ∧
        ((∃ extranonce1 extranonce2Size,
          answer >>= parseSubscription = .ok (extranonce1, extranonce2Size) ∧
            self' = { self with
              phase := .authorizing extranonce1 extranonce2Size
              handshake := authorizeRequest worker :: self.handshake }) ∨
          (∃ error, answer >>= parseSubscription = .error error) ∧
            self' = { self with phase := .ended }) := by
  rw [receive, hphase] at h
  dsimp only at h
  cases hanswer : answerTo 1 message with
  | none =>
    rw [hanswer] at h
    exact Or.inl ⟨rfl, (Option.some.inj h).symm⟩
  | some answer =>
    rw [hanswer] at h
    dsimp only at h
    refine Or.inr ⟨answer, rfl, ?_⟩
    split at h
    · next extranonce1 extranonce2Size hparse =>
      exact Or.inl ⟨extranonce1, extranonce2Size, hparse, (Option.some.inj h).symm⟩
    · next error hparse => exact Or.inr ⟨⟨error, hparse⟩, (Option.some.inj h).symm⟩

/-- **In wait of the second answer** a message is dropped, or it ends the miner, or it says
yes. -/
theorem receive_authorizing {extranonce1 : Bytes} {extranonce2Size : ℕ}
    (hphase : self.phase = .authorizing extranonce1 extranonce2Size)
    (h : self.receive worker message = some self') :
    (answerTo 2 message = none ∧ self' = self) ∨
      (answerTo 2 message = some (.ok (.bool true)) ∧
        self' = { self with phase := .mining extranonce1 extranonce2Size }) ∨
      ∃ answer, answerTo 2 message = some answer ∧ answer ≠ .ok (.bool true) ∧
        self' = { self with phase := .ended } := by
  rw [receive, hphase] at h
  dsimp only at h
  split at h
  · next hanswer => exact Or.inl ⟨hanswer, (Option.some.inj h).symm⟩
  · next hanswer => exact Or.inr (Or.inl ⟨hanswer, (Option.some.inj h).symm⟩)
  · next answer hne hanswer =>
    refine Or.inr (Or.inr ⟨answer, hanswer, fun heq => ?_, (Option.some.inj h).symm⟩)
    exact hne heq

/-- **In the loop** a job is installed, a job that makes decoding panic ends the miner, and
anything else is dropped. -/
theorem receive_mining {extranonce1 : Bytes} {extranonce2Size : ℕ}
    (hphase : self.phase = .mining extranonce1 extranonce2Size)
    (h : self.receive worker message = some self') :
    self.miner.setting = false ∧
      ((∃ request job miner, message = .request request ∧ request.method = method.NOTIFY ∧
        Job.fromNotifyParams request.params = .ok job ∧
          Miner.step worker extranonce1 extranonce2Size self.miner (.install job) = some miner ∧
            self' = { self with miner := miner }) ∨
      (∃ request, message = .request request ∧ request.method = method.NOTIFY ∧
        Job.fromNotifyParams request.params = .panic ∧ self' = { self with phase := .ended }) ∨
      (∀ request, message = .request request → request.method = method.NOTIFY →
        ∃ error, Job.fromNotifyParams request.params = .err error) ∧ self' = self) := by
  rw [receive, hphase] at h
  dsimp only at h
  split_ifs at h with hsetting
  refine ⟨(Bool.not_eq_true _).mp hsetting, ?_⟩
  cases message with
  | response response => exact Or.inr (Or.inr ⟨nofun, (Option.some.inj h).symm⟩)
  | request request =>
    dsimp only at h
    split_ifs at h with hmethod
    · split at h
      · next job hjob =>
        obtain ⟨miner, hstep, rfl⟩ := Option.map_eq_some_iff.mp h
        exact Or.inl ⟨request, job, miner, rfl, hmethod, hjob, hstep, by rw [hphase]⟩
      · next error hjob =>
        refine Or.inr (Or.inr ⟨fun request' heq _ => ?_, (Option.some.inj h).symm⟩)
        obtain rfl := Incoming.request.inj heq
        exact ⟨error, hjob⟩
      · next hjob =>
        exact Or.inr (Or.inl ⟨request, rfl, hmethod, hjob, (Option.some.inj h).symm⟩)
    · refine Or.inr (Or.inr ⟨fun request' heq hnotify => ?_, (Option.some.inj h).symm⟩)
      obtain rfl := Incoming.request.inj heq
      exact absurd hnotify hmethod

/-- What the process does besides is a step of the miner that installs nothing. -/
theorem act_eq_some {action : MinerAction} (h : self.act worker action = some self') :
    ∃ extranonce1 extranonce2Size miner, self.phase = .mining extranonce1 extranonce2Size ∧
      (∀ job, action ≠ .install job) ∧
        Miner.step worker extranonce1 extranonce2Size self.miner action = some miner ∧
          self' = { self with miner := miner } := by
  rw [act] at h
  split at h
  · next extranonce1 extranonce2Size hphase =>
    cases action with
    | install job => exact absurd h (by simp)
    | bump =>
      obtain ⟨miner, hstep, rfl⟩ := Option.map_eq_some_iff.mp h
      exact ⟨extranonce1, extranonce2Size, miner, hphase, nofun, hstep, by rw [hphase]⟩
    | run i =>
      obtain ⟨miner, hstep, rfl⟩ := Option.map_eq_some_iff.mp h
      exact ⟨extranonce1, extranonce2Size, miner, hphase, nofun, hstep, by rw [hphase]⟩
  · exact absurd h (by simp)

end Client

end SoloMiner
