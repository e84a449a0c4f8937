import SoloMiner.Pool.Session

/-!
# The handshake, and what is read off the wire

A miner subscribes and is authorized before it mines, and waits for the answer to each
of the two requests: whatever else the pool sends in the meantime is skipped
(`SoloMiner.extranonce_of_handshake`). The answer to the first tells it the pool's half
of the extranonce, and how many bytes of its own to add.

`SoloMiner.wire_decodes` says that what either side encodes the other decodes: the jobs,
the shares, and the subscription.
-/

namespace SoloMiner

open Json

/-- What can go wrong in the handshake. It is printed, and the miner ends. -/
inductive HandshakeError where
  /-- The pool did not answer in time, or is gone. -/
  | noAnswer
  /-- The pool returned an error. -/
  | refused (error : StratumError)
  /-- The subscribe reply is not an array. -/
  | notAnArray
  /-- It has fewer than three elements. -/
  | tooShort (length : ℕ)
  /-- Its second element is not a string. -/
  | nonStringExtranonce1
  /-- The string is not hex. -/
  | hex (error : Hex.HexError)
  /-- Its third element is not a number. -/
  | nonNumericExtranonce2Size

/-- Reads until the response with the id arrives, and discards what comes before. The
list is what arrives in time. -/
def waitForResponse (id : UInt64) : List Incoming → Checked HandshakeError Value
  | [] => .err .noAnswer
  | .response response :: rest =>
    if response.id = some id then
      match response.error with
      | some error => .err (.refused error)
      | none => .ok response.result
    else waitForResponse id rest
  | .request _ :: rest => waitForResponse id rest

/-- Pulls the extranonce1 and the size of the extranonce2 out of the subscribe reply. -/
def parseSubscription (result : Value) : Checked HandshakeError (Bytes × ℕ) := do
  let array ← Checked.okOr .notAnArray result.asArray
  if array.length < 3 then .err (.tooShort array.length)
  else do
    let text ← stringAt (fun _ => HandshakeError.nonStringExtranonce1) array 1
    let extranonce1 ← Checked.mapErr .hex (Hex.decode text)
    let extranonce2Size ← match array[2]? with
      | none => .panic
      | some value => Checked.okOr .nonNumericExtranonce2Size value.asU64
    pure (extranonce1, extranonce2Size.toNat)

/-! ### What is sent is what is read -/

/-- **The answer is found**, whatever precedes it, as long as that does not answer the
same request. -/
theorem waitForResponse_of_reply {id : UInt64} {earlier later : List Incoming} {result : Value}
    (h : ∀ response, Incoming.response response ∈ earlier → response.id ≠ some id) :
    waitForResponse id (earlier ++ .response (.ok (some id) result) :: later) = .ok result := by
  induction earlier with
  | nil =>
    rw [List.nil_append, waitForResponse]
    exact if_pos rfl
  | cons line earlier ih =>
    have hrest := ih fun response hmem => h response (List.mem_cons_of_mem _ hmem)
    cases line with
    | request request => exact hrest
    | response response =>
      rw [List.cons_append, waitForResponse, if_neg (h response List.mem_cons_self)]
      exact hrest

/-- The reply to a subscription is read back. -/
theorem parseSubscription_subscribeReply (connectionId : UInt64) (extranonce1 : Bytes) :
    parseSubscription (Session.subscribeReply connectionId extranonce1) =
      .ok (extranonce1, EXTRANONCE2_SIZE) := by
  obtain ⟨array, harray⟩ :
      ∃ array, Session.subscribeReply connectionId extranonce1 = .array array := ⟨_, rfl⟩
  have hitems := harray
  rw [Session.subscribeReply, Value.array.injEq] at hitems
  have hlen : ¬ array.length < 3 := by
    rw [← hitems]
    simp
  have htext : array[1]? = some (.string (Hex.encode extranonce1)) := by
    rw [← hitems]
    rfl
  have hsize : array[2]? = some (.number (.posInt (UInt64.ofNat EXTRANONCE2_SIZE))) := by
    rw [← hitems]
    rfl
  rw [harray, parseSubscription, Value.asArray_array, Checked.okOr_some, Checked.ok_bind,
    if_neg hlen, stringAt_string htext, Checked.ok_bind, Hex.decode_encode, Checked.mapErr_ok,
    Checked.ok_bind, hsize]
  rfl

/-- So a miner that has subscribed learns its half of the extranonce, whatever the pool
sends before it answers. -/
theorem extranonce_of_handshake {id connectionId : UInt64} {extranonce1 : Bytes}
    {earlier later : List Incoming}
    (h : ∀ response, Incoming.response response ∈ earlier → response.id ≠ some id) :
    waitForResponse id (earlier ++
        .response (.ok (some id) (Session.subscribeReply connectionId extranonce1)) :: later) >>=
      parseSubscription = .ok (extranonce1, EXTRANONCE2_SIZE) := by
  rw [waitForResponse_of_reply h, Checked.ok_bind, parseSubscription_subscribeReply]

/-- **Wire messages decode to what was encoded**: every job, every share, and the reply
that a session sends to a subscription, whatever the pool's half of the extranonce. -/
theorem wire_decodes :
    (∀ job : Job, Job.fromNotifyParams job.toNotifyParams = .ok job) ∧
      (∀ share : Share, Share.fromSubmitParams share.toSubmitParams = .ok share) ∧
        (∀ (connectionId : UInt64) (extranonce1 : Bytes),
          parseSubscription (Session.subscribeReply connectionId extranonce1) =
            .ok (extranonce1, EXTRANONCE2_SIZE)) ∧
          ∀ (session : Session) (request : Request),
            Prog.Runs (session.onSubscribe request)
              [⟨.send (.response (.ok request.id (Session.subscribeReply session.connectionId
                  session.extranonce1.toList))), ()⟩,
                ⟨.subscribe session.connectionId session.outbound, ()⟩] (some ()) :=
  ⟨Job.fromNotifyParams_toNotifyParams, Share.fromSubmitParams_toSubmitParams,
    parseSubscription_subscribeReply, fun _ _ => Session.runs_onSubscribe_iff.mpr ⟨rfl, rfl⟩⟩

end SoloMiner
