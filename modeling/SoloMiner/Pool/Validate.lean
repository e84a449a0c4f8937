import SoloMiner.Mining.Block
import SoloMiner.Pool.State

/-!
# Checking a share

The pool rebuilds what the miner claims to have hashed: the coinbase for the full
extranonce, cross-checked against the halves that were sent, and the header on top of
it. A hash that meets the network target is a block, which is assembled and submitted,
after a wait if its timestamp is still ahead of the clock.

For a coherent job and an extranonce of the right width nothing of this fails, and the
header is the one the miner built from the job it was sent
(`SoloMiner.rebuild_of_coherent`). Conversely, whatever is rebuilt at all was rebuilt
for an extranonce of the right width (`SoloMiner.rebuild_eq_ok`), and what is submitted
is the block of a rebuilt header that meets the target (`SoloMiner.reaches_check_iff`).
-/

namespace SoloMiner

/-- Longest wait for a timestamp to become legal, in seconds. -/
def MAX_SUBMISSION_HOLD : ℤ := 30 * 60

/-- What the pool made of a share. -/
inductive Verdict where
  /-- The block was accepted. -/
  | blockAccepted (hash : Sha256dHash) (height : UInt32)
  /-- The block was well-formed but did not become the chain tip. -/
  | blockStale (reason : Str) (hash : Sha256dHash)
  /-- The node refused the block. -/
  | blockRejected (reason : Str) (hash : Sha256dHash)
  /-- A valid share that is not a block. -/
  | share (hash : Sha256dHash) (zeroBits : ℕ)
  deriving DecidableEq

/-- Why a share could not be checked. -/
inductive ValidationError where
  /-- The coinbase could not be rebuilt from the job. -/
  | rebuild (message : Str)
  /-- Splicing the sent halves disagreed with building the coinbase directly. -/
  | coinbaseMismatch
  /-- Talking to the node failed. -/
  | rpc (message : Str)
  deriving DecidableEq

/-- The text of a validation error. -/
def ValidationError.display : ValidationError → Str
  | .rebuild message => "cannot rebuild the share's block: ".toList ++ message
  | .coinbaseMismatch => ("the coinbase halves we sent do not splice back into the coinbase we " ++
    "build — the job's split is wrong").toList
  | .rpc message => "bitcoind call failed: ".toList ++ message

/-- The header that `check` builds on a coinbase: the miner's time and nonce, the rest
from the job. -/
def shareHeader (active : ActiveJob) (share : Share) (merkleRoot : Sha256dHash) : BlockHeader where
  version := active.job.version
  prevBlock := active.job.prevHash
  merkleRoot := merkleRoot
  time := share.time
  bits := active.job.bits
  nonce := share.nonce

/-- The first part of `check`: the coinbase, the cross-check of the splice, the header. -/
def rebuild (active : ActiveJob) (share : Share) (extranonce1 : Bytes) :
    Checked ValidationError (Transaction × BlockHeader) := do
  let coinbase ← Checked.mapErr
    (fun error => .rebuild ("cannot build coinbase: ".toList ++ CoinbaseError.display error))
    (active.coinbase (extranonce1 ++ share.extranonce2))
  let spliced := active.job.coinbase extranonce1 share.extranonce2
  if spliced ≠ coinbase.serializeLegacy then .err .coinbaseMismatch
  else do
    let merkleRoot ← Checked.expect (Merkle.merkleRoot (coinbase.txid :: active.txids))
    pure (coinbase, shareHeader active share merkleRoot)

/-- The block around a coinbase. -/
def assemble (active : ActiveJob) (coinbase : Transaction) : Checked ValidationError BlockBuilder :=
  Checked.mapErr (fun error => .rebuild (BlockError.display error))
    (BlockBuilder.new coinbase active.transactions active.txids)

/-- Waits until a block may be submitted, but not forever. The source subtracts two `i64`s: a
clock is not negative, and the window of a 32-bit timestamp opens after `-7200` and before
`2^32`, so that the difference is one of integers for any clock that is not within two hours
of `2^63` seconds. -/
def hold (submitNotBefore : Option ℤ) : PoolProg Unit :=
  match submitNotBefore with
  | none => pure ()
  | some notBefore => do
    let now ← perform .unixNow
    let wait := notBefore - now
    if wait > 0 then perform (.sleep (min wait MAX_SUBMISSION_HOLD)) else pure ()

/-- What the node's answer to a block means. -/
def verdictOf (active : ActiveJob) (hash : Sha256dHash) :
    Except Str (Option Str) → Except ValidationError Verdict
  | .error message => .error (.rpc message)
  | .ok none => .ok (.blockAccepted hash active.height)
  | .ok (some reason) =>
    -- These two mean "valid, but not the tip" rather than "malformed".
    if reason = "inconclusive".toList ∨ reason = "duplicate".toList then
      .ok (.blockStale reason hash)
    else .ok (.blockRejected reason hash)

/-- The last part of `check`: a block is assembled, held back and submitted. -/
def submitShare (active : ActiveJob) (coinbase : Transaction) (header : BlockHeader) :
    PoolProg (Except ValidationError Verdict) :=
  .attempt (assemble active coinbase) fun block => do
    let raw := block.serialize header
    hold active.submitNotBefore
    let answer ← perform (.submitBlock (Hex.encode raw))
    pure (verdictOf active header.hash answer)

/-- Rebuilds and checks a share. -/
def check (active : ActiveJob) (share : Share) (extranonce1 : Bytes) :
    PoolProg (Except ValidationError Verdict) :=
  .attempt (rebuild active share extranonce1) fun (coinbase, header) =>
    let hash := header.hash
    if active.networkTarget.isMetBy hash then submitShare active coinbase header
    else pure (.ok (.share hash hash.leadingZeroBits))

/-! ### What is rebuilt -/

/-- What a rebuilt share is: the coinbase that the pool builds, which the sent halves
splice into, and the header over it. -/
theorem rebuild_eq_ok {active : ActiveJob} {share : Share} {extranonce1 : Bytes}
    {coinbase : Transaction} {header : BlockHeader} :
    rebuild active share extranonce1 = .ok (coinbase, header) ↔
      active.coinbase (extranonce1 ++ share.extranonce2) = .ok coinbase ∧
        active.job.coinbase extranonce1 share.extranonce2 = coinbase.serializeLegacy ∧
          ∃ merkleRoot, Merkle.merkleRoot (coinbase.txid :: active.txids) = some merkleRoot ∧
            header = shareHeader active share merkleRoot := by
  rw [rebuild, Checked.bind_eq_ok]
  constructor
  · rintro ⟨built, hbuilt, h⟩
    rw [Checked.mapErr_eq_ok] at hbuilt
    dsimp only at h
    split_ifs at h with hsplice
    · exact absurd h (by simp [Checked.err])
    · obtain ⟨merkleRoot, hroot, h⟩ := Checked.bind_eq_ok.mp h
      obtain ⟨rfl, rfl⟩ := Prod.mk.inj (Except.ok.inj h)
      exact ⟨hbuilt, not_not.mp hsplice, merkleRoot, Checked.expect_eq_ok.mp hroot, rfl⟩
  · rintro ⟨hbuilt, hsplice, merkleRoot, hroot, rfl⟩
    refine ⟨coinbase, Checked.mapErr_eq_ok.mpr hbuilt, ?_⟩
    rw [if_neg (not_not.mpr hsplice), hroot]
    rfl

/-- **Rebuilding panics** only where building the coinbase does. -/
theorem rebuild_eq_panic_iff {active : ActiveJob} {share : Share} {extranonce1 : Bytes} :
    rebuild active share extranonce1 = .panic ↔
      520 < (extranonce1 ++ share.extranonce2).length := by
  rw [← active.coinbase_eq_panic_iff, rebuild, Checked.bind_eq_panic, Checked.mapErr_eq_panic]
  refine or_iff_left ?_
  rintro ⟨coinbase, -, h⟩
  dsimp only at h
  split_ifs at h
  · exact Checked.err_ne_panic h
  · rw [Merkle.merkleRoot_cons coinbase.txid .ZERO, Checked.expect_some, Checked.ok_bind] at h
    exact Checked.ok_ne_panic h

namespace ActiveJob.Coherent

variable {active : ActiveJob} {share : Share} {extranonce1 : Bytes}

/-- The halves of a coherent job around an extranonce. -/
theorem jobCoinbase (h : active.Coherent) (extranonce1 extranonce2 : Bytes) :
    active.job.coinbase extranonce1 extranonce2 =
      active.beforeExtranonce ++ ((extranonce1 ++ extranonce2) ++ active.afterExtranonce) := by
  rw [Job.coinbase, h.coinbasePrefix, h.coinbaseSuffix]
  simp only [List.append_assoc]

/-- **What is rebuilt was hashed with an extranonce of the right width.** -/
theorem length_of_rebuild (h : active.Coherent) (h1 : extranonce1.length = 4)
    {coinbase : Transaction} {header : BlockHeader}
    (hrebuild : rebuild active share extranonce1 = .ok (coinbase, header)) :
    share.extranonce2.length = 4 := by
  obtain ⟨hcoinbase, hsplice, -⟩ := rebuild_eq_ok.mp hrebuild
  have hne : extranonce1 ++ share.extranonce2 ≠ [] := by
    intro hnil
    have hlen := congrArg List.length hnil
    rw [List.length_append, List.length_nil] at hlen
    omega
  rw [h.jobCoinbase] at hsplice
  have hlen := length_of_splice hcoinbase hne hsplice
  rw [List.length_append] at hlen
  omega

/-- **With an extranonce of the right width a share is rebuilt**, and its header is the
one that the job gives. -/
theorem rebuild_eq (h : active.Coherent) (share : Share) (h1 : extranonce1.length = 4)
    (h2 : share.extranonce2.length = 4) :
    ∃ coinbase, active.coinbase (extranonce1 ++ share.extranonce2) = .ok coinbase ∧
      rebuild active share extranonce1 =
        .ok (coinbase, active.job.header extranonce1 share.extranonce2 share.time share.nonce) := by
  have hlen : (extranonce1 ++ share.extranonce2).length = 8 := by
    rw [List.length_append, h1, h2]
  obtain ⟨coinbase, hcoinbase, -, hser⟩ := active.coinbase_of_length_eight hlen
  have hsplice : active.job.coinbase extranonce1 share.extranonce2 = coinbase.serializeLegacy := by
    rw [h.jobCoinbase, hser]
  refine ⟨coinbase, hcoinbase, rebuild_eq_ok.mpr ⟨hcoinbase, hsplice, _,
    Merkle.merkleRoot_cons coinbase.txid .ZERO active.txids, ?_⟩⟩
  rw [Job.header, Job.merkleRoot, hsplice, h.merkleBranch]
  rfl

/-- **A block is always assembled**: there is an id for each transaction. -/
theorem assemble_eq (h : active.Coherent) (coinbase : Transaction) :
    assemble active coinbase = .ok ⟨coinbase, active.transactions, active.txids⟩ := by
  rw [assemble, BlockBuilder.new, if_neg (not_not.mpr h.lengths)]
  rfl

end ActiveJob.Coherent

/-! ### What is submitted -/

/-- The operations on the node and the clock. -/
def Effect.OnNode : Effect → Prop
  | unixNow => True
  | sleep _ => True
  | submitBlock _ => True
  | _ => False

/-- The operations of a wait. -/
def Effect.OnClock : Effect → Prop
  | unixNow => True
  | sleep _ => True
  | _ => False

theorem only_hold (submitNotBefore : Option ℤ) : (hold submitNotBefore).Only Effect.OnClock := by
  cases submitNotBefore with
  | none => exact trivial
  | some notBefore =>
    refine Prog.Only.bind ⟨trivial, fun _ => trivial⟩ fun now => ?_
    dsimp only
    split_ifs
    · exact ⟨trivial, fun _ => trivial⟩
    · exact trivial

/-- A wait does not panic. -/
theorem safe_hold (submitNotBefore : Option ℤ) : (hold submitNotBefore).Safe := by
  cases submitNotBefore with
  | none => exact trivial
  | some notBefore =>
    refine Prog.Safe.bind (fun _ => trivial) fun now => ?_
    dsimp only
    split_ifs
    · exact fun _ => trivial
    · exact trivial

/-- A wait comes to an end. -/
theorem exists_runs_hold (submitNotBefore : Option ℤ) :
    ∃ trace, Prog.Runs (hold submitNotBefore) trace (some ()) := by
  cases submitNotBefore with
  | none => exact ⟨[], .ret ()⟩
  | some notBefore =>
    by_cases hwait : notBefore - 0 > 0
    · refine ⟨[⟨.unixNow, (0 : ℤ)⟩, ⟨.sleep (min (notBefore - 0) MAX_SUBMISSION_HOLD), ()⟩],
        Prog.runs_perform_bind_iff.mpr ⟨0, _, rfl, ?_⟩⟩
      dsimp only
      rw [if_pos hwait]
      exact .op (.ret ())
    · refine ⟨[⟨.unixNow, (0 : ℤ)⟩], Prog.runs_perform_bind_iff.mpr ⟨0, _, rfl, ?_⟩⟩
      dsimp only
      rw [if_neg hwait]
      exact .ret ()

/-- **What `check` submits**: the block of a rebuilt share that meets the target. -/
theorem reaches_check_iff {active : ActiveJob} {share : Share} {extranonce1 : Bytes}
    {text : Str} :
    (check active share extranonce1).Reaches (.submitBlock text) ↔
      ∃ coinbase header block, rebuild active share extranonce1 = .ok (coinbase, header) ∧
        active.networkTarget.isMetBy header.hash = true ∧
          assemble active coinbase = .ok block ∧ text = Hex.encode (block.serialize header) := by
  rw [check, Prog.reaches_attempt_iff]
  constructor
  · rintro ⟨⟨coinbase, header⟩, hrebuild, h⟩
    dsimp only at h
    split_ifs at h with hmet
    · obtain ⟨block, hblock, h⟩ := Prog.reaches_attempt_iff.mp h
      rcases Prog.reaches_bind_iff.mp h with h | ⟨_, _, -, h⟩
      · exact absurd ((only_hold _).of_reaches h) id
      · rcases Prog.reaches_perform_bind_iff.mp h with h | ⟨_, h⟩
        · exact ⟨coinbase, header, block, hrebuild, hmet, hblock, (Effect.submitBlock.inj h).symm⟩
        · exact absurd h id
    · exact absurd h id
  · rintro ⟨coinbase, header, block, hrebuild, hmet, hblock, rfl⟩
    refine ⟨(coinbase, header), hrebuild, ?_⟩
    dsimp only
    rw [if_pos hmet]
    refine Prog.reaches_attempt_iff.mpr ⟨block, hblock, Prog.reaches_bind_iff.mpr (Or.inr ?_)⟩
    obtain ⟨trace, hrun⟩ := exists_runs_hold active.submitNotBefore
    exact ⟨trace, (), hrun, Or.inl rfl⟩

end SoloMiner
