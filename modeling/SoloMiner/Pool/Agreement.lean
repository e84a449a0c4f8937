import SoloMiner.Mining.Search
import SoloMiner.Pool.Validate

/-!
# The miner and the pool

A header is built twice: by the miner, from the job it decoded, its halves of the
coinbase and the merkle branch; and by the pool, from the coinbase it builds itself and
the whole list of transaction ids. For every job that the poller can install the two
are one header, so no share is refused and a solution is a block
(`SoloMiner.miner_agrees_with_pool`).

What the pool submits is always such a block: it carries the work that its bits ask
for, and describes its own contents (`SoloMiner.describesItself_of_reaches`).
-/

namespace SoloMiner

variable {active : ActiveJob} {share : Share} {extranonce1 : Bytes}

/-! ### Runs of the check -/

/-- What becomes of a block is what the node answers. -/
theorem runs_submitShare (h : active.Coherent) {coinbase : Transaction} {header : BlockHeader}
    {trace : Prog.Trace Effect.Answer} {result : Option (Except ValidationError Verdict)}
    (hrun : Prog.Runs (submitShare active coinbase header) trace result) :
    ∃ answer, result = some (verdictOf active header.hash answer) := by
  rw [submitShare, h.assemble_eq] at hrun
  rcases Prog.runs_bind_iff.mp hrun with ⟨_, _, _, -, -, hrun⟩ | ⟨-, hhold⟩
  · obtain ⟨answer, _, -, hrun⟩ := Prog.runs_perform_bind_iff.mp hrun
    exact ⟨answer, (Prog.runs_pure_iff.mp hrun).2⟩
  · obtain ⟨_, hreturns⟩ := (safe_hold _).of_runs hhold
    exact absurd hreturns (by simp)

/-- **The check of a share that is rebuilt**, whatever the node and the clock answer: it
returns, and with a verdict or an error of the node. -/
theorem runs_check (h : active.Coherent) {coinbase : Transaction} {header : BlockHeader}
    (hrebuild : rebuild active share extranonce1 = .ok (coinbase, header))
    {trace : Prog.Trace Effect.Answer} {result : Option (Except ValidationError Verdict)}
    (hrun : Prog.Runs (check active share extranonce1) trace result) :
    if active.networkTarget.isMetBy header.hash = true then
      ∃ answer, result = some (verdictOf active header.hash answer)
    else trace = [] ∧ result = some (.ok (.share header.hash header.hash.leadingZeroBits)) := by
  rw [check, hrebuild] at hrun
  change Prog.Runs (if active.networkTarget.isMetBy header.hash = true then
    submitShare active coinbase header
    else pure (.ok (.share header.hash header.hash.leadingZeroBits))) trace result at hrun
  split_ifs at hrun ⊢ with hmet
  · exact runs_submitShare h hrun
  · exact Prog.runs_pure_iff.mp hrun

/-- What the node says about a block is never that the share was no block, or could not
be rebuilt. -/
theorem verdictOf_spec (active : ActiveJob) (hash : Sha256dHash)
    (answer : Except Str (Option Str)) :
    (∀ hash' zeroBits, verdictOf active hash answer ≠ .ok (.share hash' zeroBits)) ∧
      (∀ message, verdictOf active hash answer ≠ .error (.rebuild message)) ∧
        verdictOf active hash answer ≠ .error .coinbaseMismatch := by
  rcases answer with message | _ | reason
  · simp [verdictOf]
  · simp [verdictOf]
  · simp only [verdictOf]
    split_ifs <;> simp

/-! ### One header -/

/-- The outcomes of a check that do not find fault with the share. -/
def NotRefused (result : Option (Except ValidationError Verdict)) : Prop :=
  ∃ outcome, result = some outcome ∧ outcome ≠ .error .coinbaseMismatch ∧
    ∀ message, outcome ≠ .error (.rebuild message)

/-- **The miner and the pool agree.** The job that the pool sends is decoded, and for
every extranonce, time and nonce the header that the miner builds from it is the one
that the pool rebuilds. No such share is refused, and every solution of the search is
submitted as a block. -/
theorem miner_agrees_with_pool (h : Installable active) {extranonce2 : Bytes}
    (h1 : extranonce1.length = 4) (h2 : extranonce2.length = 4) :
    ∃ job target, Job.fromNotifyParams active.job.toNotifyParams = .ok job ∧
      Target.fromCompact job.bits = .ok target ∧
        ∀ (worker jobId : Str) (time nonce : UInt32),
          (∃ coinbase, rebuild active ⟨worker, jobId, extranonce2, time, nonce⟩ extranonce1 =
            .ok (coinbase, job.header extranonce1 extranonce2 time nonce)) ∧
          (∀ trace result,
            Prog.Runs (check active ⟨worker, jobId, extranonce2, time, nonce⟩ extranonce1) trace
              result → NotRefused result) ∧
          ∀ lo hi solution,
            (Search.search (job.header extranonce1 extranonce2 time nonce) target lo hi).solution =
              some solution →
            active.networkTarget.isMetBy
                (job.header extranonce1 extranonce2 time solution.nonce).hash = true ∧
              (∃ block, (check active ⟨worker, jobId, extranonce2, time, solution.nonce⟩
                extranonce1).Reaches (.submitBlock block)) ∧
              ∀ trace verdict,
                Prog.Runs (check active ⟨worker, jobId, extranonce2, time, solution.nonce⟩
                  extranonce1) trace (some (.ok verdict)) →
                ∀ hash zeroBits, verdict ≠ .share hash zeroBits := by
  have hcoherent := h.coherent
  refine ⟨active.job, active.networkTarget, Job.fromNotifyParams_toNotifyParams _,
    hcoherent.networkTarget, fun worker jobId time nonce => ⟨?_, ?_, ?_⟩⟩
  · obtain ⟨coinbase, -, hrebuild⟩ := hcoherent.rebuild_eq
      ⟨worker, jobId, extranonce2, time, nonce⟩ h1 h2
    exact ⟨coinbase, hrebuild⟩
  · intro trace result hrun
    obtain ⟨coinbase, -, hrebuild⟩ := hcoherent.rebuild_eq
      ⟨worker, jobId, extranonce2, time, nonce⟩ h1 h2
    have hcheck := runs_check hcoherent hrebuild hrun
    split_ifs at hcheck
    · obtain ⟨answer, rfl⟩ := hcheck
      obtain ⟨-, hrebuilt, hmismatch⟩ := verdictOf_spec active
        (active.job.header extranonce1 extranonce2 time nonce).hash answer
      exact ⟨_, rfl, hmismatch, hrebuilt⟩
    · obtain ⟨-, rfl⟩ := hcheck
      exact ⟨_, rfl, by simp, by simp⟩
  · intro lo hi solution hsolution
    -- The share of the solution has the header of the job with the solution's nonce.
    obtain ⟨coinbase, -, hrebuild⟩ := hcoherent.rebuild_eq
      ⟨worker, jobId, extranonce2, time, solution.nonce⟩ h1 h2
    have hmet : active.networkTarget.isMetBy
        (active.job.header extranonce1 extranonce2 time solution.nonce).hash = true :=
      (Search.search_solution hsolution).2
    refine ⟨hmet, ⟨_, reaches_check_iff.mpr ⟨coinbase, _, _, hrebuild, hmet,
      hcoherent.assemble_eq coinbase, rfl⟩⟩, fun trace verdict hrun hash zeroBits hshare => ?_⟩
    have hcheck := runs_check hcoherent hrebuild hrun
    rw [if_pos hmet] at hcheck
    obtain ⟨answer, hanswer⟩ := hcheck
    obtain ⟨hnot, -, -⟩ := verdictOf_spec active
      (active.job.header extranonce1 extranonce2 time solution.nonce).hash answer
    exact hnot hash zeroBits (by rw [← Option.some.inj hanswer, hshare])

/-! ### A template to mine on -/

/-- A payment with a witness. -/
def samplePayment : Transaction where
  version := 2
  inputs := [⟨⟨⟨toArr (List.replicate 32 0x11) rfl⟩, 1⟩, [], 0xFFFFFFFD, [[0xAB, 0xCD]]⟩]
  outputs := [⟨4000, [0x51]⟩]
  lockTime := 0

/-- A template with that payment, at a target that every other hash meets. -/
def sampleTemplate : BlockTemplate where
  version := 0x20000000
  previousBlockHash := "5bdb6182f63e514dca6711ace4c8a26b6d1f14a676c77fe92bdadd1dea9b6bbb".toList
  transactions := [{
    data := ("0200000000010111111111111111111111111111111111111111111111111111111111111111" ++
      "110100000000fdffffff01a00f00000000000001510102abcd00000000").toList
    txid := "70f01d433d17c8569af3061c701b22b06ca5971d07777a55577445cdf48ea950".toList
    hash := "378f66ab15a574849056e36c2881bbcce229c9d2e4722abe07023575db849dc1".toList }]
  coinbaseValue := 5000000000
  bits := "207fffff".toList
  height := 113
  currentTime := 1700000000
  defaultWitnessCommitment := none

theorem compactBits_sampleTemplate : sampleTemplate.compactBits = .ok 0x207FFFFF := by
  decide +kernel

theorem dropErr_sampleTemplate {ε : Type} :
    Checked.dropErr sampleTemplate.compactBits = (.ok (some 0x207FFFFF) : Checked ε _) := by
  rw [compactBits_sampleTemplate]
  rfl

/-- The block that the template builds on. -/
def samplePrevious : Sha256dHash :=
  .fromDisplayBytes (toArr [
    0x5B, 0xDB, 0x61, 0x82, 0xF6, 0x3E, 0x51, 0x4D, 0xCA, 0x67, 0x11, 0xAC, 0xE4, 0xC8, 0xA2,
    0x6B, 0x6D, 0x1F, 0x14, 0xA6, 0x76, 0xC7, 0x7F, 0xE9, 0x2B, 0xDA, 0xDD, 0x1D, 0xEA, 0x9B,
    0x6B, 0xBB]
    rfl)

/-- The id of the payment. -/
def samplePaymentId : Sha256dHash :=
  .fromDisplayBytes (toArr [
    0x70, 0xF0, 0x1D, 0x43, 0x3D, 0x17, 0xC8, 0x56, 0x9A, 0xF3, 0x06, 0x1C, 0x70, 0x1B, 0x22,
    0xB0, 0x6C, 0xA5, 0x97, 0x1D, 0x07, 0x77, 0x7A, 0x55, 0x57, 0x74, 0x45, 0xCD, 0xF4, 0x8E,
    0xA9, 0x50]
    rfl)

/-- The commitment to the payment. -/
def sampleCommitment : Bytes :=
  [0x6A, 0x24] ++ Witness.COMMITMENT_HEADER ++ [
    0xF0, 0x49, 0x1F, 0x02, 0x40, 0x6B, 0xE9, 0xCC, 0xFF, 0xC4, 0xF2, 0xAC, 0x34, 0xE5, 0xDA,
    0x04, 0x84, 0x17, 0x47, 0xD0, 0x2B, 0xE4, 0xC7, 0x7F, 0x00, 0x68, 0x92, 0xF5, 0xB8, 0x23,
    0x7F, 0xB1]

/-- The job that is built from the template. -/
def sampleJob : ActiveJob where
  job := {
    jobId := ['1']
    prevHash := samplePrevious
    coinbasePrefix := [0x02, 0, 0, 0, 0x01] ++ List.replicate 32 0 ++
      [0xFF, 0xFF, 0xFF, 0xFF, 0x1A, 0x01, 0x71, 0x08]
    coinbaseSuffix := [0x0E] ++ TAG ++ [0xFF, 0xFF, 0xFF, 0xFF, 0x02] ++
      [0x00, 0xF2, 0x05, 0x2A, 0x01, 0, 0, 0] ++ [0x01, 0x51] ++ List.replicate 8 0 ++ [0x26] ++
        sampleCommitment ++ [0, 0, 0, 0]
    merkleBranch := [samplePaymentId]
    version := 0x20000000
    bits := 0x207FFFFF
    time := 1700000000
    cleanJobs := true }
  height := 113
  coinbaseValue := 5000000000
  payoutScript := [0x51]
  witnessCommitment := sampleCommitment
  transactions := [samplePayment.serialize]
  txids := [samplePaymentId]
  networkTarget := ⟨toArr ([0x7F, 0xFF, 0xFF] ++ List.replicate 29 0) rfl⟩
  submitNotBefore := none

theorem build_sampleJob : build ['1'] sampleTemplate [0x51] true = .ok sampleJob := by
  decide +kernel

/-- A share whose hash meets that target. -/
def sampleShare : Share := ⟨[], ['1'], [0, 0, 0, 7], 1700000000, 1⟩

/-- Whether a share solves the job that is built from a template. -/
def solves (jobId : Str) (template : BlockTemplate) (payoutScript : Bytes) (share : Share)
    (extranonce1 : Bytes) : Bool :=
  match build jobId template payoutScript true with
  | .ok active =>
    match rebuild active share extranonce1 with
    | .ok (_, header) => active.networkTarget.isMetBy header.hash
    | .error _ => false
  | .error _ => false

theorem exists_of_solves {jobId : Str} {template : BlockTemplate} {payoutScript : Bytes}
    (h : solves jobId template payoutScript share extranonce1 = true) :
    ∃ active coinbase header, build jobId template payoutScript true = .ok active ∧
      rebuild active share extranonce1 = .ok (coinbase, header) ∧
        active.networkTarget.isMetBy header.hash = true := by
  rw [solves] at h
  split at h
  · next active hbuild =>
    split at h
    · next coinbase header hrebuild => exact ⟨active, coinbase, header, hbuild, hrebuild, h⟩
    · exact absurd h (by simp)
  · exact absurd h (by simp)

/-- The sample share solves the job of the sample template. -/
theorem solves_sample : solves ['1'] sampleTemplate [0x51] sampleShare [0, 0, 0, 1] = true := by
  rw [solves, build_sampleJob]
  decide +kernel

/-- The job of the template, rewritten for the window or not, is decoded by the miner and
its headers are the pool's. -/
theorem miner_agrees_with_pool_sample : ∃ active job,
    build ['1'] sampleTemplate [0x51] true = .ok active ∧
      Job.fromNotifyParams active.job.toNotifyParams = .ok job ∧
        ∃ coinbase, rebuild active ⟨[], ['1'], [0, 0, 0, 7], 1700000000, 1⟩ [0, 0, 0, 1] =
          .ok (coinbase, job.header [0, 0, 0, 1] [0, 0, 0, 7] 1700000000 1) := by
  obtain ⟨active, -, -, hbuild, -⟩ := exists_of_solves solves_sample
  have hinstall : Installable (active.withWindow false none) := .mk false none hbuild
  obtain ⟨job, target, hjob, -, hshares⟩ :=
    miner_agrees_with_pool hinstall (show [0, 0, 0, 1].length = 4 from rfl)
      (show [0, 0, 0, 7].length = 4 from rfl)
  exact ⟨active, job, hbuild, hjob, (hshares [] ['1'] 1700000000 1).1⟩

/-! ### What is submitted -/

/-- **A block that carries its work and describes itself**: the bytes `raw` are the block
of the header and the coinbase, for the job of a template and a full extranonce. -/
structure DescribesItself (template : BlockTemplate) (active : ActiveJob) (extranonce raw : Bytes)
    (coinbase : Transaction) (header : BlockHeader) : Prop where
  /-- The coinbase is that of the job. -/
  built : active.coinbase extranonce = .ok coinbase
  /-- The header, the count, the coinbase with its witness, and the template's
  transactions. -/
  layout : ∃ transactions,
    template.transactions.mapM TemplateTransaction.raw = .ok transactions ∧
      raw = header.serialize.toList ++ encodeLen (1 + template.transactions.length) ++
        coinbase.serializeSegwit 0x01 ++ transactions.flatten
  /-- The header is for the job. -/
  fields : header.version = active.job.version ∧ header.prevBlock = active.job.prevHash ∧
    header.bits = active.job.bits
  /-- The header commits to the coinbase and the template's transactions. -/
  merkleRoot : ∃ txids, template.transactions.mapM TemplateTransaction.parsedTxid = .ok txids ∧
    Merkle.merkleRoot (coinbase.txid :: txids) = some header.merkleRoot
  /-- The header carries the work that its own bits ask for. -/
  proofOfWork : header.isValidProofOfWork = .ok true
  /-- The last output commits to the witness ids with a reserved value, and the witness is
  that value. -/
  commitment : ∃ wtxids reserved,
    template.transactions.mapM TemplateTransaction.wtxid = .ok wtxids ∧
      coinbase.outputs.getLast? = some ⟨0, Witness.commitmentScript wtxids⟩ ∧
        Witness.commitmentScript wtxids = [0x6A, 0x24] ++ Witness.COMMITMENT_HEADER ++
          (Witness.commitment (Witness.witnessMerkleRoot wtxids) reserved).bytes.toList ∧
            coinbase.inputs.map TxIn.witness = [[reserved.toList]]

/-- A coinbase with a commitment is written with its witness. -/
theorem serialize_coinbase {extranonce : Bytes} {coinbase : Transaction}
    (h : active.coinbase extranonce = .ok coinbase) :
    coinbase.serialize = coinbase.serializeSegwit 0x01 := by
  obtain ⟨-, rfl⟩ := ActiveJob.coinbase_eq_ok h
  rfl

/-- **Only blocks are submitted.** Whatever the miner sends and whatever the clock says,
what `check` submits for an installed job has an extranonce of the right width, carries
its work, and describes itself. -/
theorem describesItself_of_reaches {jobId : Str} {template : BlockTemplate} {payoutScript : Bytes}
    {cleanJobs : Bool} {built : ActiveJob}
    (hbuild : build jobId template payoutScript cleanJobs = .ok built) (exploit : Bool)
    (parentTime : Option UInt32) (h1 : extranonce1.length = 4) {raw : Bytes}
    (hreach : (check (built.withWindow exploit parentTime) share extranonce1).Reaches
      (.submitBlock (Hex.encode raw))) :
    share.extranonce2.length = 4 ∧ ∃ coinbase header,
      DescribesItself template (built.withWindow exploit parentTime)
        (extranonce1 ++ share.extranonce2) raw coinbase header := by
  have hcoherent : (built.withWindow exploit parentTime).Coherent :=
    (Installable.mk exploit parentTime hbuild).coherent
  have htemplate := (build_fromTemplate hbuild).withWindow exploit parentTime
  obtain ⟨coinbase, header, block, hrebuild, hmet, hblock, hraw⟩ := reaches_check_iff.mp hreach
  obtain ⟨hcoinbase, -, merkleRoot, hroot, rfl⟩ := rebuild_eq_ok.mp hrebuild
  obtain ⟨wtxids, hwtxids, hcommitment⟩ := htemplate.witnessCommitment
  rw [hcoherent.assemble_eq] at hblock
  obtain rfl := Except.ok.inj hblock
  obtain rfl := Hex.encode_injective hraw
  refine ⟨hcoherent.length_of_rebuild h1 hrebuild, coinbase,
    shareHeader (built.withWindow exploit parentTime) share merkleRoot, hcoinbase,
    ⟨_, htemplate.transactions, ?_⟩, ⟨rfl, rfl, rfl⟩, ⟨_, htemplate.txids, hroot⟩, ?_,
    ⟨wtxids, Witness.RESERVED_VALUE, hwtxids, ?_, rfl, ?_⟩⟩
  · rw [BlockBuilder.serialize, serialize_coinbase hcoinbase, BlockBuilder.transactionCount,
      length_of_mapM htemplate.transactions, Nat.add_comm]
  · -- The job's target is the one that the header's bits denote.
    have htarget : (shareHeader (built.withWindow exploit parentTime) share merkleRoot).target =
        .ok (built.withWindow exploit parentTime).networkTarget := hcoherent.networkTarget
    rw [BlockHeader.isValidProofOfWork, htarget]
    exact congrArg Except.ok hmet
  · obtain ⟨-, rfl⟩ := ActiveJob.coinbase_eq_ok hcoinbase
    rw [← hcommitment]
    rfl
  · obtain ⟨-, rfl⟩ := ActiveJob.coinbase_eq_ok hcoinbase
    rfl

/-- The share that solves the job of the template is submitted as such a block. -/
theorem describesItself_of_reaches_sample : ∃ active coinbase header raw,
    build ['1'] sampleTemplate [0x51] true = .ok active ∧
      (check active sampleShare [0, 0, 0, 1]).Reaches (.submitBlock (Hex.encode raw)) ∧
        DescribesItself sampleTemplate active [0, 0, 0, 1, 0, 0, 0, 7] raw coinbase header := by
  obtain ⟨active, coinbase, header, hbuild, hrebuild, hmet⟩ := exists_of_solves solves_sample
  have hcoherent : active.Coherent := build_coherent hbuild
  have hreach := reaches_check_iff.mpr
    ⟨coinbase, header, _, hrebuild, hmet, hcoherent.assemble_eq coinbase, rfl⟩
  obtain ⟨-, coinbase', header', h⟩ := describesItself_of_reaches hbuild false none rfl hreach
  exact ⟨active, coinbase', header', _, hbuild, hreach, h⟩

end SoloMiner
