import SoloMiner.Mining.Coinbase
import SoloMiner.Pool.Template
import SoloMiner.Stratum.Job

/-!
# Turning a template into a job

The pool sends a miner its coinbase in two halves, with a gap for the extranonce. The
gap is found by building the coinbase once with a sentinel in it and searching the
bytes for the sentinel: if it is there exactly once, that is the gap.

So a job that is built is *coherent* (`SoloMiner.ActiveJob.Coherent`): its halves are
what stands around the extranonce in the coinbase that the pool itself builds, its
branch is that of its transaction ids, and its target is that of its bits. This is
what everything later rests on. It is established by `SoloMiner.build_coherent`, and
the rewriting of a job for the minimum-difficulty window keeps it
(`SoloMiner.ActiveJob.Coherent.withWindow`).
-/

namespace SoloMiner

/-- A job, plus everything needed to rebuild a real block from a share. -/
structure ActiveJob where
  /-- What gets sent to miners. -/
  job : Job
  /-- The height this block would have. -/
  height : UInt32
  /-- What the coinbase may pay out. -/
  coinbaseValue : UInt64
  /-- Where it pays. -/
  payoutScript : Bytes
  /-- The commitment output script. -/
  witnessCommitment : Bytes
  /-- The other transactions, serialised. -/
  transactions : List Bytes
  /-- Their txids, in the same order. -/
  txids : List Sha256dHash
  /-- The target a header must meet to be a real block. -/
  networkTarget : Target
  /-- Unix time before which a solved block must not be submitted. -/
  submitNotBefore : Option ℤ
  deriving DecidableEq

/-- Why a job could not be built. Where the source keeps the text of another error, the
error itself is kept here. -/
inductive BuildError where
  /-- A field in the template could not be interpreted. -/
  | template (error : TemplateError)
  /-- The coinbase could not be constructed. -/
  | coinbase (error : CoinbaseError)
  /-- Our witness commitment disagreed with the node's. -/
  | witnessCommitmentMismatch
  /-- The template's timestamp did not fit in 32 bits. -/
  | timeOverflow
  /-- The sentinel did not appear exactly once in the coinbase. -/
  | sentinelNotUnique (count : ℕ)
  deriving DecidableEq

/-- The tag every coinbase carries. -/
def TAG : Bytes := "solo-mac-miner".toList.map fun c => UInt8.ofNat c.toNat

/-- A value no real coinbase would contain by accident. -/
def SENTINEL : Bytes := [0xDE, 0xAD, 0xBE, 0xEF, 0xCA, 0xFE, 0xF0, 0x0D]

namespace ActiveJob

/-- The builder of the coinbase for a given extranonce. -/
def coinbaseBuilder (self : ActiveJob) (extranonce : Bytes) : CoinbaseBuilder :=
  { CoinbaseBuilder.new self.height self.coinbaseValue self.payoutScript with
    extranonce := extranonce
    tag := TAG
    witnessCommitment := some self.witnessCommitment }

/-- Rebuilds the coinbase transaction for a given extranonce. The source wraps the
error here, which its two callers do in this model. -/
def coinbase (self : ActiveJob) (extranonce : Bytes) : Checked CoinbaseError Transaction :=
  (self.coinbaseBuilder extranonce).build

end ActiveJob

/-- The merkle branch from the coinbase leaf to the root, with a placeholder for the
coinbase. -/
def coinbaseBranch (txids : List Sha256dHash) : List Sha256dHash :=
  Merkle.coinbaseBranch (.ZERO :: txids)

/-- **The merkle branch rebuilds the root for any coinbase**: for every list of ids and
every placeholder in the coinbase's place, and so for the branch that the pool sends. -/
theorem root_of_any_coinbase (txids : List Sha256dHash) (coinbase : Sha256dHash) :
    (∀ placeholder, some (Merkle.rootFromCoinbaseBranch coinbase
      (Merkle.coinbaseBranch (placeholder :: txids))) = Merkle.merkleRoot (coinbase :: txids)) ∧
    some (Merkle.rootFromCoinbaseBranch coinbase (coinbaseBranch txids)) =
      Merkle.merkleRoot (coinbase :: txids) :=
  ⟨fun placeholder => (Merkle.merkleRoot_cons coinbase placeholder txids).symm,
    (Merkle.merkleRoot_cons coinbase .ZERO txids).symm⟩

/-- Where the sentinel stands in a byte string. -/
def sentinelOffsets (serialised : Bytes) : List ℕ :=
  (List.range (serialised.length + 1 - SENTINEL.length)).filter fun offset =>
    (serialised.drop offset).take SENTINEL.length = SENTINEL

/-- Splits the coinbase around where the extranonce sits. -/
def splitCoinbase (active : ActiveJob) : Checked BuildError (Bytes × Bytes) := do
  let coinbase ← Checked.mapErr .coinbase (active.coinbase SENTINEL)
  let serialised := coinbase.serializeLegacy
  match sentinelOffsets serialised with
  | [offset] => .ok (serialised.take offset, serialised.drop (offset + SENTINEL.length))
  | offsets => .err (.sentinelNotUnique offsets.length)

/-- The node's commitment, where it gives one, must be ours. -/
def checkCommitment (template : BlockTemplate) (witnessCommitment : Bytes) :
    Checked BuildError Unit :=
  match template.defaultWitnessCommitment with
  | some expected =>
    if Hex.encode witnessCommitment ≠ expected then .err .witnessCommitmentMismatch else .ok ()
  | none => .ok ()

/-- `u32::try_from(template.current_time)`. -/
def jobTime (currentTime : UInt64) : Checked BuildError UInt32 :=
  if currentTime.toNat < 2 ^ 32 then .ok currentTime.toUInt32 else .err .timeOverflow

/-- The job before its halves are known: what `build` collects from the template. -/
def collect (jobId : Str) (template : BlockTemplate) (payoutScript : Bytes) (cleanJobs : Bool) :
    Checked BuildError ActiveJob := do
  let wtxids ← Checked.mapErr .template (template.transactions.mapM TemplateTransaction.wtxid)
  let witnessCommitment := Witness.commitmentScript wtxids
  let _ ← checkCommitment template witnessCommitment
  let txids ← Checked.mapErr .template (template.transactions.mapM TemplateTransaction.parsedTxid)
  let transactions ← Checked.mapErr .template (template.transactions.mapM TemplateTransaction.raw)
  let prevHash ← Checked.mapErr .template template.previousBlock
  let bits ← Checked.mapErr .template template.compactBits
  let time ← jobTime template.currentTime
  let networkTarget ← Checked.mapErr .template template.target
  pure {
    job := {
      jobId, prevHash, coinbasePrefix := [], coinbaseSuffix := []
      merkleBranch := coinbaseBranch txids, version := template.version, bits, time, cleanJobs }
    height := template.height
    coinbaseValue := template.coinbaseValue
    payoutScript, witnessCommitment, transactions, txids, networkTarget
    submitNotBefore := none }

/-- Builds a job from a template. -/
def build (jobId : Str) (template : BlockTemplate) (payoutScript : Bytes) (cleanJobs : Bool) :
    Checked BuildError ActiveJob := do
  let active ← collect jobId template payoutScript cleanJobs
  let halves ← splitCoinbase active
  pure { active with
    job := { active.job with coinbasePrefix := halves.1, coinbaseSuffix := halves.2 } }

/-! ### Coherent jobs -/

theorem length_TAG : TAG.length = 14 := by decide

theorem length_SENTINEL : SENTINEL.length = 8 := rfl

namespace ActiveJob

/-- The `scriptSig` of the coinbase for an extranonce. -/
def scriptFor (self : ActiveJob) (extranonce : Bytes) : Bytes :=
  (self.coinbaseBuilder extranonce).scriptBytes

/-- The bytes of the coinbase before the extranonce, when that has eight bytes. -/
def beforeExtranonce (self : ActiveJob) : Bytes :=
  CoinbaseBuilder.legacyHead ++ (encodeLen ((Script.heightBytes self.height).length + 24) ++
    (Script.heightBytes self.height ++ CoinbaseBuilder.pushHead 8))

/-- The bytes of the coinbase after the extranonce. -/
def afterExtranonce (self : ActiveJob) : Bytes :=
  CoinbaseBuilder.pushHead 14 ++ (TAG ++ (self.coinbaseBuilder []).legacyTail)

/-- **A job that can be mined on**: every share for it is rebuilt from the same
coinbase the miner spliced, the same leaves, and the target of the header's bits. -/
structure Coherent (active : ActiveJob) : Prop where
  /-- The first half is what the coinbase has before the extranonce. -/
  coinbasePrefix : active.job.coinbasePrefix = active.beforeExtranonce
  /-- The second half is what it has after it. -/
  coinbaseSuffix : active.job.coinbaseSuffix = active.afterExtranonce
  /-- The branch is that of the transaction ids. -/
  merkleBranch : active.job.merkleBranch = SoloMiner.coinbaseBranch active.txids
  /-- There is an id for each transaction. -/
  lengths : active.transactions.length = active.txids.length
  /-- The target is the one that the header's bits denote. -/
  networkTarget : Target.fromCompact active.job.bits = .ok active.networkTarget

/-- The transactions of a job are those of the template, in order, and its commitment
is to their witness ids. -/
structure FromTemplate (active : ActiveJob) (template : BlockTemplate) : Prop where
  /-- The raw transactions. -/
  transactions : template.transactions.mapM TemplateTransaction.raw = .ok active.transactions
  /-- Their ids. -/
  txids : template.transactions.mapM TemplateTransaction.parsedTxid = .ok active.txids
  /-- The commitment to their witness ids. -/
  witnessCommitment : ∃ wtxids,
    template.transactions.mapM TemplateTransaction.wtxid = .ok wtxids ∧
      active.witnessCommitment = Witness.commitmentScript wtxids

/-! ### The coinbase of a job -/

theorem length_pushHead_14 : (CoinbaseBuilder.pushHead 14).length = 1 := rfl

/-- The length of the `scriptSig`: the height, the extranonce and the tag with the
heads of their pushes. -/
theorem length_scriptFor (self : ActiveJob) (extranonce : Bytes) :
    (self.scriptFor extranonce).length = (Script.heightBytes self.height).length +
      (CoinbaseBuilder.pushHead extranonce.length).length + extranonce.length + 15 := by
  have hscript : self.scriptFor extranonce = Script.heightBytes self.height ++
      (CoinbaseBuilder.pushHead extranonce.length ++ (extranonce ++
        (CoinbaseBuilder.pushHead TAG.length ++ TAG))) := rfl
  rw [hscript, length_TAG]
  simp only [List.length_append, length_TAG, length_pushHead_14]
  omega

/-- **Building the coinbase of a job**, for an extranonce that can be pushed. -/
theorem coinbase_eq (self : ActiveJob) {extranonce : Bytes} (h : extranonce.length ≤ 520) :
    self.coinbase extranonce =
      if (self.scriptFor extranonce).length < 2 ∨ 100 < (self.scriptFor extranonce).length then
        .err (.scriptSigLength (self.scriptFor extranonce).length)
      else .ok ((self.coinbaseBuilder extranonce).transaction (self.scriptFor extranonce)) :=
  CoinbaseBuilder.build_eq h (show TAG.length ≤ 520 by rw [length_TAG]; decide)

theorem coinbase_eq_panic_iff (self : ActiveJob) (extranonce : Bytes) :
    self.coinbase extranonce = .panic ↔ 520 < extranonce.length := by
  have htag : ¬ 520 < (self.coinbaseBuilder extranonce).tag.length := by
    show ¬ 520 < TAG.length
    rw [length_TAG]
    decide
  exact (CoinbaseBuilder.build_eq_panic_iff _).trans (or_iff_left htag)

/-- What is built is the coinbase around the `scriptSig` of the extranonce, which is
then at most 100 bytes long. -/
theorem coinbase_eq_ok {self : ActiveJob} {extranonce : Bytes} {tx : Transaction}
    (h : self.coinbase extranonce = .ok tx) :
    (self.scriptFor extranonce).length ≤ 100 ∧
      tx = (self.coinbaseBuilder extranonce).transaction (self.scriptFor extranonce) := by
  have hlen : extranonce.length ≤ 520 := by
    by_contra hgt
    rw [(self.coinbase_eq_panic_iff extranonce).mpr (by omega)] at h
    exact absurd h (by simp [Checked.panic])
  rw [coinbase_eq self hlen] at h
  split_ifs at h with hbad
  · exact absurd h (by simp [Checked.err])
  · exact ⟨by omega, (Except.ok.inj h).symm⟩

/-- **An eight-byte extranonce** is always built in, and stands between the two
halves. -/
theorem coinbase_of_length_eight (self : ActiveJob) {extranonce : Bytes}
    (h : extranonce.length = 8) :
    ∃ tx, self.coinbase extranonce = .ok tx ∧
      tx = (self.coinbaseBuilder extranonce).transaction (self.scriptFor extranonce) ∧
      tx.serializeLegacy = self.beforeExtranonce ++ (extranonce ++ self.afterExtranonce) := by
  obtain ⟨h1, h6⟩ := Script.length_heightBytes self.height
  have hhead : (CoinbaseBuilder.pushHead 8).length = 1 := rfl
  have hlen : (self.scriptFor extranonce).length =
      (Script.heightBytes self.height).length + 24 := by
    rw [length_scriptFor, h, hhead]
  have htail : (self.coinbaseBuilder extranonce).legacyTail =
      (self.coinbaseBuilder []).legacyTail := rfl
  have hscript : self.scriptFor extranonce = Script.heightBytes self.height ++
      (CoinbaseBuilder.pushHead 8 ++ (extranonce ++ (CoinbaseBuilder.pushHead 14 ++ TAG))) := by
    rw [← h, ← length_TAG]
    rfl
  refine ⟨_, by rw [coinbase_eq self (by omega), if_neg (by omega)], rfl, ?_⟩
  rw [CoinbaseBuilder.serializeLegacy_transaction, hlen, hscript, htail, beforeExtranonce,
    afterExtranonce]
  simp only [List.append_assoc]

/-- The length of a `scriptSig` is one byte long. -/
theorem encodeLen_of_le {n : ℕ} (h : n ≤ 100) : encodeLen n = [UInt8.ofNat n] := by
  have hval : (UInt64.ofNat n).toNat = n := UInt64.toNat_ofNat_of_lt' (by
    have : (100 : ℕ) < UInt64.size := by decide
    omega)
  rw [encodeLen, Varint.encode, hval, if_pos (by omega)]

/-- **The cross-check of the splice**: around an extranonce of any other width, the
halves do not splice into the coinbase that is built for it. The two differ in the
length byte of the `scriptSig`. -/
theorem length_of_splice {self : ActiveJob} {extranonce : Bytes} {tx : Transaction}
    (h : self.coinbase extranonce = .ok tx) (hne : extranonce ≠ [])
    (hsplice : self.beforeExtranonce ++ (extranonce ++ self.afterExtranonce) = tx.serializeLegacy) :
    extranonce.length = 8 := by
  obtain ⟨h100, rfl⟩ := coinbase_eq_ok h
  obtain ⟨h1, h6⟩ := Script.length_heightBytes self.height
  have hpos : extranonce.length ≠ 0 := fun h0 => hne (List.length_eq_zero_iff.mp h0)
  rw [CoinbaseBuilder.serializeLegacy_transaction, beforeExtranonce, List.append_assoc,
    encodeLen_of_le h100, encodeLen_of_le (show (Script.heightBytes self.height).length + 24 ≤ 100
      by omega)] at hsplice
  -- The two sides agree up to the length byte, so the length bytes are equal.
  have htails := List.append_cancel_left hsplice
  simp only [List.cons_append, List.nil_append] at htails
  have hbyte := (List.cons.inj htails).1
  have hnat := congrArg UInt8.toNat hbyte
  rw [UInt8.toNat_ofNat', UInt8.toNat_ofNat', Nat.mod_eq_of_lt (by omega),
    Nat.mod_eq_of_lt (by omega), length_scriptFor, CoinbaseBuilder.pushHead, if_neg hpos,
    Script.pushHead] at hnat
  rw [length_scriptFor] at h100
  split_ifs at hnat <;> simp at hnat <;> omega

/-! ### What `build` and the poller install is coherent -/

/-- **A sentinel found once is the one that was put there.** -/
theorem splitCoinbase_eq_ok {self : ActiveJob} {halves : Bytes × Bytes}
    (h : splitCoinbase self = .ok halves) :
    halves = (self.beforeExtranonce, self.afterExtranonce) := by
  obtain ⟨tx, htx, -, hser⟩ := self.coinbase_of_length_eight length_SENTINEL
  have hsplit : splitCoinbase self = match sentinelOffsets tx.serializeLegacy with
      | [offset] => .ok (tx.serializeLegacy.take offset,
          tx.serializeLegacy.drop (offset + SENTINEL.length))
      | offsets => .err (.sentinelNotUnique offsets.length) := by
    rw [splitCoinbase, htx]
    rfl
  have hmem : self.beforeExtranonce.length ∈ sentinelOffsets tx.serializeLegacy := by
    refine List.mem_filter.mpr ⟨List.mem_range.mpr ?_, ?_⟩
    · rw [hser]
      simp only [List.length_append, length_SENTINEL]
      omega
    · rw [hser, List.drop_left, List.take_left]
      simp
  rw [hsplit] at h
  cases hoffsets : sentinelOffsets tx.serializeLegacy with
  | nil =>
    rw [hoffsets] at hmem
    exact absurd hmem List.not_mem_nil
  | cons offset rest =>
    cases rest with
    | nil =>
      rw [hoffsets] at hmem h
      obtain rfl := List.mem_singleton.mp hmem
      have hhalves := Except.ok.inj h
      rw [← hhalves, hser, List.take_left, ← List.append_assoc, ← List.length_append,
        List.drop_left]
    | cons offset' rest =>
      rw [hoffsets] at h
      exact absurd h (by simp [Checked.err])

end ActiveJob

theorem length_of_mapM {ε α β : Type} {f : α → Checked ε β} {xs : List α} {ys : List β}
    (h : xs.mapM f = .ok ys) : ys.length = xs.length := by
  induction xs generalizing ys with
  | nil =>
    obtain rfl : [] = ys := Except.ok.inj h
    rfl
  | cons x xs ih =>
    rw [List.mapM_cons] at h
    obtain ⟨y, -, h⟩ := Checked.bind_eq_ok.mp h
    obtain ⟨ys', hys', h⟩ := Checked.bind_eq_ok.mp h
    obtain rfl : y :: ys' = ys := Except.ok.inj h
    rw [List.length_cons, List.length_cons, ih hys']

theorem ActiveJob.FromTemplate.lengths {active : ActiveJob} {template : BlockTemplate}
    (h : active.FromTemplate template) : active.transactions.length = active.txids.length :=
  (length_of_mapM h.transactions).trans (length_of_mapM h.txids).symm

/-- What `collect` takes from the template: its parsed transactions, and the parts of the
job that hang together. -/
theorem collect_spec {jobId : Str} {template : BlockTemplate} {payoutScript : Bytes}
    {cleanJobs : Bool} {active : ActiveJob}
    (h : collect jobId template payoutScript cleanJobs = .ok active) :
    active.FromTemplate template ∧ active.job.merkleBranch = coinbaseBranch active.txids ∧
      Target.fromCompact active.job.bits = .ok active.networkTarget := by
  obtain ⟨wtxids, hwtxids, h⟩ := Checked.bind_eq_ok.mp h
  obtain ⟨_, -, h⟩ := Checked.bind_eq_ok.mp h
  obtain ⟨txids, htxids, h⟩ := Checked.bind_eq_ok.mp h
  obtain ⟨transactions, htransactions, h⟩ := Checked.bind_eq_ok.mp h
  obtain ⟨prevHash, -, h⟩ := Checked.bind_eq_ok.mp h
  obtain ⟨bits, hbits, h⟩ := Checked.bind_eq_ok.mp h
  obtain ⟨time, -, h⟩ := Checked.bind_eq_ok.mp h
  obtain ⟨target, htarget, h⟩ := Checked.bind_eq_ok.mp h
  rw [Checked.mapErr_eq_ok] at hwtxids htxids htransactions hbits htarget
  obtain ⟨bits', hbits', hcompact⟩ := BlockTemplate.target_eq_ok htarget
  obtain rfl : bits' = bits := Except.ok.inj (hbits'.symm.trans hbits)
  obtain rfl := (Except.ok.inj h).symm
  exact ⟨⟨htransactions, htxids, ⟨wtxids, hwtxids, rfl⟩⟩, rfl, hcompact⟩

/-- **A job that is built** has the transactions of its template. -/
theorem build_fromTemplate {jobId : Str} {template : BlockTemplate} {payoutScript : Bytes}
    {cleanJobs : Bool} {active : ActiveJob}
    (h : build jobId template payoutScript cleanJobs = .ok active) :
    active.FromTemplate template := by
  obtain ⟨collected, hcollect, h⟩ := Checked.bind_eq_ok.mp h
  obtain ⟨halves, -, h⟩ := Checked.bind_eq_ok.mp h
  obtain ⟨htemplate, -, -⟩ := collect_spec hcollect
  obtain rfl := (Except.ok.inj h).symm
  exact ⟨htemplate.transactions, htemplate.txids, htemplate.witnessCommitment⟩

/-- What a job that is built has from its template, and from the caller. -/
theorem build_job {jobId : Str} {template : BlockTemplate} {payoutScript : Bytes}
    {cleanJobs : Bool} {active : ActiveJob}
    (h : build jobId template payoutScript cleanJobs = .ok active) :
    template.previousBlock = .ok active.job.prevHash ∧
      template.compactBits = .ok active.job.bits ∧ active.job.jobId = jobId ∧
        active.job.cleanJobs = cleanJobs ∧ active.submitNotBefore = none := by
  obtain ⟨collected, hcollect, h⟩ := Checked.bind_eq_ok.mp h
  obtain ⟨halves, -, h⟩ := Checked.bind_eq_ok.mp h
  obtain rfl := (Except.ok.inj h).symm
  obtain ⟨wtxids, -, h⟩ := Checked.bind_eq_ok.mp hcollect
  obtain ⟨_, -, h⟩ := Checked.bind_eq_ok.mp h
  obtain ⟨txids, -, h⟩ := Checked.bind_eq_ok.mp h
  obtain ⟨transactions, -, h⟩ := Checked.bind_eq_ok.mp h
  obtain ⟨prevHash, hprevHash, h⟩ := Checked.bind_eq_ok.mp h
  obtain ⟨bits, hbits, h⟩ := Checked.bind_eq_ok.mp h
  obtain ⟨time, -, h⟩ := Checked.bind_eq_ok.mp h
  obtain ⟨target, -, h⟩ := Checked.bind_eq_ok.mp h
  obtain rfl := (Except.ok.inj h).symm
  exact ⟨Checked.mapErr_eq_ok.mp hprevHash, Checked.mapErr_eq_ok.mp hbits, rfl, rfl, rfl⟩

/-- **A job that is built is coherent.** -/
theorem build_coherent {jobId : Str} {template : BlockTemplate} {payoutScript : Bytes}
    {cleanJobs : Bool} {active : ActiveJob}
    (h : build jobId template payoutScript cleanJobs = .ok active) : active.Coherent := by
  obtain ⟨collected, hcollect, h⟩ := Checked.bind_eq_ok.mp h
  obtain ⟨halves, hsplit, h⟩ := Checked.bind_eq_ok.mp h
  obtain ⟨htemplate, hbranch, htarget⟩ := collect_spec hcollect
  obtain rfl := (Except.ok.inj h).symm
  obtain rfl := ActiveJob.splitCoinbase_eq_ok hsplit
  exact ⟨rfl, rfl, hbranch, htemplate.lengths, htarget⟩

end SoloMiner
