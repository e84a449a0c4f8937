import SoloMiner.Lib.Prog
import SoloMiner.Mining.Search
import SoloMiner.Pool.Offers
import SoloMiner.Rpc.Methods

/-!
# Mining on a local chain

The regtest miner asks its node for a template, builds a block on it, searches the whole
nonce space, and submits what it finds; it stops at the first block that the node refuses.
The code is a program that asks its node (`SoloMiner.Regtest.run`), so a run of it is
whatever the node answers.

Each attempt has an extranonce of its own, so that a template which the node gives twice
does not make the same block twice. That is so over a whole run
(`SoloMiner.Regtest.run_inOrder`): the blocks that are submitted are all different, each is
built on the template that was fetched right before it, and only the last one can have
been refused, after which the node is asked nothing more.
-/

namespace SoloMiner

namespace Regtest

open Search Consensus

/-! ### The program -/

/-- What happened in one round. -/
inductive Outcome where
  /-- The node accepted our block. -/
  | accepted (hash : Sha256dHash) (height nonce : UInt32) (hashes : UInt64)
  /-- The node rejected it, and said why. -/
  | rejected (reason : Str)
  /-- The whole nonce space was exhausted without a solution. -/
  | exhausted (best : Sha256dHash) (bestZeroBits : ℕ)
  deriving DecidableEq

/-- Why a round failed before its outcome. -/
inductive RoundError where
  /-- A field of the template could not be interpreted. -/
  | template (error : TemplateError)
  /-- Our witness commitment disagrees with the node's. -/
  | commitmentMismatch (ours node : Str)
  /-- The coinbase could not be built. -/
  | coinbase (error : CoinbaseError)
  /-- The block could not be put together. -/
  | block (error : BlockError)
  /-- The timestamp does not fit 32 bits. -/
  | timeOverflow
  /-- Talking to the node failed. -/
  | rpc (message : Str)
  deriving DecidableEq

/-- What the miner asks its node. -/
inductive Call where
  | getBlockchainInfo
  | ensureWallet (name : Str)
  | getNewAddress (wallet : Str)
  | validateAddress (address : Str)
  | getBlockTemplate
  | submitBlock (block : Str)

/-- What the node answers, or the text of an error. Of the chain's state only its name is
used. -/
@[reducible] def Call.Answer : Call → Type
  | getBlockchainInfo => Except Str Str
  | ensureWallet _ => Except Str Unit
  | getNewAddress _ => Except Str Str
  | validateAddress _ => Except Str AddressInfo
  | getBlockTemplate => Except Str BlockTemplate
  | submitBlock _ => Except Str (Option Str)

/-- The code of the miner. -/
abbrev NodeProg : Type → Type := Prog Call Call.Answer

/-- The code that asks the node one thing. -/
abbrev ask (call : Call) : NodeProg call.Answer := Prog.perform call

/-- The tag every coinbase carries. -/
def TAG : Bytes := "solo-mac-miner".toList.map fun c => UInt8.ofNat c.toNat

/-- The coinbase of a round, for the witness ids of the template. -/
def coinbaseBuilder (template : BlockTemplate) (payoutScript : Bytes) (extranonce : UInt64)
    (wtxids : List Sha256dHash) : CoinbaseBuilder :=
  { CoinbaseBuilder.new template.height template.coinbaseValue payoutScript with
    extranonce := Base256.toLE 8 extranonce.toNat
    tag := TAG
    witnessCommitment := some (Witness.commitmentScript wtxids) }

/-- The node's commitment, where it gives one, must be ours. -/
def checkCommitment (template : BlockTemplate) (commitmentScript : Bytes) :
    Checked RoundError Unit :=
  match template.defaultWitnessCommitment with
  | some expected =>
    let ours := Hex.encode commitmentScript
    if ours ≠ expected then .err (.commitmentMismatch ours expected) else .ok ()
  | none => .ok ()

/-- `u32::try_from(template.current_time)`. -/
def blockTime (currentTime : UInt64) : Checked RoundError UInt32 :=
  if currentTime.toNat < 2 ^ 32 then .ok currentTime.toUInt32 else .err .timeOverflow

/-- The first part of `mine`: the block, its header without a nonce, and the target. -/
def prepare (template : BlockTemplate) (payoutScript : Bytes) (extranonce : UInt64) :
    Checked RoundError (BlockBuilder × BlockHeader × Target) := do
  let wtxids ← Checked.mapErr .template (template.transactions.mapM TemplateTransaction.wtxid)
  let _ ← checkCommitment template (Witness.commitmentScript wtxids)
  let coinbase ← Checked.mapErr .coinbase
    (coinbaseBuilder template payoutScript extranonce wtxids).build
  let rawTransactions ← Checked.mapErr .template
    (template.transactions.mapM TemplateTransaction.raw)
  let txids ← Checked.mapErr .template (template.transactions.mapM TemplateTransaction.parsedTxid)
  let builder ← Checked.mapErr .block (BlockBuilder.new coinbase rawTransactions txids)
  let prevBlock ← Checked.mapErr .template template.previousBlock
  let merkleRoot ← builder.merkleRoot
  let time ← blockTime template.currentTime
  let bits ← Checked.mapErr .template template.compactBits
  let header : BlockHeader := ⟨template.version, prevBlock, merkleRoot, time, bits, 0⟩
  let target ← Checked.mapErr .template template.target
  pure (builder, header, target)

/-- What the answer to a block makes of a round. -/
def outcomeOf (height : UInt32) (solution : Solution) (hashes : UInt64) :
    Except Str (Option Str) → Except RoundError Outcome
  | .error message => .error (.rpc message)
  | .ok none => .ok (.accepted solution.hash height solution.nonce hashes)
  | .ok (some reason) => .ok (.rejected reason)

/-- Builds a block from a template and mines it. -/
def mine (template : BlockTemplate) (payoutScript : Bytes) (extranonce : UInt64) :
    NodeProg (Except RoundError Outcome) :=
  .attempt (prepare template payoutScript extranonce) fun (builder, header, target) =>
    let result := search header target 0 0xFFFFFFFF
    match result.solution with
    | none => pure (.ok (.exhausted result.best result.best.leadingZeroBits))
    | some solution => do
      let solved := { header with nonce := solution.nonce }
      let answer ← ask (.submitBlock (Hex.encode (builder.serialize solved)))
      pure (outcomeOf template.height solution result.hashes answer)

/-- Why the miner stops. -/
inductive RunError where
  /-- Talking to the node failed. -/
  | rpc (message : Str)
  /-- The node runs another chain. -/
  | wrongChain (chain : Str)
  /-- The node gave an address that it considers invalid. -/
  | invalidAddress (address : Str)
  /-- The node knows no script for the address. -/
  | noScript
  /-- The script is not hex. -/
  | badScript (error : Hex.HexError)
  /-- A round failed. -/
  | round (error : RoundError)
  /-- The node refused the block. -/
  | rejected (reason : Str)
  /-- No nonce met the target. -/
  | exhausted (best : Sha256dHash) (bestZeroBits : ℕ)
  deriving DecidableEq

/-- The loop of `run`: so many rounds from the round of this number on. -/
def rounds (payoutScript : Bytes) : ℕ → ℕ → NodeProg (Except RunError Unit)
  | 0, _ => pure (.ok ())
  | left + 1, roundNumber => do
    match ← ask .getBlockTemplate with
    | .error message => pure (.error (.rpc message))
    | .ok template =>
      match ← mine template payoutScript (UInt64.ofNat roundNumber) with
      | .error error => pure (.error (.round error))
      | .ok (.accepted _ _ _ _) => rounds payoutScript left (roundNumber + 1)
      | .ok (.rejected reason) => pure (.error (.rejected reason))
      | .ok (.exhausted best bestZeroBits) => pure (.error (.exhausted best bestZeroBits))

/-- The chain to mine on. -/
def REGTEST : Str := "regtest".toList

/-- The wallet that the payout address is of. -/
def WALLET_NAME : Str := "solo-miner-regtest".toList

/-- The rounds, and the chain's state once more. -/
def mineAll (blocksToMine : UInt32) (payoutScript : Bytes) : NodeProg (Except RunError Unit) := do
  match ← rounds payoutScript blocksToMine.toNat 1 with
  | .error error => pure (.error error)
  | .ok () =>
    match ← ask .getBlockchainInfo with
    | .error message => pure (.error (.rpc message))
    | .ok _ => pure (.ok ())

/-- What follows the address: its script, and mining to it. -/
def mineTo (blocksToMine : UInt32) (address : Str) (info : AddressInfo) :
    NodeProg (Except RunError Unit) :=
  if !info.isValid then pure (.error (.invalidAddress address))
  else
    match info.scriptPubkey with
    | none => pure (.error .noScript)
    | some script =>
      .attempt (Checked.mapErr .badScript (Hex.decode script)) (mineAll blocksToMine)

/-- The program, from the first question to the node on. -/
def run (blocksToMine : UInt32) : NodeProg (Except RunError Unit) := do
  match ← ask .getBlockchainInfo with
  | .error message => pure (.error (.rpc message))
  | .ok chain =>
    if chain ≠ REGTEST then pure (.error (.wrongChain chain))
    else do
      match ← ask (.ensureWallet WALLET_NAME) with
      | .error message => pure (.error (.rpc message))
      | .ok () =>
        match ← ask (.getNewAddress WALLET_NAME) with
        | .error message => pure (.error (.rpc message))
        | .ok address =>
          match ← ask (.validateAddress address) with
          | .error message => pure (.error (.rpc message))
          | .ok info => mineTo blocksToMine address info

/-! ### One round -/

variable {template : BlockTemplate} {payoutScript : Bytes} {extranonce : UInt64}
  {builder : BlockBuilder} {header : BlockHeader} {target : Target}

/-- **What a round has prepared**: a block around its own coinbase, with the transactions of
the template, and a header that commits to them. -/
structure Prepared (template : BlockTemplate) (payoutScript : Bytes) (extranonce : UInt64)
    (wtxids : List Sha256dHash) (builder : BlockBuilder) (header : BlockHeader) (target : Target) :
    Prop where
  witnessIds : template.transactions.mapM TemplateTransaction.wtxid = .ok wtxids
  coinbase : (coinbaseBuilder template payoutScript extranonce wtxids).build = .ok builder.coinbase
  transactions : template.transactions.mapM TemplateTransaction.raw = .ok builder.transactions
  txids : template.transactions.mapM TemplateTransaction.parsedTxid = .ok builder.txids
  prevBlock : template.previousBlock = .ok header.prevBlock
  merkleRoot : Merkle.merkleRoot (builder.coinbase.txid :: builder.txids) = some header.merkleRoot
  time : header.time = template.currentTime.toUInt32
  bits : template.compactBits = .ok header.bits
  target : Target.fromCompact header.bits = .ok target

theorem prepare_eq_ok
    (h : prepare template payoutScript extranonce = .ok (builder, header, target)) :
    ∃ wtxids, Prepared template payoutScript extranonce wtxids builder header target := by
  obtain ⟨wtxids, hwtxids, h⟩ := Checked.bind_eq_ok.mp h
  obtain ⟨_, -, h⟩ := Checked.bind_eq_ok.mp h
  obtain ⟨coinbase, hcoinbase, h⟩ := Checked.bind_eq_ok.mp h
  obtain ⟨rawTransactions, hraw, h⟩ := Checked.bind_eq_ok.mp h
  obtain ⟨txids, htxids, h⟩ := Checked.bind_eq_ok.mp h
  obtain ⟨built, hbuilt, h⟩ := Checked.bind_eq_ok.mp h
  obtain ⟨prevBlock, hprev, h⟩ := Checked.bind_eq_ok.mp h
  obtain ⟨merkleRoot, hroot, h⟩ := Checked.bind_eq_ok.mp h
  obtain ⟨time, htime, h⟩ := Checked.bind_eq_ok.mp h
  obtain ⟨bits, hbits, h⟩ := Checked.bind_eq_ok.mp h
  obtain ⟨target', htarget, h⟩ := Checked.bind_eq_ok.mp h
  rw [Checked.mapErr_eq_ok] at hwtxids hcoinbase hraw htxids hbuilt hprev hbits htarget
  simp only [pure, Except.pure, Except.ok.injEq, Prod.mk.injEq] at h
  obtain ⟨rfl, rfl, rfl⟩ := h
  obtain ⟨bits', hbits', hcompact⟩ := BlockTemplate.target_eq_ok htarget
  obtain rfl : bits' = bits := Except.ok.inj (hbits'.symm.trans hbits)
  rw [BlockBuilder.new] at hbuilt
  split_ifs at hbuilt
  · exact absurd hbuilt (by simp [Checked.err])
  · obtain rfl := Except.ok.inj hbuilt
    rw [blockTime] at htime
    split_ifs at htime
    · exact ⟨wtxids, hwtxids, hcoinbase, hraw, htxids, hprev, Checked.expect_eq_ok.mp hroot,
        (Except.ok.inj htime).symm, hbits, hcompact⟩
    · exact absurd htime (by simp [Checked.err])

/-- The text is the block of a round, under the first nonce that meets the target. -/
def Mined (template : BlockTemplate) (payoutScript : Bytes) (extranonce : UInt64) (text : Str) :
    Prop :=
  ∃ builder header target nonce, prepare template payoutScript extranonce =
      .ok (builder, header, target) ∧
    target.isMetBy { header with nonce }.hash = true ∧
    (∀ nonce', target.isMetBy { header with nonce := nonce' }.hash = true → nonce ≤ nonce') ∧
    text = Hex.encode (builder.serialize { header with nonce })

/-- No nonce at all makes a block of the round. -/
def Barren (template : BlockTemplate) (payoutScript : Bytes) (extranonce : UInt64) : Prop :=
  ∃ builder header target, prepare template payoutScript extranonce =
      .ok (builder, header, target) ∧
    ∀ nonce, target.isMetBy { header with nonce }.hash = false

/-- **A run of a round**: it submits the block that it has mined, and its outcome is the
node's answer; or it submits nothing, and then it has failed, or there was nothing to find. -/
theorem runs_mine {trace : Prog.Trace Call.Answer} {result : Option (Except RoundError Outcome)}
    (h : Prog.Runs (mine template payoutScript extranonce) trace result) :
    (∃ text answer solution hashes, Mined template payoutScript extranonce text ∧
      trace = [⟨.submitBlock text, answer⟩] ∧
        result = some (outcomeOf template.height solution hashes answer)) ∨
      (trace = [] ∧ ∀ outcome, result = some (.ok outcome) →
        Barren template payoutScript extranonce ∧
          ∃ best bestZeroBits, outcome = .exhausted best bestZeroBits) := by
  rcases Prog.runs_attempt_iff.mp h with ⟨⟨builder, header, target⟩, hprepare, hrun⟩ |
    ⟨error, -, rfl, rfl⟩ | ⟨-, rfl, rfl⟩
  · have hall : ∀ nonce : UInt32, 0 ≤ nonce ∧ nonce ≤ 0xFFFFFFFF := fun nonce => by
      have hmax : (0xFFFFFFFF : UInt32).toNat = 2 ^ 32 - 1 := rfl
      have hlt : nonce.toNat < 2 ^ 32 := nonce.toNat_lt
      rw [UInt32.le_iff_toNat_le, UInt32.le_iff_toNat_le, hmax]
      exact ⟨Nat.zero_le _, by omega⟩
    have hfinds := finds_search header target (show (0 : UInt32) ≤ 0xFFFFFFFF by decide)
    dsimp only at hrun
    cases hsolution : (search header target 0 0xFFFFFFFF).solution with
    | none =>
      rw [hsolution] at hrun
      obtain ⟨rfl, rfl⟩ := Prog.runs_pure_iff.mp hrun
      refine Or.inr ⟨rfl, fun outcome houtcome => ?_⟩
      obtain rfl := Except.ok.inj (Option.some.inj houtcome)
      refine ⟨⟨builder, header, target, hprepare, fun nonce => ?_⟩, _, _, rfl⟩
      by_contra hmet
      have hsome := hfinds.solved_iff.mpr
        ⟨nonce, (hall nonce).1, (hall nonce).2, (Bool.not_eq_false _).mp hmet⟩
      rw [hsolution] at hsome
      exact absurd hsome (by simp)
    | some solution =>
      rw [hsolution] at hrun
      obtain ⟨answer, rest, rfl, hrest⟩ := Prog.runs_perform_bind_iff.mp hrun
      obtain ⟨rfl, rfl⟩ := Prog.runs_pure_iff.mp hrest
      obtain ⟨-, -, hhash, hmet, hleast⟩ := hfinds.solution solution hsolution
      exact Or.inl ⟨_, answer, solution, _, ⟨builder, header, target, solution.nonce, hprepare,
        hhash ▸ hmet, fun nonce => hleast nonce (hall nonce).1, rfl⟩, rfl, rfl⟩
  · exact Or.inr ⟨rfl, fun outcome houtcome => absurd houtcome (by simp)⟩
  · exact Or.inr ⟨rfl, fun outcome houtcome => absurd houtcome (by simp)⟩

/-! ### Every extranonce makes blocks of its own -/

/-- Two lengths in front of anything are equal if the whole is. -/
theorem encodeLen_append_inj {m n : ℕ} {xs ys : Bytes}
    (h : encodeLen m ++ xs = encodeLen n ++ ys) :
    UInt64.ofNat m = UInt64.ofNat n ∧ xs = ys := by
  have hm := (Varint.decode_eq_ok_iff (encodeLen m ++ xs) (UInt64.ofNat m) _).mpr
    ⟨List.prefix_append _ _, rfl⟩
  have hn := (Varint.decode_eq_ok_iff (encodeLen n ++ ys) (UInt64.ofNat n) _).mpr
    ⟨List.prefix_append _ _, rfl⟩
  rw [h, hn, Except.ok.injEq, Prod.mk.injEq] at hm
  have hlen : encodeLen m = encodeLen n := by rw [encodeLen, encodeLen, hm.1]
  rw [hlen] at h
  exact ⟨hm.1.symm, List.append_cancel_left h⟩

/-- The bytes of a coinbase with a witness before the length of its script. -/
def segwitHead : Bytes :=
  Base256.toLE 4 2 ++ ([0x00, 0x01] ++ (encodeLen 1 ++ (OutPoint.NULL.txid.bytes.toList ++
    Base256.toLE 4 OutPoint.NULL.vout.toNat)))

/-- **The layout of a coinbase with a commitment**, as far as its script. -/
theorem serialize_transaction {builder : CoinbaseBuilder} {commitment : Bytes}
    (h : builder.witnessCommitment = some commitment) (script : Bytes) :
    ∃ tail, (builder.transaction script).serialize =
      segwitHead ++ (encodeLen script.length ++ (script ++ tail)) := by
  have hversion : (builder.transaction script).version.toUInt32.toNat = 2 := rfl
  have hwitness : (builder.transaction script).hasWitness = true := by
    simp [Transaction.hasWitness, CoinbaseBuilder.transaction, h]
  have hinputs : (builder.transaction script).writeInputs = encodeLen 1 ++
      (OutPoint.NULL.txid.bytes.toList ++ (Base256.toLE 4 OutPoint.NULL.vout.toNat ++
        (encodeLen script.length ++ (script ++ Base256.toLE 4 (0xFFFFFFFF : UInt32).toNat)))) := by
    simp [Transaction.writeInputs, CoinbaseBuilder.transaction, TxIn.encode, encodeVarBytes]
  refine ⟨Base256.toLE 4 (0xFFFFFFFF : UInt32).toNat ++
    ((builder.transaction script).writeOutputs ++ ((builder.transaction script).inputs.flatMap
      (fun input => encodeWitness input.witness) ++
        Base256.toLE 4 (builder.transaction script).lockTime.toNat)), ?_⟩
  rw [Transaction.serialize, hwitness, Bool.not_true, if_neg Bool.false_ne_true,
    Transaction.serializeSegwit, hversion, hinputs, segwitHead]
  simp only [List.append_assoc]

theorem length_TAG : TAG.length = 14 := by decide

/-- What is built of a round's coinbase is the coinbase around its script. -/
theorem eq_of_build {wtxids : List Sha256dHash} {coinbase : Transaction}
    (h : (coinbaseBuilder template payoutScript extranonce wtxids).build = .ok coinbase) :
    (coinbaseBuilder template payoutScript extranonce wtxids).scriptBytes.length ≤ 100 ∧
      coinbase = (coinbaseBuilder template payoutScript extranonce wtxids).transaction
        (coinbaseBuilder template payoutScript extranonce wtxids).scriptBytes := by
  have hextra : (Base256.toLE 8 extranonce.toNat).length ≤ 520 := by
    rw [Base256.length_toLE]
    decide
  have htag : TAG.length ≤ 520 := by rw [length_TAG]; decide
  rw [CoinbaseBuilder.build_eq hextra htag] at h
  split_ifs at h
  · exact absurd h (by simp [Checked.err])
  · exact ⟨by omega, (Except.ok.inj h).symm⟩

/-- **The script of a coinbase has one extranonce.** -/
theorem extranonce_of_scriptBytes {template' : BlockTemplate} {payoutScript' : Bytes}
    {extranonce' : UInt64} {wtxids wtxids' : List Sha256dHash}
    (h : (coinbaseBuilder template payoutScript extranonce wtxids).scriptBytes =
      (coinbaseBuilder template' payoutScript' extranonce' wtxids').scriptBytes) :
    extranonce = extranonce' := by
  have hreads : ∀ (template : BlockTemplate) (payoutScript : Bytes) (extranonce : UInt64)
      (wtxids : List Sha256dHash),
      Script.ReadsAs (coinbaseBuilder template payoutScript extranonce wtxids).scriptBytes
        [Script.encodeScriptNumber template.height, Base256.toLE 8 extranonce.toNat, TAG] := by
    intro template payoutScript extranonce wtxids
    have hextra : (Base256.toLE 8 extranonce.toNat).length ≤ 520 := by
      rw [Base256.length_toLE]
      decide
    have htag : TAG.length ≤ 520 := by rw [length_TAG]; decide
    exact CoinbaseBuilder.readsAs_scriptBytes
      (coinbaseBuilder template payoutScript extranonce wtxids) hextra htag
  have hpushes := (hreads template payoutScript extranonce wtxids).unique
    (h ▸ hreads template' payoutScript' extranonce' wtxids')
  simp only [List.cons.injEq, and_true] at hpushes
  have hvalue := congrArg Base256.ofLE hpushes.2
  rw [Base256.ofLE_toLE_of_lt extranonce.toNat_lt, Base256.ofLE_toLE_of_lt extranonce'.toNat_lt]
    at hvalue
  exact UInt64.toNat_inj.mp hvalue

/-- **Blocks of different extranonces differ**, whatever templates and headers they are
for. -/
theorem extranonce_of_serialize {template' : BlockTemplate} {payoutScript' : Bytes}
    {extranonce' : UInt64} {wtxids wtxids' : List Sha256dHash} {builder' : BlockBuilder}
    {header' header₁ header₂ : BlockHeader} {target' : Target}
    (h : Prepared template payoutScript extranonce wtxids builder header target)
    (h' : Prepared template' payoutScript' extranonce' wtxids' builder' header' target')
    (heq : builder.serialize header₁ = builder'.serialize header₂) : extranonce = extranonce' := by
  obtain ⟨hlen, hcoinbase⟩ := eq_of_build h.coinbase
  obtain ⟨hlen', hcoinbase'⟩ := eq_of_build h'.coinbase
  have hcommit : (coinbaseBuilder template payoutScript extranonce wtxids).witnessCommitment =
      some (Witness.commitmentScript wtxids) := rfl
  have hcommit' : (coinbaseBuilder template' payoutScript' extranonce' wtxids').witnessCommitment =
      some (Witness.commitmentScript wtxids') := rfl
  obtain ⟨tail, hlayout⟩ := serialize_transaction hcommit
    (coinbaseBuilder template payoutScript extranonce wtxids).scriptBytes
  obtain ⟨tail', hlayout'⟩ := serialize_transaction hcommit'
    (coinbaseBuilder template' payoutScript' extranonce' wtxids').scriptBytes
  -- The headers are as long as each other, and so is what comes before the scripts.
  have hheads : header₁.serialize.toList.length = header₂.serialize.toList.length := by
    rw [header₁.serialize.toList_length, header₂.serialize.toList_length]
  rw [BlockBuilder.serialize_eq, BlockBuilder.serialize_eq] at heq
  obtain ⟨-, hafter⟩ := encodeLen_append_inj (List.append_inj_right heq hheads)
  rw [hcoinbase, hcoinbase', hlayout, hlayout'] at hafter
  simp only [List.append_assoc] at hafter
  obtain ⟨hsame, hscripts⟩ := encodeLen_append_inj (List.append_cancel_left hafter)
  have hsame := congrArg UInt64.toNat hsame
  rw [UInt64.toNat_ofNat_of_lt' (by rw [UInt64.size]; omega),
    UInt64.toNat_ofNat_of_lt' (by rw [UInt64.size]; omega)] at hsame
  exact extranonce_of_scriptBytes (List.append_inj_left hscripts hsame)

/-! ### What is mined is valid -/

/-- **The text is a block that the node takes** which gave the template: it is parsed to its
last byte, it is valid on the tip of the template, and its coinbase pays all that the
template allows to the script. -/
structure Takes (next : NextBlock) (others : List Transaction) (template : BlockTemplate)
    (payoutScript : Bytes) (text : Str) (raw : Bytes) (header : BlockHeader)
    (coinbase : Transaction) : Prop where
  hex : text = Hex.encode raw
  parsed : ∀ s : Slice, s.bytes = raw → parseBlock s = some (header, coinbase :: others)
  valid : Valid next header (coinbase :: others)
  pays : coinbase.outputs = [⟨template.coinbaseValue, payoutScript⟩,
    ⟨0, Witness.commitmentScript (others.map Transaction.wtxid)⟩]

/-- **What a round mines on an honest template is taken.** -/
theorem takes_of_mined {next : NextBlock} {others : List Transaction} {text : Str}
    (hoffers : Offers next others template) (h : Mined template payoutScript extranonce text) :
    ∃ raw header coinbase,
      Takes next others template payoutScript text raw header coinbase := by
  obtain ⟨builder, header, target, nonce, hprepare, hmet, -, rfl⟩ := h
  obtain ⟨wtxids, h⟩ := prepare_eq_ok hprepare
  obtain ⟨hraw, htxids, hwtxids, hprev⟩ := hoffers.reads
  obtain ⟨-, hcoinbase⟩ := eq_of_build h.coinbase
  obtain rfl := Except.ok.inj (hwtxids.symm.trans h.witnessIds)
  have htransactions := Except.ok.inj (h.transactions.symm.trans hraw)
  have hids := Except.ok.inj (h.txids.symm.trans htxids)
  refine ⟨_, { header with nonce }, builder.coinbase, rfl, fun s hs => ?_, ?_, ?_⟩
  · have hinputs : builder.coinbase.inputs ≠ [] := by
      rw [hcoinbase]
      exact List.cons_ne_nil _ _
    exact parseBlock_serialize _ hinputs hoffers.inputs htransactions hs
  · have hextra : (Base256.toLE 8 extranonce.toNat).length ≤ 520 := by
      rw [Base256.length_toLE]
      decide
    have htag : TAG.length ≤ 520 := by rw [length_TAG]; decide
    have hdue : header.bits = next.bitsAt header.time := by
      rw [h.time]
      exact Except.ok.inj (h.bits.symm.trans hoffers.bits)
    refine valid_of_build hextra htag h.coinbase hoffers.height hoffers.coinbaseValue rfl
      hoffers.notCoinbase (Except.ok.inj (h.prevBlock.symm.trans hprev)) hdue ?_ ?_
    · have htarget : BlockHeader.target { header with nonce } = .ok target := h.target
      rw [BlockHeader.isValidProofOfWork, htarget]
      exact congrArg Except.ok hmet
    · rw [List.map_cons, ← hids]
      exact h.merkleRoot
  · rw [hcoinbase]
    rfl

/-! ### All rounds -/

/-- The blocks that a run submits, in order, with the node's answers. -/
def submissions (trace : Prog.Trace Call.Answer) : List (Str × Except Str (Option Str)) :=
  trace.filterMap fun event => match event with
    | ⟨.submitBlock text, answer⟩ => some (text, answer)
    | _ => none

/-- A block is submitted right after its template was fetched. -/
def Fresh (payoutScript : Bytes) (trace : Prog.Trace Call.Answer) : Prop :=
  ∀ before text answer after, trace = before ++ ⟨.submitBlock text, answer⟩ :: after →
    ∃ earlier template extranonce, before = earlier ++ [⟨.getBlockTemplate, .ok template⟩] ∧
      Mined template payoutScript extranonce text

/-- A block that is not accepted is the end. -/
def Stops (trace : Prog.Trace Call.Answer) : Prop :=
  ∀ before text answer after, trace = before ++ ⟨.submitBlock text, answer⟩ :: after →
    answer ≠ .ok none → after = []

/-- **The rounds from one number on**, as far as they got. -/
structure Orderly (payoutScript : Bytes) (left roundNumber : ℕ) (trace : Prog.Trace Call.Answer)
    (result : Option (Except RunError Unit)) : Prop where
  /-- Each block is built on the template that was fetched right before it. -/
  fresh : Fresh payoutScript trace
  /-- There is no more than one block a round, made with the number of the round. -/
  numbered : ∃ numbers : List ℕ, numbers.Sublist (List.range' roundNumber left) ∧
    List.Forall₂ (fun number submission => ∃ template,
      Mined template payoutScript (UInt64.ofNat number) submission.1) numbers (submissions trace)
  /-- Every block but the last one was accepted. -/
  accepted : ∀ submission ∈ (submissions trace).dropLast, submission.2 = .ok none
  /-- Behind a block that was not accepted nothing is asked. -/
  stops : Stops trace
  /-- If nothing fails, every round has its block, and all are accepted. -/
  complete : result = some (.ok ()) → (submissions trace).length = left ∧
    ∀ submission ∈ submissions trace, submission.2 = .ok none

/-- **A round, and what comes of it**: without a template or a block the run is over, after
a block that is not accepted as well; otherwise the rounds that are left follow. -/
theorem runs_rounds_succ {left roundNumber : ℕ} {trace : Prog.Trace Call.Answer}
    {result : Option (Except RunError Unit)}
    (h : Prog.Runs (rounds payoutScript (left + 1) roundNumber) trace result) :
    result ≠ some (.ok ()) ∧ (∃ answer, trace = [⟨.getBlockTemplate, answer⟩]) ∨
      ∃ template text answer rest, Mined template payoutScript (UInt64.ofNat roundNumber) text ∧
        trace = ⟨.getBlockTemplate, .ok template⟩ :: ⟨.submitBlock text, answer⟩ :: rest ∧
          (answer ≠ .ok none ∧ rest = [] ∧ result ≠ some (.ok ()) ∨
            answer = .ok none ∧
              Prog.Runs (rounds payoutScript left (roundNumber + 1)) rest result) := by
  obtain ⟨answer, rest, rfl, hrest⟩ := Prog.runs_perform_bind_iff.mp h
  rcases answer with message | template
  · obtain ⟨rfl, rfl⟩ := Prog.runs_pure_iff.mp hrest
    exact Or.inl ⟨by simp, _, rfl⟩
  · rcases Prog.runs_bind_iff.mp hrest with ⟨first, rest, outcome, rfl, hmine, hrest⟩ |
      ⟨rfl, hmine⟩
    · rcases runs_mine hmine with ⟨text, answer, solution, hashes, hmined, rfl, houtcome⟩ |
        ⟨rfl, hnothing⟩
      · refine Or.inr ⟨template, text, answer, rest, hmined, rfl, ?_⟩
        obtain rfl := Option.some.inj houtcome
        rcases answer with message | _ | reason
        · obtain ⟨rfl, rfl⟩ := Prog.runs_pure_iff.mp hrest
          exact Or.inl ⟨by simp, rfl, by simp⟩
        · exact Or.inr ⟨rfl, hrest⟩
        · obtain ⟨rfl, rfl⟩ := Prog.runs_pure_iff.mp hrest
          exact Or.inl ⟨by simp, rfl, by simp⟩
      · rcases outcome with error | outcome
        · obtain ⟨rfl, rfl⟩ := Prog.runs_pure_iff.mp hrest
          exact Or.inl ⟨by simp, _, rfl⟩
        · obtain ⟨-, best, bestZeroBits, rfl⟩ := hnothing outcome rfl
          obtain ⟨rfl, rfl⟩ := Prog.runs_pure_iff.mp hrest
          exact Or.inl ⟨by simp, _, rfl⟩
    · rcases runs_mine hmine with ⟨_, _, _, _, -, -, houtcome⟩ | ⟨rfl, -⟩
      · exact absurd houtcome (by simp)
      · exact Or.inl ⟨by simp, _, rfl⟩

theorem fresh_singleton (answer : Except Str BlockTemplate) :
    Fresh payoutScript [⟨.getBlockTemplate, answer⟩] := by
  intro before text answer' after h
  rcases before with _ | ⟨event, before⟩
  · exact absurd (congrArg Sigma.fst (List.cons.inj h).1) (by simp)
  · exact absurd (List.cons.inj h).2 (by simp)

theorem fresh_nil : Fresh payoutScript [] := fun _ _ _ _ h => absurd h (by simp)

/-- One round more in front keeps every block behind its template. -/
theorem Fresh.cons {template : BlockTemplate} {text : Str} {answer : Except Str (Option Str)}
    {rest : Prog.Trace Call.Answer} (hmined : Mined template payoutScript extranonce text)
    (h : Fresh payoutScript rest) :
    Fresh payoutScript
      (⟨.getBlockTemplate, .ok template⟩ :: ⟨.submitBlock text, answer⟩ :: rest) := by
  intro before text' answer' after heq
  rcases before with _ | ⟨first, _ | ⟨second, before⟩⟩
  · exact absurd (congrArg Sigma.fst (List.cons.inj heq).1) (by simp)
  · obtain ⟨rfl, hsecond⟩ := List.cons.inj heq
    have hcall := congrArg Sigma.fst (List.cons.inj hsecond).1
    obtain rfl := Call.submitBlock.inj hcall
    exact ⟨[], template, extranonce, rfl, hmined⟩
  · obtain ⟨rfl, hsecond⟩ := List.cons.inj heq
    obtain ⟨rfl, hrest⟩ := List.cons.inj hsecond
    obtain ⟨earlier, template', extranonce', rfl, hmined'⟩ := h before text' answer' after hrest
    exact ⟨_ :: _ :: earlier, template', extranonce', rfl, hmined'⟩

theorem stops_singleton (answer : Except Str BlockTemplate) :
    Stops [⟨.getBlockTemplate, answer⟩] := by
  intro before text answer' after h _
  rcases before with _ | ⟨event, before⟩
  · exact absurd (congrArg Sigma.fst (List.cons.inj h).1) (by simp)
  · exact absurd (List.cons.inj h).2 (by simp)

theorem stops_nil : Stops [] := fun _ _ _ _ h => absurd h (by simp)

/-- One round more in front: only after an accepted block does anything follow. -/
theorem Stops.cons {template : BlockTemplate} {text : Str} {answer : Except Str (Option Str)}
    {rest : Prog.Trace Call.Answer} (hrest : answer ≠ .ok none → rest = []) (h : Stops rest) :
    Stops (⟨.getBlockTemplate, .ok template⟩ :: ⟨.submitBlock text, answer⟩ :: rest) := by
  intro before text' answer' after heq hrefused
  rcases before with _ | ⟨first, _ | ⟨second, before⟩⟩
  · exact absurd (congrArg Sigma.fst (List.cons.inj heq).1) (by simp)
  · obtain ⟨-, hsecond⟩ := List.cons.inj heq
    obtain ⟨hevent, rfl⟩ := List.cons.inj hsecond
    obtain ⟨-, hanswer⟩ := Sigma.mk.inj hevent
    obtain rfl := eq_of_heq hanswer
    exact hrest hrefused
  · obtain ⟨rfl, hsecond⟩ := List.cons.inj heq
    obtain ⟨rfl, hrest⟩ := List.cons.inj hsecond
    exact h before text' answer' after hrest hrefused

theorem mem_of_mem_dropLast_cons {α : Type} {a b : α} {l : List α}
    (h : b ∈ (a :: l).dropLast) : b ∈ a :: l.dropLast := by
  cases l with
  | nil => exact absurd h List.not_mem_nil
  | cons c l => exact h

/-- **The rounds are orderly.** -/
theorem orderly_rounds {left roundNumber : ℕ} {trace : Prog.Trace Call.Answer}
    {result : Option (Except RunError Unit)}
    (h : Prog.Runs (rounds payoutScript left roundNumber) trace result) :
    Orderly payoutScript left roundNumber trace result := by
  induction left generalizing roundNumber trace with
  | zero =>
    obtain ⟨rfl, rfl⟩ := Prog.runs_pure_iff.mp h
    exact ⟨fresh_nil, ⟨[], List.Sublist.refl _, .nil⟩,
      fun _ hmem => absurd hmem List.not_mem_nil, stops_nil,
      fun _ => ⟨rfl, fun _ hmem => absurd hmem List.not_mem_nil⟩⟩
  | succ left ih =>
    rcases runs_rounds_succ h with ⟨hfailed, answer, rfl⟩ |
      ⟨template, text, answer, rest, hmined, rfl, hrest⟩
    · exact ⟨fresh_singleton answer, ⟨[], List.nil_sublist _, .nil⟩,
        fun _ hmem => absurd hmem List.not_mem_nil, stops_singleton answer,
        fun hok => absurd hok hfailed⟩
    · have hsubmissions : submissions (⟨.getBlockTemplate, .ok template⟩ ::
          ⟨.submitBlock text, answer⟩ :: rest) = (text, answer) :: submissions rest := rfl
      rcases hrest with ⟨-, rfl, hfailed⟩ | ⟨rfl, hrest⟩
      · refine ⟨Fresh.cons hmined fresh_nil, ⟨[roundNumber], ?_, ?_⟩, ?_,
          Stops.cons (fun _ => rfl) stops_nil, fun hok => absurd hok hfailed⟩
        · rw [List.range'_succ]
          exact (List.nil_sublist _).cons_cons _
        · exact .cons ⟨template, hmined⟩ .nil
        · exact fun _ hmem => absurd hmem List.not_mem_nil
      · obtain ⟨hfresh, ⟨numbers, hsub, hnumbers⟩, haccepted, hstops, hcomplete⟩ := ih hrest
        refine ⟨hfresh.cons hmined, ⟨roundNumber :: numbers, ?_, ?_⟩, ?_,
          hstops.cons fun hrefused => absurd rfl hrefused, fun hok => ?_⟩
        · rw [List.range'_succ]
          exact hsub.cons_cons _
        · rw [hsubmissions]
          exact .cons ⟨template, hmined⟩ hnumbers
        · rw [hsubmissions]
          intro submission hmem
          rcases List.mem_cons.mp (mem_of_mem_dropLast_cons hmem) with rfl | hmem
          · rfl
          · exact haccepted submission hmem
        · obtain ⟨hlength, hall⟩ := hcomplete hok
          rw [hsubmissions]
          exact ⟨by rw [List.length_cons, hlength], List.forall_mem_cons.mpr ⟨rfl, hall⟩⟩

/-! ### A whole run -/

theorem exists_of_forall₂ {α β : Type} {R : α → β → Prop} {as : List α} {bs : List β}
    (h : List.Forall₂ R as bs) {b : β} (hb : b ∈ bs) : ∃ a ∈ as, R a b := by
  induction h with
  | nil => exact absurd hb List.not_mem_nil
  | cons hab _ ih =>
    rcases List.mem_cons.mp hb with rfl | hb
    · exact ⟨_, List.mem_cons_self, hab⟩
    · obtain ⟨a, ha, hrel⟩ := ih hb
      exact ⟨a, List.mem_cons_of_mem _ ha, hrel⟩

/-- The blocks of different rounds are different. -/
theorem nodup_of_numbered {left roundNumber : ℕ} (hrange : roundNumber + left ≤ 2 ^ 64)
    {numbers : List ℕ} (hsub : numbers.Sublist (List.range' roundNumber left))
    {blocks : List (Str × Except Str (Option Str))}
    (h : List.Forall₂ (fun number submission => ∃ template,
      Mined template payoutScript (UInt64.ofNat number) submission.1) numbers blocks) :
    (blocks.map Prod.fst).Nodup := by
  have hinj : ∀ {number number' : ℕ} {block block' : Str × Except Str (Option Str)},
      number ∈ List.range' roundNumber left → number' ∈ List.range' roundNumber left →
        (∃ template, Mined template payoutScript (UInt64.ofNat number) block.1) →
          (∃ template, Mined template payoutScript (UInt64.ofNat number') block'.1) →
            block.1 = block'.1 → number = number' := by
    rintro number number' block block' hmem hmem'
      ⟨template, builder, header, target, nonce, hprepare, -, -, htext⟩
      ⟨template', builder', header', target', nonce', hprepare', -, -, htext'⟩ heq
    obtain ⟨wtxids, hprepared⟩ := prepare_eq_ok hprepare
    obtain ⟨wtxids', hprepared'⟩ := prepare_eq_ok hprepare'
    have hserialize := Hex.encode_injective (htext.symm.trans (heq.trans htext'))
    have hextra := congrArg UInt64.toNat (extranonce_of_serialize hprepared hprepared' hserialize)
    rw [List.mem_range'_1] at hmem hmem'
    rwa [UInt64.toNat_ofNat_of_lt' (by rw [UInt64.size]; omega),
      UInt64.toNat_ofNat_of_lt' (by rw [UInt64.size]; omega)] at hextra
  induction h with
  | nil => exact List.nodup_nil
  | @cons number block numbers blocks hmined hrest ih =>
    have hdistinct := hsub.nodup (List.nodup_range' (s := roundNumber) (n := left))
    refine List.nodup_cons.mpr ⟨fun hmem => ?_, ih ((List.sublist_cons_self _ _).trans hsub)⟩
    obtain ⟨block', hblock', heq⟩ := List.mem_map.mp hmem
    obtain ⟨number', hnumber', hmined'⟩ := exists_of_forall₂ hrest hblock'
    have hsame := hinj (hsub.subset List.mem_cons_self)
      (hsub.subset (List.mem_cons_of_mem _ hnumber')) hmined hmined' heq.symm
    exact (List.nodup_cons.mp hdistinct).1 (hsame ▸ hnumber')

/-- A question that submits nothing. -/
def Call.IsQuiet : Call → Prop
  | submitBlock _ => False
  | _ => True

theorem Fresh.concat_quiet {event : Sigma Call.Answer} {trace : Prog.Trace Call.Answer}
    (h : Fresh payoutScript trace) (hevent : event.1.IsQuiet) :
    Fresh payoutScript (trace ++ [event]) := by
  intro before text answer after heq
  rcases List.eq_nil_or_concat' after with rfl | ⟨after, last, rfl⟩
  · obtain ⟨-, rfl⟩ := List.append_inj' heq rfl |>.imp id fun h => (List.cons.inj h).1
    exact absurd hevent id
  · rw [← List.cons_append, ← List.append_assoc] at heq
    exact h before text answer after (List.append_inj' heq rfl).1

/-- A trace of a question more, after blocks that were all accepted. -/
theorem Stops.concat_quiet {event : Sigma Call.Answer} {trace : Prog.Trace Call.Answer}
    (h : ∀ submission ∈ submissions trace, submission.2 = .ok none)
    (hevent : event.1.IsQuiet) : Stops (trace ++ [event]) := by
  intro before text answer after heq hrefused
  have hmem : (⟨.submitBlock text, answer⟩ : Sigma Call.Answer) ∈ trace ++ [event] :=
    heq ▸ List.mem_append_right _ List.mem_cons_self
  rcases List.mem_append.mp hmem with hmem | hmem
  · exact absurd (h (text, answer) (List.mem_filterMap.mpr ⟨_, hmem, rfl⟩)) hrefused
  · obtain rfl := List.mem_singleton.mp hmem
    exact absurd hevent id

theorem submissions_cons_quiet {event : Sigma Call.Answer} (hevent : event.1.IsQuiet)
    (rest : Prog.Trace Call.Answer) : submissions (event :: rest) = submissions rest := by
  obtain ⟨call, answer⟩ := event
  cases call with
  | submitBlock text => exact absurd hevent id
  | _ => rfl

theorem submissions_concat_quiet {event : Sigma Call.Answer} (hevent : event.1.IsQuiet)
    (trace : Prog.Trace Call.Answer) : submissions (trace ++ [event]) = submissions trace := by
  have hlast := submissions_cons_quiet hevent []
  rw [submissions, List.filterMap_append]
  exact (congrArg (submissions trace ++ ·) hlast).trans (List.append_nil _)

/-- **What holds of every run of the miner.** -/
structure InOrder (blocksToMine : UInt32) (trace : Prog.Trace Call.Answer)
    (result : Option (Except RunError Unit)) : Prop where
  /-- Nothing is submitted unless the node has said first that it is on regtest. -/
  chain : submissions trace ≠ [] → trace.head? = some ⟨.getBlockchainInfo, .ok REGTEST⟩
  /-- A block is submitted right after the template that it is mined on was fetched, whatever
  that is, for the script of a valid address; and if the template is that of an honest node, it
  is a block that the node takes, which pays to the script. -/
  taken : ∀ before text answer after, trace = before ++ ⟨.submitBlock text, answer⟩ :: after →
    ∃ earlier template address info script payoutScript,
      before = earlier ++ [⟨.getBlockTemplate, .ok template⟩] ∧
        ⟨.validateAddress address, .ok info⟩ ∈ earlier ∧ info.isValid = true ∧
          info.scriptPubkey = some script ∧ Hex.decode script = .ok payoutScript ∧
            (∃ extranonce, Mined template payoutScript extranonce text) ∧
              ∀ next others, Offers next others template → ∃ raw header coinbase,
                Takes next others template payoutScript text raw header coinbase
  /-- After a block that was not accepted the node is not asked anything more. -/
  stops : Stops trace
  /-- No block is submitted twice. -/
  distinct : ((submissions trace).map Prod.fst).Nodup
  /-- There are no more blocks than were asked for, -/
  bounded : (submissions trace).length ≤ blocksToMine.toNat
  /-- every one but the last was accepted, -/
  accepted : ∀ submission ∈ (submissions trace).dropLast, submission.2 = .ok none
  /-- and if nothing fails, there are as many as were asked for, all accepted. -/
  complete : result = some (.ok ()) → (submissions trace).length = blocksToMine.toNat ∧
    ∀ submission ∈ submissions trace, submission.2 = .ok none

/-- A run that submits nothing and does not succeed. -/
theorem inOrder_of_quiet {blocksToMine : UInt32} {trace : Prog.Trace Call.Answer}
    {result : Option (Except RunError Unit)} (hquiet : ∀ event ∈ trace, event.1.IsQuiet)
    (hfailed : result ≠ some (.ok ())) : InOrder blocksToMine trace result := by
  have hnone : submissions trace = [] := by
    induction trace with
    | nil => rfl
    | cons event rest ih =>
      obtain ⟨hevent, hrest⟩ := List.forall_mem_cons.mp hquiet
      rw [submissions_cons_quiet hevent, ih hrest]
  have hnot : ∀ {before text answer after},
      trace ≠ before ++ ⟨.submitBlock text, answer⟩ :: after := fun heq =>
    absurd (hquiet _ (heq ▸ List.mem_append_right _ List.mem_cons_self)) id
  refine ⟨fun h => absurd hnone h, fun _ _ _ _ heq => absurd heq hnot,
    fun _ _ _ _ heq => absurd heq hnot, ?_, ?_, ?_, fun hok => absurd hok hfailed⟩
  · rw [hnone]
    exact List.nodup_nil
  · rw [hnone]
    exact Nat.zero_le _
  · rw [hnone]
    exact fun _ hmem => absurd hmem List.not_mem_nil

/-- The questions before the rounds, as they are answered when rounds follow. -/
def opening (address : Str) (info : AddressInfo) : Prog.Trace Call.Answer :=
  [⟨.getBlockchainInfo, .ok REGTEST⟩, ⟨.ensureWallet WALLET_NAME, .ok ()⟩,
    ⟨.getNewAddress WALLET_NAME, .ok address⟩, ⟨.validateAddress address, .ok info⟩]

theorem quiet_opening {address : Str} {info : AddressInfo} :
    ∀ event ∈ opening address info, event.1.IsQuiet := by
  simp [opening, Call.IsQuiet]

/-- A block of a run is one of the rounds, since the questions before them submit nothing. -/
theorem exists_of_opening_append {address text : Str} {info : AddressInfo}
    {body before after : Prog.Trace Call.Answer} {answer : Except Str (Option Str)}
    (h : opening address info ++ body = before ++ ⟨.submitBlock text, answer⟩ :: after) :
    ∃ rest, before = opening address info ++ rest ∧
      body = rest ++ ⟨.submitBlock text, answer⟩ :: after := by
  rcases List.append_eq_append_iff.mp h with hbody | ⟨rest, hopening, hrest⟩
  · exact hbody
  · rcases rest with _ | ⟨event, rest⟩
    · exact ⟨[], by rw [hopening, List.append_nil, List.append_nil], hrest.symm⟩
    · obtain rfl := (List.cons.inj hrest).1
      have hmem : (⟨.submitBlock text, answer⟩ : Sigma Call.Answer) ∈ opening address info :=
        hopening ▸ List.mem_append_right _ List.mem_cons_self
      exact absurd (quiet_opening _ hmem) id

/-- A run whose rounds are orderly, with the questions before them. -/
theorem inOrder_of_rounds {blocksToMine : UInt32} {address script : Str} {info : AddressInfo}
    {body : Prog.Trace Call.Answer} {result : Option (Except RunError Unit)}
    (hvalid : info.isValid = true) (hscript : info.scriptPubkey = some script)
    (hdecode : Hex.decode script = .ok payoutScript)
    (h : Orderly payoutScript blocksToMine.toNat 1 body result) :
    InOrder blocksToMine (opening address info ++ body) result := by
  have hsubmissions : submissions (opening address info ++ body) = submissions body := by
    rw [submissions, List.filterMap_append]
    rfl
  obtain ⟨hfresh, ⟨numbers, hsub, hnumbers⟩, haccepted, hstops, hcomplete⟩ := h
  have hrange : 1 + blocksToMine.toNat ≤ 2 ^ 64 := by
    have hlt : blocksToMine.toNat < 2 ^ 32 := blocksToMine.toNat_lt
    omega
  refine ⟨fun _ => rfl, fun before text answer after heq => ?_,
    fun before text answer after heq => ?_, ?_, ?_, ?_, ?_⟩
  · obtain ⟨rest, rfl, hbody⟩ := exists_of_opening_append heq
    obtain ⟨earlier, template, extranonce, rfl, hmined⟩ := hfresh rest text answer after hbody
    refine ⟨opening address info ++ earlier, template, address, info, script, payoutScript,
      by rw [List.append_assoc], ?_, hvalid, hscript, hdecode, ⟨extranonce, hmined⟩,
      fun next others hoffers => takes_of_mined hoffers hmined⟩
    exact List.mem_append_left _ (by simp [opening])
  · obtain ⟨rest, -, hbody⟩ := exists_of_opening_append heq
    exact hstops rest text answer after hbody
  · rw [hsubmissions]
    exact nodup_of_numbered hrange hsub hnumbers
  · rw [hsubmissions, ← hnumbers.length_eq]
    exact hsub.length_le.trans_eq (List.length_range' ..)
  · rw [hsubmissions]
    exact haccepted
  · rw [hsubmissions]
    exact hcomplete

/-- One more question after the rounds. -/
theorem Orderly.concat_quiet {left roundNumber : ℕ} {body : Prog.Trace Call.Answer}
    {event : Sigma Call.Answer} {result result' : Option (Except RunError Unit)}
    (h : Orderly payoutScript left roundNumber body result) (hevent : event.1.IsQuiet)
    (hresult : result = some (.ok ())) :
    Orderly payoutScript left roundNumber (body ++ [event]) result' := by
  refine ⟨h.fresh.concat_quiet hevent, ?_, ?_, Stops.concat_quiet (h.complete hresult).2 hevent,
    fun _ => ?_⟩
  · rw [submissions_concat_quiet hevent]
    exact h.numbered
  · rw [submissions_concat_quiet hevent]
    exact h.accepted
  · rw [submissions_concat_quiet hevent]
    exact h.complete hresult

/-- **After the address**: there are no rounds, or they are for the script of the address. -/
theorem runs_mineTo {blocksToMine : UInt32} {address : Str} {info : AddressInfo}
    {trace : Prog.Trace Call.Answer} {result : Option (Except RunError Unit)}
    (h : Prog.Runs (mineTo blocksToMine address info) trace result) :
    trace = [] ∧ result ≠ some (.ok ()) ∨
      ∃ script payoutScript, info.isValid = true ∧ info.scriptPubkey = some script ∧
        Hex.decode script = .ok payoutScript ∧
          Orderly payoutScript blocksToMine.toNat 1 trace result := by
  rw [mineTo] at h
  split_ifs at h with hinvalid
  · obtain ⟨rfl, rfl⟩ := Prog.runs_pure_iff.mp h
    exact Or.inl ⟨rfl, by simp⟩
  · have hvalid : info.isValid = true := by simpa using hinvalid
    rcases hscript : info.scriptPubkey with _ | script
    · rw [hscript] at h
      obtain ⟨rfl, rfl⟩ := Prog.runs_pure_iff.mp h
      exact Or.inl ⟨rfl, by simp⟩
    · rw [hscript] at h
      rcases Prog.runs_attempt_iff.mp h with ⟨payoutScript, hdecode, hrun⟩ | ⟨_, -, rfl, rfl⟩ |
        ⟨-, rfl, rfl⟩
      · refine Or.inr ⟨script, payoutScript, hvalid, rfl, Checked.mapErr_eq_ok.mp hdecode, ?_⟩
        rcases Prog.runs_bind_iff.mp hrun with ⟨body, rest, outcome, rfl, hbody, hrest⟩ |
          ⟨rfl, hbody⟩
        · have horderly := orderly_rounds hbody
          rcases outcome with error | ⟨⟩
          · obtain ⟨rfl, rfl⟩ := Prog.runs_pure_iff.mp hrest
            rw [List.append_nil]
            exact horderly
          · obtain ⟨answer, last, rfl, hlast⟩ := Prog.runs_perform_bind_iff.mp hrest
            rcases answer with message | chain
            · obtain ⟨rfl, rfl⟩ := Prog.runs_pure_iff.mp hlast
              exact horderly.concat_quiet trivial rfl
            · obtain ⟨rfl, rfl⟩ := Prog.runs_pure_iff.mp hlast
              exact horderly.concat_quiet trivial rfl
        · exact orderly_rounds hbody
      · exact Or.inl ⟨rfl, by simp⟩
      · exact Or.inl ⟨rfl, by simp⟩

/-- **Every run of the miner is in order**, whatever its node answers: nothing is submitted
off regtest; each block is built on the template fetched right before it, valid if that
is; no block is submitted twice, and none after one that was refused; and a run that
succeeds has mined as many blocks as it was asked for. -/
theorem run_inOrder (blocksToMine : UInt32) (trace : Prog.Trace Call.Answer)
    (result : Option (Except RunError Unit)) (h : Prog.Runs (run blocksToMine) trace result) :
    InOrder blocksToMine trace result := by
  have hquiet : ∀ event ∈ ([] : Prog.Trace Call.Answer), event.1.IsQuiet :=
    fun _ hmem => absurd hmem List.not_mem_nil
  obtain ⟨answer, rest, rfl, hchecked⟩ := Prog.runs_perform_bind_iff.mp h
  rcases answer with message | chain
  · obtain ⟨rfl, rfl⟩ := Prog.runs_pure_iff.mp hchecked
    exact inOrder_of_quiet (List.forall_mem_cons.mpr ⟨trivial, hquiet⟩) (by simp)
  dsimp only at hchecked
  split_ifs at hchecked with hchain
  · obtain ⟨rfl, rfl⟩ := Prog.runs_pure_iff.mp hchecked
    exact inOrder_of_quiet (List.forall_mem_cons.mpr ⟨trivial, hquiet⟩) (by simp)
  obtain rfl : chain = REGTEST := not_not.mp hchain
  obtain ⟨answer, rest, rfl, hwallet⟩ := Prog.runs_perform_bind_iff.mp hchecked
  rcases answer with message | ⟨⟩
  · obtain ⟨rfl, rfl⟩ := Prog.runs_pure_iff.mp hwallet
    exact inOrder_of_quiet (by simp [Call.IsQuiet]) (by simp)
  obtain ⟨answer, rest, rfl, haddress⟩ := Prog.runs_perform_bind_iff.mp hwallet
  rcases answer with message | address
  · obtain ⟨rfl, rfl⟩ := Prog.runs_pure_iff.mp haddress
    exact inOrder_of_quiet (by simp [Call.IsQuiet]) (by simp)
  obtain ⟨answer, rest, rfl, hinfo⟩ := Prog.runs_perform_bind_iff.mp haddress
  rcases answer with message | info
  · obtain ⟨rfl, rfl⟩ := Prog.runs_pure_iff.mp hinfo
    exact inOrder_of_quiet (by simp [Call.IsQuiet]) (by simp)
  rcases runs_mineTo hinfo with ⟨rfl, hfailed⟩ |
    ⟨script, payoutScript, hvalid, hscript, hdecode, horderly⟩
  · exact inOrder_of_quiet quiet_opening hfailed
  · exact inOrder_of_rounds hvalid hscript hdecode horderly

/-- A template of a chain that has just begun. -/
def sampleTemplate : BlockTemplate where
  version := 0x20000000
  previousBlockHash := "0f9188f13cb7b2c71f2a335e3a4fc328bf5beb436012afca590b1a11466e2206".toList
  transactions := []
  coinbaseValue := 5000000000
  bits := "207fffff".toList
  height := 1
  currentTime := 1700000005
  defaultWitnessCommitment := none

/-- Whether a round finds a block. -/
def finds (template : BlockTemplate) (payoutScript : Bytes) (extranonce : UInt64) : Bool :=
  match prepare template payoutScript extranonce with
  | .ok (_, header, target) => (search header target 0 0xFFFFFFFF).solution.isSome
  | .error _ => false

/-- What the node has to say in a run of one block, which it accepts. -/
def sampleRun (text : Str) : Prog.Trace Call.Answer :=
  opening ['a'] ⟨true, some ['5', '1']⟩ ++ [⟨.getBlockTemplate, .ok sampleTemplate⟩,
    ⟨.submitBlock text, .ok none⟩, ⟨.getBlockchainInfo, .ok REGTEST⟩]

/-- The run that mines one block is in order. -/
theorem run_inOrder_sample : ∃ text, Prog.Runs (run 1) (sampleRun text) (some (.ok ())) ∧
    InOrder 1 (sampleRun text) (some (.ok ())) := by
  have hfinds : finds sampleTemplate [0x51] (UInt64.ofNat 1) = true := by decide +kernel
  rw [finds] at hfinds
  split at hfinds
  · next builder header target hprepare =>
    obtain ⟨solution, hsolution⟩ := Option.isSome_iff_exists.mp hfinds
    have hmine : Prog.Runs (mine sampleTemplate [0x51] (UInt64.ofNat 1))
        [⟨.submitBlock (Hex.encode (builder.serialize { header with nonce := solution.nonce })),
          .ok none⟩] (some (.ok (.accepted solution.hash 1 solution.nonce
            (search header target 0 0xFFFFFFFF).hashes))) := by
      refine Prog.Runs.attempt hprepare ?_
      dsimp only
      rw [hsolution]
      exact .op (.ret _)
    have hrounds : Prog.Runs (rounds [0x51] 1 1) [⟨.getBlockTemplate, .ok sampleTemplate⟩,
        ⟨.submitBlock (Hex.encode (builder.serialize { header with nonce := solution.nonce })),
          .ok none⟩] (some (.ok ())) := by
      refine Prog.runs_perform_bind_iff.mpr ⟨.ok sampleTemplate, _, rfl, ?_⟩
      dsimp only
      exact hmine.bind (.ret _)
    have hrun : Prog.Runs (run 1) (sampleRun (Hex.encode (builder.serialize
        { header with nonce := solution.nonce }))) (some (.ok ())) := by
      have hscript : Hex.decode ['5', '1'] = .ok [0x51] := by decide +kernel
      have hmineTo : mineTo 1 ['a'] ⟨true, some ['5', '1']⟩ =
          .attempt (Checked.mapErr .badScript (Hex.decode ['5', '1'])) (mineAll 1) := rfl
      have hlast : Prog.Runs (do
          let answer ← ask .getBlockchainInfo
          match answer with
          | .error message => pure (.error (.rpc message))
          | .ok _ => pure (.ok ()) : NodeProg (Except RunError Unit))
          [⟨.getBlockchainInfo, .ok REGTEST⟩] (some (.ok ())) := .op (.ret _)
      have hafter : Prog.Runs (mineTo 1 ['a'] ⟨true, some ['5', '1']⟩) _ (some (.ok ())) :=
        hmineTo ▸ Prog.Runs.attempt (Checked.mapErr_eq_ok.mpr hscript) (hrounds.bind hlast)
      exact .op (.op (.op (.op hafter)))
    exact ⟨_, hrun, run_inOrder 1 _ _ hrun⟩
  · exact absurd hfinds (by simp)

end Regtest

end SoloMiner
