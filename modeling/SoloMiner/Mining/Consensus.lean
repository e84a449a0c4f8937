import SoloMiner.Mining.Block
import SoloMiner.Mining.ScriptPushes

/-!
# What a node asks of a block

A block is worth something if the node takes it. This file states the rules of the
network that a miner has in its own hands, in the node's terms and not in those of the
code that builds the block: a block is read back from its bytes and the whole of them
(`SoloMiner.Consensus.parseBlock`), and what is read is `SoloMiner.Consensus.Valid` on
top of the tip.

The rules of the other transactions – that their inputs exist, their scripts and
signatures, the weight of the whole – are the node's own affair: it offers only
transactions that keep them.

The two main results are that a block of the builder is read back from its first byte to
its last (`SoloMiner.Consensus.parseBlock_serialize`), and that a coinbase of the builder
in front of transactions that are not coinbases makes a valid block as soon as its header
commits to them and meets its target (`SoloMiner.Consensus.valid_of_build`).
-/

namespace SoloMiner

open PrefixParser

namespace Consensus

/-! ### The rules -/

/-- What a node knows of the block that comes next. -/
structure NextBlock where
  /-- The block at the tip. -/
  prevHash : Sha256dHash
  /-- The height above it. -/
  height : UInt32
  /-- The difficulty that is due, which on some networks depends on the timestamp. -/
  bitsAt : UInt32 → UInt32
  /-- The subsidy and the fees: the most that the coinbase may create. -/
  reward : ℕ

/-- A transaction that creates money: its one input spends nothing. -/
def IsCoinbase (tx : Transaction) : Prop :=
  ∃ input, tx.inputs = [input] ∧ input.previousOutput = OutPoint.NULL

/-- The script is one push, of a string that stands for the number. -/
def PushesNumber (n : ℤ) (script : Bytes) : Prop :=
  ∃ data, Script.ReadsAs script [data] ∧ Script.scriptNumber data = n

/-- The script opens with the shortest push of the height. -/
def OpensWith (height : UInt32) (script : Bytes) : Prop :=
  ∃ head, head <+: script ∧ PushesNumber height.toNat head ∧
    ∀ head', PushesNumber height.toNat head' → head.length ≤ head'.length

/-- The script of an output that commits to witnesses: `OP_RETURN`, a push of at least 36
bytes, and the marker at its front. -/
def isCommitment (script : Bytes) : Bool :=
  decide (38 ≤ script.length) && script.take 6 == [0x6A, 0x24] ++ Witness.COMMITMENT_HEADER

/-- The commitment of a coinbase: of several, the last one counts. -/
def commitmentOf (coinbase : Transaction) : Option Bytes :=
  ((coinbase.outputs.map TxOut.scriptPubkey).reverse.find? isCommitment).map fun script =>
    (script.drop 6).take 32

/-- The block commits to its witnesses: to the tree over the witness ids, the coinbase's
as zero, hashed with the reserved value that is the coinbase's only witness item. A block
without a commitment has no witnesses. -/
def CommitsToWitness (coinbase : Transaction) (others : List Transaction) : Prop :=
  match commitmentOf coinbase with
  | none => ∀ tx ∈ coinbase :: others, tx.hasWitness = false
  | some value => ∃ input reserved root, coinbase.inputs.head? = some input ∧
      input.witness = [reserved] ∧ reserved.length = 32 ∧
      Merkle.merkleRoot (.ZERO :: others.map Transaction.wtxid) = some root ∧
      value = (Sha256d.sha256d (root.bytes.toList ++ reserved)).toList

/-- The rules of a coinbase in front of the other transactions. -/
structure ValidCoinbase (next : NextBlock) (coinbase : Transaction) (others : List Transaction) :
    Prop where
  /-- It is one, -/
  isCoinbase : IsCoinbase coinbase
  /-- its script is 2 to 100 bytes long -/
  scriptLength : ∀ input ∈ coinbase.inputs, 2 ≤ input.scriptSig.length ∧
    input.scriptSig.length ≤ 100
  /-- and opens with the height, -/
  height : ∀ input ∈ coinbase.inputs, OpensWith next.height input.scriptSig
  /-- it creates no more than it may, -/
  value : (coinbase.outputs.map fun output => output.value.toNat).sum ≤ next.reward
  /-- and it commits to the witnesses. -/
  witness : CommitsToWitness coinbase others

/-- **The rules of a block** on top of the tip. -/
structure Valid (next : NextBlock) (header : BlockHeader) (txs : List Transaction) : Prop where
  /-- It builds on the tip, -/
  prevBlock : header.prevBlock = next.prevHash
  /-- at the difficulty that is due, -/
  bits : header.bits = next.bitsAt header.time
  /-- which its hash meets; -/
  work : header.isValidProofOfWork = .ok true
  /-- the header commits to the transactions, -/
  merkleRoot : Merkle.merkleRoot (txs.map Transaction.txid) = some header.merkleRoot
  /-- and of these precisely the first one is a coinbase, which keeps its own rules. -/
  transactions : ∃ coinbase others, txs = coinbase :: others ∧
    ValidCoinbase next coinbase others ∧ ∀ tx ∈ others, ¬ IsCoinbase tx

/-! ### Reading a block -/

/-- A block on the wire: the header, the number of transactions, and the transactions. -/
def readBlock : ReaderM (BlockHeader × List Transaction) := do
  let header ← Reader.readArray 80
  let count ← Reader.readVarint
  let txs ← times Transaction.parse count.toNat
  pure (BlockHeader.deserialize header, txs)

/-- The block that the bytes are, if nothing is left over. -/
def parseBlock (s : Slice) : Option (BlockHeader × List Transaction) :=
  match run readBlock (Reader.new s) with
  | (.ok block, reader) => if reader.remaining = 0 then some block else none
  | (.error _, _) => none

/-- The format of a block. -/
theorem readBlock_matches :
    Matches Reader.cursor readBlock fun w block => ∃ txBytes, block.2.length < 2 ^ 64 ∧
      Format.Many Transaction.Wire txBytes block.2 ∧
        w = block.1.serialize.toList ++ (encodeLen block.2.length ++ txBytes) := by
  refine (matches_bind (Reader.readArray_matches 80) fun header =>
    matches_bind Reader.readVarint_matches fun count =>
    matches_bind (matches_times Transaction.parse_matches count.toNat) fun txs =>
    matches_pure _).congr fun w block => ⟨?_, ?_⟩
  · rintro ⟨_, _, header, rfl, rfl, _, _, count, rfl, rfl, txBytes, _, txs, rfl, ⟨hmany, hlen⟩,
      rfl, rfl⟩
    have hlt : count.toNat < 2 ^ 64 := count.toNat_lt
    refine ⟨txBytes, by rw [hlen]; exact hlt, hmany, ?_⟩
    rw [BlockHeader.toList_serialize_deserialize, encodeLen, hlen, UInt64.ofNat_toNat,
      List.append_nil]
  · rintro ⟨txBytes, hlt, hmany, rfl⟩
    obtain ⟨header, txs⟩ := block
    refine ⟨_, _, header.serialize, rfl, rfl, _, txBytes, UInt64.ofNat txs.length, rfl, rfl,
      txBytes, [], txs, (List.append_nil _).symm, ⟨hmany, ?_⟩, rfl, ?_⟩
    · rw [UInt64.toNat_ofNat_of_lt' hlt]
    · rw [BlockHeader.deserialize_fields]

/-- **The blocks that are parsed**: a header, the number of transactions, and these in
their format, to the last byte. -/
theorem parseBlock_eq_some_iff {s : Slice} {header : BlockHeader} {txs : List Transaction} :
    parseBlock s = some (header, txs) ↔ ∃ txBytes, txs.length < 2 ^ 64 ∧
      Format.Many Transaction.Wire txBytes txs ∧
        s.bytes = header.serialize.toList ++ (encodeLen txs.length ++ txBytes) := by
  have hmatch := readBlock_matches _ (Reader.valid_new s) (header, txs)
  rw [Reader.rest_new] at hmatch
  constructor
  · intro h
    rw [parseBlock] at h
    rcases hrun : run readBlock (Reader.new s) with ⟨e | block, reader⟩
    · rw [hrun] at h
      exact absurd h (by simp)
    · rw [hrun] at h
      dsimp only at h
      split_ifs at h with hend
      · obtain rfl := Option.some.inj h
        obtain ⟨w, ⟨txBytes, hlen, hmany, hw⟩, hpre, rfl⟩ := (hmatch reader).mp hrun
        refine ⟨txBytes, hlen, hmany, ?_⟩
        -- Nothing is left, so the word that was read is the whole slice.
        have hwhole : s.bytes.length - (0 + w.length) = 0 := hend
        have hle := hpre.length_le
        rw [← hw]
        exact (hpre.eq_of_length (by omega)).symm
  · rintro ⟨txBytes, hlen, hmany, hs⟩
    have hrun := (hmatch _).mpr ⟨s.bytes, ⟨txBytes, hlen, hmany, hs⟩, List.prefix_refl _, rfl⟩
    have hend : (Reader.cursor.skip (Reader.new s) s.bytes.length).remaining = 0 := by
      show s.bytes.length - (0 + s.bytes.length) = 0
      omega
    rw [parseBlock, hrun]
    exact if_pos hend

/-- Transactions that were written one after another are in their format. -/
theorem many_wire_serialize {txs : List Transaction} (hinputs : ∀ tx ∈ txs, tx.inputs ≠ [])
    (hlen : (txs.flatMap Transaction.serialize).length < 2 ^ 64) :
    Format.Many Transaction.Wire (txs.flatMap Transaction.serialize) txs := by
  induction txs with
  | nil => exact .nil
  | cons tx txs ih =>
    obtain ⟨htx, htxs⟩ := List.forall_mem_cons.mp hinputs
    rw [List.flatMap_cons] at hlen ⊢
    rw [List.length_append] at hlen
    exact .cons (Transaction.wire_serialize htx (by omega)) (ih htxs (by omega))

/-- A transaction takes bytes: its version at least. -/
theorem serialize_ne_nil (tx : Transaction) : tx.serialize ≠ [] := by
  rw [Transaction.serialize]
  split_ifs
  · rw [Transaction.serializeLegacy_eq]
    exact List.append_ne_nil_of_left_ne_nil (by simp [← List.length_pos_iff]) _
  · rw [Transaction.serializeSegwit_eq]
    exact List.append_ne_nil_of_left_ne_nil (by simp [← List.length_pos_iff]) _

/-- **A block of the builder is read back**, from its first byte to its last: its header,
its coinbase, and the transactions that it was given. -/
theorem parseBlock_serialize {block : BlockBuilder} {others : List Transaction}
    (header : BlockHeader) (hcoinbase : block.coinbase.inputs ≠ [])
    (hothers : ∀ tx ∈ others, tx.inputs ≠ [])
    (hraw : block.transactions = others.map Transaction.serialize) {s : Slice}
    (hs : s.bytes = block.serialize header) :
    parseBlock s = some (header, block.coinbase :: others) := by
  have hlt := s.length_lt
  have hflat : block.coinbase.serialize ++ block.transactions.flatten =
      (block.coinbase :: others).flatMap Transaction.serialize := by
    rw [hraw, List.flatMap_cons, List.flatMap_def]
  have hcount : block.transactionCount = (block.coinbase :: others).length := by
    rw [BlockBuilder.transactionCount, hraw, List.length_map, List.length_cons]
  rw [BlockBuilder.serialize_eq, hflat, hcount] at hs
  have hinputs : ∀ tx ∈ block.coinbase :: others, tx.inputs ≠ [] :=
    List.forall_mem_cons.mpr ⟨hcoinbase, hothers⟩
  rw [hs, List.length_append, List.length_append] at hlt
  have hmany := many_wire_serialize hinputs (by omega)
  refine parseBlock_eq_some_iff.mpr ⟨_, ?_, hmany, hs⟩
  -- Every transaction takes a byte at least, so there are no more than bytes.
  have hle := Transaction.length_le_flatMap serialize_ne_nil (block.coinbase :: others)
  omega

/-! ### The coinbase of the builder -/

/-- A script that is one push starts with it. -/
theorem readPush_of_readsAs {script data : Bytes} (h : Script.ReadsAs script [data]) :
    Script.readPush script = some (data, []) := by
  cases h with
  | cons hread hrest =>
    cases hrest with
    | nil => exact hread

/-- The bytes of a height are a push of it. -/
theorem pushesNumber_heightBytes (height : UInt32) :
    PushesNumber height.toNat (Script.heightBytes height) := by
  have hread := Script.readPush_heightBytes height []
  rw [List.append_nil] at hread
  exact ⟨_, .cons hread .nil, Script.scriptNumber_encodeScriptNumber height⟩

/-- **No push of a height is shorter than its bytes.** Up to 16 they are one opcode; above,
no opcode pushes the number, so its digits have to be carried behind their length. -/
theorem length_heightBytes_le {height : UInt32} {script : Bytes}
    (h : PushesNumber height.toNat script) :
    (Script.heightBytes height).length ≤ script.length := by
  obtain ⟨data, hreads, hnumber⟩ := h
  have hread := readPush_of_readsAs hreads
  by_cases h16 : height ≤ 16
  · have hpos : script ≠ [] := by
      rintro rfl
      exact absurd hread (by simp [Script.readPush])
    have hone : (Script.heightBytes height).length = 1 := by
      rw [Script.heightBytes]
      split_ifs <;> rfl
    have hlen := List.length_pos_of_ne_nil hpos
    omega
  · have hlt : 16 < height.toNat := Nat.lt_of_not_le fun hle =>
      h16 (UInt32.le_iff_toNat_le.mpr hle)
    have hnum : ¬ Script.IsNumberOpcode data := by
      rintro ⟨b, rfl, hb⟩
      have hsmall : Script.scriptNumber [b] ≤ 16 := by
        rcases hb with rfl | ⟨-, hle⟩
        · decide
        · have hle : b.toNat ≤ 16 := UInt8.le_iff_toNat_le.mp hle
          have hlast : [b].getLastD 0 = b := rfl
          have hsign : b &&& 0x80 = 0 := (Script.and_0x80_eq_zero_iff b).mpr (by omega)
          rw [Script.scriptNumber, hlast, if_neg (not_not.mpr hsign), Base256.ofLE_cons,
            Base256.ofLE_nil]
          omega
      omega
    have hcarried := Script.length_le_of_readPush hread hnum
    have hdigits := Script.length_encodeScriptNumber_le_of_scriptNumber hnumber
    have hhead := (Script.length_pushHead_le (n := data.length)).1
    rw [Script.heightBytes_of_lt (UInt32.lt_iff_toNat_lt.mpr hlt), List.length_cons]
    rw [List.length_append, List.length_nil] at hcarried
    omega

/-- **The script of a coinbase opens with its height.** -/
theorem opensWith_scriptBytes (builder : CoinbaseBuilder) :
    OpensWith builder.height builder.scriptBytes :=
  ⟨_, List.prefix_append _ _, pushesNumber_heightBytes builder.height,
    fun _ h => length_heightBytes_le h⟩

/-- The script that the builder is given for a commitment is one to the node. -/
theorem isCommitment_commitmentScript (wtxids : List Sha256dHash) :
    isCommitment (Witness.commitmentScript wtxids) = true := by
  have hvalue := (Witness.commitment (Witness.witnessMerkleRoot wtxids)
    Witness.RESERVED_VALUE).length_bytes
  simp [isCommitment, Witness.commitmentScript, Witness.COMMITMENT_HEADER, hvalue]

/-- What is committed to is the root and the reserved value, hashed one after the other. -/
theorem commitment_eq (root : Sha256dHash) (reserved : ByteArr 32) :
    (Witness.commitment root reserved).bytes =
      Sha256d.sha256d (root.bytes.toList ++ reserved.toList) := by
  have hroot := root.length_bytes
  have hreserved : reserved.toList.length = 32 := reserved.toList_length
  simp [Witness.commitment, Sha256dHash.hash, hroot, hreserved, List.drop_of_length_le]

/-- **The coinbase of the builder commits to the witnesses**, if it was given the script
for their ids. Where its payout goes does not matter: the commitment is the last output. -/
theorem commitsToWitness_transaction {builder : CoinbaseBuilder} {others : List Transaction}
    (hcommit : builder.witnessCommitment =
      some (Witness.commitmentScript (others.map Transaction.wtxid))) (script : Bytes) :
    CommitsToWitness (builder.transaction script) others := by
  have hmark := isCommitment_commitmentScript (others.map Transaction.wtxid)
  have hvalue : commitmentOf (builder.transaction script) =
      some (Witness.commitment (Witness.witnessMerkleRoot (others.map Transaction.wtxid))
        Witness.RESERVED_VALUE).bytes.toList := by
    rw [commitmentOf, CoinbaseBuilder.transaction, hcommit]
    simp only [List.cons_append, List.nil_append, List.map_cons, List.map_nil, List.reverse_cons,
      List.reverse_nil, List.find?_cons, hmark, Option.map_some]
    simp [Witness.commitmentScript, Witness.COMMITMENT_HEADER]
  have hroot : Merkle.merkleRoot (.ZERO :: others.map Transaction.wtxid) =
      some (Witness.witnessMerkleRoot (others.map Transaction.wtxid)) := by
    rw [Witness.witnessMerkleRoot, Witness.COINBASE_WTXID_PLACEHOLDER,
      Merkle.merkleRoot_cons .ZERO .ZERO, Option.getD_some]
  rw [CommitsToWitness, hvalue]
  refine ⟨_, Witness.RESERVED_VALUE.toList, _, rfl, ?_, Witness.RESERVED_VALUE.toList_length,
    hroot, ?_⟩
  · rw [hcommit]
  · rw [commitment_eq]

/-- **What the builder builds makes a valid block**: in front of transactions that are not
coinbases, under a header that builds on the tip, commits to them all and meets its
target. -/
theorem valid_of_build {next : NextBlock} {builder : CoinbaseBuilder} {coinbase : Transaction}
    {others : List Transaction} {header : BlockHeader}
    (hextra : builder.extranonce.length ≤ 520) (htag : builder.tag.length ≤ 520)
    (hbuild : builder.build = .ok coinbase) (hheight : builder.height = next.height)
    (hvalue : builder.value.toNat ≤ next.reward)
    (hcommit : builder.witnessCommitment =
      some (Witness.commitmentScript (others.map Transaction.wtxid)))
    (hothers : ∀ tx ∈ others, ¬ IsCoinbase tx) (hprev : header.prevBlock = next.prevHash)
    (hbits : header.bits = next.bitsAt header.time) (hwork : header.isValidProofOfWork = .ok true)
    (hroot : Merkle.merkleRoot ((coinbase :: others).map Transaction.txid) =
      some header.merkleRoot) :
    Valid next header (coinbase :: others) := by
  rw [CoinbaseBuilder.build_eq hextra htag] at hbuild
  split_ifs at hbuild with hlen
  · exact absurd hbuild (by simp [Checked.err])
  · obtain rfl := Except.ok.inj hbuild
    obtain ⟨input, hscript, hinputs, houtpoint, -, -, hsum, -, -⟩ :=
      builder.obeysRules_transaction hextra htag
    refine ⟨hprev, hbits, hwork, hroot, _, others, rfl, ⟨?_, ?_, ?_, ?_, ?_⟩, hothers⟩
    · exact ⟨input, hinputs, houtpoint⟩
    · rw [hinputs, List.forall_mem_singleton, hscript]
      omega
    · rw [hinputs, List.forall_mem_singleton, hscript, ← hheight]
      exact opensWith_scriptBytes builder
    · exact hsum.trans_le hvalue
    · exact commitsToWitness_transaction hcommit _

end Consensus

end SoloMiner
