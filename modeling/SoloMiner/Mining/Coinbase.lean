import SoloMiner.Primitives.Merkle
import SoloMiner.Primitives.Transaction

/-!
# The coinbase transaction

A miner writes two scripts: the `scriptSig` of the coinbase – the block height, the
extranonce and a tag, each as a push – and the witness commitment output. The push of
more than 520 bytes panics, and a `scriptSig` outside 2 to 100 bytes is an error, so
only a narrow range of extranonces is ever built into a coinbase
(`SoloMiner.CoinbaseBuilder.build_eq`). The layout of the `scriptSig` is
`SoloMiner.CoinbaseBuilder.scriptSig_eq`, and that of the coinbase around it
`SoloMiner.CoinbaseBuilder.serializeLegacy_transaction`.
-/

namespace SoloMiner

/-- The decimal digits of a number, as `format!` prints it. -/
def decimal (n : ℕ) : Str := Nat.toDigits 10 n

namespace Script

variable {ε : Type}

/-- What `push_data` appends: a minimal push of `data`. -/
def pushData (data : Bytes) : Checked ε Bytes :=
  if data.length ≤ 75 then .ok (UInt8.ofNat data.length :: data)
  else if data.length ≤ 255 then .ok (0x4C :: UInt8.ofNat data.length :: data)
  else if data.length ≤ 520 then .ok (0x4D :: (Base256.toLE 2 data.length ++ data))
  else .panic

/-- The loop of `encode_script_number`: bytes off the low end until none are left. The
first argument bounds the passes; a `u32` has four bytes. -/
def lowBytes : ℕ → UInt32 → Bytes
  | 0, _ => []
  | fuel + 1, value =>
    if value > 0 then (value &&& 0xFF).toUInt8 :: lowBytes fuel (value >>> 8) else []

/-- Encodes a non-negative integer as a Script number. -/
def encodeScriptNumber (value : UInt32) : Bytes :=
  if value = 0 then []
  else
    let encoded := lowBytes 4 value
    -- A set top bit would be read as a sign, so a zero byte is put after it.
    if (encoded.getLastD 0) &&& 0x80 ≠ 0 then encoded ++ [0x00] else encoded

/-- Encodes a block height as Bitcoin Core does. -/
def encodeBlockHeight (height : UInt32) : Checked ε Bytes :=
  if height = 0 then .ok [0x00]
  else if height ≤ 16 then .ok [0x51 + height.toUInt8 - 1]
  else pushData (encodeScriptNumber height)

/-! ### The sizes of pushes -/

theorem pushData_eq_panic_iff (data : Bytes) :
    (pushData data : Checked ε Bytes) = .panic ↔ 520 < data.length := by
  simp only [pushData]
  split_ifs <;> simp <;> omega

/-- The bytes in front of the data of a push. -/
def pushHead (n : ℕ) : Bytes :=
  if n ≤ 75 then [UInt8.ofNat n]
  else if n ≤ 255 then [0x4C, UInt8.ofNat n]
  else 0x4D :: Base256.toLE 2 n

/-- A push is its data after its head. -/
theorem pushData_eq_ok {data : Bytes} (h : data.length ≤ 520) :
    (pushData data : Checked ε Bytes) = .ok (pushHead data.length ++ data) := by
  simp only [pushData, pushHead]
  split_ifs <;> rfl

theorem length_lowBytes_le (fuel : ℕ) (value : UInt32) : (lowBytes fuel value).length ≤ fuel := by
  induction fuel generalizing value with
  | zero => exact le_rfl
  | succ fuel ih =>
    rw [lowBytes]
    split_ifs
    · rw [List.length_cons]
      exact Nat.succ_le_succ (ih _)
    · exact Nat.zero_le _

theorem length_encodeScriptNumber_le (value : UInt32) : (encodeScriptNumber value).length ≤ 5 := by
  have hlow := length_lowBytes_le 4 value
  rw [encodeScriptNumber]
  split_ifs with h0
  · simp
  · simp only
    split_ifs
    · rw [List.length_append]
      exact Nat.add_le_add hlow le_rfl
    · omega

/-- The bytes of the height prefix. -/
def heightBytes (height : UInt32) : Bytes :=
  if height = 0 then [0x00]
  else if height ≤ 16 then [0x51 + height.toUInt8 - 1]
  else pushHead (encodeScriptNumber height).length ++ encodeScriptNumber height

/-- The height prefix is there for every height. -/
theorem encodeBlockHeight_eq_ok (height : UInt32) :
    (encodeBlockHeight height : Checked ε Bytes) = .ok (heightBytes height) := by
  have hlen := length_encodeScriptNumber_le height
  rw [encodeBlockHeight, heightBytes]
  split_ifs
  · rfl
  · rfl
  · exact pushData_eq_ok (by omega)

/-- The height prefix takes one to six bytes. -/
theorem length_heightBytes (height : UInt32) :
    1 ≤ (heightBytes height).length ∧ (heightBytes height).length ≤ 6 := by
  have hlen := length_encodeScriptNumber_le height
  rw [heightBytes]
  split_ifs
  · simp
  · simp
  · rw [List.length_append, pushHead, if_pos (by omega), List.length_singleton]
    omega

end Script

namespace Witness

/-- The four bytes that mark an output as a witness commitment. -/
def COMMITMENT_HEADER : Bytes := [0xAA, 0x21, 0xA9, 0xED]

/-- The witness reserved value. -/
def RESERVED_VALUE : ByteArr 32 := zeroArr 32

/-- The placeholder for the coinbase in the witness merkle tree. -/
def COINBASE_WTXID_PLACEHOLDER : Sha256dHash := .ZERO

/-- The witness merkle root over the transactions after the coinbase. The `expect` of
the source is on a list that is not empty. -/
def witnessMerkleRoot (wtxids : List Sha256dHash) : Sha256dHash :=
  (Merkle.merkleRoot (COINBASE_WTXID_PLACEHOLDER :: wtxids)).getD .ZERO

/-- A hash fits into the lower half of the buffer. -/
theorem hash_fits (hash : Sha256dHash) : 0 + hash.bytes.toList.length ≤ 64 := by simp

/-- The 32-byte commitment value. -/
def commitment (witnessRoot : Sha256dHash) (reservedValue : ByteArr 32) : Sha256dHash :=
  let buffer := overwrite (zeroArr 64) 0 witnessRoot.bytes.toList (hash_fits witnessRoot)
  let buffer := overwrite buffer 32 reservedValue.toList (by simp)
  .hash buffer.toList

/-- The `scriptPubKey` of the commitment output. -/
def commitmentScript (wtxids : List Sha256dHash) : Bytes :=
  let value := commitment (witnessMerkleRoot wtxids) RESERVED_VALUE
  [0x6A, 0x24] ++ COMMITMENT_HEADER ++ value.bytes.toList

end Witness

/-- Why a coinbase could not be built. -/
inductive CoinbaseError where
  /-- The `scriptSig` fell outside the consensus range of 2 to 100 bytes. -/
  | scriptSigLength (length : ℕ)
  deriving DecidableEq

/-- The text of a coinbase error. -/
def CoinbaseError.display : CoinbaseError → Str
  | .scriptSigLength length => "coinbase scriptSig is ".toList ++ decimal length ++
    " bytes, outside the consensus range of 2..=100 (shrink the extranonce or tag)".toList

/-- Assembles a coinbase transaction. -/
structure CoinbaseBuilder where
  /-- The height of the block. -/
  height : UInt32
  /-- What the coinbase pays. -/
  value : UInt64
  /-- Where it pays. -/
  payoutScript : Bytes
  /-- The bytes varied to refresh the nonce space. -/
  extranonce : Bytes
  /-- An arbitrary tag. -/
  tag : Bytes
  /-- The commitment output script. -/
  witnessCommitment : Option Bytes
  deriving DecidableEq

namespace CoinbaseBuilder

/-- Starts a coinbase without extranonce, tag or commitment. -/
def new (height : UInt32) (value : UInt64) (payoutScript : Bytes) : CoinbaseBuilder :=
  ⟨height, value, payoutScript, [], [], none⟩

/-- A push of `data`, left out when there is none. -/
def pushNonEmpty {ε : Type} (data : Bytes) : Checked ε Bytes :=
  if data.isEmpty then .ok [] else Script.pushData data

/-- The `scriptSig` this builder will produce. -/
def scriptSig {ε : Type} (self : CoinbaseBuilder) : Checked ε Bytes := do
  let height ← Script.encodeBlockHeight self.height
  let extranonce ← pushNonEmpty self.extranonce
  let tag ← pushNonEmpty self.tag
  pure (height ++ extranonce ++ tag)

/-- The transaction around a `scriptSig`. -/
def transaction (self : CoinbaseBuilder) (scriptSig : Bytes) : Transaction :=
  let witness := match self.witnessCommitment with
    | some _ => [Witness.RESERVED_VALUE.toList]
    | none => []
  let outputs : List TxOut := [⟨self.value, self.payoutScript⟩]
  let outputs := match self.witnessCommitment with
    | some script => outputs ++ [⟨0, script⟩]
    | none => outputs
  { version := 2
    inputs := [⟨.NULL, scriptSig, 0xFFFFFFFF, witness⟩]
    outputs := outputs
    lockTime := 0 }

/-- Builds the transaction. -/
def build (self : CoinbaseBuilder) : Checked CoinbaseError Transaction := do
  let scriptSig ← self.scriptSig
  if scriptSig.length < 2 ∨ 100 < scriptSig.length then .err (.scriptSigLength scriptSig.length)
  else pure (self.transaction scriptSig)

/-! ### The layout of the `scriptSig` -/

theorem pushNonEmpty_eq_panic_iff {ε : Type} (data : Bytes) :
    (pushNonEmpty data : Checked ε Bytes) = .panic ↔ 520 < data.length := by
  cases data with
  | nil => exact iff_of_false (by simp [pushNonEmpty]) (by simp)
  | cons b data => exact Script.pushData_eq_panic_iff _

/-- The bytes in front of the data of a push that is left out when there is none. -/
def pushHead (n : ℕ) : Bytes := if n = 0 then [] else Script.pushHead n

/-- A push, or nothing, is the data after its head. -/
theorem pushNonEmpty_eq_ok {ε : Type} {data : Bytes} (h : data.length ≤ 520) :
    (pushNonEmpty data : Checked ε Bytes) = .ok (pushHead data.length ++ data) := by
  cases data with
  | nil => rfl
  | cons b data => exact Script.pushData_eq_ok h

/-- The bytes of the `scriptSig`. -/
def scriptBytes (self : CoinbaseBuilder) : Bytes :=
  Script.heightBytes self.height ++ (pushHead self.extranonce.length ++ (self.extranonce ++
    (pushHead self.tag.length ++ self.tag)))

/-- **The layout of the `scriptSig`**: the height, then the extranonce and the tag, each
after the head of its push. -/
theorem scriptSig_eq {ε : Type} (self : CoinbaseBuilder) (hextra : self.extranonce.length ≤ 520)
    (htag : self.tag.length ≤ 520) :
    (self.scriptSig : Checked ε Bytes) = .ok self.scriptBytes := by
  rw [scriptSig, Script.encodeBlockHeight_eq_ok, pushNonEmpty_eq_ok hextra,
    pushNonEmpty_eq_ok htag]
  simp [scriptBytes, pure, Except.pure]

/-- A `scriptSig` panics precisely on an oversized extranonce or tag. -/
theorem scriptSig_eq_panic_iff {ε : Type} (self : CoinbaseBuilder) :
    (self.scriptSig : Checked ε Bytes) = .panic ↔
      520 < self.extranonce.length ∨ 520 < self.tag.length := by
  by_cases hextra : 520 < self.extranonce.length
  · have hpanic : (pushNonEmpty self.extranonce : Checked ε Bytes) = .panic :=
      (pushNonEmpty_eq_panic_iff _).mpr hextra
    rw [scriptSig, Script.encodeBlockHeight_eq_ok, Checked.ok_bind, hpanic]
    exact iff_of_true rfl (Or.inl hextra)
  · by_cases htag : 520 < self.tag.length
    · have hpanic : (pushNonEmpty self.tag : Checked ε Bytes) = .panic :=
        (pushNonEmpty_eq_panic_iff _).mpr htag
      rw [scriptSig, Script.encodeBlockHeight_eq_ok, Checked.ok_bind,
        pushNonEmpty_eq_ok (not_lt.mp hextra), Checked.ok_bind, hpanic]
      exact iff_of_true rfl (Or.inr htag)
    · rw [scriptSig_eq self (not_lt.mp hextra) (not_lt.mp htag)]
      exact iff_of_false (by simp) (by tauto)

/-- What `build` makes of the `scriptSig`. -/
theorem build_eq {self : CoinbaseBuilder} (hextra : self.extranonce.length ≤ 520)
    (htag : self.tag.length ≤ 520) :
    self.build = if self.scriptBytes.length < 2 ∨ 100 < self.scriptBytes.length then
      .err (.scriptSigLength self.scriptBytes.length)
      else .ok (self.transaction self.scriptBytes) := by
  rw [build, scriptSig_eq self hextra htag]
  rfl

theorem build_eq_panic_iff (self : CoinbaseBuilder) :
    self.build = .panic ↔ 520 < self.extranonce.length ∨ 520 < self.tag.length := by
  rw [← scriptSig_eq_panic_iff (ε := CoinbaseError), build, Checked.bind_eq_panic]
  refine or_iff_left ?_
  rintro ⟨script, -, hpanic⟩
  split_ifs at hpanic
  · exact Checked.err_ne_panic hpanic
  · exact Checked.ok_ne_panic hpanic

/-! ### The coinbase around its `scriptSig` -/

/-- The bytes of a coinbase before the length of its `scriptSig`. -/
def legacyHead : Bytes :=
  Base256.toLE 4 2 ++ (encodeLen 1 ++ (OutPoint.NULL.txid.bytes.toList ++
    Base256.toLE 4 OutPoint.NULL.vout.toNat))

@[simp] theorem length_legacyHead : legacyHead.length = 41 := by decide +kernel

/-- The bytes of a coinbase after its `scriptSig`. -/
def legacyTail (self : CoinbaseBuilder) : Bytes :=
  Base256.toLE 4 0xFFFFFFFF ++ ((self.transaction []).writeOutputs ++ Base256.toLE 4 0)

/-- **The layout of a coinbase**, witness-free: only the middle depends on the
`scriptSig`. -/
theorem serializeLegacy_transaction (self : CoinbaseBuilder) (script : Bytes) :
    (self.transaction script).serializeLegacy =
      legacyHead ++ (encodeLen script.length ++ (script ++ self.legacyTail)) := by
  have hversion : (self.transaction script).version.toUInt32.toNat = 2 := rfl
  have houtputs : (self.transaction script).writeOutputs = (self.transaction []).writeOutputs := rfl
  have hseq : (0xFFFFFFFF : UInt32).toNat = 0xFFFFFFFF := rfl
  rw [Transaction.serializeLegacy, hversion, houtputs, legacyHead, legacyTail]
  simp [Transaction.writeInputs, transaction, TxIn.encode, encodeVarBytes]

end CoinbaseBuilder

end SoloMiner
