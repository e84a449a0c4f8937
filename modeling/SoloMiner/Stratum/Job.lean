import Mathlib.Data.List.FinRange
import SoloMiner.Primitives.Header
import SoloMiner.Primitives.Merkle
import SoloMiner.Stratum.Json

/-!
# Jobs

A job is what the pool sends a miner to work on: the two halves of the coinbase around
the extranonce, the merkle branch, and the header fields. The miner splices its
extranonce in, folds the branch and has a header (`SoloMiner.Job.header`).

On the wire a job is nine JSON parameters. The previous hash goes in a byte order of
its own, each four-byte word reversed, which is undone by doing it again
(`SoloMiner.ByteOrder.swapWords_swapWords`); everything else is plain hex. What the
pool encodes the miner decodes: `SoloMiner.Job.fromNotifyParams_toNotifyParams`.
-/

namespace SoloMiner

namespace ByteOrder

/-- Where a byte goes when the four-byte words are reversed. -/
def swapIndex (i : Fin 32) : Fin 32 := ⟨4 * (i.val / 4) + (3 - i.val % 4), by omega⟩

/-- Reverses the bytes within each four-byte word. -/
def swapWords (bytes : ByteArr 32) : ByteArr 32 := .ofFn fun i => bytes.get (swapIndex i)

/-- Encodes a hash for the `prevhash` field. -/
def hashToStratum (hash : Sha256dHash) : ByteArr 32 := swapWords hash.bytes

/-- Decodes the `prevhash` field. -/
def hashFromStratum (bytes : ByteArr 32) : Sha256dHash := ⟨swapWords bytes⟩

/-- **Reversing the words is its own inverse.** -/
theorem swapWords_swapWords (bytes : ByteArr 32) : swapWords (swapWords bytes) = bytes := by
  have hindex : ∀ i : Fin 32, swapIndex (swapIndex i) = i := by decide
  refine List.Vector.ext fun i => ?_
  rw [swapWords, List.Vector.get_ofFn, swapWords, List.Vector.get_ofFn, hindex]

@[simp] theorem hashFromStratum_hashToStratum (hash : Sha256dHash) :
    hashFromStratum (hashToStratum hash) = hash := by
  rw [hashFromStratum, hashToStratum, swapWords_swapWords]

/-! ### The encoding of the reference pool -/

variable {α β : Type*}

/-- The eight groups of `n` elements that a list starts with. -/
def groups (n : ℕ) (xs : List α) : List (List α) :=
  (List.range 8).map fun i => (xs.drop (i * n)).take n

/-- The eight groups in reverse order, run together: on the display string, in groups of
eight characters, this is `reverse_hash` of the reference pool. -/
def reverseGroups (n : ℕ) (xs : List α) : List α := (groups n xs).reverse.flatten

theorem reverseGroups_map (f : α → β) (n : ℕ) (xs : List α) :
    reverseGroups n (xs.map f) = (reverseGroups n xs).map f := by
  simp [reverseGroups, groups, List.map_flatten, List.map_reverse, Function.comp_def]

theorem take_encode (n : ℕ) (bytes : Bytes) :
    (Hex.encode bytes).take (2 * n) = Hex.encode (bytes.take n) := by
  induction bytes generalizing n with
  | nil => simp [Hex.encode]
  | cons byte bytes ih =>
    cases n with
    | zero => rfl
    | succ n =>
      rw [Hex.encode_cons, List.take_succ_cons, Hex.encode_cons, ← ih]
      rfl

theorem drop_encode (n : ℕ) (bytes : Bytes) :
    (Hex.encode bytes).drop (2 * n) = Hex.encode (bytes.drop n) := by
  induction bytes generalizing n with
  | nil => simp [Hex.encode]
  | cons byte bytes ih =>
    cases n with
    | zero => rfl
    | succ n =>
      rw [Hex.encode_cons, List.drop_succ_cons, ← ih]
      rfl

theorem encode_flatten (parts : List Bytes) :
    Hex.encode parts.flatten = (parts.map Hex.encode).flatten := by
  induction parts with
  | nil => rfl
  | cons part parts ih =>
    rw [List.map_cons, List.flatten_cons, List.flatten_cons, ← ih]
    exact List.flatMap_append

/-- Groups of hex digits are the hex digits of groups half as long. -/
theorem reverseGroups_encode (n : ℕ) (bytes : Bytes) :
    reverseGroups (2 * n) (Hex.encode bytes) = Hex.encode (reverseGroups n bytes) := by
  have hgroups : groups (2 * n) (Hex.encode bytes) = (groups n bytes).map Hex.encode := by
    rw [groups, groups, List.map_map]
    refine List.map_congr_left fun i _ => ?_
    rw [Function.comp_apply, ← take_encode, ← drop_encode, Nat.mul_left_comm]
  rw [reverseGroups, hgroups, ← List.map_reverse, ← encode_flatten]
  rfl

/-- **Reversing each word** of the bytes is reversing the order of the words of the
bytes in display order. -/
theorem toList_swapWords (bytes : ByteArr 32) :
    (swapWords bytes).toList = reverseGroups 4 bytes.toList.reverse := by
  have hindices : (List.finRange 32).map swapIndex =
      reverseGroups 4 (List.finRange 32).reverse := by decide
  have hbytes : bytes.toList = (List.finRange 32).map bytes.get := by
    rw [← List.ofFn_eq_map, ← List.Vector.toList_ofFn, List.Vector.ofFn_get]
  have hswapped : (swapWords bytes).toList = ((List.finRange 32).map swapIndex).map bytes.get := by
    rw [swapWords, List.Vector.toList_ofFn, List.ofFn_eq_map, List.map_map]
    rfl
  rw [hswapped, hindices, ← reverseGroups_map, List.map_reverse, ← hbytes]

/-- **The `prevhash` encoding is the reference pool's**, and is undone by decoding. -/
theorem encode_hashToStratum (hash : Sha256dHash) :
    Hex.encode (hashToStratum hash).toList = reverseGroups 8 hash.display ∧
      hashFromStratum (hashToStratum hash) = hash := by
  refine ⟨?_, hashFromStratum_hashToStratum hash⟩
  rw [hashToStratum, toList_swapWords, ← reverseGroups_encode]
  rfl

end ByteOrder

/-- One job: everything needed to build headers, except the miner's own choices. -/
structure Job where
  /-- Identifies the job when a share is submitted. -/
  jobId : Str
  /-- The block being built on. -/
  prevHash : Sha256dHash
  /-- Coinbase bytes before the extranonce. -/
  coinbasePrefix : Bytes
  /-- Coinbase bytes after the extranonce. -/
  coinbaseSuffix : Bytes
  /-- Sibling hashes from the coinbase leaf up to the merkle root. -/
  merkleBranch : List Sha256dHash
  /-- Header version. -/
  version : Int32
  /-- Compact difficulty target for the header. -/
  bits : UInt32
  /-- Suggested header timestamp. -/
  time : UInt32
  /-- Whether the miner must discard previous jobs. -/
  cleanJobs : Bool
  deriving DecidableEq

/-- Why `mining.notify` parameters could not be decoded. -/
inductive JobError where
  /-- The parameters were not a JSON array. -/
  | notAnArray
  /-- Fewer than the nine required parameters were present. -/
  | wrongParameterCount (n : ℕ)
  /-- A parameter that must be a string was not. -/
  | notAString (i : ℕ)
  /-- A parameter that must be hex was not. -/
  | notHex (i : ℕ)
  deriving DecidableEq

namespace Job

open Json

/-- Splices the extranonce into the coinbase, witness-free. -/
def coinbase (self : Job) (extranonce1 extranonce2 : Bytes) : Bytes :=
  self.coinbasePrefix ++ extranonce1 ++ extranonce2 ++ self.coinbaseSuffix

/-- Rebuilds the merkle root for a given extranonce. -/
def merkleRoot (self : Job) (extranonce1 extranonce2 : Bytes) : Sha256dHash :=
  let coinbaseTxid := Sha256dHash.hash (self.coinbase extranonce1 extranonce2)
  Merkle.rootFromCoinbaseBranch coinbaseTxid self.merkleBranch

/-- Builds the header a miner will hash. -/
def header (self : Job) (extranonce1 extranonce2 : Bytes) (time nonce : UInt32) : BlockHeader where
  version := self.version
  prevBlock := self.prevHash
  merkleRoot := self.merkleRoot extranonce1 extranonce2
  time := time
  bits := self.bits
  nonce := nonce

/-- Encodes this job as `mining.notify` parameters. -/
def toNotifyParams (self : Job) : Value :=
  let branch := self.merkleBranch.map fun hash => Value.string (Hex.encode hash.bytes.toList)
  .array [
    .string self.jobId,
    .string (Hex.encode (ByteOrder.hashToStratum self.prevHash).toList),
    .string (Hex.encode self.coinbasePrefix),
    .string (Hex.encode self.coinbaseSuffix),
    .array branch,
    hexString self.version.toUInt32,
    hexString self.bits,
    hexString self.time,
    .bool self.cleanJobs]

/-- Decodes one entry of the merkle branch. -/
def branchEntry (entry : Value) : Checked JobError Sha256dHash := do
  let text ← Checked.okOr (.notAString 4) entry.asStr
  let bytes ← Checked.mapErr (fun _ => .notHex 4) (Hex.decodeArray 32 text)
  pure ⟨bytes⟩

/-- Decodes the merkle branch, parameter 4. -/
def branchParam (array : List Value) : Checked JobError (List Sha256dHash) :=
  match array[4]? with
  | none => .panic
  | some value => do
    let entries ← Checked.okOr .notAnArray value.asArray
    entries.mapM branchEntry

/-- Decodes `clean_jobs`, parameter 8: anything but a boolean counts as false. -/
def cleanParam (array : List Value) : Checked JobError Bool :=
  match array[8]? with
  | none => .panic
  | some value => .ok (value.asBool.getD false)

/-- Decodes a byte string, parameter `i`. -/
def bytesParam (array : List Value) (i : ℕ) : Checked JobError Bytes := do
  let s ← stringAt JobError.notAString array i
  Checked.mapErr (fun _ => .notHex i) (Hex.decode s)

/-- Decodes the previous hash, parameter 1. -/
def prevHashParam (array : List Value) : Checked JobError Sha256dHash := do
  let s ← stringAt JobError.notAString array 1
  let bytes ← Checked.mapErr (fun _ => .notHex 1) (Hex.decodeArray 32 s)
  pure (ByteOrder.hashFromStratum bytes)

/-- Decodes `mining.notify` parameters. -/
def fromNotifyParams (params : Value) : Checked JobError Job := do
  let array ← Checked.okOr .notAnArray params.asArray
  if array.length < 9 then .err (.wrongParameterCount array.length)
  else do
    let u32FromHex := u32FromHexAt JobError.notAString JobError.notHex array
    let prevHash ← prevHashParam array
    let merkleBranch ← branchParam array
    let jobId ← stringAt JobError.notAString array 0
    let coinbasePrefix ← bytesParam array 2
    let coinbaseSuffix ← bytesParam array 3
    let version ← u32FromHex 5
    let bits ← u32FromHex 6
    let time ← u32FromHex 7
    let cleanJobs ← cleanParam array
    pure ⟨jobId, prevHash, coinbasePrefix, coinbaseSuffix, merkleBranch, version.toInt32, bits,
      time, cleanJobs⟩

/-! ### What is encoded is decoded -/

theorem branchEntry_encode (hash : Sha256dHash) :
    branchEntry (.string (Hex.encode hash.bytes.toList)) = .ok hash := by
  rw [branchEntry, Value.asStr_string, Checked.okOr_some, Checked.ok_bind,
    Hex.decodeArray_encode]
  rfl

theorem mapM_branchEntry_encode (branch : List Sha256dHash) :
    (branch.map fun hash => Value.string (Hex.encode hash.bytes.toList)).mapM branchEntry =
      .ok branch := by
  induction branch with
  | nil => rfl
  | cons hash branch ih =>
    rw [List.map_cons, List.mapM_cons, branchEntry_encode, Checked.ok_bind, ih]
    rfl

theorem branchParam_encode {array : List Value} (branch : List Sha256dHash)
    (h : array[4]? =
      some (.array (branch.map fun hash => Value.string (Hex.encode hash.bytes.toList)))) :
    branchParam array = .ok branch := by
  rw [branchParam, h]
  exact mapM_branchEntry_encode branch

theorem bytesParam_encode {array : List Value} {i : ℕ} (bytes : Bytes)
    (h : array[i]? = some (.string (Hex.encode bytes))) : bytesParam array i = .ok bytes := by
  rw [bytesParam, stringAt_string h, Checked.ok_bind, Hex.decode_encode, Checked.mapErr_ok]

theorem prevHashParam_encode {array : List Value} (hash : Sha256dHash)
    (h : array[1]? = some (.string (Hex.encode (ByteOrder.hashToStratum hash).toList))) :
    prevHashParam array = .ok hash := by
  rw [prevHashParam, stringAt_string h, Checked.ok_bind, Hex.decodeArray_encode, Checked.mapErr_ok,
    Checked.ok_bind, ByteOrder.hashFromStratum_hashToStratum]
  rfl

/-- **A job survives the wire**: decoding its parameters gives it back. -/
theorem fromNotifyParams_toNotifyParams (job : Job) :
    fromNotifyParams job.toNotifyParams = .ok job := by
  obtain ⟨array, harray⟩ : ∃ array, job.toNotifyParams = .array array := ⟨_, rfl⟩
  have hparams := harray
  rw [toNotifyParams, Value.array.injEq] at hparams
  have hlen : ¬ array.length < 9 := by
    rw [← hparams]
    simp
  rw [harray, fromNotifyParams, Value.asArray_array, Checked.okOr_some, Checked.ok_bind,
    if_neg hlen]
  simp only
  rw [prevHashParam_encode job.prevHash (by rw [← hparams]; rfl),
    branchParam_encode job.merkleBranch (by rw [← hparams]; rfl),
    stringAt_string (s := job.jobId) (by rw [← hparams]; rfl),
    bytesParam_encode job.coinbasePrefix (by rw [← hparams]; rfl),
    bytesParam_encode job.coinbaseSuffix (by rw [← hparams]; rfl),
    u32FromHexAt_hexString job.version.toUInt32 (by rw [← hparams]; rfl),
    u32FromHexAt_hexString job.bits (by rw [← hparams]; rfl),
    u32FromHexAt_hexString job.time (by rw [← hparams]; rfl)]
  have hclean : cleanParam array = .ok job.cleanJobs := by
    rw [← hparams]
    rfl
  rw [hclean]
  rfl

end Job

end SoloMiner
