import SoloMiner.Blk.Obfuscation

/-!
# Scanning a block file

A block file is a sequence of records – the magic bytes, a length, and so many bytes of a
block – and then zeros up to the end of the file. A scan reads the first 88 bytes of a
record, which are enough to identify the block, and goes on behind it, by its length.

A file is scanned under its key as its decoding is in the clear
(`SoloMiner.scanFrom_decode`), and what one turn of the loop reads there is said by
`SoloMiner.readRecord_of_short`, `SoloMiner.readRecord_of_ne_magic` and
`SoloMiner.readRecord_of_magic`.
-/

namespace SoloMiner

/-- Bitcoin mainnet's message-start bytes, which prefix every record. -/
def MAINNET_MAGIC : Bytes := [0xF9, 0xBE, 0xB4, 0xD9]

/-- One block found in a file. -/
@[ext] structure BlockRecord where
  /-- Byte offset of the record's magic within the file. -/
  offset : ℕ
  /-- Declared size of the block that follows the length field. -/
  size : UInt32
  /-- The block's hash. -/
  hash : Sha256dHash
  /-- Its parent's hash. -/
  previous : Sha256dHash
  deriving DecidableEq

/-- Why a scan ended. -/
inductive StopReason where
  /-- Reached the end of the file cleanly. -/
  | endOfFile
  /-- Hit the zero padding after the last block. -/
  | padding
  /-- Found bytes that were neither a record nor padding. -/
  | corrupt (found : Str)
  deriving DecidableEq

/-- Everything a scan found in one file. -/
structure FileScan where
  /-- The blocks, in the order they appear on disk. -/
  records : List BlockRecord
  /-- Offset at which scanning stopped. -/
  stoppedAt : ℕ
  /-- Why it stopped. -/
  reason : StopReason
  deriving DecidableEq

/-- One turn of the loop: the record at an offset, or the reason to stop there. -/
def readRecord (file : Bytes) (key : ObfuscationKey) (offset : ℕ) :
    Except StopReason BlockRecord :=
  -- A record needs at least a magic, a length, and an 80-byte header.
  if h : file.length < offset + 88 then .error .endOfFile
  else
    let head := key.apply ((file.drop offset).take 8) offset
    let magic := head.take 4
    if magic = [0, 0, 0, 0] then .error .padding
    else if magic ≠ MAINNET_MAGIC then .error (.corrupt (Hex.encode magic))
    else
      let size := UInt32.ofNat (Base256.ofLE (head.drop 4))
      let headerBytes := key.apply ((file.drop (offset + 8)).take 80) (offset + 8)
      let header := BlockHeader.deserialize (toArr headerBytes (by simp [headerBytes]; omega))
      .ok ⟨offset, size, header.hash, header.prevBlock⟩

theorem length_of_readRecord {file : Bytes} {key : ObfuscationKey} {offset : ℕ}
    {record : BlockRecord} (h : readRecord file key offset = .ok record) :
    record.offset = offset ∧ offset + 88 ≤ file.length := by
  rw [readRecord] at h
  split_ifs at h with hlen
  dsimp only at h
  split_ifs at h
  obtain rfl := Except.ok.inj h
  exact ⟨rfl, not_lt.mp hlen⟩

/-- The loop of `scan_file`, with what was found so far. -/
def scanFrom (file : Bytes) (key : ObfuscationKey) (records : List BlockRecord) (offset : ℕ) :
    FileScan :=
  match h : readRecord file key offset with
  | .error reason => ⟨records, offset, reason⟩
  | .ok record =>
    -- The transactions are skipped; only the header was needed.
    scanFrom file key (records ++ [record]) (offset + 8 + record.size.toNat)
termination_by file.length - offset
decreasing_by
  have := (length_of_readRecord h).2
  omega

/-- Scans one block file, returning every block record it contains. -/
def scanFile (file : Bytes) (key : ObfuscationKey) : FileScan := scanFrom file key [] 0

variable {file plain : Bytes} {key : ObfuscationKey} {records : List BlockRecord} {offset : ℕ}

theorem scanFrom_of_error {reason : StopReason} (h : readRecord file key offset = .error reason) :
    scanFrom file key records offset = ⟨records, offset, reason⟩ := by
  rw [scanFrom]
  split
  · next reason' h' => rw [Except.error.inj (h.symm.trans h')]
  · next record h' => exact absurd (h.symm.trans h') (by simp)

theorem scanFrom_of_ok {record : BlockRecord} (h : readRecord file key offset = .ok record) :
    scanFrom file key records offset =
      scanFrom file key (records ++ [record]) (offset + 8 + record.size.toNat) := by
  rw [scanFrom]
  split
  · next reason h' => exact absurd (h.symm.trans h') (by simp)
  · next record' h' => rw [Except.ok.inj (h.symm.trans h')]

/-! ### What one turn reads -/

/-- A file is read as its decoding is in the clear. -/
theorem readRecord_decode (file : Bytes) (key : ObfuscationKey) (offset : ℕ) :
    readRecord file key offset = readRecord (key.apply file 0) .absent offset := by
  have hpart : ∀ start n : ℕ, key.apply ((file.drop start).take n) start =
      ((key.apply file 0).drop start).take n := fun start n => by
    rw [key.apply_drop, Nat.zero_add, key.apply_take]
  have hlength := key.length_apply file 0
  by_cases h : file.length < offset + 88
  · rw [readRecord, readRecord, dif_pos h, dif_pos (by rwa [hlength])]
  · rw [readRecord, readRecord, dif_neg h, dif_neg (by rwa [hlength])]
    simp only [hpart, ObfuscationKey.apply_absent]
    rfl

/-- **A scan sees the decoded file.** -/
theorem scanFrom_decode (file : Bytes) (key : ObfuscationKey) (records : List BlockRecord)
    (offset : ℕ) :
    scanFrom file key records offset = scanFrom (key.apply file 0) .absent records offset := by
  induction records, offset using scanFrom.induct file key with
  | case1 records offset reason h =>
    rw [scanFrom_of_error h, scanFrom_of_error ((readRecord_decode file key offset).symm.trans h)]
  | case2 records offset record h ih =>
    rw [scanFrom_of_ok h, ih,
      ← scanFrom_of_ok ((readRecord_decode file key offset).symm.trans h)]

/-- At less than 88 bytes from the end there is no record. -/
theorem readRecord_of_short (h : plain.length < offset + 88) :
    readRecord plain .absent offset = .error .endOfFile := dif_pos h

/-- The magic is the first half of what is read first. -/
theorem take_take_eight (bytes : Bytes) : (bytes.take 8).take 4 = bytes.take 4 := by
  rw [List.take_take]
  rfl

/-- Without the magic there is none either. -/
theorem readRecord_of_ne_magic (h : offset + 88 ≤ plain.length)
    (hmagic : (plain.drop offset).take 4 ≠ MAINNET_MAGIC) :
    readRecord plain .absent offset = .error
      (if (plain.drop offset).take 4 = [0, 0, 0, 0] then .padding
      else .corrupt (Hex.encode ((plain.drop offset).take 4))) := by
  rw [readRecord, dif_neg (not_lt.mpr h)]
  simp only [ObfuscationKey.apply_absent, take_take_eight, if_pos hmagic]
  split_ifs
  · rfl
  · rfl

/-- **Behind the magic there is a record**, whatever follows: its size is what stands
there, and its hashes are those of the next 80 bytes. -/
theorem readRecord_of_magic (h : offset + 88 ≤ plain.length)
    (hmagic : (plain.drop offset).take 4 = MAINNET_MAGIC) :
    ∃ record, readRecord plain .absent offset = .ok record ∧ record.offset = offset ∧
      record.size = UInt32.ofNat (Base256.ofLE (((plain.drop offset).drop 4).take 4)) ∧
        record.hash = .hash (((plain.drop offset).drop 8).take 80) ∧
          record.previous.bytes.toList =
            ((((plain.drop offset).drop 8).take 80).drop 4).take 32 := by
  rw [readRecord, dif_neg (not_lt.mpr h)]
  simp only [ObfuscationKey.apply_absent, take_take_eight, hmagic]
  rw [if_neg (by decide), if_neg (by simp)]
  refine ⟨_, rfl, rfl, ?_, ?_, ?_⟩
  · rw [List.drop_take]
  · rw [BlockHeader.hash, BlockHeader.toList_serialize_deserialize, toList_toArr, List.drop_drop]
  · rw [List.drop_drop]
    rfl

end SoloMiner
