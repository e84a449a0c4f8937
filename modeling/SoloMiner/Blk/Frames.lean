import SoloMiner.Blk.Scan

/-!
# The blocks of a file

A scan trusts the length of a record, and takes for a record whatever follows the magic.
So what it reports are the blocks of the file precisely if these are whole, up to a rest
that does not look like a record (`SoloMiner.wellScanned_iff`). And what it takes for
padding are bytes that are zero once decoded, but the zeros at the end of a file are not
obfuscated (`SoloMiner.scanFile_padded_iff`).

Every decoded file is a sequence of whole records and a rest that does not begin with
one (`SoloMiner.exists_frames`). A scan goes through the records
(`SoloMiner.scanFrom_frames`) and then stops, or runs into a length that is wrong.
-/

namespace SoloMiner

/-- A block that can stand in a record: it has a header, and its length fits. -/
structure Block where
  bytes : Bytes
  header_le : 80 ≤ bytes.length
  length_lt : bytes.length < 2 ^ 32

namespace Block

/-- The record on disk. -/
def frame (self : Block) : Bytes :=
  MAINNET_MAGIC ++ (Base256.toLE 4 self.bytes.length ++ self.bytes)

/-- The block's hash, of its header. -/
def hash (self : Block) : Sha256dHash := .hash (self.bytes.take 80)

/-- Its parent's hash, behind the version. -/
def parent (self : Block) : Sha256dHash :=
  ⟨toArr ((self.bytes.drop 4).take 32) (by
    have := self.header_le
    simp only [List.length_take, List.length_drop]
    omega)⟩

/-- What a scan should report of the block. -/
def record (self : Block) (offset : ℕ) : BlockRecord :=
  ⟨offset, UInt32.ofNat self.bytes.length, self.hash, self.parent⟩

theorem length_frame (self : Block) : self.frame.length = 8 + self.bytes.length := by
  have hmagic : MAINNET_MAGIC.length = 4 := rfl
  simp only [frame, List.length_append, Base256.length_toLE, hmagic]
  omega

@[simp] theorem toNat_size (self : Block) (offset : ℕ) :
    (self.record offset).size.toNat = self.bytes.length :=
  UInt32.toNat_ofNat_of_lt' self.length_lt

end Block

/-- Records one after the other. -/
def frames (blocks : List Block) : Bytes := blocks.flatMap Block.frame

/-- What a scan should report of them, if the first stands at the offset. -/
def recordsFrom : ℕ → List Block → List BlockRecord
  | _, [] => []
  | offset, block :: blocks =>
    block.record offset :: recordsFrom (offset + block.frame.length) blocks

theorem frames_cons (block : Block) (blocks : List Block) :
    frames (block :: blocks) = block.frame ++ frames blocks := List.flatMap_cons

variable {plain tail : Bytes} {offset : ℕ} {block : Block} {blocks : List Block}
  {records : List BlockRecord}

/-! ### Through the records -/

/-- **A record is read** where one stands. -/
theorem readRecord_frame (h : plain.drop offset = block.frame ++ tail) :
    readRecord plain .absent offset = .ok (block.record offset) := by
  have hlen := congrArg List.length h
  rw [List.length_drop, List.length_append, block.length_frame] at hlen
  have hlarge := block.header_le
  have hmagic : MAINNET_MAGIC.length = 4 := rfl
  obtain ⟨record, hread, hoffset, hsize, hhash, hprevious⟩ :=
    readRecord_of_magic (show offset + 88 ≤ plain.length by omega)
      (by rw [h, Block.frame, List.append_assoc, List.take_left' hmagic])
  have hdrop : (plain.drop offset).drop 4 =
      Base256.toLE 4 block.bytes.length ++ (block.bytes ++ tail) := by
    rw [h, Block.frame, List.append_assoc, List.drop_left' hmagic, List.append_assoc]
  have hdrop' : (plain.drop offset).drop 8 = block.bytes ++ tail := by
    rw [show 8 = 4 + 4 from rfl, ← List.drop_drop, hdrop,
      List.drop_left' (Base256.length_toLE _ _)]
  have hheader : (block.bytes ++ tail).take 80 = block.bytes.take 80 :=
    List.take_append_of_le_length hlarge
  rw [hdrop', hheader] at hhash hprevious
  refine hread.trans (congrArg Except.ok (BlockRecord.ext hoffset ?_ hhash ?_))
  · rw [hsize, hdrop, List.take_left' (Base256.length_toLE _ _),
      Base256.ofLE_toLE_of_lt block.length_lt]
    rfl
  · refine congrArg Sha256dHash.mk (arr_ext (hprevious.trans ?_))
    rw [List.drop_take, List.take_take]
    rfl

/-- **A scan goes through the records** that stand one after the other. -/
theorem scanFrom_frames (h : plain.drop offset = frames blocks ++ tail) :
    scanFrom plain .absent records offset =
      scanFrom plain .absent (records ++ recordsFrom offset blocks)
        (offset + (frames blocks).length) := by
  induction blocks generalizing records offset with
  | nil =>
    rw [recordsFrom, List.append_nil, frames, List.flatMap_nil, List.length_nil, Nat.add_zero]
  | cons block blocks ih =>
    rw [frames_cons, List.append_assoc] at h
    have hnext : plain.drop (offset + block.frame.length) = frames blocks ++ tail := by
      rw [← List.drop_drop, h, List.drop_left]
    have hend : offset + 8 + (block.record offset).size.toNat = offset + block.frame.length := by
      rw [Block.toNat_size, block.length_frame]
      omega
    rw [scanFrom_of_ok (readRecord_frame h), hend, ih hnext, recordsFrom, frames_cons,
      List.length_append, List.append_assoc, Nat.add_assoc]
    rfl

/-- **Every byte string is records and a rest**: as many whole records as there are, one
after the other, and what is left does not begin with one. -/
theorem exists_frames (bytes : Bytes) :
    ∃ blocks tail, bytes = frames blocks ++ tail ∧
      ∀ (block : Block) (rest : Bytes), tail ≠ block.frame ++ rest := by
  induction hn : bytes.length using Nat.strong_induction_on generalizing bytes with
  | h n ih =>
    -- A record takes at least eight bytes off, so the rest is shorter.
    by_cases hframe : ∃ (block : Block) (rest : Bytes), bytes = block.frame ++ rest
    · obtain ⟨block, rest, rfl⟩ := hframe
      have hlt : rest.length < n := by
        rw [← hn, List.length_append, block.length_frame]
        omega
      obtain ⟨blocks, tail, rfl, htail⟩ := ih rest.length hlt rest rfl
      exact ⟨block :: blocks, tail, by rw [frames_cons, List.append_assoc], htail⟩
    · exact ⟨[], bytes, rfl, fun block rest h => hframe ⟨block, rest, h⟩⟩

/-! ### Where a scan goes wrong -/

/-- **What looks like a record and is none** has a length that is too small for a header,
or that reaches past the end. -/
theorem size_of_not_frame (h : 88 ≤ tail.length) (hmagic : tail.take 4 = MAINNET_MAGIC)
    (hnot : ∀ (block : Block) (rest : Bytes), tail ≠ block.frame ++ rest) :
    Base256.ofLE ((tail.drop 4).take 4) < 80 ∨
      tail.length < 8 + Base256.ofLE ((tail.drop 4).take 4) := by
  have hfour : ((tail.drop 4).take 4).length = 4 := by
    rw [List.length_take, List.length_drop]
    omega
  obtain ⟨size, hsize⟩ : ∃ size, Base256.ofLE ((tail.drop 4).take 4) = size := ⟨_, rfl⟩
  have hlt := Base256.ofLE_lt ((tail.drop 4).take 4)
  have hwrite := Base256.toLE_ofLE_of_length hfour
  rw [hfour, hsize] at hlt
  rw [hsize] at hwrite ⊢
  by_contra hfits
  have hlen : ((tail.drop 8).take size).length = size := by
    rw [List.length_take, List.length_drop]
    omega
  -- The bytes behind the length are the block that should not be there.
  refine hnot ⟨(tail.drop 8).take size, by omega, by omega⟩ ((tail.drop 8).drop size) ?_
  show tail = MAINNET_MAGIC ++ (Base256.toLE 4 ((tail.drop 8).take size).length ++
    (tail.drop 8).take size) ++ (tail.drop 8).drop size
  rw [hlen, hwrite, List.append_assoc, List.append_assoc, List.take_append_drop, ← hmagic,
    show tail.drop 8 = (tail.drop 4).drop 4 by rw [List.drop_drop], List.take_append_drop,
    List.take_append_drop]

/-- A scan keeps what it has found, and never goes back. -/
theorem scanFrom_extends (file : Bytes) (key : ObfuscationKey) (records : List BlockRecord)
    (offset : ℕ) :
    (∃ more, (scanFrom file key records offset).records = records ++ more) ∧
      offset ≤ (scanFrom file key records offset).stoppedAt := by
  induction records, offset using scanFrom.induct file key with
  | case1 records offset reason h =>
    rw [scanFrom_of_error h]
    exact ⟨⟨[], (List.append_nil _).symm⟩, le_rfl⟩
  | case2 records offset record h ih =>
    obtain ⟨⟨more, hmore⟩, hle⟩ := ih
    rw [scanFrom_of_ok h]
    exact ⟨⟨record :: more, by rw [hmore, List.append_assoc]; rfl⟩, by omega⟩

/-- **A file of whole blocks**: records of blocks with a header, and then at most something
that is too short for a record or does not begin with the magic. -/
def WholeBlocks (plain : Bytes) : Prop :=
  ∃ blocks tail, plain = frames blocks ++ tail ∧
    (tail.length < 88 ∨ tail.take 4 ≠ MAINNET_MAGIC)

/-- Why a scan stops at what is not a record. -/
def stopReason (tail : Bytes) : StopReason :=
  if tail.length < 88 then .endOfFile
  else if tail.take 4 = [0, 0, 0, 0] then .padding
  else .corrupt (Hex.encode (tail.take 4))

/-- A scan is first at what follows the records. -/
theorem scanFile_append (blocks : List Block) (tail : Bytes) :
    scanFile (frames blocks ++ tail) .absent =
      scanFrom (frames blocks ++ tail) .absent (recordsFrom 0 blocks) (frames blocks).length := by
  have h : (frames blocks ++ tail).drop 0 = frames blocks ++ tail := rfl
  rw [scanFile, scanFrom_frames h, List.nil_append, Nat.zero_add]

/-- **A scan of whole blocks** finds them and stops behind them. -/
theorem scanFile_frames (blocks : List Block)
    (htail : tail.length < 88 ∨ tail.take 4 ≠ MAINNET_MAGIC) :
    scanFile (frames blocks ++ tail) .absent =
      ⟨recordsFrom 0 blocks, (frames blocks).length, stopReason tail⟩ := by
  have hdrop : (frames blocks ++ tail).drop (frames blocks).length = tail := List.drop_left
  have hlen : (frames blocks ++ tail).length = (frames blocks).length + tail.length :=
    List.length_append
  have hread : readRecord (frames blocks ++ tail) .absent (frames blocks).length =
      .error (stopReason tail) := by
    rw [stopReason]
    split_ifs with hshort hzero
    · exact readRecord_of_short (by omega)
    · rw [readRecord_of_ne_magic (by omega) (by rw [hdrop]; exact htail.resolve_left hshort), hdrop,
        if_pos hzero]
    · rw [readRecord_of_ne_magic (by omega) (by rw [hdrop]; exact htail.resolve_left hshort), hdrop,
        if_neg hzero]
  rw [scanFile_append, scanFrom_of_error hread]

/-- **A scan of what looks like a record** reports one, of the length that is declared, and
goes on behind it. -/
theorem exists_records_of_magic (blocks : List Block) (h : 88 ≤ tail.length)
    (hmagic : tail.take 4 = MAINNET_MAGIC) :
    ∃ record more, (scanFile (frames blocks ++ tail) .absent).records =
        recordsFrom 0 blocks ++ record :: more ∧
      record.offset = (frames blocks).length ∧
        record.size.toNat = Base256.ofLE ((tail.drop 4).take 4) ∧
          record.offset + 8 + record.size.toNat ≤
            (scanFile (frames blocks ++ tail) .absent).stoppedAt := by
  have hdrop : (frames blocks ++ tail).drop (frames blocks).length = tail := List.drop_left
  have hlen : (frames blocks ++ tail).length = (frames blocks).length + tail.length :=
    List.length_append
  obtain ⟨record, hread, hoffset, hsize, -, -⟩ :=
    readRecord_of_magic (show (frames blocks).length + 88 ≤ (frames blocks ++ tail).length by omega)
      (by rwa [hdrop])
  obtain ⟨⟨more, hmore⟩, hle⟩ := scanFrom_extends (frames blocks ++ tail) .absent
    (recordsFrom 0 blocks ++ [record]) ((frames blocks).length + 8 + record.size.toNat)
  rw [← scanFrom_of_ok hread, ← scanFile_append] at hmore hle
  refine ⟨record, more, by rw [hmore, List.append_assoc]; rfl, hoffset, ?_, by rwa [hoffset]⟩
  have hlt := Base256.ofLE_lt ((tail.drop 4).take 4)
  rw [List.length_take, List.length_drop, Nat.min_eq_left (by omega)] at hlt
  rw [hsize, hdrop]
  exact UInt32.toNat_ofNat_of_lt' hlt

/-- A record whose length is wrong: it leaves no room for a header, or there is less of
the file left. -/
def BlockRecord.Misleads (record : BlockRecord) (length : ℕ) : Prop :=
  record.size.toNat < 80 ∨ length < record.offset + 8 + record.size.toNat

/-- **A scan of what looks like a record and is none** reports it, and goes on behind it. -/
theorem exists_misleads (blocks : List Block) (h : 88 ≤ tail.length)
    (hmagic : tail.take 4 = MAINNET_MAGIC)
    (hnot : ∀ (block : Block) (rest : Bytes), tail ≠ block.frame ++ rest) :
    ∃ record ∈ (scanFile (frames blocks ++ tail) .absent).records,
      record.Misleads (frames blocks ++ tail).length ∧
        record.offset + 8 + record.size.toNat ≤
          (scanFile (frames blocks ++ tail) .absent).stoppedAt := by
  obtain ⟨record, more, hrecords, hoffset, hsize, hle⟩ := exists_records_of_magic blocks h hmagic
  -- The reported length is the declared one, and nothing has checked it.
  refine ⟨record, by rw [hrecords]; simp, ?_, hle⟩
  rw [BlockRecord.Misleads, hoffset, hsize, List.length_append]
  rcases size_of_not_frame h hmagic hnot with hsmall | hpast
  · exact Or.inl hsmall
  · exact Or.inr (by omega)

/-- **How a scan ends**: behind whole blocks, or behind a record whose length is wrong. -/
theorem scanFile_cases (plain : Bytes) :
    WholeBlocks plain ∨ ∃ record ∈ (scanFile plain .absent).records,
      record.Misleads plain.length ∧
        record.offset + 8 + record.size.toNat ≤ (scanFile plain .absent).stoppedAt := by
  obtain ⟨blocks, tail, rfl, hnot⟩ := exists_frames plain
  by_cases hgood : tail.length < 88 ∨ tail.take 4 ≠ MAINNET_MAGIC
  · exact Or.inl ⟨blocks, tail, rfl, hgood⟩
  · rw [not_or, not_lt, not_not] at hgood
    exact Or.inr (exists_misleads blocks hgood.1 hgood.2 hnot)

/-! ### What a scan should report -/

/-- The end of a record. -/
def BlockRecord.stop (record : BlockRecord) : ℕ := record.offset + 8 + record.size.toNat

/-- **A scan that reports only blocks that are there**: they stand one after the other from
the start of the file, each inside the file and with a header, and the scan stopped
behind the last. -/
structure WellScanned (file : Bytes) (scan : FileScan) : Prop where
  /-- The first is at the start. -/
  first : ∀ record, scan.records.head? = some record → record.offset = 0
  /-- Each next one is where the one before ends. -/
  next : scan.records.IsChain fun record record' => record'.offset = record.stop
  /-- The scan stopped where the last one ends. -/
  stopped : scan.stoppedAt = scan.records.getLast?.elim 0 BlockRecord.stop
  /-- They lie wholly inside the file. -/
  inside : ∀ record ∈ scan.records, record.stop ≤ file.length
  /-- They have a header. -/
  large : ∀ record ∈ scan.records, 80 ≤ record.size.toNat
  /-- So the scan stopped inside the file. -/
  stoppedAt_le : scan.stoppedAt ≤ file.length
  /-- And at a clean end of the file the last one is not cut short. -/
  whole : scan.reason = .endOfFile →
    ∀ record, scan.records.getLast? = some record → record.stop ≤ file.length

theorem stop_record (block : Block) (offset : ℕ) :
    (block.record offset).stop = offset + block.frame.length := by
  rw [BlockRecord.stop, Block.toNat_size, block.length_frame, ← Nat.add_assoc]
  rfl

/-- The records of whole blocks lie inside, and have a header. -/
theorem mem_recordsFrom {record : BlockRecord} (h : record ∈ recordsFrom offset blocks) :
    record.stop ≤ offset + (frames blocks).length ∧ 80 ≤ record.size.toNat := by
  induction blocks generalizing offset with
  | nil => exact absurd h List.not_mem_nil
  | cons block blocks ih =>
    rw [frames_cons, List.length_append]
    rcases List.mem_cons.mp h with rfl | h
    · rw [stop_record, Block.toNat_size]
      exact ⟨by omega, block.header_le⟩
    · obtain ⟨hstop, hlarge⟩ := ih h
      exact ⟨by omega, hlarge⟩

/-- They stand one after the other. -/
theorem isChain_recordsFrom (offset : ℕ) (blocks : List Block) :
    (recordsFrom offset blocks).IsChain fun record record' => record'.offset = record.stop := by
  induction blocks generalizing offset with
  | nil => exact .nil
  | cons block blocks ih =>
    cases blocks with
    | nil => exact .singleton _
    | cons block' blocks =>
      exact .cons_cons (stop_record block offset).symm (ih (offset + block.frame.length))

/-- The last one ends where they end. -/
theorem getLast?_recordsFrom (offset : ℕ) (blocks : List Block) :
    offset + (frames blocks).length =
      (recordsFrom offset blocks).getLast?.elim offset BlockRecord.stop := by
  induction blocks generalizing offset with
  | nil => rfl
  | cons block blocks ih =>
    rw [frames_cons, List.length_append, ← Nat.add_assoc, ih, recordsFrom, List.getLast?_cons]
    cases (recordsFrom (offset + block.frame.length) blocks).getLast? with
    | none => exact (stop_record block offset).symm
    | some record => rfl

/-- What is found of whole blocks is well scanned. -/
theorem wellScanned_recordsFrom (blocks : List Block) {file : Bytes} (reason : StopReason)
    (h : (frames blocks).length ≤ file.length) :
    WellScanned file ⟨recordsFrom 0 blocks, (frames blocks).length, reason⟩ := by
  have hinside : ∀ record ∈ recordsFrom 0 blocks, record.stop ≤ file.length :=
    fun record hrecord => ((mem_recordsFrom hrecord).1.trans (by omega))
  refine ⟨fun record hrecord => ?_, isChain_recordsFrom 0 blocks, ?_, hinside,
    fun record hrecord => (mem_recordsFrom hrecord).2, h,
    fun _ record hrecord => hinside record (List.mem_of_getLast? hrecord)⟩
  · cases blocks with
    | nil => exact absurd hrecord (by simp [recordsFrom])
    | cons block blocks =>
      obtain rfl : block.record 0 = record := Option.some.inj hrecord
      rfl
  · rw [← getLast?_recordsFrom, Nat.zero_add]

/-- **When a scan reports only what is there**: precisely if the decoded file is one of
whole blocks. -/
theorem wellScanned_iff (file : Bytes) (key : ObfuscationKey) :
    WellScanned file (scanFile file key) ↔ WholeBlocks (key.apply file 0) := by
  have hlength := key.length_apply file 0
  rw [scanFile, scanFrom_decode]
  constructor
  · intro h
    rcases scanFile_cases (key.apply file 0) with hwhole | ⟨record, hrecord, hmisleads, -⟩
    · exact hwhole
    · have hlarge := h.large record hrecord
      have hinside := h.inside record hrecord
      rw [BlockRecord.stop] at hinside
      rw [BlockRecord.Misleads, hlength] at hmisleads
      omega
  · rintro ⟨blocks, tail, hplain, htail⟩
    have hle := congrArg List.length hplain
    rw [hlength, List.length_append] at hle
    have hscan := scanFile_frames blocks htail
    rw [← hplain, scanFile] at hscan
    rw [hscan]
    exact wellScanned_recordsFrom blocks _ (by omega)

/-! ### A length that is wrong -/

/-- A file of one record, whose length is the greatest there is. -/
def cutShort : Bytes := MAINNET_MAGIC ++ ([0xFF, 0xFF, 0xFF, 0xFF] ++ List.replicate 80 0)

/-- The block is reported, at the clean end of the file. -/
theorem not_wellScanned_cutShort : ¬ WellScanned cutShort (scanFile cutShort .absent) := by
  intro h
  obtain ⟨record, hread, hoffset, hsize, -, -⟩ :=
    readRecord_of_magic (show 0 + 88 ≤ cutShort.length by decide) (by decide)
  have hval : record.size = 0xFFFFFFFF := hsize.trans (by decide)
  obtain ⟨⟨more, hmore⟩, -⟩ :=
    scanFrom_extends cutShort .absent [record] (0 + 8 + record.size.toNat)
  have hscan : scanFile cutShort .absent =
      scanFrom cutShort .absent [record] (0 + 8 + record.size.toNat) := scanFrom_of_ok hread
  have hinside := h.inside record (by rw [hscan, hmore]; exact List.mem_cons_self)
  rw [BlockRecord.stop, hoffset, hval] at hinside
  exact absurd hinside (by decide)

/-! ### The padding -/

/-- A file as it is on disk: records under the key, and zeros that were never written. -/
def padded (key : ObfuscationKey) (blocks : List Block) (k : ℕ) : Bytes :=
  key.apply (frames blocks) 0 ++ List.replicate k 0

/-- The zeros are decoded to the key, and read as such. -/
theorem apply_padded (key : ObfuscationKey) (blocks : List Block) (k : ℕ) :
    key.apply (padded key blocks k) 0 =
      frames blocks ++
        (List.range k).map fun index => key.byteAt ((frames blocks).length + index) := by
  rw [padded, key.apply_append, key.apply_apply, key.length_apply, Nat.zero_add,
    key.apply_replicate_zero]

/-- The first four of them. -/
theorem take_four_eq_zero_iff (f : ℕ → UInt8) {k : ℕ} (hk : 4 ≤ k) :
    ((List.range k).map f).take 4 = [0, 0, 0, 0] ↔ ∀ index < 4, f index = 0 := by
  have hfour : ((List.range k).map f).take 4 = [f 0, f 1, f 2, f 3] := by
    rw [← List.map_take, List.take_range, Nat.min_eq_left hk]
    rfl
  rw [hfour]
  constructor
  · intro h index hindex
    simp only [List.cons.injEq, and_true] at h
    obtain ⟨h0, h1, h2, h3⟩ := h
    match index, hindex with
    | 0, _ => exact h0
    | 1, _ => exact h1
    | 2, _ => exact h2
    | 3, _ => exact h3
  · intro h
    rw [h 0 (by omega), h 1 (by omega), h 2 (by omega), h 3 (by omega)]

/-- **When a scan finds every block of a padded file**, and takes the padding for what it
is: precisely if there is too little of it to be looked at, or the four bytes of the key
that it is decoded with are zero. -/
theorem scanFile_padded_iff (key : ObfuscationKey) (blocks : List Block) (k : ℕ) :
    scanFile (padded key blocks k) key =
        ⟨recordsFrom 0 blocks, (frames blocks).length, if k < 88 then .endOfFile else .padding⟩ ↔
      k < 88 ∨ ∀ index < 4, key.byteAt ((frames blocks).length + index) = 0 := by
  rw [scanFile, scanFrom_decode, apply_padded, ← scanFile]
  obtain ⟨tail, htail⟩ : ∃ tail, ((List.range k).map fun index =>
      key.byteAt ((frames blocks).length + index)) = tail := ⟨_, rfl⟩
  have hlen : tail.length = k := by
    rw [← htail, List.length_map, List.length_range]
  rw [htail]
  by_cases hk : k < 88
  · rw [scanFile_frames blocks (Or.inl (by omega)), stopReason, if_pos (by omega), if_pos hk]
    exact iff_of_true rfl (Or.inl hk)
  · have hzero := take_four_eq_zero_iff (fun index => key.byteAt ((frames blocks).length + index))
      (show 4 ≤ k by omega)
    rw [htail] at hzero
    rw [← hzero, if_neg hk, or_iff_right hk]
    by_cases hmagic : tail.take 4 = MAINNET_MAGIC
    · -- The key spells the magic here: the padding is reported as one more block.
      refine iff_of_false (fun heq => ?_) (by rw [hmagic]; decide)
      obtain ⟨record, more, hrecords, -⟩ :=
        exists_records_of_magic blocks (show 88 ≤ tail.length by omega) hmagic
      have hcount := congrArg List.length (hrecords.symm.trans (congrArg FileScan.records heq))
      simp only [List.length_append, List.length_cons] at hcount
      omega
    · rw [scanFile_frames blocks (Or.inr hmagic), stopReason, if_neg (by omega)]
      split_ifs with h
      · exact iff_of_true rfl h
      · exact iff_of_false (by simp) h

/-- A key with a byte that is not zero, and a file that is all padding. -/
theorem not_scanFile_padded :
    scanFile (padded ⟨⟨[1, 0, 0, 0, 0, 0, 0, 0], rfl⟩⟩ [] 88) ⟨⟨[1, 0, 0, 0, 0, 0, 0, 0], rfl⟩⟩ ≠
      ⟨recordsFrom 0 [], (frames []).length, if 88 < 88 then .endOfFile else .padding⟩ := by
  intro h
  have hread : readRecord (padded ⟨⟨[1, 0, 0, 0, 0, 0, 0, 0], rfl⟩⟩ [] 88)
      ⟨⟨[1, 0, 0, 0, 0, 0, 0, 0], rfl⟩⟩ 0 = .error (.corrupt "01000000".toList) := by
    decide
  rw [scanFile, scanFrom_of_error hread] at h
  exact absurd (congrArg FileScan.reason h) (by decide)

end SoloMiner
