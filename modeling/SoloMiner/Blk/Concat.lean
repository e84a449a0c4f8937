import SoloMiner.Blk.Frames

/-!
# Joining block files

The records of several files are copied into one, each file only as far as its scan got.
A byte is decoded at its old position and encoded at its new one, by a buffer at a time.
What comes out is the decoded records of the files one after the other, encoded
(`SoloMiner.Concat.run_eq`), and a scan of it finds the records of all of them
(`SoloMiner.Concat.run_faithful`).
-/

namespace SoloMiner

namespace Concat

/-- Copy buffer size. -/
def CHUNK : ℕ := 2 ^ 20

/-- Why nothing comes out. -/
inductive ConcatError where
  /-- No input files were given. -/
  | noInputs
  /-- An input ends before what was to be copied. -/
  | unexpectedEof
  deriving DecidableEq

/-- `read_exact` on what is left of an input, and the rest. -/
def readExact (rest : Bytes) (want : ℕ) : Except ConcatError (Bytes × Bytes) :=
  if rest.length < want then .error .unexpectedEof else .ok (rest.take want, rest.drop want)

/-- The copying of one input: `rest` is what of it is still to be read, `copied` and
`written` count what was read of this input and written in all. -/
def copyFrom (key : ObfuscationKey) (payload : ℕ) (rest : Bytes) (copied written : ℕ)
    (output : Bytes) : Except ConcatError (ℕ × Bytes) :=
  if copied < payload then do
    let want := min CHUNK (payload - copied)
    let (buffer, rest) ← readExact rest want
    -- Decoded at the source position, and encoded at the destination.
    let buffer := key.apply buffer copied
    let buffer := key.apply buffer written
    copyFrom key payload rest (copied + want) (written + want) (output ++ buffer)
  else .ok (written, output)
termination_by payload - copied
decreasing_by
  have : 0 < CHUNK := by decide
  omega

/-- The loop over the inputs. -/
def copyAll (key : ObfuscationKey) : List Bytes → ℕ → Bytes → Except ConcatError (ℕ × Bytes)
  | [], written, output => .ok (written, output)
  | input :: inputs, written, output => do
    -- The padding is left behind.
    let payload := (scanFile input key).stoppedAt
    let (written, output) ← copyFrom key payload input 0 written output
    copyAll key inputs written output

/-- The output file of `blk-concat`. -/
def run (key : ObfuscationKey) (inputs : List Bytes) : Except ConcatError Bytes :=
  if inputs = [] then .error .noInputs
  else do
    let (_, output) ← copyAll key inputs 0 []
    pure output

/-! ### What is copied -/

variable {key : ObfuscationKey}

/-- **One input**: what was to be copied is appended, decoded at its old positions and
encoded at the new ones. -/
theorem copyFrom_eq {payload : ℕ} {rest : Bytes} {copied written : ℕ} {output : Bytes}
    (hcopied : copied ≤ payload) (hrest : payload ≤ copied + rest.length) :
    copyFrom key payload rest copied written output =
      .ok (written + (payload - copied),
        output ++ key.apply (key.apply (rest.take (payload - copied)) copied) written) := by
  induction hn : payload - copied using Nat.strong_induction_on
    generalizing rest copied written output with
  | h n ih =>
    have hchunk : 0 < CHUNK := by decide
    rw [copyFrom]
    split_ifs with hlt
    · obtain ⟨want, hwant⟩ : ∃ want, min CHUNK (payload - copied) = want := ⟨_, rfl⟩
      have hread : readExact rest want = .ok (rest.take want, rest.drop want) :=
        if_neg (by omega)
      have hlen : (rest.drop want).length = rest.length - want := List.length_drop
      simp only [hwant, hread]
      have hnext : payload ≤ copied + want + (rest.drop want).length := by omega
      refine (ih (n - want) (by omega) (by omega) hnext (by omega)).trans ?_
      -- The two offsets go on with the buffer, so the pieces fit together.
      have hsplit : rest.take n = rest.take want ++ (rest.drop want).take (n - want) := by
        rw [← List.take_add, Nat.add_sub_cancel' (by omega)]
      have htake : (rest.take want).length = want := List.length_take_of_le (by omega)
      rw [hsplit, key.apply_append, key.apply_append, key.length_apply, htake, List.append_assoc,
        Nat.add_assoc, Nat.add_sub_cancel' (by omega)]
    · obtain rfl : n = 0 := by omega
      rw [List.take_zero, key.apply_nil, key.apply_nil, List.append_nil, Nat.add_zero]

variable (key) in
/-- What is to be copied of an input, decoded. -/
def part (input : Bytes) : Bytes := key.apply (input.take (scanFile input key).stoppedAt) 0

theorem length_part {input : Bytes} (h : (scanFile input key).stoppedAt ≤ input.length) :
    (part key input).length = (scanFile input key).stoppedAt := by
  rw [part, key.length_apply, List.length_take_of_le h]

theorem copyAll_eq {inputs : List Bytes} {written : ℕ} {output : Bytes}
    (h : ∀ input ∈ inputs, (scanFile input key).stoppedAt ≤ input.length) :
    copyAll key inputs written output =
      .ok (written + (inputs.flatMap (part key)).length,
        output ++ key.apply (inputs.flatMap (part key)) written) := by
  induction inputs generalizing written output with
  | nil => rw [copyAll, List.flatMap_nil, key.apply_nil, List.append_nil]; rfl
  | cons input inputs ih =>
    have hinput := h input List.mem_cons_self
    have hcopy : copyFrom key (scanFile input key).stoppedAt input 0 written output =
        .ok (written + (scanFile input key).stoppedAt,
          output ++ key.apply (part key input) written) :=
      copyFrom_eq (Nat.zero_le _) (by rwa [Nat.zero_add])
    rw [copyAll, hcopy]
    refine (ih fun other hother => h other (List.mem_cons_of_mem _ hother)).trans ?_
    rw [List.flatMap_cons, List.length_append, key.apply_append, length_part hinput,
      List.append_assoc, Nat.add_assoc]

/-- **The output**: the decoded parts of the inputs one after the other, encoded. -/
theorem run_eq {inputs : List Bytes} (hne : inputs ≠ [])
    (h : ∀ input ∈ inputs, (scanFile input key).stoppedAt ≤ input.length) :
    run key inputs = .ok (key.apply (inputs.flatMap (part key)) 0) := by
  rw [run, if_neg hne, copyAll_eq h]
  rfl

/-! ### What is found in it -/

/-- The record in a file that has `before` more bytes in front. -/
def shift (before : ℕ) (record : BlockRecord) : BlockRecord :=
  { record with offset := before + record.offset }

/-- **The records of all scans**, each behind what the ones before it scanned. -/
def joined : ℕ → List FileScan → List BlockRecord
  | _, [] => []
  | before, scan :: scans =>
    scan.records.map (shift before) ++ joined (before + scan.stoppedAt) scans

variable (key) in
/-- An input whose scan stopped inside of it and found only blocks with a header. -/
structure Sound (input : Bytes) : Prop where
  /-- The scan stopped inside. -/
  stoppedAt_le : (scanFile input key).stoppedAt ≤ input.length
  /-- The blocks have a header. -/
  large : ∀ record ∈ (scanFile input key).records, 80 ≤ record.size.toNat

/-- **What is copied of a sound input are whole blocks**, those that the scan found. -/
theorem Sound.exists_blocks {input : Bytes} (h : Sound key input) :
    ∃ blocks, part key input = frames blocks ∧
      (scanFile input key).records = recordsFrom 0 blocks ∧
        (scanFile input key).stoppedAt = (frames blocks).length := by
  have hdecode : scanFile input key = scanFile (key.apply input 0) .absent :=
    scanFrom_decode input key [] 0
  rcases scanFile_cases (key.apply input 0) with ⟨blocks, tail, hplain, htail⟩ |
    ⟨record, hrecord, hmisleads, hstop⟩
  · have hscan := scanFile_frames blocks htail
    rw [← hplain, ← hdecode] at hscan
    refine ⟨blocks, ?_, by rw [hscan], by rw [hscan]⟩
    rw [part, ← key.apply_take, hscan, hplain, List.take_left]
  · -- A record that misleads is too small, or the scan stopped behind the end.
    rw [← hdecode] at hrecord hstop
    have hlarge := h.large record hrecord
    have hinside := h.stoppedAt_le
    rw [BlockRecord.Misleads, key.length_apply] at hmisleads
    omega

theorem recordsFrom_shift (before offset : ℕ) (blocks : List Block) :
    recordsFrom (before + offset) blocks = (recordsFrom offset blocks).map (shift before) := by
  induction blocks generalizing offset with
  | nil => rfl
  | cons block blocks ih =>
    rw [recordsFrom, recordsFrom, List.map_cons, Nat.add_assoc, ih]
    rfl

theorem recordsFrom_append (offset : ℕ) (first rest : List Block) :
    recordsFrom offset (first ++ rest) =
      recordsFrom offset first ++ recordsFrom (offset + (frames first).length) rest := by
  induction first generalizing offset with
  | nil => rfl
  | cons block blocks ih =>
    rw [List.cons_append, recordsFrom, recordsFrom, ih, List.cons_append, frames_cons,
      List.length_append, Nat.add_assoc]

/-- The blocks of all inputs, and their records. -/
theorem exists_blocks_of_sound {inputs : List Bytes} (h : ∀ input ∈ inputs, Sound key input)
    (before : ℕ) :
    ∃ blocks, inputs.flatMap (part key) = frames blocks ∧
      recordsFrom before blocks = joined before (inputs.map fun input => scanFile input key) := by
  induction inputs generalizing before with
  | nil => exact ⟨[], rfl, rfl⟩
  | cons input inputs ih =>
    obtain ⟨first, hpart, hrecords, hstop⟩ := (h input List.mem_cons_self).exists_blocks
    obtain ⟨rest, hparts, hrest⟩ := ih (fun other hother => h other (List.mem_cons_of_mem _ hother))
      (before + (frames first).length)
    refine ⟨first ++ rest, ?_, ?_⟩
    · rw [List.flatMap_cons, hpart, hparts, frames, frames, frames, List.flatMap_append]
    · rw [recordsFrom_append, hrest, List.map_cons, joined, hrecords, hstop, ← recordsFrom_shift,
        Nat.add_zero]

/-- **Joining loses and corrupts nothing.** For every key and all sound inputs, the output
decodes to the decoded parts of the inputs, one after the other; and a scan of it finds
the records of all inputs, each further back by what was copied before it. -/
theorem run_faithful (key : ObfuscationKey) {inputs : List Bytes}
    (h : ∀ input ∈ inputs, Sound key input) :
    ∃ output, (inputs ≠ [] → run key inputs = .ok output) ∧
      key.apply output 0 =
          inputs.flatMap (fun input => key.apply (input.take (scanFile input key).stoppedAt) 0) ∧
        (scanFile output key).records = joined 0 (inputs.map fun input => scanFile input key) := by
  obtain ⟨blocks, hparts, hrecords⟩ := exists_blocks_of_sound h 0
  refine ⟨key.apply (inputs.flatMap (part key)) 0,
    fun hne => run_eq hne fun input hinput => (h input hinput).stoppedAt_le,
    key.apply_apply _ 0, ?_⟩
  have hscan : scanFile (frames blocks ++ []) .absent = _ :=
    scanFile_frames blocks (Or.inl (by decide))
  rw [List.append_nil] at hscan
  rw [scanFile, scanFrom_decode, key.apply_apply, hparts, ← scanFile, hscan, hrecords]

/-! ### Two files -/

/-- A block of 81 zeros, so that what follows it is not aligned to the key. -/
def oddBlock : Block := ⟨List.replicate 81 0, by decide, by decide⟩

/-- A file with a little padding is sound. -/
theorem sound_padded (key : ObfuscationKey) (blocks : List Block) {k : ℕ} (hk : k < 88) :
    Sound key (padded key blocks k) := by
  obtain ⟨reason, hscan⟩ : ∃ reason, scanFile (padded key blocks k) key =
      ⟨recordsFrom 0 blocks, (frames blocks).length, reason⟩ := by
    rw [scanFile, scanFrom_decode, apply_padded, ← scanFile]
    exact ⟨_, scanFile_frames blocks (Or.inl (by rwa [List.length_map, List.length_range]))⟩
  refine ⟨?_, ?_⟩
  · rw [hscan, padded, List.length_append, key.length_apply]
    exact Nat.le_add_right _ _
  · rw [hscan]
    exact fun record hrecord => (mem_recordsFrom hrecord).2

/-- A key of eight different bytes. -/
def sampleKey : ObfuscationKey := ⟨⟨[1, 2, 3, 4, 5, 6, 7, 8], rfl⟩⟩

/-- Two files of one block each, the first with a little padding. -/
def twoFiles : List Bytes := [padded sampleKey [oddBlock] 3, padded sampleKey [oddBlock] 0]

/-- The second one starts at an odd offset of the output. -/
theorem run_faithful_twoFiles :
    ∃ output, (twoFiles ≠ [] → run sampleKey twoFiles = .ok output) ∧
      sampleKey.apply output 0 = twoFiles.flatMap (fun input =>
          sampleKey.apply (input.take (scanFile input sampleKey).stoppedAt) 0) ∧
        (scanFile output sampleKey).records =
          joined 0 (twoFiles.map fun input => scanFile input sampleKey) := by
  refine run_faithful sampleKey fun input hinput => ?_
  rcases List.mem_cons.mp hinput with rfl | hinput
  · exact sound_padded _ _ (by decide)
  · obtain rfl := List.mem_singleton.mp hinput
    exact sound_padded _ _ (by decide)

end Concat

end SoloMiner
