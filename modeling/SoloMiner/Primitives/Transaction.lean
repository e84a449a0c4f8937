import SoloMiner.Primitives.Reader

/-!
# Transactions

A transaction is written in one of two formats. The legacy one has the version, the
inputs, the outputs and the lock time; the other puts a marker and a flag after the
version and the witness stacks before the lock time. The marker is a zero byte where a
legacy transaction has its input count, which is never zero.

The parser is described by `SoloMiner.Transaction.Wire`, the relation between the bytes
it consumes and the transaction it returns (`SoloMiner.Transaction.parse_matches`). The
relation is wider than what the serialiser writes in two respects: any byte may stand
for the flag, and the marker may announce witness stacks that are all empty.

What the serialiser writes is in it, so decoding undoes encoding
(`SoloMiner.Transaction.deserialize_serialize`); and conversely, where the marker and
the flag are the serialiser's own, what is consumed is what it writes
(`SoloMiner.Transaction.deserialize_canonical`).
-/

namespace SoloMiner

open PrefixParser

/-! ### Transactions and their serialisation -/

/-- A reference to a specific output of a previous transaction. -/
structure OutPoint where
  /-- The transaction being spent from. -/
  txid : Sha256dHash
  /-- Which output of it. -/
  vout : UInt32
  deriving DecidableEq

/-- The null outpoint, which a coinbase spends. -/
def OutPoint.NULL : OutPoint := ⟨.ZERO, 0xFFFFFFFF⟩

/-- A transaction input. -/
structure TxIn where
  /-- The output being spent. -/
  previousOutput : OutPoint
  /-- The unlocking script. -/
  scriptSig : Bytes
  /-- The sequence number. -/
  sequence : UInt32
  /-- The witness stack, empty for a legacy input. -/
  witness : List Bytes
  deriving DecidableEq

/-- A transaction output. -/
structure TxOut where
  /-- Amount in satoshis. -/
  value : UInt64
  /-- The locking script. -/
  scriptPubkey : Bytes
  deriving DecidableEq

/-- A Bitcoin transaction. -/
structure Transaction where
  /-- Transaction version. -/
  version : Int32
  /-- Inputs. -/
  inputs : List TxIn
  /-- Outputs. -/
  outputs : List TxOut
  /-- Earliest block height or timestamp at which it may be mined. -/
  lockTime : UInt32
  deriving DecidableEq

/-- A length as the source writes it: `len() as u64`, in CompactSize form. -/
def encodeLen (len : ℕ) : Bytes := Varint.encode (UInt64.ofNat len)

/-- A byte string after its length. -/
def encodeVarBytes (bytes : Bytes) : Bytes := encodeLen bytes.length ++ bytes

/-- What `write_inputs` appends for one input. -/
def TxIn.encode (input : TxIn) : Bytes :=
  input.previousOutput.txid.bytes.toList ++ Base256.toLE 4 input.previousOutput.vout.toNat ++
    encodeVarBytes input.scriptSig ++ Base256.toLE 4 input.sequence.toNat

/-- What `write_outputs` appends for one output. -/
def TxOut.encode (output : TxOut) : Bytes :=
  Base256.toLE 8 output.value.toNat ++ encodeVarBytes output.scriptPubkey

/-- What `serialize` appends for the witness stack of one input. -/
def encodeWitness (witness : List Bytes) : Bytes :=
  encodeLen witness.length ++ witness.flatMap encodeVarBytes

namespace Transaction

/-- Whether any input carries witness data. -/
def hasWitness (tx : Transaction) : Bool := tx.inputs.any fun input => !input.witness.isEmpty

/-- The input count and the inputs. -/
def writeInputs (tx : Transaction) : Bytes :=
  encodeLen tx.inputs.length ++ tx.inputs.flatMap TxIn.encode

/-- The output count and the outputs. -/
def writeOutputs (tx : Transaction) : Bytes :=
  encodeLen tx.outputs.length ++ tx.outputs.flatMap TxOut.encode

/-- Serialises without witness data. -/
def serializeLegacy (tx : Transaction) : Bytes :=
  Base256.toLE 4 tx.version.toUInt32.toNat ++ tx.writeInputs ++ tx.writeOutputs ++
    Base256.toLE 4 tx.lockTime.toNat

/-- Serialises with the marker, the given flag and the witness stacks. -/
def serializeSegwit (flag : UInt8) (tx : Transaction) : Bytes :=
  Base256.toLE 4 tx.version.toUInt32.toNat ++ [0x00, flag] ++ tx.writeInputs ++ tx.writeOutputs ++
    tx.inputs.flatMap (fun input => encodeWitness input.witness) ++
    Base256.toLE 4 tx.lockTime.toNat

/-- Serialises in the format used on the wire and in blocks. -/
def serialize (tx : Transaction) : Bytes :=
  if !tx.hasWitness then tx.serializeLegacy else tx.serializeSegwit 0x01

/-- The transaction id. -/
def txid (tx : Transaction) : Sha256dHash := .hash tx.serializeLegacy

/-- The witness transaction id. -/
def wtxid (tx : Transaction) : Sha256dHash := .hash tx.serialize

/-! ### The parser -/

/-- The body of the input loop. -/
def readInput : ReaderM TxIn := do
  let txid ← Reader.readHash
  let vout ← Reader.readU32
  let scriptSig ← Reader.readVarBytes
  let sequence ← Reader.readU32
  pure ⟨⟨txid, vout⟩, scriptSig, sequence, []⟩

/-- The body of the output loop. -/
def readOutput : ReaderM TxOut := do
  let value ← Reader.readU64
  let scriptPubkey ← Reader.readVarBytes
  pure ⟨value, scriptPubkey⟩

/-- A count, then that many items: the output loop and the inner witness loop. -/
def readCounted {α : Type} (item : ReaderM α) : ReaderM (List α) := do
  let count ← Reader.readVarint
  times item count.toNat

/-- The body of the witness loop: the items of one input are pushed onto its stack. -/
def readWitness (input : TxIn) : ReaderM TxIn := do
  let witness ← readCounted Reader.readVarBytes
  pure { input with witness := input.witness ++ witness }

/-- The witness section, which is there when the marker was. -/
def readWitnesses (segwit : Bool) (inputs : List TxIn) : ReaderM (List TxIn) :=
  if segwit then inputs.mapM readWitness else pure inputs

/-- What follows the input count. -/
def readBody (version : Int32) (segwit : Bool) (inputCount : UInt64) : ReaderM Transaction := do
  let inputs ← times readInput inputCount.toNat
  let outputs ← readCounted readOutput
  let inputs ← readWitnesses segwit inputs
  let lockTime ← Reader.readU32
  pure ⟨version, inputs, outputs, lockTime⟩

/-- What follows the first count. A zero input count is the marker, not a count. -/
def readRest (version : Int32) (inputCount : UInt64) : ReaderM Transaction :=
  if inputCount = 0 then do
    let _flag ← Reader.readBytes 1
    let inputCount ← Reader.readVarint
    readBody version true inputCount
  else readBody version false inputCount

/-- The parser of `deserialize`. -/
def parse : ReaderM Transaction := do
  let version ← Reader.readI32
  let inputCount ← Reader.readVarint
  readRest version inputCount

/-- Parses a transaction, with or without witness data. -/
def deserialize (bytes : Slice) : Checked ReadError Transaction :=
  (run parse (Reader.new bytes)).1

/-! ### The formats of the loops -/

/-- The format of the input loop's body. -/
theorem readInput_matches :
    Matches Reader.cursor readInput fun w input =>
      (input.witness = [] ∧ input.scriptSig.length < 2 ^ 64) ∧ w = input.encode := by
  refine (matches_bind Reader.readHash_matches fun txid =>
    matches_bind Reader.readU32_matches fun vout =>
    matches_bind Reader.readVarBytes_matches fun scriptSig =>
    matches_bind Reader.readU32_matches fun sequence =>
    matches_pure _).congr fun w input => ⟨?_, ?_⟩
  · rintro ⟨_, _, txid, rfl, rfl, _, _, vout, rfl, rfl, _, _, scriptSig, rfl, ⟨hlen, rfl⟩,
      _, _, sequence, rfl, rfl, rfl, rfl⟩
    exact ⟨⟨rfl, hlen⟩, by simp [TxIn.encode, encodeVarBytes, encodeLen]⟩
  · rintro ⟨⟨hwitness, hlen⟩, rfl⟩
    obtain ⟨⟨txid, vout⟩, scriptSig, sequence, witness⟩ := input
    obtain rfl : witness = [] := hwitness
    have hencode : TxIn.encode ⟨⟨txid, vout⟩, scriptSig, sequence, []⟩ =
        txid.bytes.toList ++ (Base256.toLE 4 vout.toNat ++ (encodeVarBytes scriptSig ++
          (Base256.toLE 4 sequence.toNat ++ []))) := by
      simp [TxIn.encode]
    exact ⟨_, _, txid, hencode, rfl, _, _, vout, rfl, rfl, _, _, scriptSig, rfl,
      ⟨hlen, rfl⟩, _, [], sequence, rfl, rfl, rfl, rfl⟩

/-- The format of the output loop's body. -/
theorem readOutput_matches :
    Matches Reader.cursor readOutput fun w output =>
      output.scriptPubkey.length < 2 ^ 64 ∧ w = output.encode := by
  refine (matches_bind Reader.readU64_matches fun value =>
    matches_bind Reader.readVarBytes_matches fun scriptPubkey =>
    matches_pure _).congr fun w output => ⟨?_, ?_⟩
  · rintro ⟨_, _, value, rfl, rfl, _, _, scriptPubkey, rfl, ⟨hlen, rfl⟩, rfl, rfl⟩
    exact ⟨hlen, by simp [TxOut.encode, encodeVarBytes, encodeLen]⟩
  · rintro ⟨hlen, rfl⟩
    exact ⟨_, _, output.value, rfl, rfl, _, [], output.scriptPubkey, (List.append_nil _).symm,
      ⟨hlen, rfl⟩, rfl, rfl⟩

/-- A counted list of items after its count. -/
theorem readCounted_matches {α : Type} {m : ReaderM α} {ok : α → Prop} {enc : α → Bytes}
    (hm : Matches Reader.cursor m fun w a => ok a ∧ w = enc a) :
    Matches Reader.cursor (readCounted m)
      fun w as => (as.length < 2 ^ 64 ∧ ∀ a ∈ as, ok a) ∧
        w = encodeLen as.length ++ as.flatMap enc := by
  refine (matches_bind Reader.readVarint_matches fun count =>
    matches_times hm count.toNat).congr fun w as => ⟨?_, ?_⟩
  · rintro ⟨_, _, count, rfl, rfl, hmany, hlen⟩
    obtain ⟨hok, rfl⟩ := (many_iff_flatMap (fun _ _ => Iff.rfl) _ _).mp hmany
    have hlt : count.toNat < 2 ^ 64 := count.toNat_lt
    exact ⟨⟨by omega, hok⟩, by rw [encodeLen, hlen, UInt64.ofNat_toNat]⟩
  · rintro ⟨⟨hlt, hok⟩, rfl⟩
    refine ⟨_, _, UInt64.ofNat as.length, rfl, rfl,
      (many_iff_flatMap (fun _ _ => Iff.rfl) _ _).mpr ⟨hok, rfl⟩, ?_⟩
    rw [UInt64.toNat_ofNat_of_lt' hlt]

/-- The witness stack of an input is one that a reader can return. -/
def WitnessSized (input : TxIn) : Prop :=
  input.witness.length < 2 ^ 64 ∧ ∀ item ∈ input.witness, item.length < 2 ^ 64

/-- An input as the input loop leaves it, its witness stack still to be read. -/
def stripped (input : TxIn) : TxIn := { input with witness := [] }

@[simp] theorem encode_stripped (input : TxIn) : (stripped input).encode = input.encode := rfl

/-- The format of the witness loop's body, on an input without a stack. -/
theorem readWitness_matches {input : TxIn} (hinput : input.witness = []) :
    Matches Reader.cursor (readWitness input) fun w input' =>
      (input = stripped input' ∧ WitnessSized input') ∧ w = encodeWitness input'.witness := by
  refine (matches_bind (readCounted_matches Reader.readVarBytes_matches) fun witness =>
    matches_pure _).congr fun w input' => ⟨?_, ?_⟩
  · rintro ⟨_, _, witness, rfl, ⟨⟨hlen, hitems⟩, rfl⟩, rfl, rfl⟩
    rw [hinput, List.nil_append, List.append_nil]
    refine ⟨⟨?_, hlen, hitems⟩, rfl⟩
    obtain ⟨out, script, seq, wit⟩ := input
    obtain rfl : wit = [] := hinput
    rfl
  · rintro ⟨⟨rfl, hlen, hitems⟩, rfl⟩
    exact ⟨_, [], input'.witness, (List.append_nil _).symm, ⟨⟨hlen, hitems⟩, rfl⟩, rfl, rfl⟩

/-- **The witness loop** reads one stack for each input, in order. -/
theorem each_readWitness_iff {inputs : List TxIn} (hinputs : ∀ input ∈ inputs, input.witness = [])
    (w : Bytes) (inputs' : List TxIn) :
    Format.Each (fun input w input' => (input = stripped input' ∧ WitnessSized input') ∧
        w = encodeWitness input'.witness) inputs w inputs' ↔
      (inputs = inputs'.map stripped ∧ ∀ input ∈ inputs', WitnessSized input) ∧
        w = inputs'.flatMap fun input => encodeWitness input.witness := by
  constructor
  · intro h
    clear hinputs
    induction h with
    | nil => exact ⟨⟨rfl, by simp⟩, rfl⟩
    | @cons input inputs u v input' inputs' hfirst _ ih =>
      obtain ⟨⟨rfl, hsized⟩, rfl⟩ := hfirst
      obtain ⟨⟨rfl, hall⟩, rfl⟩ := ih
      exact ⟨⟨rfl, List.forall_mem_cons.mpr ⟨hsized, hall⟩⟩, rfl⟩
  · rintro ⟨⟨rfl, hall⟩, rfl⟩
    clear hinputs
    induction inputs' with
    | nil => exact .nil
    | cons input' inputs' ih =>
      obtain ⟨hsized, hall⟩ := List.forall_mem_cons.mp hall
      exact .cons ⟨⟨rfl, hsized⟩, rfl⟩ (ih hall)

/-! ### The format of a transaction -/

/-- **The sizes of a transaction fit 64 bits**, as they do for every value that is in
memory: what the counts and lengths on the wire can express. -/
structure Sized (tx : Transaction) : Prop where
  inputs : tx.inputs.length < 2 ^ 64
  outputs : tx.outputs.length < 2 ^ 64
  scriptSig : ∀ input ∈ tx.inputs, input.scriptSig.length < 2 ^ 64
  scriptPubkey : ∀ output ∈ tx.outputs, output.scriptPubkey.length < 2 ^ 64
  witness : ∀ input ∈ tx.inputs, WitnessSized input

/-- The bytes after the input count, with or without the witness stacks. -/
def bodyBytes (segwit : Bool) (tx : Transaction) : Bytes :=
  tx.inputs.flatMap TxIn.encode ++ (tx.writeOutputs ++
    ((if segwit then tx.inputs.flatMap fun input => encodeWitness input.witness else []) ++
      Base256.toLE 4 tx.lockTime.toNat))

theorem stripped_of_legacy {input : TxIn} (h : input.witness = []) : stripped input = input := by
  obtain ⟨out, script, seq, witness⟩ := input
  obtain rfl : witness = [] := h
  rfl

theorem map_stripped_of_legacy {inputs : List TxIn} (h : ∀ input ∈ inputs, input.witness = []) :
    inputs.map stripped = inputs := by
  rw [List.map_congr_left fun input hmem => stripped_of_legacy (h input hmem), List.map_id']

/-- An input without a witness stack is one that a reader can return. -/
theorem witnessSized_of_legacy {input : TxIn} (h : input.witness = []) : WitnessSized input := by
  rw [WitnessSized, h]
  exact ⟨by simp, by simp⟩

/-- The format of the witness section, on inputs without stacks. -/
theorem readWitnesses_matches (segwit : Bool) {inputs : List TxIn}
    (hinputs : ∀ input ∈ inputs, input.witness = []) :
    Matches Reader.cursor (readWitnesses segwit inputs) fun w inputs' =>
      (inputs = inputs'.map stripped ∧ ∀ input ∈ inputs', WitnessSized input) ∧
        (segwit = false → ∀ input ∈ inputs', input.witness = []) ∧
        w = if segwit then inputs'.flatMap fun input => encodeWitness input.witness else [] := by
  cases segwit with
  | true =>
    refine (matches_mapM fun input hmem => readWitness_matches (hinputs input hmem)).congr
      fun w inputs' => ?_
    rw [each_readWitness_iff hinputs]
    simp
  | false =>
    refine (matches_pure inputs).congr fun w inputs' => ⟨?_, ?_⟩
    · rintro ⟨rfl, rfl⟩
      exact ⟨⟨(map_stripped_of_legacy hinputs).symm,
        fun input hmem => witnessSized_of_legacy (hinputs input hmem)⟩, fun _ => hinputs, rfl⟩
    · rintro ⟨⟨rfl, -⟩, hlegacy, rfl⟩
      exact ⟨rfl, (map_stripped_of_legacy (hlegacy rfl)).symm⟩

theorem flatMap_encode_stripped (inputs : List TxIn) :
    (inputs.map stripped).flatMap TxIn.encode = inputs.flatMap TxIn.encode := by
  rw [List.flatMap_map]
  rfl

/-- The format of the input loop. -/
theorem readInputs_matches (count : ℕ) :
    Matches Reader.cursor (times readInput count) fun w inputs =>
      (∀ input ∈ inputs, input.witness = [] ∧ input.scriptSig.length < 2 ^ 64) ∧
        inputs.length = count ∧ w = inputs.flatMap TxIn.encode := by
  refine (matches_times readInput_matches count).congr fun w inputs => ?_
  rw [many_iff_flatMap fun _ _ => Iff.rfl]
  tauto

/-- **The format of the body**, given the version, the input count and whether the
marker was there. -/
theorem readBody_matches (version : Int32) (segwit : Bool) (inputCount : UInt64) :
    Matches Reader.cursor (readBody version segwit inputCount) fun w tx =>
      tx.version = version ∧ tx.inputs.length = inputCount.toNat ∧ tx.Sized ∧
        (segwit = false → ∀ input ∈ tx.inputs, input.witness = []) ∧ w = bodyBytes segwit tx := by
  refine (matches_bind_of (readInputs_matches inputCount.toNat) fun w inputs hin =>
    matches_bind (readCounted_matches readOutput_matches) fun outputs =>
    matches_bind (readWitnesses_matches segwit fun input hmem =>
      (hin.1 input hmem).1) fun inputs' =>
    matches_bind Reader.readU32_matches fun lockTime =>
    matches_pure _).congr fun w tx => ⟨?_, ?_⟩
  · rintro ⟨_, _, inputs, rfl, ⟨hscripts, hcount, rfl⟩, _, _, outputs, rfl,
      ⟨⟨houtputs, hpubkeys⟩, rfl⟩, _, _, inputs', rfl, ⟨⟨rfl, hsized⟩, hlegacy, rfl⟩,
      _, _, lockTime, rfl, rfl, rfl, rfl⟩
    rw [List.length_map] at hcount
    have hlt : inputCount.toNat < 2 ^ 64 := inputCount.toNat_lt
    refine ⟨rfl, hcount, ⟨by simpa [hcount] using hlt, houtputs, ?_, hpubkeys, hsized⟩,
      hlegacy, ?_⟩
    · exact fun input hmem => (hscripts (stripped input) (List.mem_map_of_mem hmem)).2
    · rw [bodyBytes, writeOutputs, flatMap_encode_stripped, List.append_nil]
  · rintro ⟨rfl, hcount, hsized, hlegacy, rfl⟩
    refine ⟨_, _, tx.inputs.map stripped, rfl, ⟨?_, ?_, (flatMap_encode_stripped _).symm⟩, _, _,
      tx.outputs, rfl, ⟨⟨hsized.outputs, hsized.scriptPubkey⟩, rfl⟩, _, _, tx.inputs, rfl,
      ⟨⟨rfl, hsized.witness⟩, hlegacy, rfl⟩, _, [], tx.lockTime, (List.append_nil _).symm, rfl,
      rfl, rfl⟩
    · intro input hmem
      obtain ⟨input', hmem', rfl⟩ := List.mem_map.mp hmem
      exact ⟨rfl, hsized.scriptSig input' hmem'⟩
    · rw [List.length_map, hcount]

/-- **The format of a transaction**: what the serialiser writes for one without
witness, or the marker, any flag and the witness stacks. -/
def Wire (w : Bytes) (tx : Transaction) : Prop :=
  tx.Sized ∧ ((tx.inputs ≠ [] ∧ (∀ input ∈ tx.inputs, input.witness = []) ∧
    w = tx.serializeLegacy) ∨ ∃ flag, w = tx.serializeSegwit flag)

theorem serializeLegacy_eq (tx : Transaction) :
    tx.serializeLegacy = Base256.toLE 4 tx.version.toUInt32.toNat ++
      (encodeLen tx.inputs.length ++ bodyBytes false tx) := by
  simp [serializeLegacy, writeInputs, bodyBytes]

theorem serializeSegwit_eq (flag : UInt8) (tx : Transaction) :
    tx.serializeSegwit flag = Base256.toLE 4 tx.version.toUInt32.toNat ++
      (encodeLen 0 ++ ([flag] ++ (encodeLen tx.inputs.length ++ bodyBytes true tx))) := by
  have hmarker : encodeLen 0 = [0x00] := rfl
  simp [serializeSegwit, writeInputs, bodyBytes, hmarker]

/-- The format of what follows the first count. -/
theorem readRest_matches (version : Int32) (count : UInt64) :
    Matches Reader.cursor (readRest version count) fun w tx => tx.version = version ∧ tx.Sized ∧
      ((count = 0 ∧ ∃ flag, w = [flag] ++ (encodeLen tx.inputs.length ++ bodyBytes true tx)) ∨
        (count ≠ 0 ∧ tx.inputs.length = count.toNat ∧
          (∀ input ∈ tx.inputs, input.witness = []) ∧ w = bodyBytes false tx)) := by
  by_cases hcount : count = 0
  · rw [readRest, if_pos hcount]
    refine (matches_bind (Reader.readBytes_matches 1) fun _ =>
      matches_bind Reader.readVarint_matches fun count =>
      readBody_matches version true count).congr fun w tx => ⟨?_, ?_⟩
    · rintro ⟨flags, _, _, rfl, ⟨hflag, rfl⟩, _, _, count, rfl, rfl, rfl, hlen, hsized, -, rfl⟩
      obtain ⟨flag, rfl⟩ := List.length_eq_one_iff.mp hflag
      exact ⟨rfl, hsized, Or.inl ⟨hcount, flag, by rw [encodeLen, hlen, UInt64.ofNat_toNat]⟩⟩
    · rintro ⟨rfl, hsized, ⟨-, flag, rfl⟩ | ⟨hne, -⟩⟩
      · refine ⟨[flag], _, [flag], rfl, ⟨rfl, rfl⟩, _, _, UInt64.ofNat tx.inputs.length, rfl, rfl,
          rfl, ?_, hsized, by simp, rfl⟩
        rw [UInt64.toNat_ofNat_of_lt' hsized.inputs]
      · exact absurd hcount hne
  · rw [readRest, if_neg hcount]
    refine (readBody_matches version false count).congr fun w tx => ?_
    constructor
    · rintro ⟨rfl, hlen, hsized, hlegacy, rfl⟩
      exact ⟨rfl, hsized, Or.inr ⟨hcount, hlen, hlegacy rfl, rfl⟩⟩
    · rintro ⟨rfl, hsized, ⟨hzero, -⟩ | ⟨-, hlen, hlegacy, rfl⟩⟩
      · exact absurd hzero hcount
      · exact ⟨rfl, hlen, hsized, fun _ => hlegacy, rfl⟩

/-- A count that fits is zero only for the empty list. -/
theorem ofNat_length_eq_zero_iff {inputs : List TxIn} (h : inputs.length < 2 ^ 64) :
    UInt64.ofNat inputs.length = 0 ↔ inputs = [] := by
  rw [← UInt64.toNat_inj, UInt64.toNat_ofNat_of_lt' h]
  exact List.length_eq_zero_iff

/-- **The parser reads exactly that format.** -/
theorem parse_matches : Matches Reader.cursor parse Wire := by
  refine (matches_bind Reader.readI32_matches fun version =>
    matches_bind Reader.readVarint_matches fun count =>
    readRest_matches version count).congr fun w tx => ⟨?_, ?_⟩
  · rintro ⟨_, _, version, rfl, rfl, _, _, count, rfl, rfl, rfl, hsized,
      ⟨rfl, flag, rfl⟩ | ⟨hne, hlen, hlegacy, rfl⟩⟩
    · exact ⟨hsized, Or.inr ⟨flag, by rw [serializeSegwit_eq]; rfl⟩⟩
    · have hcount : UInt64.ofNat tx.inputs.length = count := by rw [hlen, UInt64.ofNat_toNat]
      refine ⟨hsized, Or.inl ⟨fun hnil => ?_, hlegacy, ?_⟩⟩
      · exact hne (hcount ▸ (ofNat_length_eq_zero_iff hsized.inputs).mpr hnil)
      · rw [serializeLegacy_eq, encodeLen, hcount]
  · rintro ⟨hsized, ⟨hne, hlegacy, rfl⟩ | ⟨flag, rfl⟩⟩
    · refine ⟨_, _, tx.version, serializeLegacy_eq tx, rfl, _, _, UInt64.ofNat tx.inputs.length,
        rfl, rfl, rfl, hsized, Or.inr ⟨?_, ?_, hlegacy, rfl⟩⟩
      · exact (ofNat_length_eq_zero_iff hsized.inputs).not.mpr hne
      · rw [UInt64.toNat_ofNat_of_lt' hsized.inputs]
    · exact ⟨_, _, tx.version, serializeSegwit_eq flag tx, rfl, _, _, 0, rfl, rfl, rfl, hsized,
        Or.inl ⟨rfl, flag, rfl⟩⟩

/-- **Deserialising** succeeds precisely when the input starts in the format. -/
theorem deserialize_eq_ok_iff (b : Slice) (tx : Transaction) :
    deserialize b = .ok tx ↔ ∃ w, Wire w tx ∧ w <+: b.bytes := by
  constructor
  · intro h
    obtain ⟨w, hwire, hpre, -⟩ := (parse_matches _ (Reader.valid_new b) tx
      (run parse (Reader.new b)).2).mp (Prod.ext h rfl)
    exact ⟨w, hwire, hpre⟩
  · rintro ⟨w, hwire, hpre⟩
    have hrun := (parse_matches _ (Reader.valid_new b) tx
      (Reader.cursor.skip (Reader.new b) w.length)).mpr ⟨w, hwire, hpre, rfl⟩
    rw [deserialize, hrun]

/-! ### What is in memory has sizes that fit -/

theorem length_le_flatMap {α : Type} {enc : α → Bytes} (henc : ∀ a, enc a ≠ []) (as : List α) :
    as.length ≤ (as.flatMap enc).length := by
  induction as with
  | nil => simp
  | cons a as ih =>
    have hpos : 0 < (enc a).length := List.length_pos_iff.mpr (henc a)
    rw [List.flatMap_cons, List.length_append, List.length_cons]
    omega

theorem length_le_flatMap_of_mem {α : Type} (enc : α → Bytes) {a : α} {as : List α} (h : a ∈ as) :
    (enc a).length ≤ (as.flatMap enc).length := by
  induction as with
  | nil => exact absurd h List.not_mem_nil
  | cons b as ih =>
    rw [List.flatMap_cons, List.length_append]
    rcases List.mem_cons.mp h with rfl | h
    · omega
    · have hle := ih h
      omega

theorem encodeLen_ne_nil (n : ℕ) : encodeLen n ≠ [] := Varint.encode_ne_nil _

theorem length_le_encodeVarBytes (bytes : Bytes) :
    bytes.length ≤ (encodeVarBytes bytes).length := by
  rw [encodeVarBytes, List.length_append]
  omega

theorem encodeVarBytes_ne_nil (bytes : Bytes) : encodeVarBytes bytes ≠ [] := by
  simp [encodeVarBytes, encodeLen_ne_nil]

/-- Writing a witness stack takes a byte for each item, and each item's own bytes. -/
theorem witnessSized_of_length {input : TxIn} (h : (encodeWitness input.witness).length < 2 ^ 64) :
    WitnessSized input := by
  rw [encodeWitness, List.length_append] at h
  have hcount := length_le_flatMap encodeVarBytes_ne_nil input.witness
  refine ⟨by omega, fun item hmem => ?_⟩
  have hitem := length_le_flatMap_of_mem encodeVarBytes hmem
  have hbytes := length_le_encodeVarBytes item
  omega

/-- **A transaction whose serialisation is in memory has sizes that fit**, as far as
the serialisation contains them. -/
theorem sized_of_length {tx : Transaction} (hinputs : tx.writeInputs.length < 2 ^ 64)
    (houtputs : tx.writeOutputs.length < 2 ^ 64)
    (hwitness : ∀ input ∈ tx.inputs, WitnessSized input) : tx.Sized := by
  rw [writeInputs, List.length_append] at hinputs
  rw [writeOutputs, List.length_append] at houtputs
  have hinput_ne : ∀ input : TxIn, input.encode ≠ [] := fun input => by
    simp [TxIn.encode, encodeVarBytes_ne_nil]
  have houtput_ne : ∀ output : TxOut, output.encode ≠ [] := fun output => by
    simp [TxOut.encode, encodeVarBytes_ne_nil]
  have hin := length_le_flatMap hinput_ne tx.inputs
  have hout := length_le_flatMap houtput_ne tx.outputs
  refine ⟨by omega, by omega, fun input hmem => ?_, fun output hmem => ?_, hwitness⟩
  · have hle := length_le_flatMap_of_mem TxIn.encode hmem
    have hscript := length_le_encodeVarBytes input.scriptSig
    have hpart : (encodeVarBytes input.scriptSig).length ≤ input.encode.length := by
      simp only [TxIn.encode, List.length_append]
      omega
    omega
  · have hle := length_le_flatMap_of_mem TxOut.encode hmem
    have hscript := length_le_encodeVarBytes output.scriptPubkey
    have hpart : (encodeVarBytes output.scriptPubkey).length ≤ output.encode.length := by
      simp only [TxOut.encode, List.length_append]
      omega
    omega

theorem sized_of_segwit {tx : Transaction} {flag : UInt8}
    (h : (tx.serializeSegwit flag).length < 2 ^ 64) : tx.Sized := by
  simp only [serializeSegwit, List.length_append] at h
  refine sized_of_length (by omega) (by omega) fun input hmem => witnessSized_of_length ?_
  have hle := length_le_flatMap_of_mem (fun input : TxIn => encodeWitness input.witness) hmem
  omega

theorem sized_of_legacy {tx : Transaction} (h : tx.serializeLegacy.length < 2 ^ 64)
    (hlegacy : ∀ input ∈ tx.inputs, input.witness = []) : tx.Sized := by
  simp only [serializeLegacy, List.length_append] at h
  exact sized_of_length (by omega) (by omega) fun input hmem =>
    witnessSized_of_legacy (hlegacy input hmem)

/-! ### Decoding undoes encoding -/

theorem hasWitness_eq_false_iff {tx : Transaction} :
    tx.hasWitness = false ↔ ∀ input ∈ tx.inputs, input.witness = [] := by
  simp [hasWitness]

/-- What the serialiser writes is in the format, if it is in memory. -/
theorem wire_serialize {tx : Transaction} (hinputs : tx.inputs ≠ [])
    (hlen : tx.serialize.length < 2 ^ 64) : Wire tx.serialize tx := by
  cases hwitness : tx.hasWitness with
  | true =>
    have hser : tx.serialize = tx.serializeSegwit 0x01 := by simp [serialize, hwitness]
    rw [hser] at hlen ⊢
    exact ⟨sized_of_segwit hlen, Or.inr ⟨0x01, rfl⟩⟩
  | false =>
    have hser : tx.serialize = tx.serializeLegacy := by simp [serialize, hwitness]
    have hlegacy := hasWitness_eq_false_iff.mp hwitness
    rw [hser] at hlen ⊢
    exact ⟨sized_of_legacy hlen hlegacy, Or.inl ⟨hinputs, hlegacy, rfl⟩⟩

/-- The transaction with every witness stack emptied. -/
def withoutWitness (tx : Transaction) : Transaction :=
  { tx with inputs := tx.inputs.map stripped }

theorem withoutWitness_legacy (tx : Transaction) :
    ∀ input ∈ tx.withoutWitness.inputs, input.witness = [] := by
  intro input hmem
  obtain ⟨input', -, rfl⟩ := List.mem_map.mp hmem
  rfl

/-- The legacy serialisation does not see the witness stacks. -/
theorem serializeLegacy_withoutWitness (tx : Transaction) :
    tx.withoutWitness.serializeLegacy = tx.serializeLegacy := by
  have hinputs : tx.withoutWitness.writeInputs = tx.writeInputs := by
    rw [writeInputs, writeInputs, withoutWitness, List.length_map, flatMap_encode_stripped]
  rw [serializeLegacy, serializeLegacy, hinputs]
  rfl

/-- What the legacy serialiser writes is in the format, as the transaction without
its witness stacks. -/
theorem wire_serializeLegacy {tx : Transaction} (hinputs : tx.inputs ≠ [])
    (hlen : tx.serializeLegacy.length < 2 ^ 64) : Wire tx.serializeLegacy tx.withoutWitness := by
  rw [← serializeLegacy_withoutWitness] at hlen ⊢
  have hlegacy := withoutWitness_legacy tx
  exact ⟨sized_of_legacy hlen hlegacy,
    Or.inl ⟨by simpa [withoutWitness] using hinputs, hlegacy, rfl⟩⟩

/-- **Decoding undoes encoding, in both formats**: whatever comes after it, a
serialised transaction is read back, and a legacy-serialised one is read back with its
witness stacks emptied. -/
theorem deserialize_serialize (tx : Transaction) (hinputs : tx.inputs ≠ []) (s : Bytes)
    (b : Slice) :
    (b.bytes = tx.serialize ++ s → deserialize b = .ok tx) ∧
      (b.bytes = tx.serializeLegacy ++ s → deserialize b = .ok tx.withoutWitness) := by
  have hlt := b.length_lt
  refine ⟨fun hb => ?_, fun hb => ?_⟩
  · have hlen : tx.serialize.length < 2 ^ 64 := by
      rw [hb, List.length_append] at hlt
      omega
    exact (deserialize_eq_ok_iff b tx).mpr
      ⟨tx.serialize, wire_serialize hinputs hlen, hb ▸ List.prefix_append _ s⟩
  · have hlen : tx.serializeLegacy.length < 2 ^ 64 := by
      rw [hb, List.length_append] at hlt
      omega
    exact (deserialize_eq_ok_iff b _).mpr
      ⟨tx.serializeLegacy, wire_serializeLegacy hinputs hlen, hb ▸ List.prefix_append _ s⟩

/-- A transaction with a witness stack, and one without. -/
def sample : Transaction where
  version := 2
  inputs := [⟨.NULL, [0x51], 0xFFFFFFFF, [[], [0xAB]]⟩, ⟨.NULL, [], 0, []⟩]
  outputs := [⟨5000000000, [0x6A]⟩]
  lockTime := 7

/-- The round trip on a transaction with one empty and one non-empty stack. -/
theorem deserialize_serialize_sample :
    (deserialize ⟨sample.serialize ++ [0xFF], by decide +kernel⟩ = .ok sample) ∧
      deserialize ⟨sample.serializeLegacy ++ [0xFF], by decide +kernel⟩ =
        .ok sample.withoutWitness :=
  ⟨(deserialize_serialize sample (by decide) [0xFF] ⟨_, by decide +kernel⟩).1 rfl,
    (deserialize_serialize sample (by decide) [0xFF] ⟨_, by decide +kernel⟩).2 rfl⟩

/-! ### What is accepted -/

/-- The parser does not ask for the end of the input, so a transaction with a byte
after it is accepted, and its serialisation is not the whole input. -/
theorem deserialize_ignores_trailing :
    ¬ ∀ (b : Slice) (tx : Transaction), deserialize b = .ok tx → tx.serialize = b.bytes := by
  intro h
  have hread : deserialize ⟨sample.serialize ++ [0xFF], by decide +kernel⟩ = .ok sample := by
    decide +kernel
  exact absurd (h _ _ hread) (by decide +kernel)

/-- The two bytes after the version, in the format with the marker. -/
theorem serializeSegwit_marker {w : Bytes} {tx : Transaction} {flag : UInt8} {b : Bytes}
    (hw : w = tx.serializeSegwit flag) (hpre : w <+: b) :
    b[4]? = some 0x00 ∧ b[5]? = some flag := by
  obtain ⟨rest, rfl⟩ := hpre
  have hver : (Base256.toLE 4 tx.version.toUInt32.toNat).length = 4 := Base256.length_toLE _ _
  have hsplit : w ++ rest = Base256.toLE 4 tx.version.toUInt32.toNat ++
      (0x00 :: flag :: (encodeLen tx.inputs.length ++ bodyBytes true tx ++ rest)) := by
    have hmarker : encodeLen 0 = [0x00] := rfl
    rw [hw, serializeSegwit_eq, hmarker]
    simp
  rw [hsplit, List.getElem?_append_right (by omega), List.getElem?_append_right (by omega), hver]
  exact ⟨rfl, rfl⟩

/-- **Parsing is canonical up to the end of the transaction**: where the marker, if it
is there, is followed by the flag of the serialiser and announces some witness item,
the input is what the serialiser writes and then whatever follows. -/
theorem deserialize_canonical (b : Slice) (tx : Transaction) (h : deserialize b = .ok tx)
    (hmarker : b.bytes[4]? = some 0x00 → b.bytes[5]? = some 0x01 ∧ tx.hasWitness = true) :
    ∃ rest, b.bytes = tx.serialize ++ rest := by
  obtain ⟨w, ⟨-, hform⟩, hpre⟩ := (deserialize_eq_ok_iff b tx).mp h
  have hw : w = tx.serialize := by
    rcases hform with ⟨-, hlegacy, rfl⟩ | ⟨flag, hsegwit⟩
    · rw [serialize, hasWitness_eq_false_iff.mpr hlegacy]
      rfl
    · obtain ⟨hzero, hflag⟩ := serializeSegwit_marker hsegwit hpre
      obtain ⟨hone, hwitness⟩ := hmarker hzero
      obtain rfl : flag = 0x01 := Option.some.inj (hflag.symm.trans hone)
      rw [hsegwit, serialize, hwitness]
      rfl
  obtain ⟨rest, hrest⟩ := hpre
  exact ⟨rest, by rw [← hrest, hw]⟩

/-- The canonical form of a transaction with a witness and a byte after it. -/
theorem deserialize_canonical_sample :
    ∃ rest, sample.serialize ++ [0xFF] = sample.serialize ++ rest :=
  deserialize_canonical ⟨sample.serialize ++ [0xFF], by decide +kernel⟩ sample
    (by decide +kernel) fun _ => by decide +kernel

end Transaction

end SoloMiner
