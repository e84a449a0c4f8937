import SoloMiner.Lib.ParserCost
import SoloMiner.Primitives.Transaction

/-!
# Hostile input

Transactions come from the outside, so the parser is handed whatever bytes somebody
sends: a transaction that breaks off in the middle, or one that announces more inputs
than any memory holds.

* A transaction that breaks off is an error wherever it does
  (`SoloMiner.Transaction.deserialize_truncated`). No two transactions of the format
  are one a beginning of the other, so a shorter input cannot hold another one; and
  no operation of the reader panics.
* The rounds of the four loops are counted beside the run
  (`SoloMiner.Transaction.Counted.parse`). Each completed round has read a least
  number of bytes, 41 for an input, 9 for an output and one for a witness stack or
  item, so the counts on the wire matter only as far as there are bytes to read
  (`SoloMiner.Transaction.deserialize_rounds`).
-/

namespace SoloMiner

open PrefixParser

/-! ### What the reader spends -/

namespace Reader

theorem length_rest (reader : Reader) : (cursor.rest reader).length = reader.remaining :=
  List.length_drop

/-- An operation that reads at least `k` bytes where it succeeds, never moves back,
and does not panic. -/
abbrev Reads {α : Type} (k : ℕ) (m : ReaderM α) : Prop :=
  Spends cursor.Valid remaining (fun e => e ≠ .panic) k m

theorem readBytes_reads (count : ℕ) : Reads count (readBytes count) := by
  intro reader hvalid
  have hvalid' : reader.position ≤ reader.bytes.bytes.length := hvalid
  rw [run_readBytes]
  split_ifs with hend
  · exact ⟨hvalid, by simp, le_rfl⟩
  · refine ⟨cursor.valid_skip hvalid (by rw [length_rest, remaining]; omega), ?_⟩
    show reader.bytes.bytes.length - (reader.position + count) + count ≤
      reader.bytes.bytes.length - reader.position
    omega

theorem readVarint_reads : Reads 1 readVarint := by
  intro reader hvalid
  have hvalid' : reader.position ≤ reader.bytes.bytes.length := hvalid
  rw [run_readVarint hvalid]
  cases hdec : Varint.decode (cursor.rest reader) with
  | error e => exact ⟨hvalid, by simp, le_rfl⟩
  | ok read =>
    obtain ⟨value, consumed⟩ := read
    obtain ⟨hpre, rfl⟩ := (Varint.decode_eq_ok_iff _ _ _).mp hdec
    have hpos : 0 < (Varint.encode value).length :=
      List.length_pos_iff.mpr (Varint.encode_ne_nil value)
    have hle := hpre.length_le
    refine ⟨cursor.valid_skip hvalid hle, ?_⟩
    rw [length_rest, remaining] at hle
    show reader.bytes.bytes.length - (reader.position + (Varint.encode value).length) + 1 ≤
      reader.bytes.bytes.length - reader.position
    omega

theorem readVarBytes_reads : Reads 1 readVarBytes :=
  spends_bind readVarint_reads fun length => (readBytes_reads length.toNat).mono (Nat.zero_le _)

/-- The array is there when the bytes are: the `expect` of the source never fires. -/
theorem readArray_reads (n : ℕ) : Reads n (readArray n) := by
  intro reader hvalid
  have hbytes := readBytes_reads n reader hvalid
  rw [readArray, run_bind]
  cases hrun : run (readBytes n) reader with
  | mk r reader₁ =>
    rw [hrun] at hbytes
    cases r with
    | error e => exact hbytes
    | ok slice =>
      obtain ⟨w, ⟨hlen, rfl⟩, -⟩ := (readBytes_matches n reader hvalid slice reader₁).mp hrun
      simp only [dif_pos hlen, run_pure]
      exact hbytes

theorem readU32_reads : Reads 4 readU32 :=
  spends_bind (readArray_reads 4) fun _ => spends_pure _

theorem readI32_reads : Reads 4 readI32 :=
  spends_bind (readArray_reads 4) fun _ => spends_pure _

theorem readU64_reads : Reads 8 readU64 :=
  spends_bind (readArray_reads 8) fun _ => spends_pure _

theorem readHash_reads : Reads 32 readHash :=
  spends_bind (readArray_reads 32) fun _ => spends_pure _

end Reader

namespace Transaction

open Reader

/-- An input takes the bytes of its outpoint, a script length and its sequence number. -/
theorem readInput_reads : Reads 41 readInput :=
  spends_bind readHash_reads fun _ => spends_bind readU32_reads fun _ =>
    spends_bind readVarBytes_reads fun _ => spends_bind readU32_reads fun _ => spends_pure _

/-- An output takes the bytes of its value and a script length. -/
theorem readOutput_reads : Reads 9 readOutput :=
  spends_bind readU64_reads fun _ => spends_bind readVarBytes_reads fun _ => spends_pure _

/-! ### The parser with its rounds counted -/

/-- How many rounds of each loop were completed. -/
structure Rounds where
  /-- Of the input loop. -/
  inputs : ℕ
  /-- Of the output loop. -/
  outputs : ℕ
  /-- Of the loop over the inputs that reads their witness stacks. -/
  witnesses : ℕ
  /-- Of the loop over the items of a stack, for all stacks together. -/
  items : ℕ
  deriving DecidableEq

namespace Rounds

/-- No round yet. -/
def none : Rounds := ⟨0, 0, 0, 0⟩

/-- One more input. -/
def input (self : Rounds) : Rounds := { self with inputs := self.inputs + 1 }

/-- One more output. -/
def output (self : Rounds) : Rounds := { self with outputs := self.outputs + 1 }

/-- One more witness stack. -/
def stack (self : Rounds) : Rounds := { self with witnesses := self.witnesses + 1 }

/-- One more witness item. -/
def item (self : Rounds) : Rounds := { self with items := self.items + 1 }

/-- The least number of bytes that so many rounds have read. -/
def cost (self : Rounds) : ℕ := 41 * self.inputs + 9 * self.outputs + self.witnesses + self.items

theorem cost_input (self : Rounds) : self.input.cost ≤ self.cost + 41 := by
  simp only [cost, input]
  omega

theorem cost_output (self : Rounds) : self.output.cost ≤ self.cost + 9 := by
  simp only [cost, output]
  omega

theorem cost_stack (self : Rounds) : self.stack.cost ≤ self.cost + 1 := by
  simp only [cost, stack]
  omega

theorem cost_item (self : Rounds) : self.item.cost ≤ self.cost + 1 := le_rfl

end Rounds

namespace Counted

/-- An operation of the reader with the rounds counted beside it. -/
abbrev CountedM (α : Type) : Type := Parser (Fault ReadError) (Reader × Rounds) α

/-- `SoloMiner.Transaction.readCounted`, a round for each item. -/
def readCounted {α : Type} (tick : Rounds → Rounds) (item : ReaderM α) : CountedM (List α) := do
  let count ← lift Reader.readVarint
  times (counting tick (lift item)) count.toNat

/-- `SoloMiner.Transaction.readWitness`, a round for each item. -/
def readWitness (input : TxIn) : CountedM TxIn := do
  let witness ← readCounted Rounds.item Reader.readVarBytes
  pure { input with witness := input.witness ++ witness }

/-- `SoloMiner.Transaction.readWitnesses`, a round for each stack. -/
def readWitnesses (segwit : Bool) (inputs : List TxIn) : CountedM (List TxIn) :=
  if segwit then inputs.mapM fun input => counting Rounds.stack (readWitness input)
  else pure inputs

/-- `SoloMiner.Transaction.readBody`, a round for each input and output. -/
def readBody (version : Int32) (segwit : Bool) (inputCount : UInt64) : CountedM Transaction := do
  let inputs ← times (counting Rounds.input (lift readInput)) inputCount.toNat
  let outputs ← readCounted Rounds.output readOutput
  let inputs ← readWitnesses segwit inputs
  let lockTime ← lift Reader.readU32
  pure ⟨version, inputs, outputs, lockTime⟩

/-- `SoloMiner.Transaction.readRest`, which has no loop of its own. -/
def readRest (version : Int32) (inputCount : UInt64) : CountedM Transaction :=
  if inputCount = 0 then do
    let _flag ← lift (Reader.readBytes 1)
    let inputCount ← lift Reader.readVarint
    readBody version true inputCount
  else readBody version false inputCount

/-- `SoloMiner.Transaction.parse` with the rounds of its loops counted. -/
def parse : CountedM Transaction := do
  let version ← lift Reader.readI32
  let inputCount ← lift Reader.readVarint
  readRest version inputCount

/-! ### Counting changes nothing -/

theorem readCounted_tallies {α : Type} (tick : Rounds → Rounds) (item : ReaderM α) :
    Tallies (readCounted tick item) (Transaction.readCounted item) :=
  tallies_bind (tallies_lift _) fun _ =>
    tallies_times (tallies_counting tick (tallies_lift item)) _

theorem readWitness_tallies (input : TxIn) :
    Tallies (readWitness input) (Transaction.readWitness input) :=
  tallies_bind (readCounted_tallies _ _) fun _ => tallies_pure _

theorem readWitnesses_tallies (segwit : Bool) (inputs : List TxIn) :
    Tallies (readWitnesses segwit inputs) (Transaction.readWitnesses segwit inputs) := by
  cases segwit with
  | true => exact tallies_mapM (fun input => tallies_counting _ (readWitness_tallies input)) inputs
  | false => exact tallies_pure inputs

theorem readBody_tallies (version : Int32) (segwit : Bool) (inputCount : UInt64) :
    Tallies (readBody version segwit inputCount)
      (Transaction.readBody version segwit inputCount) :=
  tallies_bind (tallies_times (tallies_counting _ (tallies_lift _)) _) fun _ =>
    tallies_bind (readCounted_tallies _ _) fun _ =>
    tallies_bind (readWitnesses_tallies segwit _) fun _ =>
    tallies_bind (tallies_lift _) fun _ => tallies_pure _

/-- **The counted parser is the parser**, with the rounds counted beside it. -/
theorem parse_tallies : Tallies parse Transaction.parse := by
  refine tallies_bind (tallies_lift _) fun version => tallies_bind (tallies_lift _) fun count => ?_
  rw [readRest, Transaction.readRest]
  split_ifs
  · exact tallies_bind (tallies_lift _) fun _ => tallies_bind (tallies_lift _) fun inputCount =>
      readBody_tallies version true inputCount
  · exact readBody_tallies version false count

/-! ### The rounds are paid for -/

/-- An operation that, with the rounds it counts, reads at least `k` bytes more than
they cost. -/
abbrev Pays {α : Type} (k : ℕ) (m : CountedM α) : Prop :=
  Spends (fun s => cursor.Valid s.1) (withCost remaining Rounds.cost) (fun e => e ≠ .panic) k m

theorem pays_lift {α : Type} {k : ℕ} {m : ReaderM α} (h : Reads k m) : Pays 0 (lift m) :=
  (spends_lift h).mono (Nat.zero_le k)

/-- A round that reads what it is counted for. -/
theorem pays_round {α : Type} {l : ℕ} {m : ReaderM α} {tick : Rounds → Rounds} (h : Reads l m)
    (htick : ∀ r : Rounds, (tick r).cost ≤ r.cost + l) : Pays 0 (counting tick (lift m)) :=
  spends_counting ((spends_lift h).mono (Nat.zero_add l).le) htick

/-- A counted list pays for its items, and reads a byte for its count. -/
theorem readCounted_pays {α : Type} {l : ℕ} {m : ReaderM α} {tick : Rounds → Rounds}
    (h : Reads l m) (htick : ∀ r : Rounds, (tick r).cost ≤ r.cost + l) :
    Pays 1 (readCounted tick m) :=
  spends_bind (spends_lift readVarint_reads) fun _ => spends_times (pays_round h htick) _

/-- The byte of the item count pays for the stack. -/
theorem readWitness_pays (input : TxIn) : Pays 0 (counting Rounds.stack (readWitness input)) := by
  have hitems : Pays 1 (readWitness input) :=
    spends_bind (readCounted_pays readVarBytes_reads Rounds.cost_item) fun _ => spends_pure _
  exact spends_counting hitems Rounds.cost_stack

theorem readWitnesses_pays (segwit : Bool) (inputs : List TxIn) :
    Pays 0 (readWitnesses segwit inputs) := by
  cases segwit with
  | true => exact spends_mapM readWitness_pays inputs
  | false => exact spends_pure inputs

theorem readBody_pays (version : Int32) (segwit : Bool) (inputCount : UInt64) :
    Pays 0 (readBody version segwit inputCount) :=
  spends_bind (spends_times (pays_round readInput_reads Rounds.cost_input) _) fun _ =>
    spends_bind ((readCounted_pays readOutput_reads Rounds.cost_output).mono (Nat.zero_le 1))
      fun _ => spends_bind (readWitnesses_pays segwit _) fun _ =>
        spends_bind (pays_lift readU32_reads) fun _ => spends_pure _

/-- **Every round is paid for**, whatever the counts say, and nothing panics. -/
theorem parse_pays : Pays 0 parse := by
  refine spends_bind (l := 0) (pays_lift readI32_reads) fun version =>
    spends_bind (l := 0) (pays_lift readVarint_reads) fun count => ?_
  rw [readRest]
  split_ifs
  · exact spends_bind (pays_lift (readBytes_reads 1)) fun _ =>
      spends_bind (pays_lift readVarint_reads) fun inputCount =>
        readBody_pays version true inputCount
  · exact readBody_pays version false count

end Counted

/-! ### Counts that are too large -/

/-- The run of the counted parser on a slice. -/
theorem run_counted (b : Slice) : ∃ r : Rounds,
    run Counted.parse (Reader.new b, Rounds.none) =
      (deserialize b, ((run parse (Reader.new b)).2, r)) ∧ r.cost ≤ b.bytes.length := by
  obtain ⟨r, hrun⟩ := Counted.parse_tallies (Reader.new b) Rounds.none
  refine ⟨r, hrun, ?_⟩
  have hle := Counted.parse_pays.le (s := (Reader.new b, Rounds.none)) (valid_new b)
  rw [hrun] at hle
  have hcost : (run parse (Reader.new b)).2.remaining + r.cost ≤
      (Reader.new b).remaining + Rounds.none.cost := hle
  have hstart : (Reader.new b).remaining = b.bytes.length := rfl
  have hzero : Rounds.none.cost = 0 := rfl
  omega

/-- **Hostile counts cannot blow up the parser**: whatever the input announces and
however the run ends, the completed rounds of its loops are bounded by its length. -/
theorem deserialize_rounds (b : Slice) : ∃ r : Rounds,
    run Counted.parse (Reader.new b, Rounds.none) =
      (deserialize b, ((run parse (Reader.new b)).2, r)) ∧
    41 * r.inputs + 9 * r.outputs + r.items ≤ b.bytes.length ∧
    r.inputs + r.outputs + r.witnesses + r.items ≤ b.bytes.length := by
  obtain ⟨r, hrun, hcost⟩ := run_counted b
  rw [Rounds.cost] at hcost
  exact ⟨r, hrun, by omega, by omega⟩

/-! ### Inputs that break off -/

/-- No input makes the parser panic. -/
theorem deserialize_ne_panic (b : Slice) : deserialize b ≠ .panic := by
  intro hpanic
  obtain ⟨r, hrun, -⟩ := run_counted b
  refine Counted.parse_pays.error (s := (Reader.new b, Rounds.none)) (valid_new b)
    (e := .panic) ?_ rfl
  rw [hrun, hpanic]
  rfl

/-- How many bytes of the input the parser has read when it stops. -/
def consumed (b : Slice) : ℕ := (run parse (Reader.new b)).2.position

/-- What is read of an input that holds a transaction is that transaction. -/
theorem wire_of_deserialize {b : Slice} {tx : Transaction} (h : deserialize b = .ok tx) :
    ∃ w, Wire w tx ∧ w <+: b.bytes ∧ consumed b = w.length := by
  obtain ⟨w, hwire, hpre, hreader⟩ := (parse_matches _ (valid_new b) tx
    (run parse (Reader.new b)).2).mp (Prod.ext h rfl)
  refine ⟨w, hwire, hpre, ?_⟩
  rw [consumed, hreader]
  exact Nat.zero_add w.length

/-- What stands in the format at the front is what is read, and all that is read. -/
theorem deserialize_of_wire {b : Slice} {w : Bytes} {tx : Transaction} (hwire : Wire w tx)
    (hpre : w <+: b.bytes) : deserialize b = .ok tx ∧ consumed b = w.length := by
  have hrun := (parse_matches _ (valid_new b) tx
    (cursor.skip (Reader.new b) w.length)).mpr ⟨w, hwire, hpre, rfl⟩
  rw [deserialize, consumed, hrun]
  exact ⟨rfl, Nat.zero_add w.length⟩

/-- **Truncation is always detected**: a transaction of which any byte is missing at
the end is an error, neither a panic nor another transaction. -/
theorem deserialize_truncated (b : Slice) (tx : Transaction) (h : deserialize b = .ok tx) (k : ℕ)
    (hk : k < consumed b) : ∃ e, deserialize (b.take k) = .err e := by
  obtain ⟨w, hwire, hpre, hlen⟩ := wire_of_deserialize h
  cases hcut : deserialize (b.take k) with
  | ok tx' =>
    obtain ⟨w', hwire', hpre', -⟩ := wire_of_deserialize hcut
    have hshort : w'.length ≤ k := le_trans hpre'.length_le (List.length_take_le k b.bytes)
    have hpre₀ : w' <+: b.bytes := hpre'.trans (List.take_prefix k b.bytes)
    obtain ⟨heq, -⟩ := parse_matches.unique (valid_new b) hwire hpre hwire' hpre₀
    omega
  | error e =>
    cases e with
    | error e => exact ⟨e, rfl⟩
    | panic => exact absurd hcut (deserialize_ne_panic _)

theorem length_sample_lt : (sample.serialize ++ [0xFF]).length < 2 ^ 64 := by decide +kernel

/-- A transaction cut inside its first witness stack. -/
theorem deserialize_truncated_sample :
    ∃ e, deserialize (Slice.take ⟨sample.serialize ++ [0xFF], length_sample_lt⟩ 106) = .err e :=
  deserialize_truncated ⟨sample.serialize ++ [0xFF], length_sample_lt⟩ sample
    (by decide +kernel) 106 (by decide +kernel)

end Transaction

end SoloMiner
