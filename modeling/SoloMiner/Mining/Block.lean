import SoloMiner.Mining.Coinbase
import SoloMiner.Primitives.Header
import SoloMiner.Primitives.Hostile

/-!
# Assembling a block

A block is its header, the number of its transactions, the coinbase with its witness,
and the other transactions as the node gave them. The header commits to the ids, so
the builder refuses a list of transactions that has not as many ids.

What is built reads back (`SoloMiner.BlockBuilder.serialize_readsBack`): the header from
the first 80 bytes, the count after it, then the coinbase, and nothing of one part is
left to the next.
-/

namespace SoloMiner

/-- Why a block could not be assembled. -/
inductive BlockError where
  /-- The transaction and txid lists were of different lengths. -/
  | countMismatch (transactions txids : ℕ)
  deriving DecidableEq

/-- The text of a block error. -/
def BlockError.display : BlockError → Str
  | .countMismatch transactions txids => decimal transactions ++ " transactions but ".toList ++
    decimal txids ++ " txids — the merkle root would not match the block".toList

/-- A block under construction. -/
structure BlockBuilder where
  /-- The coinbase transaction. -/
  coinbase : Transaction
  /-- The remaining transactions, serialised, in block order. -/
  transactions : List Bytes
  /-- Their txids, in the same order. -/
  txids : List Sha256dHash

namespace BlockBuilder

/-- Creates a builder from a coinbase and the node's transaction list. -/
def new (coinbase : Transaction) (transactions : List Bytes) (txids : List Sha256dHash) :
    Checked BlockError BlockBuilder :=
  if transactions.length ≠ txids.length then
    .err (.countMismatch transactions.length txids.length)
  else .ok ⟨coinbase, transactions, txids⟩

/-- The merkle root over the coinbase and every other transaction. -/
def merkleRoot {ε : Type} (self : BlockBuilder) : Checked ε Sha256dHash :=
  Checked.expect (Merkle.merkleRoot (self.coinbase.txid :: self.txids))

/-- How many transactions the block contains, counting the coinbase. -/
def transactionCount (self : BlockBuilder) : ℕ := self.transactions.length + 1

/-- Serialises the complete block. -/
def serialize (self : BlockBuilder) (header : BlockHeader) : Bytes :=
  header.serialize.toList ++ encodeLen self.transactionCount ++ self.coinbase.serialize ++
    self.transactions.flatten

/-! ### A block reads back -/

/-- A block of the builder is its parts in order. -/
theorem serialize_eq (self : BlockBuilder) (header : BlockHeader) :
    self.serialize header = header.serialize.toList ++ (encodeLen self.transactionCount ++
      (self.coinbase.serialize ++ self.transactions.flatten)) := by
  simp [serialize]

/-- What follows the header and the count starts with the coinbase. -/
theorem drop_count {self : BlockBuilder} {header : BlockHeader} {s : Slice}
    (hs : s.bytes = self.serialize header) :
    (s.drop (80 + (encodeLen self.transactionCount).length)).bytes =
      self.coinbase.serialize ++ self.transactions.flatten := by
  have hhead : header.serialize.toList.length = 80 := header.serialize.toList_length
  show s.bytes.drop _ = _
  rw [hs, serialize_eq, ← List.append_assoc]
  exact List.drop_left' (by rw [List.length_append, hhead])

/-- The coinbase of a block is read back, and nothing beyond it. -/
theorem deserialize_coinbase {self : BlockBuilder} (hinputs : self.coinbase.inputs ≠ [])
    {b : Slice} (hb : b.bytes = self.coinbase.serialize ++ self.transactions.flatten) :
    Transaction.deserialize b = .ok self.coinbase ∧
      Transaction.consumed b = self.coinbase.serialize.length := by
  have hlt := b.length_lt
  rw [hb, List.length_append] at hlt
  have hwire := Transaction.wire_serialize hinputs (by omega)
  exact Transaction.deserialize_of_wire hwire (hb ▸ List.prefix_append _ _)

/-- **A serialised block reads back as the block that was built**, part by part; and a
header that was parsed is written as the bytes it was parsed from. -/
theorem serialize_readsBack :
    (∀ (header : BlockHeader) (coinbase : Transaction) (transactions : List Bytes)
        (txids : List Sha256dHash), coinbase.inputs ≠ [] → transactions.length = txids.length →
      ∃ block : BlockBuilder, new coinbase transactions txids = .ok block ∧
        ∀ s : Slice, s.bytes = block.serialize header →
          ∃ (head : ByteArr 80) (count : UInt64) (n : ℕ),
            head.toList = s.bytes.take 80 ∧ BlockHeader.deserialize head = header ∧
            Varint.decode (s.drop 80).bytes = .ok (count, n) ∧
            count = UInt64.ofNat block.transactionCount ∧
            (block.transactionCount < 2 ^ 64 → count.toNat = block.transactionCount) ∧
            Transaction.deserialize (s.drop (80 + n)) = .ok coinbase ∧
            Transaction.consumed (s.drop (80 + n)) = coinbase.serialize.length ∧
            (s.drop (80 + n)).bytes = coinbase.serialize ++ transactions.flatten ∧
            (s.drop (80 + n + coinbase.serialize.length)).bytes = transactions.flatten) ∧
    ∀ a : ByteArr 80, (BlockHeader.deserialize a).serialize = a := by
  constructor
  · intro header coinbase transactions txids hinputs hlen
    refine ⟨⟨coinbase, transactions, txids⟩, if_neg (not_not.mpr hlen), fun s hs => ?_⟩
    have hhead : header.serialize.toList.length = 80 := header.serialize.toList_length
    have hrest := drop_count hs
    obtain ⟨hcoinbase, hconsumed⟩ := deserialize_coinbase hinputs hrest
    refine ⟨header.serialize, _, _, ?_, header.deserialize_fields, ?_, rfl,
      fun hcount => UInt64.toNat_ofNat_of_lt' hcount, hcoinbase, hconsumed, hrest, ?_⟩
    · rw [hs, serialize_eq, List.take_left' hhead]
    · refine (Varint.decode_eq_ok_iff _ _ _).mpr ⟨?_, rfl⟩
      show _ <+: s.bytes.drop 80
      rw [hs, serialize_eq, List.drop_left' hhead]
      exact List.prefix_append _ _
    · show s.bytes.drop _ = _
      rw [← List.drop_drop]
      exact (congrArg (List.drop _) hrest).trans (List.drop_left' rfl)
  · exact fun a => arr_ext (BlockHeader.toList_serialize_deserialize a)

/-- A block of a coinbase and two raw transactions. -/
theorem serialize_readsBack_sample :
    ∃ block, new Transaction.sample [[0x01], [0x02, 0x03]] [.ZERO, .ZERO] = .ok block ∧
      ∀ s : Slice, s.bytes = block.serialize ⟨1, .ZERO, .ZERO, 0, 0x207FFFFF, 7⟩ →
        ∃ n, Transaction.deserialize (s.drop (80 + n)) = .ok Transaction.sample := by
  obtain ⟨block, hnew, hreads⟩ := serialize_readsBack.1 ⟨1, .ZERO, .ZERO, 0, 0x207FFFFF, 7⟩
    Transaction.sample [[0x01], [0x02, 0x03]] [.ZERO, .ZERO] (by decide) rfl
  refine ⟨block, hnew, fun s hs => ?_⟩
  obtain ⟨-, -, n, -, -, -, -, -, hcoinbase, -⟩ := hreads s hs
  exact ⟨n, hcoinbase⟩

end BlockBuilder

end SoloMiner
