import SoloMiner.Mining.Consensus
import SoloMiner.Pool.Template
import SoloMiner.Primitives.HexStrict

/-!
# The templates of an honest node

A template is text: hashes in display order, transactions in hex. What the code makes of
it is worth as much as the template itself, so the results on blocks are stated for the
templates that a node gives which knows what block comes next
(`SoloMiner.Consensus.Offers`). Of such a template everything is read back: the
transactions as their serialisations, and their ids as what these hash to.
-/

namespace SoloMiner

namespace Consensus

/-- How a node lists a transaction in a template. -/
def listing (tx : Transaction) : TemplateTransaction :=
  ⟨Hex.encode tx.serialize, tx.txid.display, tx.wtxid.display⟩

/-- **A template of an honest node**: it says what block comes next, and offers
transactions that may stand in it. -/
structure Offers (next : NextBlock) (others : List Transaction) (template : BlockTemplate) :
    Prop where
  previousBlockHash : template.previousBlockHash = next.prevHash.display
  transactions : template.transactions = others.map listing
  /-- No transaction is without inputs, -/
  inputs : ∀ tx ∈ others, tx.inputs ≠ []
  /-- or is a coinbase. -/
  notCoinbase : ∀ tx ∈ others, ¬ IsCoinbase tx
  coinbaseValue : template.coinbaseValue.toNat ≤ next.reward
  height : template.height = next.height
  /-- The bits are those that are due at the time that is suggested. -/
  bits : template.compactBits = .ok (next.bitsAt template.currentTime.toUInt32)

/-! ### Reading a template -/

/-- A hash that was printed is parsed as it was. -/
theorem fromStr_display (hash : Sha256dHash) : Sha256dHash.fromStr hash.display = .ok hash := by
  have hlen : hash.bytes.toList.reverse.length = 32 := by
    rw [List.length_reverse, hash.length_bytes]
  refine Sha256dHash.fromStr_eq_ok_iff.mpr ⟨?_, ?_⟩
  · rw [Sha256dHash.display_eq, Hex.utf8Len_encode, hlen]
  · rw [Sha256dHash.display_eq, Hex.decode_encode]

theorem raw_listing (tx : Transaction) : (listing tx).raw = .ok tx.serialize := by
  rw [TemplateTransaction.raw, listing, Hex.decode_encode, Checked.mapErr_ok]

theorem parsedTxid_listing (tx : Transaction) : (listing tx).parsedTxid = .ok tx.txid := by
  rw [TemplateTransaction.parsedTxid, listing, fromStr_display, Checked.mapErr_ok]

theorem wtxid_listing (tx : Transaction) : (listing tx).wtxid = .ok tx.wtxid := by
  rw [TemplateTransaction.wtxid, listing, fromStr_display, Checked.mapErr_ok]

/-- What is read of each listing is read of the list. -/
theorem mapM_listing {α : Type} {f : TemplateTransaction → Checked TemplateError α}
    {g : Transaction → α} (h : ∀ tx, f (listing tx) = .ok (g tx)) (txs : List Transaction) :
    (txs.map listing).mapM f = .ok (txs.map g) := by
  induction txs with
  | nil => rfl
  | cons tx txs ih =>
    rw [List.map_cons, List.mapM_cons, h, Checked.ok_bind, ih]
    rfl

/-- **What is read of an honest template**: the transactions, their ids and their witness
ids, in order, and the block that it builds on. -/
theorem Offers.reads {next : NextBlock} {others : List Transaction} {template : BlockTemplate}
    (h : Offers next others template) :
    template.transactions.mapM TemplateTransaction.raw = .ok (others.map Transaction.serialize) ∧
      template.transactions.mapM TemplateTransaction.parsedTxid =
        .ok (others.map Transaction.txid) ∧
      template.transactions.mapM TemplateTransaction.wtxid = .ok (others.map Transaction.wtxid) ∧
      template.previousBlock = .ok next.prevHash := by
  rw [h.transactions, mapM_listing raw_listing, mapM_listing parsedTxid_listing,
    mapM_listing wtxid_listing, BlockTemplate.previousBlock, h.previousBlockHash, fromStr_display,
    Checked.mapErr_ok]
  exact ⟨rfl, rfl, rfl, rfl⟩

end Consensus

end SoloMiner
