import SoloMiner.Primitives.Target

/-!
# Block templates

A template is what the node offers to build on. Its hashes and its transactions are
strings, parsed on use.
-/

namespace SoloMiner

/-- One transaction the node wants included. -/
structure TemplateTransaction where
  /-- The full serialised transaction, as hex. -/
  data : Str
  /-- The transaction id, in display order. -/
  txid : Str
  /-- The witness transaction id, in display order. -/
  hash : Str
  deriving DecidableEq

/-- A block template. -/
structure BlockTemplate where
  /-- Block version to put in the header. -/
  version : Int32
  /-- The block we are building on top of, in display order. -/
  previousBlockHash : Str
  /-- Transactions to include. -/
  transactions : List TemplateTransaction
  /-- The most the coinbase may pay out. -/
  coinbaseValue : UInt64
  /-- The compact target for the header, as hex. -/
  bits : Str
  /-- The height this block will have. -/
  height : UInt32
  /-- Suggested timestamp. -/
  currentTime : UInt64
  /-- The commitment output's `scriptPubKey`, as hex. -/
  defaultWitnessCommitment : Option Str
  deriving DecidableEq

/-- Why a template could not be interpreted. -/
inductive TemplateError where
  /-- A hash field was not 64 hex characters. -/
  | badHash (value : Str)
  /-- A hex field could not be decoded. -/
  | badHex (error : Hex.HexError)
  /-- The `bits` field did not decode to a usable target. -/
  | badTarget (error : TargetError)
  deriving DecidableEq

namespace BlockTemplate

/-- The previous block hash, parsed. -/
def previousBlock (self : BlockTemplate) : Checked TemplateError Sha256dHash :=
  Checked.mapErr (fun _ => .badHash self.previousBlockHash)
    (Sha256dHash.fromStr self.previousBlockHash)

/-- The compact target: a plain big-endian hex number. -/
def compactBits (self : BlockTemplate) : Checked TemplateError UInt32 := do
  let bytes ← Checked.mapErr .badHex (Hex.decodeArray 4 self.bits)
  pure (UInt32.ofNat (Base256.ofBE bytes.toList))

/-- The target a solved header must meet. -/
def target (self : BlockTemplate) : Checked TemplateError Target := do
  let bits ← self.compactBits
  match Target.fromCompact bits with
  | .ok target => .ok target
  | .error e => .err (.badTarget e)

end BlockTemplate

namespace TemplateTransaction

/-- The raw transaction bytes. -/
def raw (tx : TemplateTransaction) : Checked TemplateError Bytes :=
  Checked.mapErr .badHex (Hex.decode tx.data)

/-- The transaction id, parsed. -/
def parsedTxid (tx : TemplateTransaction) : Checked TemplateError Sha256dHash :=
  Checked.mapErr (fun _ => .badHash tx.txid) (Sha256dHash.fromStr tx.txid)

/-- The witness transaction id, parsed. -/
def wtxid (tx : TemplateTransaction) : Checked TemplateError Sha256dHash :=
  Checked.mapErr (fun _ => .badHash tx.hash) (Sha256dHash.fromStr tx.hash)

end TemplateTransaction

/-- The target of a template is that of its bits. -/
theorem BlockTemplate.target_eq_ok {template : BlockTemplate} {target : Target}
    (h : template.target = .ok target) :
    ∃ bits, template.compactBits = .ok bits ∧ Target.fromCompact bits = .ok target := by
  obtain ⟨bits, hbits, hmatch⟩ := Checked.bind_eq_ok.mp h
  refine ⟨bits, hbits, ?_⟩
  cases htarget : Target.fromCompact bits with
  | ok t =>
    rw [htarget] at hmatch
    rw [Except.ok.inj hmatch]
  | error e =>
    rw [htarget] at hmatch
    exact absurd hmatch (by simp [Checked.err])

end SoloMiner
