import SoloMiner.Primitives.Target

/-!
# Block headers

A header is 80 bytes, its nonce the last four. Mining hashes one header under many
nonces, through its midstate; `SoloMiner.BlockHeader.midstate_eq_hash` says that this
gives the hash of the header with that nonce.
-/

namespace SoloMiner

/-- A Bitcoin block header. -/
structure BlockHeader where
  /-- Block version. -/
  version : Int32
  /-- Hash of the previous block's header. -/
  prevBlock : Sha256dHash
  /-- Commitment to every transaction in the block. -/
  merkleRoot : Sha256dHash
  /-- Block timestamp. -/
  time : UInt32
  /-- The difficulty target, in compact form. -/
  bits : UInt32
  /-- The counter miners increment. -/
  nonce : UInt32
  deriving DecidableEq

namespace BlockHeader

/-- Serialises the header to its canonical 80 bytes. -/
def serialize (self : BlockHeader) : ByteArr 80 :=
  let out := zeroArr 80
  let out := overwrite out 0 (Base256.toLE 4 self.version.toUInt32.toNat) (by simp)
  let out := overwrite out 4 self.prevBlock.bytes.toList (by simp)
  let out := overwrite out 36 self.merkleRoot.bytes.toList (by simp)
  let out := overwrite out 68 (Base256.toLE 4 self.time.toNat) (by simp)
  let out := overwrite out 72 (Base256.toLE 4 self.bits.toNat) (by simp)
  overwrite out 76 (Base256.toLE 4 self.nonce.toNat) (by simp)

/-- Parses a header from its canonical 80 bytes. -/
def deserialize (bytes : ByteArr 80) : BlockHeader where
  version := (UInt32.ofNat (Base256.ofLE (bytes.toList.take 4))).toInt32
  prevBlock := ⟨toArr ((bytes.toList.drop 4).take 32) (by simp)⟩
  merkleRoot := ⟨toArr ((bytes.toList.drop 36).take 32) (by simp)⟩
  time := UInt32.ofNat (Base256.ofLE ((bytes.toList.drop 68).take 4))
  bits := UInt32.ofNat (Base256.ofLE ((bytes.toList.drop 72).take 4))
  nonce := UInt32.ofNat (Base256.ofLE ((bytes.toList.drop 76).take 4))

/-- The block's hash. -/
def hash (self : BlockHeader) : Sha256dHash := .hash self.serialize.toList

/-- The decoded target this header claims to meet. -/
def target (self : BlockHeader) : Except TargetError Target := Target.fromCompact self.bits

/-- Whether this header's hash meets its own stated target. -/
def isValidProofOfWork (self : BlockHeader) : Except TargetError Bool := do
  let target ← self.target
  pure (target.isMetBy self.hash)

/-! ### The layout -/

/-- The fields before the nonce, in order. -/
def fields (self : BlockHeader) : Bytes :=
  Base256.toLE 4 self.version.toUInt32.toNat ++ (self.prevBlock.bytes.toList ++
    (self.merkleRoot.bytes.toList ++
      (Base256.toLE 4 self.time.toNat ++ Base256.toLE 4 self.bits.toNat)))

@[simp] theorem length_fields (self : BlockHeader) : self.fields.length = 76 := by
  simp [fields]

/-- **A header is its fields in order**, the nonce last. -/
theorem toList_serialize (self : BlockHeader) :
    self.serialize.toList = self.fields ++ Base256.toLE 4 self.nonce.toNat := by
  have hprev : self.prevBlock.bytes.toList.length = 32 := self.prevBlock.length_bytes
  have hroot : self.merkleRoot.bytes.toList.length = 32 := self.merkleRoot.length_bytes
  rw [serialize, fields]
  simp [hprev, hroot, List.take_append, List.drop_append, List.take_of_length_le,
    List.drop_of_length_le]

/-- **A header that was parsed** is written as the bytes it was parsed from. -/
theorem toList_serialize_deserialize (bytes : ByteArr 80) :
    (deserialize bytes).serialize.toList = bytes.toList := by
  have hlen : bytes.toList.length = 80 := bytes.toList_length
  have htake : ∀ n m : ℕ, ((bytes.toList.drop n).take m) ++ bytes.toList.drop (n + m) =
      bytes.toList.drop n := fun n m => by
    rw [← List.drop_drop, List.take_append_drop]
  rw [toList_serialize, fields, deserialize]
  simp only [toList_toArr, UInt32.toUInt32_toInt32]
  rw [Base256.toLE_ofLE_u32 (by simp), Base256.toLE_ofLE_u32 (by simp),
    Base256.toLE_ofLE_u32 (by simp), Base256.toLE_ofLE_u32 (by simp)]
  have hlast : (bytes.toList.drop 76).take 4 = bytes.toList.drop 76 :=
    List.take_of_length_le (by simp)
  rw [hlast]
  simp only [List.append_assoc, htake]
  exact List.take_append_drop 4 bytes.toList

/-- **A header that was written** is parsed as it was. -/
theorem deserialize_fields (self : BlockHeader) : deserialize self.serialize = self := by
  have hprev : self.prevBlock.bytes.toList.length = 32 := self.prevBlock.length_bytes
  have hroot : self.merkleRoot.bytes.toList.length = 32 := self.merkleRoot.length_bytes
  have hfields := toList_serialize self
  rw [fields] at hfields
  have hversion : self.serialize.toList.take 4 =
      Base256.toLE 4 self.version.toUInt32.toNat := by
    simp [hfields]
  have hprevBlock : (self.serialize.toList.drop 4).take 32 = self.prevBlock.bytes.toList := by
    simp [hfields, hprev]
  have hmerkleRoot : (self.serialize.toList.drop 36).take 32 = self.merkleRoot.bytes.toList := by
    simp [hfields, hprev, hroot, List.drop_append, List.drop_of_length_le]
  have htime : (self.serialize.toList.drop 68).take 4 = Base256.toLE 4 self.time.toNat := by
    simp [hfields, hprev, hroot, List.drop_append, List.drop_of_length_le]
  have hbits : (self.serialize.toList.drop 72).take 4 = Base256.toLE 4 self.bits.toNat := by
    simp [hfields, hprev, hroot, List.drop_append, List.drop_of_length_le]
  have hnonce : (self.serialize.toList.drop 76).take 4 = Base256.toLE 4 self.nonce.toNat := by
    simp [hfields, hprev, hroot, List.drop_append, List.drop_of_length_le]
  rw [deserialize]
  simp only [hversion, hprevBlock, hmerkleRoot, htime, hbits, hnonce, Base256.ofLE_toLE_u32]
  rfl

/-- The fields before the nonce do not see the nonce. -/
theorem withNonce_serialize (self : BlockHeader) (nonce : UInt32) :
    Sha256d.withNonce self.serialize nonce = { self with nonce }.serialize.toList := by
  rw [toList_serialize, Sha256d.withNonce, toList_serialize, List.take_left' (length_fields self)]
  rfl

/-- **Through its midstate** a header hashes to the hash of the header with the nonce
put in. -/
theorem midstate_eq_hash (self : BlockHeader) (nonce : UInt32) :
    (⟨(Sha256d.HeaderHasher.new Sha256d.Reference.compressBlock self.serialize).hash
      Sha256d.Reference.compressBlock nonce⟩ : Sha256dHash) = { self with nonce }.hash := by
  rw [Sha256d.hash_eq_sha256dWith, withNonce_serialize]
  rfl

end BlockHeader

end SoloMiner
