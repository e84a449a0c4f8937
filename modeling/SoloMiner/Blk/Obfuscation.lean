import SoloMiner.Primitives.Header

/-!
# The obfuscation of block files

Everything in a block file is XORed with a key of eight bytes, by position: the byte at
offset `i` with the key's byte `i % 8`. So a part of a file can be decoded on its own, as
long as its offset is known (`SoloMiner.ObfuscationKey.apply_take`,
`SoloMiner.ObfuscationKey.apply_drop`), and decoding twice is encoding
(`SoloMiner.ObfuscationKey.apply_apply`). Offsets are lengths of files, which 64 bits
hold.
-/

namespace SoloMiner

/-- The key of a blocks directory. -/
structure ObfuscationKey where
  bytes : ByteArr 8
  deriving DecidableEq

namespace ObfuscationKey

/-- The key of a directory without one: all zero. -/
def absent : ObfuscationKey := ⟨zeroArr 8⟩

/-- Whether the key obfuscates anything. -/
def isActive (self : ObfuscationKey) : Bool := self.bytes != zeroArr 8

/-- The byte of the key for a position. -/
def byteAt (self : ObfuscationKey) (position : ℕ) : UInt8 :=
  self.bytes.get ⟨position % 8, Nat.mod_lt _ (by decide)⟩

/-- De-obfuscates a buffer that begins at an offset of its file. -/
def apply (self : ObfuscationKey) (buffer : Bytes) (fileOffset : ℕ) : Bytes :=
  if self.isActive then
    buffer.mapIdx fun index byte => byte ^^^ self.byteAt (fileOffset + index)
  else buffer

variable (key : ObfuscationKey)

/-- A key that is not active is all zero, so the exception for it changes nothing. -/
theorem apply_eq_mapIdx (buffer : Bytes) (fileOffset : ℕ) :
    key.apply buffer fileOffset =
      buffer.mapIdx fun index byte => byte ^^^ key.byteAt (fileOffset + index) := by
  rw [apply]
  split_ifs with hactive
  · rfl
  · have hzero : key.bytes = zeroArr 8 := by
      rw [isActive, bne_iff_ne] at hactive
      exact not_not.mp hactive
    have hbyte : ∀ position, key.byteAt position = 0 := fun position => by
      rw [byteAt, hzero, zeroArr, List.Vector.get_replicate]
    simp [hbyte, List.mapIdx_eq_zipIdx_map]

@[simp] theorem apply_absent (buffer : Bytes) (fileOffset : ℕ) :
    absent.apply buffer fileOffset = buffer := rfl

/-- The byte at an index. -/
theorem getElem?_apply (buffer : Bytes) (fileOffset index : ℕ) :
    (key.apply buffer fileOffset)[index]? =
      buffer[index]?.map fun byte => byte ^^^ key.byteAt (fileOffset + index) := by
  rw [apply_eq_mapIdx, List.getElem?_mapIdx]

@[simp] theorem length_apply (buffer : Bytes) (fileOffset : ℕ) :
    (key.apply buffer fileOffset).length = buffer.length := by
  rw [apply_eq_mapIdx, List.length_mapIdx]

@[simp] theorem apply_nil (fileOffset : ℕ) : key.apply [] fileOffset = [] := by
  rw [apply_eq_mapIdx, List.mapIdx_nil]

/-- **Decoding by pieces**: what follows is decoded at its own offset. -/
theorem apply_append (first rest : Bytes) (fileOffset : ℕ) :
    key.apply (first ++ rest) fileOffset =
      key.apply first fileOffset ++ key.apply rest (fileOffset + first.length) := by
  simp only [apply_eq_mapIdx, List.mapIdx_append]
  refine congrArg (_ ++ ·) (congrArg (fun f => List.mapIdx f rest) ?_)
  funext index byte
  rw [Nat.add_assoc, Nat.add_comm index]

/-- **XOR is its own inverse.** -/
@[simp] theorem apply_apply (buffer : Bytes) (fileOffset : ℕ) :
    key.apply (key.apply buffer fileOffset) fileOffset = buffer := by
  refine List.ext_getElem? fun index => ?_
  rw [getElem?_apply, getElem?_apply, Option.map_map]
  have hid : ((fun byte => byte ^^^ key.byteAt (fileOffset + index)) ∘
      fun byte => byte ^^^ key.byteAt (fileOffset + index)) = id := by
    funext byte
    rw [Function.comp_apply, UInt8.xor_assoc, UInt8.xor_self, UInt8.xor_zero, id]
  rw [hid, Option.map_id, id]

theorem apply_take (buffer : Bytes) (fileOffset n : ℕ) :
    (key.apply buffer fileOffset).take n = key.apply (buffer.take n) fileOffset := by
  refine List.ext_getElem? fun index => ?_
  simp only [List.getElem?_take, getElem?_apply]
  split_ifs <;> rfl

theorem apply_drop (buffer : Bytes) (fileOffset n : ℕ) :
    (key.apply buffer fileOffset).drop n = key.apply (buffer.drop n) (fileOffset + n) := by
  refine List.ext_getElem? fun index => ?_
  rw [List.getElem?_drop, getElem?_apply, getElem?_apply, List.getElem?_drop, Nat.add_assoc]

/-- Zeros that were not obfuscated are decoded to the key. -/
theorem apply_replicate_zero (n fileOffset : ℕ) :
    key.apply (List.replicate n 0) fileOffset =
      (List.range n).map fun index => key.byteAt (fileOffset + index) := by
  refine List.ext_getElem? fun index => ?_
  rw [getElem?_apply, List.getElem?_map, List.getElem?_replicate]
  split_ifs with hindex
  · rw [List.getElem?_range hindex, Option.map_some, Option.map_some, UInt8.zero_xor]
  · rw [List.getElem?_eq_none (by simpa using hindex), Option.map_none, Option.map_none]

end ObfuscationKey

end SoloMiner
