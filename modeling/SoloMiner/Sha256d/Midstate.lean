import SoloMiner.Sha256d.Neon

/-!
# Midstate caching

A block header is 80 bytes, so its padded form is two blocks, and the nonce lies
in the second. `SoloMiner.Sha256d.HeaderHasher` compresses the first block once
and keeps the second as a template in which only the four nonce bytes change.

`SoloMiner.Sha256d.hash_eq_sha256dWith` ties the hand-built blocks to the general
hash: whatever compression function is called, hashing a header through its
midstate is double SHA-256 of the header with the nonce put in place.

The compression function stays a parameter here, since the source picks one of
its two at run time; `SoloMiner.Sha256d.compressAarch64_eq` says that the choice
makes no difference.
-/

namespace SoloMiner

namespace Sha256d

/-! ### The blocks and the hasher -/

/-- The first block of a header: `header[..64]`. -/
def firstBlock (header : ByteArr 80) : ByteArr 64 := toArr (header.toList.take 64) (by simp)

/-- The second block of a header: its last 16 bytes, the marker, zeros, and the
length of 640 bits. -/
def tailBlock (header : ByteArr 80) : ByteArr 64 :=
  let tail := overwrite (zeroArr 64) 0 (header.toList.drop 64) (by simp)
  let tail := overwrite tail 16 [0x80] (by simp)
  overwrite tail 56 (Base256.toBE 8 (80 * 8)) (by simp)

/-- The one block of the second hash: the digest, the marker, zeros, and the
length of 256 bits. -/
def secondBlock (firstState : State) : ByteArr 64 :=
  let block := overwrite (zeroArr 64) 0 (digest firstState).toList (by simp)
  let block := overwrite block 32 [0x80] (by simp)
  overwrite block 56 (Base256.toBE 8 (32 * 8)) (by simp)

/-- A header with its first block already compressed. -/
structure HeaderHasher where
  /-- The state after the first 64 bytes. -/
  midstate : State
  /-- The second block, whose nonce bytes are still to be written. -/
  tail : ByteArr 64

section Hasher

variable (compress : State → ByteArr 64 → State)

/-- Precomputes the midstate and the second block of a header. -/
def HeaderHasher.new (header : ByteArr 80) : HeaderHasher where
  midstate := compress H0 (firstBlock header)
  tail := tailBlock header

/-- The second SHA-256, over the digest of the first. -/
def secondHash (firstState : State) : ByteArr 32 := digest (compress H0 (secondBlock firstState))

/-- Hashes the header with `nonce` in place of its own. -/
def HeaderHasher.hash (hasher : HeaderHasher) (nonce : UInt32) : ByteArr 32 :=
  let tail := overwrite hasher.tail 12 (Base256.toLE 4 nonce.toNat) (by simp)
  secondHash compress (compress hasher.midstate tail)

end Hasher

/-! ### The hand-built blocks are the padded message -/

/-- A digest and its padding are the one block of the second hash. -/
theorem pad_digest (firstState : State) :
    pad (digest firstState).toList = (secondBlock firstState).toList := by
  have hlen : (digest firstState).toList.length = 32 := (digest firstState).toList_length
  rw [pad_eq, hlen, secondBlock]
  simp [hlen, List.take_append, List.drop_append, List.take_of_length_le,
    List.drop_of_length_le, zerosNeeded]

/-- The header bytes that come before the nonce, with a nonce appended. -/
def withNonce (header : ByteArr 80) (nonce : UInt32) : Bytes :=
  header.toList.take 76 ++ Base256.toLE 4 nonce.toNat

@[simp] theorem length_withNonce (header : ByteArr 80) (nonce : UInt32) :
    (withNonce header nonce).length = 80 := by
  simp [withNonce]

/-- A header and its padding are the first block and the tail with the nonce
written into it. -/
theorem pad_withNonce (header : ByteArr 80) (nonce : UInt32) :
    pad (withNonce header nonce) = (firstBlock header).toList ++
      (overwrite (tailBlock header) 12 (Base256.toLE 4 nonce.toNat) (by simp)).toList := by
  have hfirst : (firstBlock header).toList = header.toList.take 64 := rfl
  have hlen : header.toList.length = 80 := header.toList_length
  have hsplit : header.toList.take 76 =
      header.toList.take 64 ++ (header.toList.drop 64).take 12 := by
    rw [← List.take_add]
  rw [pad_eq, length_withNonce, withNonce, hsplit, hfirst, tailBlock]
  simp [hlen, List.take_append, List.drop_append, List.take_of_length_le,
    List.drop_of_length_le, zerosNeeded]

theorem blocks_pad_digest (firstState : State) :
    blocks (pad (digest firstState).toList) = [secondBlock firstState] := by
  rw [blocks, pad_digest, chunksExact_block (by norm_num)]

theorem blocks_pad_withNonce (header : ByteArr 80) (nonce : UInt32) :
    blocks (pad (withNonce header nonce)) = [firstBlock header,
      overwrite (tailBlock header) 12 (Base256.toLE 4 nonce.toNat) (by simp)] := by
  rw [blocks, pad_withNonce, chunksExact_append (by norm_num), chunksExact_block (by norm_num)]

/-! ### The midstate path is the general hash -/

section Hash

variable (compress : State → ByteArr 64 → State)

/-- **The second hash needs no padding loop.** -/
theorem secondHash_eq (firstState : State) :
    secondHash compress firstState = sha256With compress (digest firstState).toList := by
  rw [sha256With, blocks_pad_digest]
  rfl

/-- Through its midstate, a header hashes to the double SHA-256 of its first 76
bytes and the nonce. -/
theorem hash_eq_sha256dWith (header : ByteArr 80) (nonce : UInt32) :
    (HeaderHasher.new compress header).hash compress nonce =
      sha256dWith compress (withNonce header nonce) := by
  have hfirst : sha256With compress (withNonce header nonce) =
      digest (compress (compress H0 (firstBlock header))
        (overwrite (tailBlock header) 12 (Base256.toLE 4 nonce.toNat) (by simp))) := by
    rw [sha256With, blocks_pad_withNonce]
    rfl
  rw [sha256dWith, hfirst, ← secondHash_eq]
  rfl

/-- **The midstate path is the general hash**: for every header, whatever nonce
it carries itself, and over any compression function. -/
theorem midstate_hash (header : ByteArr 80) (nonce : UInt32) :
    (HeaderHasher.new compress header).hash compress nonce =
      sha256dWith compress (header.toList.take 76 ++ Base256.toLE 4 nonce.toNat) :=
  hash_eq_sha256dWith compress header nonce

end Hash

/-! ### The choice of an implementation -/

/-- The `sha256d` of the crate where the target has no SHA instructions. The
rest of the development hashes with this one. -/
def sha256d (message : Bytes) : ByteArr 32 := Reference.sha256d message

/-- The `sha256d` of the crate on `aarch64`, given what `is_available` answers. -/
def sha256dAarch64 (available : Bool) (message : Bytes) : ByteArr 32 :=
  if available then Neon.sha256d message else Reference.sha256d message

/-- The `compress` of the midstate path on `aarch64`, given the same answer. -/
def compressAarch64 (available : Bool) : State → ByteArr 64 → State :=
  if available then Neon.compressBlock else Reference.compressBlock

/-- The compression picked at run time is the portable one. -/
theorem compressAarch64_eq (available : Bool) :
    compressAarch64 available = Reference.compressBlock := by
  cases available with
  | false => rfl
  | true => exact neon_compressBlock_eq

/-- The hash picked at run time is the portable one. -/
theorem sha256dAarch64_eq (available : Bool) : sha256dAarch64 available = sha256d := by
  cases available with
  | false => rfl
  | true =>
    funext message
    exact congrArg (sha256dWith · message) neon_compressBlock_eq

end Sha256d

end SoloMiner
