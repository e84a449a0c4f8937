import Mathlib.Data.Vector.Basic
import SoloMiner.Primitives.Hash

/-!
# Targets

A target is a 256-bit number with its most significant byte first, and a header
carries it in a compact form of one exponent byte and three mantissa bytes. A hash
meets a target when, as a number, it is at most the target; the hash is stored the
other way round, so the two are walked from opposite ends.
-/

namespace SoloMiner

/-- A 256-bit difficulty target, most significant byte first. -/
structure Target where
  /-- The bytes of the number. -/
  bytes : ByteArr 32
  deriving DecidableEq

/-- Why a compact target does not denote one. -/
inductive TargetError where
  /-- The sign bit is set. -/
  | negative
  /-- The number does not fit 256 bits. -/
  | overflow
  deriving DecidableEq

namespace Target

/-- One pass of the loop over the mantissa bytes: byte `i` at its power of 256. -/
def placeByte (exponent : ℤ) (bytes : ByteArr 32) (i : ℕ) (byte : UInt8) :
    Except TargetError (ByteArr 32) :=
  let power := exponent - 1 - i
  if power > 31 then
    -- Above the top of the number: harmless if zero.
    if byte ≠ 0 then .error .overflow else .ok bytes
  else if 0 ≤ power then .ok (bytes.set ⟨31 - power.toNat, by omega⟩ byte)
  else .ok bytes

/-- Decodes a target from a header's compact `bits` field. -/
def fromCompact (bits : UInt32) : Except TargetError Target := do
  let exponent : ℤ := (bits >>> 24).toNat
  let mantissa := bits &&& 0x007FFFFF
  if bits &&& 0x00800000 ≠ 0 then .error .negative
  else do
    let bytes ← placeByte exponent (zeroArr 32) 0 (mantissa >>> 16).toUInt8
    let bytes ← placeByte exponent bytes 1 (mantissa >>> 8).toUInt8
    let bytes ← placeByte exponent bytes 2 mantissa.toUInt8
    pure ⟨bytes⟩

/-- Whether a hash satisfies this target: the first differing byte decides, and
equality counts as meeting it. -/
def isMetBy (self : Target) (hash : Sha256dHash) : Bool :=
  go hash.bytes.toList.reverse self.bytes.toList
where
  /-- The loop over the bytes, most significant first. -/
  go : Bytes → Bytes → Bool
    | hashByte :: hash, targetByte :: target =>
      if hashByte ≠ targetByte then decide (hashByte < targetByte) else go hash target
    | _, _ => true

/-- The derived order: lexicographic on the bytes. -/
def cmp (self other : Target) : Ordering := compare self.bytes.toList other.bytes.toList

/-- How many leading zero bits a hash needs before it can possibly meet this target: the
loop of the hash, over bytes that are highest first already. -/
def leadingZeroBits (self : Target) : ℕ := Sha256dHash.leadingZeroBits.go 0 self.bytes.toList

@[simp] theorem length_bytes (self : Target) : self.bytes.toList.length = 32 :=
  self.bytes.toList_length

end Target

end SoloMiner
