import SoloMiner.Primitives.Hex
import SoloMiner.Sha256d.Midstate

/-!
# Hashes

A `SoloMiner.Sha256dHash` is 32 bytes in the order SHA-256 produces them. Printing and
parsing reverse them; computing with them does not. As a number a hash is read lowest
byte first, so comparisons start from the last byte.
-/

namespace SoloMiner

/-- A double-SHA-256 hash, in internal byte order. -/
structure Sha256dHash where
  /-- The bytes, as they are serialised. -/
  bytes : ByteArr 32
  deriving DecidableEq

/-- Why a hash string could not be parsed. -/
inductive ParseHashError where
  /-- A hash is exactly 64 hex characters; this had a different length. -/
  | wrongLength (length : ℕ)
  /-- The string contained a character that is not a hex digit. -/
  | notHex
  deriving DecidableEq

namespace Sha256dHash

/-- The all-zero hash. -/
def ZERO : Sha256dHash := ⟨zeroArr 32⟩

/-- Computes `sha256d(data)`. -/
def hash (data : Bytes) : Sha256dHash := ⟨Sha256d.sha256d data⟩

/-- Wraps bytes that are in display order, reversing them. -/
def fromDisplayBytes (bytes : ByteArr 32) : Sha256dHash :=
  ⟨toArr bytes.toList.reverse (by simp)⟩

/-- Compares two hashes as 256-bit numbers, from the most significant byte down. -/
def numericCmp (self other : Sha256dHash) : Ordering :=
  go self.bytes.toList.reverse other.bytes.toList.reverse
where
  /-- The loop over the bytes, highest first. -/
  go : Bytes → Bytes → Ordering
    | x :: xs, y :: ys =>
      match compare x y with
      | .eq => go xs ys
      | ordering => ordering
    | _, _ => .eq

/-- Whether this hash is numerically smaller than `other`. -/
def isBelow (self other : Sha256dHash) : Bool := self.numericCmp other == .lt

/-- `u8::leading_zeros`. -/
def leadingZeros (byte : UInt8) : ℕ := if byte = 0 then 8 else 7 - byte.toNat.log2

/-- Counts leading zero bits as a reader of the displayed hash would: whole bytes as
long as they are zero, then the top of the next one. -/
def leadingZeroBits (self : Sha256dHash) : ℕ := go 0 self.bytes.toList.reverse
where
  /-- The loop over the bytes, highest first, with the count so far. -/
  go (count : ℕ) : Bytes → ℕ
    | [] => count
    | byte :: rest =>
      if byte ≠ 0 then count + leadingZeros byte else go (count + leadingZeros byte) rest

/-- The byte that the two bytes of a string at an offset spell. -/
def parsePair (s : Str) (i : ℕ) : Checked ParseHashError UInt8 :=
  match Hex.sliceBytes s i (i + 2) with
  | none => .panic
  | some pair => Checked.okOr .notHex ((Hex.fromStrRadix16 8 pair).map UInt8.ofNat)

/-- The loop that fills the display bytes, from byte `i` on. -/
def parseBytes (s : Str) : (n i : ℕ) → Checked ParseHashError (ByteArr n)
  | 0, _ => .ok List.Vector.nil
  | n + 1, i => do
    let byte ← parsePair s (i * 2)
    let bytes ← parseBytes s n (i + 1)
    pure (List.Vector.cons byte bytes)

/-- Parses the display form: 64 hex characters, reversed. -/
def fromStr (s : Str) : Checked ParseHashError Sha256dHash :=
  if Hex.utf8Len s ≠ 64 then .err (.wrongLength (Hex.utf8Len s))
  else do
    let bytes ← parseBytes s 32 0
    pure (fromDisplayBytes bytes)

/-- `to_string`: the display form, reversed lowercase hex. -/
def display (self : Sha256dHash) : Str :=
  self.bytes.toList.reverse.flatMap fun byte => Hex.fixedHex 2 byte.toNat

@[simp] theorem length_bytes (self : Sha256dHash) : self.bytes.toList.length = 32 :=
  self.bytes.toList_length

end Sha256dHash

end SoloMiner
