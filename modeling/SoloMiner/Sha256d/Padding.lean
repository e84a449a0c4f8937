import SoloMiner.Lib.Base256
import SoloMiner.Lib.FixedArray

/-!
# Message padding

SHA-256 consumes a message in blocks of 64 bytes, so `SoloMiner.Sha256d.pad`
extends it to a whole number of them: the byte `0x80`, zero bytes up to 56 bytes
into the last block, and the bit length on 8 bytes, highest first.

The zero fill is a loop of the source, kept as one here: it tests the length and
pushes one zero at a time. It is given the 63 rounds it can need, and
`SoloMiner.Sha256d.length_zeroFill_mod` says that it never runs out of them. The length
of the result has a closed form beside the loop, `SoloMiner.Sha256d.paddedLen`, and the
padding can be undone (`SoloMiner.Sha256d.pad_injective`).
-/

namespace SoloMiner

namespace Sha256d

/-- The fill loop of `pad`: push a zero byte until 56 bytes stand in the last
block. The first argument bounds the rounds. -/
def zeroFill : ℕ → Bytes → Bytes
  | 0, padded => padded
  | fuel + 1, padded => if padded.length % 64 ≠ 56 then zeroFill fuel (padded ++ [0]) else padded

/-- The message padded to whole blocks. The bit length is a `u64`; the source
computes it with `checked_mul(8)`, which no message below `2 ^ 61` bytes
overflows. -/
def pad (message : Bytes) : Bytes :=
  zeroFill 63 (message ++ [0x80]) ++ Base256.toBE 8 (message.length * 8)

/-- `usize::div_ceil`. -/
def divCeil (a b : ℕ) : ℕ := if a % b > 0 then a / b + 1 else a / b

/-- How long `pad` makes a message of `len` bytes. -/
def paddedLen (len : ℕ) : ℕ := divCeil (len + 9) 64 * 64

/-- The blocks the compression function is fed. -/
def blocks (padded : Bytes) : List (ByteArr 64) := chunksExact 64 padded

/-! ### What the fill loop leaves -/

/-- **One round of the fill loop**, taken while the last block is not at 56. -/
theorem zeroFill_succ {fuel : ℕ} {padded : Bytes} (h : padded.length % 64 ≠ 56) :
    zeroFill (fuel + 1) padded = zeroFill fuel (padded ++ [0]) := by
  rw [zeroFill, if_pos h]

theorem zeroFill_of_done {fuel : ℕ} {padded : Bytes} (h : padded.length % 64 = 56) :
    zeroFill fuel padded = padded := by
  cases fuel with
  | zero => rfl
  | succ fuel => rw [zeroFill, if_neg (not_not.mpr h)]

/-- How many zeros bring `len` bytes to 56 bytes into a block. -/
def zerosNeeded (len : ℕ) : ℕ := (64 + 56 - len % 64) % 64

theorem zerosNeeded_lt (len : ℕ) : zerosNeeded len < 64 := Nat.mod_lt _ (by norm_num)

/-- **The fill loop pushes exactly the zeros that are needed**, whatever rounds
it has left over. -/
theorem zeroFill_eq : ∀ (fuel : ℕ) (padded : Bytes), zerosNeeded padded.length ≤ fuel →
    zeroFill fuel padded = padded ++ List.replicate (zerosNeeded padded.length) 0 := by
  intro fuel
  induction fuel with
  | zero =>
    intro padded h
    have h0 : zerosNeeded padded.length = 0 := Nat.le_zero.mp h
    rw [h0, zeroFill]
    simp
  | succ fuel ih =>
    intro padded h
    by_cases hdone : padded.length % 64 = 56
    · have h0 : zerosNeeded padded.length = 0 := by rw [zerosNeeded, hdone]
      rw [zeroFill_of_done hdone, h0]
      simp
    · have hs : zerosNeeded padded.length = zerosNeeded (padded ++ [0]).length + 1 := by
        simp only [zerosNeeded, List.length_append, List.length_singleton]
        omega
      rw [zeroFill_succ hdone, ih _ (by omega), hs, List.replicate_succ]
      simp

/-- The loop of `pad` always reaches the place of the length field. -/
theorem length_zeroFill_mod (padded : Bytes) : (zeroFill 63 padded).length % 64 = 56 := by
  have hlt := zerosNeeded_lt padded.length
  rw [zeroFill_eq 63 padded (by omega), List.length_append, List.length_replicate, zerosNeeded]
  omega

/-- **The padded message, region by region.** -/
theorem pad_eq (message : Bytes) :
    pad message = message ++ 0x80 :: (List.replicate (zerosNeeded (message.length + 1)) 0 ++
      Base256.toBE 8 (message.length * 8)) := by
  have hlt := zerosNeeded_lt (message ++ [0x80]).length
  rw [pad, zeroFill_eq 63 _ (by omega)]
  simp

/-! ### The padding is well-formed -/

/-- More rounds than needed leave the fill loop where it stops. -/
theorem zeroFill_of_le {fuel : ℕ} (h : 63 ≤ fuel) (padded : Bytes) :
    zeroFill fuel padded = zeroFill 63 padded := by
  have hlt := zerosNeeded_lt padded.length
  rw [zeroFill_eq fuel padded (by omega), zeroFill_eq 63 padded (by omega)]

/-- No fewer zeros bring the message, the mark and the length to whole blocks. -/
theorem zerosNeeded_le {len z : ℕ} (h : (len + 1 + z + 8) % 64 = 0) :
    zerosNeeded (len + 1) ≤ z := by
  rw [zerosNeeded]
  omega

/-- The closed form is the length of the padded message. -/
theorem length_pad (message : Bytes) : (pad message).length = paddedLen message.length := by
  have hlength :
      (pad message).length = message.length + 1 + zerosNeeded (message.length + 1) + 8 := by
    rw [pad_eq]
    simp only [List.length_append, List.length_cons, List.length_replicate, Base256.length_toBE]
    omega
  rw [hlength, paddedLen, divCeil, zerosNeeded]
  split_ifs with hrest
  · omega
  · omega

/-- **Padding can be undone**: the last eight bytes tell where the message ends. -/
theorem pad_injective {m₁ m₂ : Bytes} (h₁ : m₁.length < 2 ^ 61) (h₂ : m₂.length < 2 ^ 61)
    (h : pad m₁ = pad m₂) : m₁ = m₂ := by
  have hfields : zeroFill 63 (m₁ ++ [0x80]) = zeroFill 63 (m₂ ++ [0x80]) ∧
      Base256.toBE 8 (m₁.length * 8) = Base256.toBE 8 (m₂.length * 8) :=
    List.append_inj' h (by rw [Base256.length_toBE, Base256.length_toBE])
  have hbits : m₁.length * 8 % 256 ^ 8 = m₂.length * 8 % 256 ^ 8 := Base256.toBE_inj.mp hfields.2
  rw [pad_eq, pad_eq] at h
  exact (List.append_inj h (by omega)).1

/-- What padding is meant to be. -/
structure WellPadded (message : Bytes) : Prop where
  /-- The fill loop stops, whatever rounds it is given beyond the ones it needs. -/
  terminates : ∀ fuel, 63 ≤ fuel →
    zeroFill fuel (message ++ [0x80]) = zeroFill 63 (message ++ [0x80]) ∧
      (zeroFill fuel (message ++ [0x80])).length % 64 = 56
  /-- The message, a mark, the least number of zeros for whole blocks, and the length in
  bits. -/
  layout : ∃ z, pad message = message ++ 0x80 :: (List.replicate z 0 ++
      Base256.toBE 8 (message.length * 8)) ∧
    IsLeast {z | (message.length + 1 + z + 8) % 64 = 0} z
  /-- The length has a closed form. -/
  length : (pad message).length = paddedLen message.length

/-- **The padding is well-formed and unambiguous.** -/
theorem pad_wellPadded (message : Bytes) (h : message.length < 2 ^ 61) :
    WellPadded message ∧
      ∀ other : Bytes, other.length < 2 ^ 61 → pad message = pad other → message = other := by
  refine ⟨⟨fun fuel hfuel => ?_, ?_, length_pad message⟩,
    fun other hother => pad_injective h hother⟩
  · rw [zeroFill_of_le hfuel]
    exact ⟨rfl, length_zeroFill_mod _⟩
  · refine ⟨_, pad_eq message, ?_, fun z hz => zerosNeeded_le hz⟩
    change (message.length + 1 + zerosNeeded (message.length + 1) + 8) % 64 = 0
    rw [zerosNeeded]
    omega

/-- A message of 56 bytes spills into a second block. -/
theorem pad_wellPadded_spill :
    WellPadded (List.replicate 56 0xAA) ∧ (pad (List.replicate 56 0xAA)).length = 128 := by
  have hspill := (pad_wellPadded (List.replicate 56 0xAA) (by simp)).1
  exact ⟨hspill, hspill.length⟩

end Sha256d

end SoloMiner
