import Mathlib.Algebra.Order.Floor.Semifield
import Mathlib.Data.Nat.Bitwise
import Mathlib.Data.Rat.Floor
import SoloMiner.Primitives.Numeric

/-!
# Compact targets

Compact bits are a floating-point number: an exponent byte, a sign bit and a mantissa
of 23 bits, and they denote the mantissa times `256 ^ (exponent - 3)`. The decoder puts
the three bytes of the mantissa in their places one after the other, drops those below
the point, and refuses those above the top unless they are zero.

After each byte the bytes placed so far denote, rounded down, what the mantissa up to
that byte does (`SoloMiner.Target.Placed`), and so the decoder computes the number that
the bits denote whenever it fits (`SoloMiner.Target.fromCompact_denotes`).
-/

namespace SoloMiner

namespace Target

/-! ### Scaling by a power of 256 -/

/-- `m * 256 ^ power`, rounded down. -/
def scaled (m : ℕ) (power : ℤ) : ℕ := ⌊(m : ℚ) * 256 ^ power⌋₊

theorem scaled_natCast (m n : ℕ) : scaled m n = m * 256 ^ n := by
  rw [scaled, zpow_natCast]
  exact_mod_cast Nat.floor_natCast (R := ℚ) (m * 256 ^ n)

theorem scaled_neg_natCast (m n : ℕ) : scaled m (-n) = m / 256 ^ n := by
  rw [scaled, zpow_neg, zpow_natCast, ← div_eq_mul_inv]
  exact_mod_cast Nat.floor_div_eq_div (K := ℚ) m (256 ^ n)

@[simp] theorem scaled_zero (power : ℤ) : scaled 0 power = 0 := by simp [scaled]

/-- One more digit, at a power that is not below the point. -/
theorem scaled_digit {power : ℤ} (h : 0 ≤ power) (m b : ℕ) :
    scaled (256 * m + b) power = scaled m (power + 1) + 256 ^ power.toNat * b := by
  obtain ⟨n, rfl⟩ := Int.eq_ofNat_of_zero_le h
  have hsucc : ((n : ℤ) + 1) = ((n + 1 : ℕ) : ℤ) := by push_cast; rfl
  rw [hsucc, scaled_natCast, scaled_natCast, Int.toNat_natCast, pow_succ]
  ring

/-- One more digit below the point does not count. -/
theorem scaled_digit_of_neg {power : ℤ} (h : power < 0) (m : ℕ) {b : ℕ} (hb : b < 256) :
    scaled (256 * m + b) power = scaled m (power + 1) := by
  obtain ⟨n, rfl⟩ : ∃ n : ℕ, power = -((n + 1 : ℕ) : ℤ) := ⟨(-power).toNat - 1, by omega⟩
  have hsucc : -((n + 1 : ℕ) : ℤ) + 1 = -(n : ℤ) := by push_cast; ring
  have hdigit : (256 * m + b) / 256 = m := by omega
  rw [hsucc, scaled_neg_natCast, scaled_neg_natCast, pow_succ', ← Nat.div_div_eq_div_mul, hdigit]

/-- One more digit never makes less. -/
theorem scaled_le_digit {power power' : ℤ} (h : power' = power + 1) (m : ℕ) {b : ℕ}
    (hb : b < 256) : scaled m power' ≤ scaled (256 * m + b) power := by
  subst h
  rcases lt_or_ge power 0 with hneg | hpos
  · exact (scaled_digit_of_neg hneg m hb).ge
  · rw [scaled_digit hpos]
    exact Nat.le_add_right _ _

/-! ### The bytes of the mantissa -/

/-- The state of the decoder when the next byte belongs at `power - 1`: the digits placed
so far denote the mantissa so far, and those that follow are zero. -/
structure Placed (bytes : ByteArr 32) (m : ℕ) (power : ℤ) : Prop where
  value : Base256.ofBE bytes.toList = scaled m power
  rest : ∀ i : Fin 32, 32 - power ≤ i → bytes.get i = 0

theorem placed_zero (power : ℤ) : Placed (zeroArr 32) 0 power where
  value := by rw [toList_zeroArr, Base256.ofBE_replicate_zero, scaled_zero]
  rest _ _ := List.Vector.get_replicate _ _

/-- **One byte of the mantissa**: it is placed, or it does not fit. -/
theorem placeByte_spec {exponent : ℤ} {bytes : ByteArr 32} {m i : ℕ}
    (h : Placed bytes m (exponent - i)) (byte : UInt8) :
    (placeByte exponent bytes i byte = .error .overflow ∧
      2 ^ 256 ≤ scaled (256 * m + byte.toNat) (exponent - (i + 1 : ℕ))) ∨
    ∃ bytes', placeByte exponent bytes i byte = .ok bytes' ∧
      Placed bytes' (256 * m + byte.toNat) (exponent - (i + 1 : ℕ)) := by
  have hprev : exponent - i = exponent - 1 - i + 1 := by omega
  have hnext : exponent - (i + 1 : ℕ) = exponent - 1 - i := by omega
  rw [hprev] at h
  rw [hnext, placeByte]
  split_ifs with htop hbyte hpos
  · -- Above the top, and not zero.
    refine Or.inl ⟨rfl, ?_⟩
    have hne : 1 ≤ byte.toNat := Nat.one_le_iff_ne_zero.mpr fun hzero =>
      hbyte (UInt8.toNat_inj.mp hzero)
    have hle : 256 ^ 32 * 1 ≤ 256 ^ (exponent - 1 - i).toNat * byte.toNat :=
      Nat.mul_le_mul (Nat.pow_le_pow_right (by norm_num) (by omega)) hne
    rw [scaled_digit (by omega)]
    exact le_add_left hle
  · obtain rfl : byte = 0 := not_not.mp hbyte
    refine Or.inr ⟨bytes, rfl, ?_, fun j hj => h.rest j (by omega)⟩
    rw [h.value, scaled_digit (by omega)]
    simp
  · refine Or.inr ⟨_, rfl, ?_, fun j hj => ?_⟩
    · have hlt : 31 - (exponent - 1 - i).toNat < bytes.toList.length := by
        rw [bytes.toList_length]
        omega
      -- The digit that is replaced is zero still.
      have hold : bytes.toList[31 - (exponent - 1 - i).toNat] = 0 :=
        h.rest ⟨_, by omega⟩ (by dsimp only; omega)
      have hset := Base256.ofBE_set hlt byte
      have hexp : bytes.toList.length - 1 - (31 - (exponent - 1 - i).toNat) =
          (exponent - 1 - i).toNat := by
        rw [bytes.toList_length]
        omega
      rw [hexp, h.value, ← scaled_digit hpos, hold] at hset
      rw [List.Vector.toList_set]
      exact hset
    · rw [List.Vector.get_set_of_ne]
      · exact h.rest j (by omega)
      · rintro rfl
        dsimp only at hj
        omega
  · refine Or.inr ⟨bytes, rfl, ?_, fun j hj => ?_⟩
    · rw [h.value, scaled_digit_of_neg (by omega) m byte.toNat_lt]
    · exact absurd j.isLt (by omega)

/-! ### What the decoder computes -/

/-- Bit 23 of a word is the one that the decoder looks at. -/
theorem sign_iff {bits : UInt32} : bits &&& 0x00800000 ≠ 0 ↔ bits.toNat.testBit 23 = true := by
  have hzero : (bits &&& 0x00800000 = 0) ↔ bits.toNat &&& 2 ^ 23 = 0 := by
    rw [← UInt32.toNat_inj, UInt32.toNat_and]
    rfl
  rw [ne_eq, hzero, Nat.and_two_pow]
  cases bits.toNat.testBit 23 <;> simp

/-- The mantissa is its three bytes. -/
theorem mantissa_eq (bits : UInt32) :
    256 * (256 * (256 * 0 + ((bits &&& 0x007FFFFF) >>> 16).toUInt8.toNat) +
      ((bits &&& 0x007FFFFF) >>> 8).toUInt8.toNat) + (bits &&& 0x007FFFFF).toUInt8.toNat =
        bits.toNat % 2 ^ 23 := by
  have hmantissa : (bits &&& 0x007FFFFF).toNat = bits.toNat % 2 ^ 23 := by
    rw [UInt32.toNat_and]
    exact Nat.and_two_pow_sub_one_eq_mod bits.toNat 23
  simp only [UInt32.toNat_toUInt8, UInt32.toNat_shiftRight, hmantissa, Nat.shiftRight_eq_div_pow]
  change 256 * (256 * (256 * 0 + bits.toNat % 2 ^ 23 / 2 ^ 16 % 2 ^ 8) +
    bits.toNat % 2 ^ 23 / 2 ^ 8 % 2 ^ 8) + bits.toNat % 2 ^ 23 % 2 ^ 8 = _
  omega

/-- The number that compact bits denote, sign apart: for the exponent `e` in the high byte
and the mantissa `m` in the low 23 bits, `m * 256 ^ (e - 3)`, rounded down. -/
def denoted (bits : UInt32) : ℕ :=
  scaled (bits.toNat % 2 ^ 23) ((bits >>> 24).toNat - 3)

theorem fromCompact_cases (bits : UInt32) :
    (bits.toNat.testBit 23 = true ∧ fromCompact bits = .error .negative) ∨
    bits.toNat.testBit 23 = false ∧
      ((2 ^ 256 ≤ denoted bits ∧ fromCompact bits = .error .overflow) ∨
        ∃ t : Target, t.value = denoted bits ∧ fromCompact bits = .ok t) := by
  rw [fromCompact]
  by_cases hsign : bits &&& 0x00800000 ≠ 0
  · exact Or.inl ⟨sign_iff.mp hsign, if_pos hsign⟩
  refine Or.inr ⟨(Bool.not_eq_true _).mp (mt sign_iff.mpr hsign), ?_⟩
  rw [if_neg hsign, denoted, ← mantissa_eq]
  have hmore : ∀ {m i : ℕ} {exponent : ℤ} (byte : UInt8), 2 ^ 256 ≤ scaled m (exponent - i) →
      2 ^ 256 ≤ scaled (256 * m + byte.toNat) (exponent - (i + 1 : ℕ)) := fun byte h =>
    h.trans (scaled_le_digit (by omega) _ byte.toNat_lt)
  -- Each byte is placed, or it is too high, and then so is the number.
  rcases placeByte_spec (i := 0) (placed_zero _) ((bits &&& 0x007FFFFF) >>> 16).toUInt8 with
    ⟨hplace, hbig⟩ | ⟨bytes₁, hplace, hplaced⟩
  · exact Or.inl ⟨hmore _ (hmore _ hbig), by rw [hplace]; rfl⟩
  rw [hplace]
  rcases placeByte_spec (i := 1) hplaced ((bits &&& 0x007FFFFF) >>> 8).toUInt8 with
    ⟨hplace, hbig⟩ | ⟨bytes₂, hplace, hplaced⟩
  · exact Or.inl ⟨hmore _ hbig, by simp only [bind, Except.bind, hplace]⟩
  rcases placeByte_spec (i := 2) hplaced (bits &&& 0x007FFFFF).toUInt8 with
    ⟨hplace', hbig⟩ | ⟨bytes₃, hplace', hplaced⟩
  · exact Or.inl ⟨hbig, by simp only [bind, Except.bind, hplace, hplace']⟩
  · refine Or.inr ⟨⟨bytes₃⟩, hplaced.value, ?_⟩
    simp only [bind, Except.bind, hplace, hplace', pure, Except.pure]

/-- **Compact targets decode to the number they denote**: decoding refuses the sign bit,
and otherwise what does not fit 256 bits, and else gives the number rounded down. -/
theorem fromCompact_denotes (bits : UInt32) :
    (fromCompact bits = .error .negative ↔ bits.toNat.testBit 23 = true) ∧
      (fromCompact bits = .error .overflow ↔
        bits.toNat.testBit 23 = false ∧ 2 ^ 256 ≤ denoted bits) ∧
      ∀ t, fromCompact bits = .ok t ↔ bits.toNat.testBit 23 = false ∧
        denoted bits < 2 ^ 256 ∧ Base256.ofBE t.bytes.toList = denoted bits := by
  rcases fromCompact_cases bits with
    ⟨hsign, hres⟩ | ⟨hsign, ⟨hbig, hres⟩ | ⟨t, ht, hres⟩⟩
  · simp [hres, hsign]
  · refine ⟨by simp [hres, hsign], iff_of_true hres ⟨hsign, hbig⟩, fun t => ?_⟩
    refine iff_of_false (by simp [hres]) ?_
    rintro ⟨-, hlt, -⟩
    exact absurd hbig (not_le.mpr hlt)
  · have hlt : denoted bits < 2 ^ 256 := ht ▸ t.value_lt
    have hover : ¬ (bits.toNat.testBit 23 = false ∧ 2 ^ 256 ≤ denoted bits) := fun h =>
      absurd h.2 (not_le.mpr hlt)
    refine ⟨by simp [hres, hsign], iff_of_false (by simp [hres]) hover, fun t' => ?_⟩
    rw [hres, Except.ok.injEq]
    refine ⟨?_, fun h => value_injective (ht.trans h.2.2.symm)⟩
    rintro rfl
    exact ⟨hsign, hlt, ht⟩

end Target

end SoloMiner
