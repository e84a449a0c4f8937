import SoloMiner.Lib.Base256
import SoloMiner.Primitives.Target

/-!
# Hashes and targets as numbers

A hash is a 256-bit number with its lowest byte first, a target one with its highest
byte first. The program never computes either: it compares bytes from the highest down
and stops at the first difference, and it counts leading zero bits byte by byte. This
file says that these loops do what they should on the numbers.

* The comparisons are those of the numbers (`SoloMiner.comparisons_numeric`).
* The leading zero bits are what the number's length leaves of 256
  (`SoloMiner.Sha256dHash.leadingZeroBits_eq`), so that the count which a target reports
  is a threshold (`SoloMiner.zero_bits_honest`).
-/

namespace SoloMiner

/-- The hash as a number: its internal bytes, lowest first. -/
def Sha256dHash.value (self : Sha256dHash) : ℕ := Base256.ofLE self.bytes.toList

/-- The target as a number: its bytes, highest first. -/
def Target.value (self : Target) : ℕ := Base256.ofBE self.bytes.toList

namespace Sha256dHash

theorem value_eq_ofBE (h : Sha256dHash) : h.value = Base256.ofBE h.bytes.toList.reverse := by
  rw [Base256.ofBE, List.reverse_reverse, value]

theorem value_lt (h : Sha256dHash) : h.value < 2 ^ 256 := by
  have hlt := Base256.ofLE_lt h.bytes.toList
  rw [length_bytes] at hlt
  exact lt_of_lt_of_eq hlt (by norm_num)

/-- A hash is its number. -/
theorem value_injective : Function.Injective value := by
  intro h h' heq
  have hbytes : h.bytes.toList = h'.bytes.toList := Base256.ofLE_inj (by simp) heq
  obtain ⟨bytes⟩ := h
  obtain ⟨bytes'⟩ := h'
  exact congrArg mk (arr_ext hbytes)

/-! ### Comparisons -/

/-- The loop of the comparison is the lexicographic order. -/
theorem numericCmp_go {xs ys : Bytes} (hlen : xs.length = ys.length) :
    numericCmp.go xs ys = compare xs ys := by
  induction xs generalizing ys with
  | nil =>
    obtain rfl : ys = [] := List.length_eq_zero_iff.mp hlen.symm
    rfl
  | cons x xs ih =>
    obtain ⟨y, ys, rfl⟩ := List.exists_cons_of_length_eq_add_one hlen.symm
    rw [numericCmp.go, List.compare_cons_cons, ih (by simpa using hlen)]
    cases compare x y <;> rfl

/-- **Hashes are compared as numbers.** -/
theorem numericCmp_eq (h h' : Sha256dHash) : h.numericCmp h' = compare h.value h'.value := by
  rw [numericCmp, numericCmp_go (by simp), ← Base256.compare_ofBE (by simp), value_eq_ofBE,
    value_eq_ofBE]

theorem isBelow_iff {h h' : Sha256dHash} : h.isBelow h' = true ↔ h.value < h'.value := by
  rw [isBelow, numericCmp_eq, beq_iff_eq, Nat.compare_eq_lt]

/-! ### Leading zero bits -/

/-- The leading zeros of a byte are what its length leaves of eight. -/
theorem leadingZeros_eq (byte : UInt8) : leadingZeros byte = 8 - byte.toNat.size := by
  rw [leadingZeros]
  split_ifs with hzero
  · subst hzero
    rfl
  · have hne : byte.toNat ≠ 0 := fun h => hzero (UInt8.toNat_inj.mp h)
    have hsize : byte.toNat.size = byte.toNat.log2 + 1 :=
      le_antisymm (Nat.size_le.mpr Nat.lt_log2_self) (Nat.lt_size.mpr (Nat.log2_self_le hne))
    omega

/-- The loop counts what the number's length leaves of the bits of all bytes. -/
theorem leadingZeroBits_go (count : ℕ) (bytes : Bytes) :
    leadingZeroBits.go count bytes = count + (8 * bytes.length - (Base256.ofBE bytes).size) := by
  induction bytes generalizing count with
  | nil => rfl
  | cons byte rest ih =>
    rw [leadingZeroBits.go, leadingZeros_eq, List.length_cons]
    split_ifs with hbyte
    · have hbits : byte.toNat.size ≤ 8 := Nat.size_le.mpr byte.toNat_lt
      rw [Base256.size_ofBE_cons hbyte]
      omega
    · obtain rfl : byte = 0 := not_not.mp hbyte
      have hrest := Base256.size_ofBE_le rest
      have hcons : Base256.ofBE (0 :: rest) = Base256.ofBE rest := by
        rw [Base256.ofBE_cons]
        simp
      rw [ih, hcons]
      simp only [UInt8.toNat_zero, Nat.size_zero]
      omega

/-- **The leading zero bits of a hash** are what its number's length leaves of 256. -/
theorem leadingZeroBits_eq (h : Sha256dHash) : h.leadingZeroBits = 256 - h.value.size := by
  rw [leadingZeroBits, leadingZeroBits_go, value_eq_ofBE]
  simp

end Sha256dHash

namespace Target

theorem value_lt (t : Target) : t.value < 2 ^ 256 := by
  have hlt := Base256.ofBE_lt t.bytes.toList
  rw [length_bytes] at hlt
  exact lt_of_lt_of_eq hlt (by norm_num)

/-- A target is its number. -/
theorem value_injective : Function.Injective value := by
  intro t t' heq
  have hbytes : t.bytes.toList = t'.bytes.toList := Base256.ofBE_inj (by simp) heq
  obtain ⟨bytes⟩ := t
  obtain ⟨bytes'⟩ := t'
  exact congrArg mk (arr_ext hbytes)

/-- **Targets are compared as numbers.** -/
theorem cmp_eq (t t' : Target) : t.cmp t' = compare t.value t'.value :=
  (Base256.compare_ofBE (by simp)).symm

/-- The loop of the test says whether the first is not greater. -/
theorem isMetBy_go {xs ys : Bytes} (hlen : xs.length = ys.length) :
    isMetBy.go xs ys = (compare xs ys).isLE := by
  induction xs generalizing ys with
  | nil =>
    obtain rfl : ys = [] := List.length_eq_zero_iff.mp hlen.symm
    rfl
  | cons x xs ih =>
    obtain ⟨y, ys, rfl⟩ := List.exists_cons_of_length_eq_add_one hlen.symm
    rw [isMetBy.go, List.compare_cons_cons]
    split_ifs with hne
    · rcases hcmp : compare x y with _ | _ | _
      · simpa using Std.compare_eq_lt.mp hcmp
      · exact absurd (Std.compare_eq_iff_eq.mp hcmp) hne
      · have hlt : y < x := Std.compare_eq_gt.mp hcmp
        have hnot : ¬ x < y := fun h => absurd (UInt8.lt_trans h hlt) (UInt8.lt_irrefl x)
        simpa using hnot
    · obtain rfl : x = y := not_not.mp hne
      rw [Std.compare_self]
      exact ih (by simpa using hlen)

/-- **A hash meets a target** precisely if its number is at most the target's. -/
theorem isMetBy_iff {t : Target} {h : Sha256dHash} : t.isMetBy h = true ↔ h.value ≤ t.value := by
  rw [isMetBy, isMetBy_go (by simp), ← Base256.compare_ofBE (by simp), ← h.value_eq_ofBE,
    Nat.isLE_compare]
  rfl

theorem leadingZeroBits_eq (t : Target) : t.leadingZeroBits = 256 - t.value.size := by
  rw [leadingZeroBits, Sha256dHash.leadingZeroBits_go, value]
  simp

end Target

/-! ### What the program relies on -/

/-- **Comparisons are numeric despite opposite byte orders**: whether a hash meets a
target, which of two hashes is lower, and which of two targets. -/
theorem comparisons_numeric :
    (∀ (t : Target) (h : Sha256dHash), t.isMetBy h = true ↔
      Base256.ofLE h.bytes.toList ≤ Base256.ofBE t.bytes.toList) ∧
    (∀ h h' : Sha256dHash, h.numericCmp h' =
      compare (Base256.ofLE h.bytes.toList) (Base256.ofLE h'.bytes.toList)) ∧
    (∀ t t' : Target, t.cmp t' =
      compare (Base256.ofBE t.bytes.toList) (Base256.ofBE t'.bytes.toList)) :=
  ⟨fun _ _ => Target.isMetBy_iff, Sha256dHash.numericCmp_eq, Target.cmp_eq⟩

/-- **The reported threshold is honest**: a hash that meets a target has at least as many
leading zero bits as the target, and one that has more of them meets it. -/
theorem zero_bits_honest (h : Sha256dHash) (t : Target) :
    (t.isMetBy h = true → t.leadingZeroBits ≤ h.leadingZeroBits) ∧
      (t.leadingZeroBits < h.leadingZeroBits → t.isMetBy h = true) := by
  rw [Target.isMetBy_iff, Target.leadingZeroBits_eq, Sha256dHash.leadingZeroBits_eq]
  constructor
  · intro hle
    have hsize := Nat.size_le_size hle
    omega
  · intro hbits
    by_contra hlt
    have hsize := Nat.size_le_size (le_of_lt (not_le.mp hlt))
    omega

end SoloMiner
