import Mathlib.Algebra.Order.Group.Nat
import Mathlib.Data.Nat.Basic
import Mathlib.Data.Nat.Size
import Mathlib.Tactic.Ring

/-!
# Fixed-width integers as bytes

A machine integer of `n` bytes is written as its `n` base-`256` digits, lowest
first (`SoloMiner.Base256.toLE`) or highest first (`SoloMiner.Base256.toBE`), and
read back by the positional value of the digits. A value is a natural number, and
writing one that does not fit keeps its low digits, as a truncating cast does; the
last section has the words of four and of eight bytes.

The two directions are inverse up to that truncation:

* reading what was written gives the value modulo `256 ^ n`
  (`SoloMiner.Base256.ofLE_toLE`);
* writing what was read gives the bytes back (`SoloMiner.Base256.toLE_ofLE`), so
  a width and a value determine the bytes.

Digits with the highest first are compared as the numbers they denote, by the first
that differs (`SoloMiner.Base256.compare_ofBE`), and the first that is not zero gives
the number's length in bits (`SoloMiner.Base256.size_ofBE_cons`).
-/

namespace SoloMiner

namespace Base256

/-! ### Lowest digit first -/

/-- The `n` lowest base-`256` digits of `v`, lowest first. -/
def toLE : ℕ → ℕ → List UInt8
  | 0, _ => []
  | n + 1, v => UInt8.ofNat (v % 256) :: toLE n (v / 256)

/-- The value of a list of base-`256` digits, lowest first. -/
def ofLE : List UInt8 → ℕ
  | [] => 0
  | b :: bs => b.toNat + 256 * ofLE bs

@[simp] theorem toLE_zero (v : ℕ) : toLE 0 v = [] := rfl

theorem toLE_succ (n v : ℕ) : toLE (n + 1) v = UInt8.ofNat (v % 256) :: toLE n (v / 256) := rfl

@[simp] theorem ofLE_nil : ofLE [] = 0 := rfl

@[simp] theorem ofLE_cons (b : UInt8) (bs : List UInt8) :
    ofLE (b :: bs) = b.toNat + 256 * ofLE bs := rfl

@[simp] theorem length_toLE (n v : ℕ) : (toLE n v).length = n := by
  induction n generalizing v with
  | zero => rfl
  | succ n ih => simp [toLE_succ, ih]

/-- The value of `n` digits is below `256 ^ n`. -/
theorem ofLE_lt (bs : List UInt8) : ofLE bs < 256 ^ bs.length := by
  induction bs with
  | nil => simp
  | cons b bs ih =>
    have hb : b.toNat < 256 := b.toNat_lt
    rw [ofLE_cons, List.length_cons, pow_succ]
    omega

/-- **Reading what was written** gives the value, cut down to the width. -/
theorem ofLE_toLE (n v : ℕ) : ofLE (toLE n v) = v % 256 ^ n := by
  induction n generalizing v with
  | zero => simp [Nat.mod_one]
  | succ n ih =>
    have hb : (UInt8.ofNat (v % 256)).toNat = v % 256 := by simp
    rw [toLE_succ, ofLE_cons, ih, hb, pow_succ', Nat.mod_mul]

theorem ofLE_toLE_of_lt {n v : ℕ} (h : v < 256 ^ n) : ofLE (toLE n v) = v := by
  rw [ofLE_toLE, Nat.mod_eq_of_lt h]

/-- **Writing what was read** gives the bytes back. -/
theorem toLE_ofLE (bs : List UInt8) : toLE bs.length (ofLE bs) = bs := by
  induction bs with
  | nil => rfl
  | cons b bs ih =>
    have hb : b.toNat < 256 := b.toNat_lt
    have hmod : (b.toNat + 256 * ofLE bs) % 256 = b.toNat := by omega
    have hdiv : (b.toNat + 256 * ofLE bs) / 256 = ofLE bs := by omega
    rw [List.length_cons, toLE_succ, ofLE_cons, hmod, hdiv, ih]
    simp

theorem toLE_ofLE_of_length {n : ℕ} {bs : List UInt8} (h : bs.length = n) :
    toLE n (ofLE bs) = bs := by
  subst h
  exact toLE_ofLE bs

/-- Only what fits is written. -/
theorem toLE_mod (n v : ℕ) : toLE n (v % 256 ^ n) = toLE n v := by
  rw [← ofLE_toLE, toLE_ofLE_of_length (length_toLE n v)]

@[simp] theorem toLE_zero_right (n : ℕ) : toLE n 0 = List.replicate n 0 := by
  induction n with
  | zero => rfl
  | succ n ih => rw [toLE_succ, Nat.zero_mod, Nat.zero_div, ih, List.replicate_succ]; rfl

/-- More digits come behind the lower ones. -/
theorem toLE_add (m n v : ℕ) : toLE (m + n) v = toLE m v ++ toLE n (v / 256 ^ m) := by
  induction m generalizing v with
  | zero => simp
  | succ m ih =>
    rw [Nat.succ_add, toLE_succ, ih, toLE_succ, List.cons_append, pow_succ',
      Nat.div_div_eq_div_mul]

/-- As many digits with the same value are the same. -/
theorem ofLE_inj {bs cs : List UInt8} (hlen : bs.length = cs.length) (h : ofLE bs = ofLE cs) :
    bs = cs := by
  rw [← toLE_ofLE bs, h, hlen, toLE_ofLE]

/-! ### Highest digit first -/

/-- The `n` lowest base-`256` digits of `v`, highest first. -/
def toBE (n v : ℕ) : List UInt8 := (toLE n v).reverse

/-- The value of a list of base-`256` digits, highest first. -/
def ofBE (bs : List UInt8) : ℕ := ofLE bs.reverse

@[simp] theorem length_toBE (n v : ℕ) : (toBE n v).length = n := by simp [toBE]

theorem ofBE_toBE_of_lt {n v : ℕ} (h : v < 256 ^ n) : ofBE (toBE n v) = v := by
  rw [ofBE, toBE, List.reverse_reverse, ofLE_toLE_of_lt h]

theorem ofBE_inj {bs cs : List UInt8} (hlen : bs.length = cs.length) (h : ofBE bs = ofBE cs) :
    bs = cs :=
  List.reverse_inj.mp (ofLE_inj (by simpa using hlen) h)

theorem toBE_mod (n v : ℕ) : toBE n (v % 256 ^ n) = toBE n v :=
  congrArg List.reverse (toLE_mod n v)

/-- More digits come before the lower ones. -/
theorem toBE_add (m n v : ℕ) : toBE (m + n) v = toBE n (v / 256 ^ m) ++ toBE m v := by
  rw [toBE, toLE_add, List.reverse_append]
  rfl

/-- Numbers are written alike precisely if what fits is the same. -/
theorem toBE_inj {n v w : ℕ} : toBE n v = toBE n w ↔ v % 256 ^ n = w % 256 ^ n := by
  refine ⟨fun h => ?_, fun h => ?_⟩
  · have hle : toLE n v = toLE n w := List.reverse_inj.mp h
    rw [← ofLE_toLE, ← ofLE_toLE, hle]
  · rw [← toBE_mod, h, toBE_mod]

@[simp] theorem ofBE_nil : ofBE [] = 0 := rfl

/-- The value of two lists of digits, the lower ones first. -/
theorem ofLE_append (bs cs : List UInt8) :
    ofLE (bs ++ cs) = ofLE bs + 256 ^ bs.length * ofLE cs := by
  induction bs with
  | nil => simp
  | cons b bs ih =>
    rw [List.cons_append, ofLE_cons, ih, ofLE_cons, List.length_cons, pow_succ]
    ring

/-- The last digit is the highest. -/
theorem ofLE_concat (bs : List UInt8) (b : UInt8) :
    ofLE (bs ++ [b]) = ofLE bs + 256 ^ bs.length * b.toNat := by
  rw [ofLE_append, ofLE_cons, ofLE_nil]
  rfl

/-- The highest digit stands at the power of the number of digits below it. -/
theorem ofBE_cons (b : UInt8) (bs : List UInt8) :
    ofBE (b :: bs) = 256 ^ bs.length * b.toNat + ofBE bs := by
  rw [ofBE, List.reverse_cons, ofLE_append, ofLE_cons, ofLE_nil, List.length_reverse, ofBE]
  ring

theorem ofBE_lt (bs : List UInt8) : ofBE bs < 256 ^ bs.length := by
  have hlt := ofLE_lt bs.reverse
  rwa [List.length_reverse] at hlt

@[simp] theorem ofBE_replicate_zero (n : ℕ) : ofBE (List.replicate n 0) = 0 := by
  induction n with
  | zero => rfl
  | succ n ih =>
    rw [List.replicate_succ, ofBE_cons, ih]
    simp

/-- **Replacing a digit** puts its value in the place of the old digit's. -/
theorem ofBE_set {bs : List UInt8} {i : ℕ} (hi : i < bs.length) (b : UInt8) :
    ofBE (bs.set i b) + 256 ^ (bs.length - 1 - i) * bs[i].toNat =
      ofBE bs + 256 ^ (bs.length - 1 - i) * b.toNat := by
  induction bs generalizing i with
  | nil => exact absurd hi (Nat.not_lt_zero i)
  | cons c cs ih =>
    cases i with
    | zero =>
      rw [List.set_cons_zero, ofBE_cons, ofBE_cons]
      simp only [List.length_cons, Nat.add_sub_cancel, Nat.sub_zero, List.getElem_cons_zero]
      ring
    | succ i =>
      have hpow : (c :: cs).length - 1 - (i + 1) = cs.length - 1 - i := by
        rw [List.length_cons]
        omega
      have hset := ih (Nat.lt_of_succ_lt_succ hi)
      rw [List.set_cons_succ, ofBE_cons, ofBE_cons, hpow, List.length_set, List.getElem_cons_succ]
      omega

/-- A number with a lower highest digit is lower, whatever the digits below. -/
theorem ofBE_cons_lt {x y : UInt8} {xs ys : List UInt8} (hlen : xs.length = ys.length)
    (h : x < y) : ofBE (x :: xs) < ofBE (y :: ys) := by
  have hxs : ofBE xs < 256 ^ ys.length := hlen ▸ ofBE_lt xs
  have hle : 256 ^ ys.length * (x.toNat + 1) ≤ 256 ^ ys.length * y.toNat :=
    Nat.mul_le_mul_left _ (UInt8.lt_iff_toNat_lt.mp h)
  rw [ofBE_cons, ofBE_cons, hlen]
  rw [Nat.mul_succ] at hle
  omega

/-- **The first difference decides**: as many digits, highest first, are compared as the
numbers they denote. -/
theorem compare_ofBE {xs ys : List UInt8} (hlen : xs.length = ys.length) :
    compare (ofBE xs) (ofBE ys) = compare xs ys := by
  induction xs generalizing ys with
  | nil =>
    obtain rfl : ys = [] := List.length_eq_zero_iff.mp hlen.symm
    rfl
  | cons x xs ih =>
    obtain ⟨y, ys, rfl⟩ := List.exists_cons_of_length_eq_add_one hlen.symm
    have hlen' : xs.length = ys.length := by simpa using hlen
    rw [List.compare_cons_cons, ← ih hlen']
    rcases Nat.lt_trichotomy x.toNat y.toNat with h | h | h
    · have h : x < y := UInt8.lt_iff_toNat_lt.mpr h
      rw [Std.compare_eq_lt.mpr h, Std.compare_eq_lt.mpr (ofBE_cons_lt hlen' h)]
      rfl
    · obtain rfl : x = y := UInt8.toNat_inj.mp h
      have hshift : ∀ a k l : ℕ, compare (a + k) (a + l) = compare k l := by
        simp [Nat.compare_eq_ite_lt]
      rw [Std.compare_self, ofBE_cons, ofBE_cons, hlen', hshift]
      rfl
    · have h : y < x := UInt8.lt_iff_toNat_lt.mpr h
      rw [Std.compare_eq_gt.mpr h, Std.compare_eq_gt.mpr (ofBE_cons_lt hlen'.symm h)]
      rfl

/-! ### The length in bits -/

/-- A number above its `k` lowest bits has these and its own. -/
theorem size_two_pow_mul_add {n k r : ℕ} (hn : n ≠ 0) (hr : r < 2 ^ k) :
    (2 ^ k * n + r).size = k + n.size := by
  refine le_antisymm (Nat.size_le.mpr ?_) ?_
  · have hle : 2 ^ k * (n + 1) ≤ 2 ^ k * 2 ^ n.size := Nat.mul_le_mul_left _ (Nat.lt_size_self n)
    rw [pow_add]
    rw [Nat.mul_succ] at hle
    omega
  · obtain ⟨j, hj⟩ := Nat.exists_eq_succ_of_ne_zero (mt Nat.size_eq_zero.mp hn)
    have hle : 2 ^ k * 2 ^ j ≤ 2 ^ k * n :=
      Nat.mul_le_mul_left _ (Nat.lt_size.mp (hj ▸ Nat.lt_succ_self j))
    rw [hj, Nat.add_succ]
    refine Nat.lt_size.mpr ?_
    rw [pow_add]
    omega

/-- The bits of a number are those of its highest digit and eight for each one below. -/
theorem size_ofBE_cons {b : UInt8} (hb : b ≠ 0) (bs : List UInt8) :
    (ofBE (b :: bs)).size = 8 * bs.length + b.toNat.size := by
  have hpow : 256 ^ bs.length = 2 ^ (8 * bs.length) := by rw [pow_mul]; norm_num
  have hb : b.toNat ≠ 0 := fun h => hb (UInt8.toNat_inj.mp h)
  rw [ofBE_cons, hpow, size_two_pow_mul_add hb (hpow ▸ ofBE_lt bs)]

theorem size_ofBE_le (bs : List UInt8) : (ofBE bs).size ≤ 8 * bs.length := by
  rw [Nat.size_le, pow_mul]
  exact ofBE_lt bs

/-! ### Words -/

/-- Writing a `u32` that was read gives the four bytes back. -/
theorem toLE_ofLE_u32 {bs : List UInt8} (h : bs.length = 4) :
    toLE 4 (UInt32.ofNat (ofLE bs)).toNat = bs := by
  have hlt : ofLE bs < UInt32.size := by
    have hlt := ofLE_lt bs
    rwa [h] at hlt
  rw [UInt32.toNat_ofNat_of_lt' hlt, toLE_ofLE_of_length h]

/-- Reading a `u32` that was written gives it back. -/
theorem ofLE_toLE_u32 (value : UInt32) : UInt32.ofNat (ofLE (toLE 4 value.toNat)) = value := by
  have hlt : value.toNat < 256 ^ 4 := value.toNat_lt
  rw [ofLE_toLE_of_lt hlt, UInt32.ofNat_toNat]

/-- Writing a `u64` that was read gives the eight bytes back. -/
theorem toLE_ofLE_u64 {bs : List UInt8} (h : bs.length = 8) :
    toLE 8 (UInt64.ofNat (ofLE bs)).toNat = bs := by
  have hlt : ofLE bs < UInt64.size := by
    have hlt := ofLE_lt bs
    rwa [h] at hlt
  rw [UInt64.toNat_ofNat_of_lt' hlt, toLE_ofLE_of_length h]

/-- Reading a `u64` that was written gives it back. -/
theorem ofLE_toLE_u64 (value : UInt64) : UInt64.ofNat (ofLE (toLE 8 value.toNat)) = value := by
  have hlt : value.toNat < 256 ^ 8 := value.toNat_lt
  rw [ofLE_toLE_of_lt hlt, UInt64.ofNat_toNat]

end Base256

end SoloMiner
