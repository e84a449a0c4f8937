import Mathlib.Data.Vector.Basic

/-!
# Arrays of a fixed size

An array `[T; n]` of the source is a list that carries its length in its type,
so that nothing which consumes it has to ask again. This file has the two
operations on such arrays that the rest leans on:

* `SoloMiner.toArr` turns a list of the right length into an array, as `try_into`
  does;
* `SoloMiner.overwrite` replaces a range of an array, as copying a slice into it
  does; the range has to lie inside, so the length is kept;
* `SoloMiner.chunksExact` cuts a list into consecutive arrays of exactly `n`
  elements and drops what is left over. A list that opens with a whole block
  gives that block first (`SoloMiner.chunksExact_append`), and with the empty
  list that is all there is to know about the cut.
-/

namespace SoloMiner

variable {α : Type*}

/-! ### From lists -/

/-- A list of known length as an array. -/
def toArr {n : ℕ} (xs : List α) (h : xs.length = n) : List.Vector α n := ⟨xs, h⟩

@[simp] theorem toList_toArr {n : ℕ} (xs : List α) (h : xs.length = n) :
    (toArr xs h).toList = xs := rfl

@[simp] theorem toArr_toList {n : ℕ} (v : List.Vector α n) (h : v.toList.length = n) :
    toArr v.toList h = v := rfl

/-- Arrays of one size with the same elements are equal. -/
theorem arr_ext {n : ℕ} {v w : List.Vector α n} (h : v.toList = w.toList) : v = w := Subtype.ext h

/-! ### Overwriting a range -/

/-- The array with the elements from `offset` on replaced by `xs`. -/
def overwrite {n : ℕ} (v : List.Vector α n) (offset : ℕ) (xs : List α)
    (h : offset + xs.length ≤ n) : List.Vector α n :=
  toArr (v.toList.take offset ++ (xs ++ v.toList.drop (offset + xs.length))) (by simp; omega)

@[simp] theorem toList_overwrite {n : ℕ} (v : List.Vector α n) (offset : ℕ) (xs : List α)
    (h : offset + xs.length ≤ n) :
    (overwrite v offset xs h).toList =
      v.toList.take offset ++ (xs ++ v.toList.drop (offset + xs.length)) := rfl

/-! ### Cutting into blocks -/

/-- The first `k` blocks of `n` elements of a list that has that many. -/
def takeChunks (n : ℕ) : (k : ℕ) → (l : List α) → k * n ≤ l.length → List (List.Vector α n)
  | 0, _, _ => []
  | k + 1, l, h =>
    toArr (l.take n) (by rw [Nat.succ_mul] at h; simp; omega) ::
      takeChunks n k (l.drop n) (by rw [Nat.succ_mul] at h; simp; omega)

/-- The blocks of exactly `n` elements of a list, in order, without the
remainder. -/
def chunksExact (n : ℕ) (l : List α) : List (List.Vector α n) :=
  takeChunks n (l.length / n) l (Nat.div_mul_le_self _ _)

theorem takeChunks_congr {n k k' : ℕ} {l l' : List α} (hk : k = k') (hl : l = l')
    (h : k * n ≤ l.length) :
    takeChunks n k l h = takeChunks n k' l' (by subst hk hl; exact h) := by
  subst hk hl
  rfl

@[simp] theorem length_takeChunks (n k : ℕ) (l : List α) (h : k * n ≤ l.length) :
    (takeChunks n k l h).length = k := by
  induction k generalizing l with
  | zero => rfl
  | succ k ih => rw [takeChunks, List.length_cons, ih]

@[simp] theorem length_chunksExact (n : ℕ) (l : List α) :
    (chunksExact n l).length = l.length / n := length_takeChunks n _ l _

@[simp] theorem chunksExact_nil (n : ℕ) : chunksExact n ([] : List α) = [] := by
  have hk : ([] : List α).length / n = 0 := Nat.zero_div n
  rw [chunksExact, takeChunks_congr hk rfl, takeChunks]

/-- **A whole block in front is the first block of the cut.** -/
theorem chunksExact_append {n : ℕ} (hn : 0 < n) (v : List.Vector α n) (l : List α) :
    chunksExact n (v.toList ++ l) = v :: chunksExact n l := by
  have hk : (v.toList ++ l).length / n = l.length / n + 1 := by
    rw [List.length_append, v.toList_length, Nat.add_comm, Nat.add_div_right _ hn]
  rw [chunksExact, takeChunks_congr hk rfl, takeChunks]
  refine congrArg₂ List.cons ?_ ?_
  · exact Subtype.ext (List.take_left' v.toList_length)
  · exact takeChunks_congr rfl (List.drop_left' v.toList_length) _

/-- A list of exactly one block is cut into that block. -/
theorem chunksExact_block {n : ℕ} (hn : 0 < n) (v : List.Vector α n) :
    chunksExact n v.toList = [v] := by
  have h := chunksExact_append hn v []
  rwa [List.append_nil, chunksExact_nil] at h

/-- A list of whole blocks starts with one. -/
theorem exists_block {n k : ℕ} {l : List α} (h : l.length = n * (k + 1)) :
    ∃ (v : List.Vector α n) (rest : List α), l = v.toList ++ rest ∧ rest.length = n * k := by
  have hlen : (l.take n).length = n := by
    rw [List.length_take, h, Nat.mul_succ]
    omega
  refine ⟨toArr (l.take n) hlen, l.drop n, (List.take_append_drop n l).symm, ?_⟩
  rw [List.length_drop, h, Nat.mul_succ]
  omega

/-- **A list of whole blocks in front** is cut by itself. -/
theorem chunksExact_append_of_dvd {n : ℕ} (hn : 0 < n) {l : List α} (h : n ∣ l.length)
    (rest : List α) : chunksExact n (l ++ rest) = chunksExact n l ++ chunksExact n rest := by
  obtain ⟨k, hk⟩ := h
  induction k generalizing l with
  | zero =>
    obtain rfl : l = [] := List.length_eq_zero_iff.mp hk
    rw [List.nil_append, chunksExact_nil, List.nil_append]
  | succ k ih =>
    obtain ⟨v, l, rfl, hl⟩ := exists_block hk
    rw [List.append_assoc, chunksExact_append hn, chunksExact_append hn, ih hl, List.cons_append]

/-- The blocks of a list of whole blocks are the list. -/
theorem flatten_chunksExact {n : ℕ} (hn : 0 < n) {l : List α} (h : n ∣ l.length) :
    ((chunksExact n l).map List.Vector.toList).flatten = l := by
  obtain ⟨k, hk⟩ := h
  induction k generalizing l with
  | zero =>
    obtain rfl : l = [] := List.length_eq_zero_iff.mp hk
    rw [chunksExact_nil]
    rfl
  | succ k ih =>
    obtain ⟨v, l, rfl, hl⟩ := exists_block hk
    rw [chunksExact_append hn, List.map_cons, List.flatten_cons, ih hl]

/-! ### Bytes -/

/-- A string of bytes: a `Vec<u8>` or a `&[u8]` of the source. -/
abbrev Bytes := List UInt8

/-- A byte array `[u8; n]`. -/
abbrev ByteArr (n : ℕ) := List.Vector UInt8 n

/-- The all-zero array `[0u8; n]`. -/
def zeroArr (n : ℕ) : ByteArr n := List.Vector.replicate n 0

@[simp] theorem toList_zeroArr (n : ℕ) : (zeroArr n).toList = List.replicate n 0 := rfl

end SoloMiner
