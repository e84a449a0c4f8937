import SoloMiner.Lib.Base256
import SoloMiner.Lib.FixedArray

/-!
# CompactSize integers

Counts and lengths are written in one, three, five or nine bytes: a small value as
itself, a larger one after a byte that announces the width. The decoder refuses a
value written wider than it needs, so a string starts with at most one CompactSize,
and that is the encoding of its value: `SoloMiner.Varint.decode_eq_ok_iff` says both
directions at once.
-/

namespace SoloMiner

namespace Varint

/-- Why a CompactSize could not be decoded. -/
inductive VarIntError where
  /-- The input ended before the encoding was complete. -/
  | unexpectedEnd
  /-- The value was encoded in more bytes than necessary. -/
  | nonCanonical
  deriving DecidableEq

/-- A value in CompactSize form. -/
def encode (value : UInt64) : Bytes :=
  if value.toNat ≤ 0xFC then [UInt8.ofNat value.toNat]
  else if value.toNat ≤ 0xFFFF then 0xFD :: Base256.toLE 2 value.toNat
  else if value.toNat ≤ 0xFFFFFFFF then 0xFE :: Base256.toLE 4 value.toNat
  else 0xFF :: Base256.toLE 8 value.toNat

/-- How many bytes `encode` writes. -/
def encodedLen (value : UInt64) : ℕ :=
  if value.toNat ≤ 0xFC then 1
  else if value.toNat ≤ 0xFFFF then 3
  else if value.toNat ≤ 0xFFFFFFFF then 5
  else 9

/-- The little-endian integer of `n` bytes at offset 1. -/
def readLe (n : ℕ) (bytes : Bytes) : Except VarIntError ℕ :=
  if 1 + n ≤ bytes.length then .ok (Base256.ofLE ((bytes.drop 1).take n))
  else .error .unexpectedEnd

/-- The three wide forms: `n` bytes after the announcing one, refused when the value
does not exceed what the next narrower form holds. -/
def decodeWide (n bound : ℕ) (bytes : Bytes) : Except VarIntError (UInt64 × ℕ) := do
  let value ← readLe n bytes
  if value ≤ bound then throw .nonCanonical
  pure (UInt64.ofNat value, 1 + n)

/-- Reads a CompactSize from the front: its value, and how many bytes it took. -/
def decode (bytes : Bytes) : Except VarIntError (UInt64 × ℕ) :=
  match bytes with
  | [] => .error .unexpectedEnd
  | first :: _ =>
    if first ≤ 0xFC then .ok (UInt64.ofNat first.toNat, 1)
    else if first = 0xFD then decodeWide 2 0xFC bytes
    else if first = 0xFE then decodeWide 4 0xFFFF bytes
    else decodeWide 8 0xFFFFFFFF bytes

/-! ### The forms of an encoding -/

theorem length_encode (value : UInt64) : (encode value).length = encodedLen value := by
  simp only [encode, encodedLen]
  split_ifs <;> simp

theorem encode_ne_nil (value : UInt64) : encode value ≠ [] := by
  simp only [encode]
  split_ifs <;> simp

/-- **A wide form is read** precisely where it is written: the value is one that the
width holds and no narrower form does, and its digits follow the first byte. -/
theorem decodeWide_eq_ok_iff {n bound : ℕ} (hn : 256 ^ n ≤ 2 ^ 64) (first : UInt8) (rest : Bytes)
    (value : UInt64) (len : ℕ) :
    decodeWide n bound (first :: rest) = .ok (value, len) ↔
      bound < value.toNat ∧ value.toNat < 256 ^ n ∧ Base256.toLE n value.toNat <+: rest ∧
        len = 1 + n := by
  have htaken (hpre : Base256.toLE n value.toNat <+: rest) :
      rest.take n = Base256.toLE n value.toNat := by
    rw [List.prefix_iff_eq_take.mp hpre, Base256.length_toLE]
  by_cases hlen : n ≤ rest.length
  · have hread : readLe n (first :: rest) = .ok (Base256.ofLE (rest.take n)) := by
      rw [readLe, if_pos (by simp; omega)]
      rfl
    have htake : (rest.take n).length = n := by simp [hlen]
    have hlt : Base256.ofLE (rest.take n) < 256 ^ n := by
      have h := Base256.ofLE_lt (rest.take n)
      rwa [htake] at h
    have hval : (UInt64.ofNat (Base256.ofLE (rest.take n))).toNat = Base256.ofLE (rest.take n) :=
      UInt64.toNat_ofNat_of_lt' (lt_of_lt_of_le hlt hn)
    by_cases hbound : Base256.ofLE (rest.take n) ≤ bound
    · refine iff_of_false ?_ ?_
      · simp [decodeWide, hread, bind, Except.bind, hbound, throw, throwThe, MonadExceptOf.throw]
      · rintro ⟨hgt, hfit, hpre, -⟩
        rw [htaken hpre, Base256.ofLE_toLE_of_lt hfit] at hbound
        omega
    · have hok : decodeWide n bound (first :: rest) =
          .ok (UInt64.ofNat (Base256.ofLE (rest.take n)), 1 + n) := by
        simp [decodeWide, hread, bind, Except.bind, hbound, pure, Except.pure]
      rw [hok, Except.ok.injEq, Prod.mk.injEq]
      constructor
      · rintro ⟨rfl, rfl⟩
        rw [hval]
        refine ⟨by omega, hlt, ?_, rfl⟩
        rw [Base256.toLE_ofLE_of_length htake]
        exact List.take_prefix n rest
      · rintro ⟨-, hfit, hpre, rfl⟩
        rw [htaken hpre, Base256.ofLE_toLE_of_lt hfit, UInt64.ofNat_toNat]
        exact ⟨rfl, rfl⟩
  · refine iff_of_false ?_ ?_
    · have hread : readLe n (first :: rest) = .error .unexpectedEnd := by
        rw [readLe, if_neg (by simp; omega)]
      simp [decodeWide, hread, bind, Except.bind]
    · rintro ⟨-, -, hpre, -⟩
      have h := hpre.length_le
      rw [Base256.length_toLE] at h
      exact hlen h

/-- An encoding in front of a string starts like the string. -/
theorem encode_head?_of_start {value : UInt64} {first : UInt8} {rest : Bytes}
    (h : encode value <+: first :: rest) : (encode value).head? = some first := by
  obtain ⟨b, u, hu⟩ := List.exists_cons_of_ne_nil (encode_ne_nil value)
  rw [hu] at h ⊢
  exact congrArg some (List.cons_prefix_cons.mp h).1

/-- **A wide form of an encoding**: where the values of a range are written after one
marker, and only they are, the wide decoder reads exactly their encodings. -/
theorem decodeWide_eq_ok_iff_encode {n bound : ℕ} {marker : UInt8} (hn : 256 ^ n ≤ 2 ^ 64)
    (hform : ∀ v : UInt64, bound < v.toNat → v.toNat < 256 ^ n →
      encode v = marker :: Base256.toLE n v.toNat)
    (honly : ∀ v : UInt64, (encode v).head? = some marker → bound < v.toNat ∧ v.toNat < 256 ^ n)
    (rest : Bytes) (value : UInt64) (len : ℕ) :
    decodeWide n bound (marker :: rest) = .ok (value, len) ↔
      encode value <+: marker :: rest ∧ len = (encode value).length := by
  rw [decodeWide_eq_ok_iff hn]
  constructor
  · rintro ⟨hgt, hfit, hpre, rfl⟩
    rw [hform value hgt hfit]
    exact ⟨List.cons_prefix_cons.mpr ⟨rfl, hpre⟩, by simp; omega⟩
  · rintro ⟨hpre, rfl⟩
    obtain ⟨hgt, hfit⟩ := honly value (encode_head?_of_start hpre)
    rw [hform value hgt hfit] at hpre ⊢
    exact ⟨hgt, hfit, (List.cons_prefix_cons.mp hpre).2, by simp; omega⟩

/-- The first byte of an encoding tells its form. -/
theorem encode_head? (v : UInt64) :
    (encode v).head? = some (if v.toNat ≤ 0xFC then UInt8.ofNat v.toNat
      else if v.toNat ≤ 0xFFFF then 0xFD else if v.toNat ≤ 0xFFFFFFFF then 0xFE else 0xFF) := by
  simp only [encode]
  split_ifs <;> rfl

/-- A value that is its own encoding is not a marker. -/
theorem ofNat_ne_marker {v : ℕ} (hv : v ≤ 0xFC) {marker : UInt8} (hm : 0xFC < marker.toNat) :
    UInt8.ofNat v ≠ marker := by
  rintro rfl
  simp only [UInt8.toNat_ofNat'] at hm
  omega

/-- **A value that is its own encoding**: what a first byte that is no marker stands for. -/
theorem ofNat_eq_ok_iff_encode {first : UInt8} (hle : first.toNat ≤ 0xFC) (rest : Bytes)
    (value : UInt64) (len : ℕ) :
    (UInt64.ofNat first.toNat, 1) = (value, len) ↔
      encode value <+: first :: rest ∧ len = (encode value).length := by
  have hval : (UInt64.ofNat first.toNat).toNat = first.toNat :=
    UInt64.toNat_ofNat_of_lt' (lt_of_le_of_lt hle (by decide))
  rw [Prod.mk.injEq]
  constructor
  · rintro ⟨rfl, rfl⟩
    rw [encode, hval, if_pos hle]
    exact ⟨⟨rest, by simp⟩, rfl⟩
  · rintro ⟨hpre, rfl⟩
    have hhead := (encode_head? value).symm.trans (encode_head?_of_start hpre)
    rw [Option.some.injEq] at hhead
    split_ifs at hhead with hv hv hv
    · have hfirst : first.toNat = value.toNat := by
        rw [← hhead, UInt8.toNat_ofNat']
        omega
      rw [hfirst, UInt64.ofNat_toNat, encode, if_pos hv]
      exact ⟨rfl, rfl⟩
    all_goals
      rw [← hhead] at hle
      exact absurd hle (by decide)

/-- **CompactSize is canonical**: a string decodes to a value precisely when it starts
with the encoding of that value, and the encoding is what is consumed. -/
theorem decode_eq_ok_iff (bytes : Bytes) (value : UInt64) (len : ℕ) :
    decode bytes = .ok (value, len) ↔ encode value <+: bytes ∧ len = (encode value).length := by
  cases bytes with
  | nil =>
    refine iff_of_false (by simp [decode]) fun h => ?_
    exact encode_ne_nil value (List.prefix_nil.mp h.1)
  | cons first rest =>
    rw [decode]
    split_ifs with h1 h2 h3
    · rw [Except.ok.injEq]
      exact ofNat_eq_ok_iff_encode (UInt8.le_iff_toNat_le.mp h1) rest value len
    · subst h2
      refine decodeWide_eq_ok_iff_encode (by decide) (fun v h h' => ?_) (fun v h => ?_) ..
      · rw [encode, if_neg (by omega), if_pos (by omega)]
      · rw [encode_head?, Option.some.injEq] at h
        split_ifs at h with hv hv' hv''
        · exact absurd h (ofNat_ne_marker hv (by decide))
        · exact ⟨by omega, by omega⟩
        · exact absurd h (by decide)
        · exact absurd h (by decide)
    · subst h3
      refine decodeWide_eq_ok_iff_encode (by decide) (fun v h h' => ?_) (fun v h => ?_) ..
      · rw [encode, if_neg (by omega), if_neg (by omega), if_pos (by omega)]
      · rw [encode_head?, Option.some.injEq] at h
        split_ifs at h with hv hv' hv''
        · exact absurd h (ofNat_ne_marker hv (by decide))
        · exact absurd h (by decide)
        · exact ⟨by omega, by omega⟩
        · exact absurd h (by decide)
    · have hff : first = 0xFF := by
        have hgt : ¬ first.toNat ≤ 0xFC := fun h => h1 (UInt8.le_iff_toNat_le.mpr h)
        have hfd : first.toNat ≠ 0xFD := fun h => h2 (UInt8.toNat_inj.mp h)
        have hfe : first.toNat ≠ 0xFE := fun h => h3 (UInt8.toNat_inj.mp h)
        have hlt : first.toNat < 256 := first.toNat_lt
        exact UInt8.toNat_inj.mp (show first.toNat = 255 by omega)
      subst hff
      refine decodeWide_eq_ok_iff_encode (by decide) (fun v h h' => ?_) (fun v h => ?_) ..
      · rw [encode, if_neg (by omega), if_neg (by omega), if_neg (by omega)]
      · have hlt : v.toNat < 2 ^ 64 := v.toNat_lt
        rw [encode_head?, Option.some.injEq] at h
        split_ifs at h with hv hv' hv''
        · exact absurd h (ofNat_ne_marker hv (by decide))
        · exact absurd h (by decide)
        · exact absurd h (by decide)
        · exact ⟨by omega, by omega⟩

/-- **CompactSize is a canonical self-delimiting code**: whatever comes after it, an
encoding is read back with its length, and what is read is the encoding of the value. -/
theorem decode_canonical :
    (∀ (v : UInt64) (s : Bytes),
      decode (encode v ++ s) = .ok (v, encodedLen v) ∧ (encode v).length = encodedLen v) ∧
    ∀ (b : Bytes) (v : UInt64) (n : ℕ), decode b = .ok (v, n) → b.take n = encode v := by
  refine ⟨fun v s => ⟨?_, length_encode v⟩, fun b v n h => ?_⟩
  · exact (decode_eq_ok_iff _ _ _).mpr ⟨List.prefix_append _ _, (length_encode v).symm⟩
  · obtain ⟨hpre, rfl⟩ := (decode_eq_ok_iff b v n).mp h
    exact (List.prefix_iff_eq_take.mp hpre).symm

/-- A value of the three-byte form, with a byte after it. -/
theorem decode_canonical_sample :
    ([0xFD, 0xFD, 0x00, 0x07] : Bytes).take 3 = encode 253 :=
  decode_canonical.2 [0xFD, 0xFD, 0x00, 0x07] 253 3 (by decide)

end Varint

end SoloMiner
