import SoloMiner.Mining.CoinbaseRules

/-!
# How short pushes are

A node compares the height at the front of a `scriptSig` byte for byte with what it
would have written itself, so it is not enough that the height is read back: of all the
strings that are read as the number, it has to be the shortest. That is so for every
`u32`, and no height's bytes are the start of another's, so a script has one height
(`SoloMiner.Script.canonicalHeights`).

A push of other data is read back as well, and among the opcodes that carry a length it
is the shortest. But Script has opcodes for the numbers –1 and 1 to 16, which push their
one byte without carrying it, and `push_data` never writes these
(`SoloMiner.Script.isShortest_iff`).
-/

namespace SoloMiner

namespace Script

/-! ### The shortest string for a number -/

/-- The top bit of a byte is its highest. -/
theorem and_0x80_eq_zero_iff (b : UInt8) : b &&& 0x80 = 0 ↔ b.toNat < 128 := by
  have hall : ∀ n : Fin 256, UInt8.ofNat n &&& 0x80 = 0 ↔ n.val < 128 := by decide +kernel
  have hb := hall ⟨b.toNat, b.toNat_lt⟩
  rwa [UInt8.ofNat_toNat] at hb

/-- Without the sign, the number keeps below the top bit. -/
theorem two_mul_ofLE_lt {data : Bytes} (h : data.getLastD 0 &&& 0x80 = 0) :
    2 * Base256.ofLE data < 256 ^ data.length := by
  rcases List.eq_nil_or_concat' data with rfl | ⟨low, b, rfl⟩
  · decide
  · rw [List.getLastD_concat] at h
    have hb : b.toNat + 1 ≤ 128 := (and_0x80_eq_zero_iff b).mp h
    have hlow := Base256.ofLE_lt low
    have htop : 256 ^ low.length * (b.toNat + 1) ≤ 256 ^ low.length * 128 :=
      Nat.mul_le_mul_left _ hb
    rw [Base256.ofLE_concat, List.length_append, List.length_singleton, pow_succ]
    rw [Nat.mul_succ] at htop
    omega

/-- With it, the number is at least the top bit. -/
theorem le_two_mul_ofLE {data : Bytes} (h : data.getLastD 0 &&& 0x80 ≠ 0) :
    256 ^ data.length ≤ 2 * Base256.ofLE data := by
  rcases List.eq_nil_or_concat' data with rfl | ⟨low, b, rfl⟩
  · exact absurd (by decide) h
  · rw [List.getLastD_concat] at h
    have hb : 128 ≤ b.toNat := Nat.le_of_not_lt (mt (and_0x80_eq_zero_iff b).mpr h)
    have htop : 256 ^ low.length * 128 ≤ 256 ^ low.length * b.toNat := Nat.mul_le_mul_left _ hb
    rw [Base256.ofLE_concat, List.length_append, List.length_singleton, pow_succ]
    omega

/-- A string that is read as a positive number has no sign. -/
theorem unsigned_of_scriptNumber_pos {data : Bytes} (h : 0 < scriptNumber data) :
    data.getLastD 0 &&& 0x80 = 0 ∧ scriptNumber data = Base256.ofLE data := by
  by_cases hsign : data.getLastD 0 &&& 0x80 = 0
  · exact ⟨hsign, if_neg (not_not.mpr hsign)⟩
  · have hnum : scriptNumber data = 2 ^ (8 * data.length - 1) - (Base256.ofLE data : ℤ) :=
      if_pos hsign
    have hlen : data.length ≠ 0 := by
      rintro hnil
      rw [List.length_eq_zero_iff.mp hnil] at hsign
      exact hsign (by decide)
    have htop : 2 * 2 ^ (8 * data.length - 1) = 256 ^ data.length := by
      rw [← pow_succ', show 8 * data.length - 1 + 1 = 8 * data.length by omega, pow_mul]
      norm_num
    have hle := le_two_mul_ofLE hsign
    have hcast : (2 : ℤ) ^ (8 * data.length - 1) = ((2 ^ (8 * data.length - 1) : ℕ) : ℤ) := by
      norm_cast
    rw [hnum, hcast] at h
    omega

/-- The loop of `encode_script_number` stops at the last digit that counts. -/
theorem pow_length_lowBytes_le {fuel : ℕ} {value : UInt32} (h : value ≠ 0) :
    256 ^ (lowBytes fuel value).length ≤ 256 * value.toNat := by
  induction fuel generalizing value with
  | zero =>
    have hpos : value.toNat ≠ 0 := fun hzero => h (UInt32.toNat_inj.mp hzero)
    rw [lowBytes, List.length_nil, pow_zero]
    omega
  | succ fuel ih =>
    have hpos : value.toNat ≠ 0 := fun hzero => h (UInt32.toNat_inj.mp hzero)
    have hhigh : (value >>> 8).toNat = value.toNat / 256 := by
      simp [Nat.shiftRight_eq_div_pow]
    rw [lowBytes]
    split_ifs
    · by_cases hzero : value >>> 8 = 0
      · have hnil : lowBytes fuel (value >>> 8) = [] := by
          rw [hzero]
          cases fuel <;> rfl
        rw [hnil, List.length_singleton]
        omega
      · have hle := ih hzero
        rw [List.length_cons, pow_succ]
        omega
    · rw [List.length_nil, pow_zero]
      omega

/-- **No byte is spent for nothing**: one byte less would not hold the number and a sign. -/
theorem pow_length_encodeScriptNumber_le {value : UInt32} (h : value ≠ 0) :
    256 ^ (encodeScriptNumber value).length ≤ 512 * value.toNat := by
  have hlow : Base256.ofLE (lowBytes 4 value) = value.toNat := ofLE_lowBytes value.toNat_lt
  rw [encodeScriptNumber, if_neg h]
  simp only
  split_ifs with hsign
  · have hle := le_two_mul_ofLE hsign
    rw [hlow] at hle
    rw [List.length_append, pow_add, List.length_singleton]
    omega
  · have hle : 256 ^ (lowBytes 4 value).length ≤ 256 * value.toNat := pow_length_lowBytes_le h
    omega

/-- **The encoding of a number is the shortest** of the strings that are read as it. -/
theorem length_encodeScriptNumber_le_of_scriptNumber {value : UInt32} {data : Bytes}
    (h : scriptNumber data = value.toNat) : (encodeScriptNumber value).length ≤ data.length := by
  by_cases h0 : value = 0
  · rw [h0]
    exact Nat.zero_le _
  · have hpos : 0 < value.toNat := Nat.pos_of_ne_zero fun hzero => h0 (UInt32.toNat_inj.mp hzero)
    have hnumber : 0 < scriptNumber data := by omega
    obtain ⟨hsign, hnum⟩ := unsigned_of_scriptNumber_pos hnumber
    have hvalue : Base256.ofLE data = value.toNat := by omega
    have hlt := two_mul_ofLE_lt hsign
    have hle := pow_length_encodeScriptNumber_le h0
    have hpow : 256 ^ (encodeScriptNumber value).length < 256 ^ (data.length + 1) := by
      rw [pow_succ]
      omega
    exact Nat.lt_succ_iff.mp ((Nat.pow_lt_pow_iff_right (by decide)).mp hpow)

/-! ### Heights -/

/-- A number has one encoding, and an encoding one number. -/
theorem encodeScriptNumber_inj {value value' : UInt32}
    (h : encodeScriptNumber value = encodeScriptNumber value') : value = value' := by
  have hnum := scriptNumber_encodeScriptNumber value
  rw [h, scriptNumber_encodeScriptNumber] at hnum
  exact UInt32.toNat_inj.mp (by omega)

/-- **A script has one height**: the node reads it as the first push. -/
theorem heightBytes_prefix_unique {height height' : UInt32} {script : Bytes}
    (h : heightBytes height <+: script) (h' : heightBytes height' <+: script) :
    height = height' := by
  obtain ⟨rest, rfl⟩ := h
  obtain ⟨rest', hscript⟩ := h'
  have hread := readPush_heightBytes height' rest'
  rw [hscript, readPush_heightBytes, Option.some.injEq, Prod.mk.injEq] at hread
  exact encodeScriptNumber_inj hread.1

/-- A height above 16 has one byte for the length of its number. -/
theorem heightBytes_of_lt {height : UInt32} (h : 16 < height) :
    heightBytes height =
      UInt8.ofNat (encodeScriptNumber height).length :: encodeScriptNumber height := by
  have hlen := length_encodeScriptNumber_le height
  have hlt : 16 < height.toNat := UInt32.lt_iff_toNat_lt.mp h
  have h0 : height ≠ 0 := by
    rintro rfl
    exact absurd hlt (by decide)
  have h16 : ¬ height ≤ 16 := fun hle => by
    have hle : height.toNat ≤ 16 := UInt32.le_iff_toNat_le.mp hle
    omega
  rw [heightBytes, if_neg h0, if_neg h16, pushHead, if_pos (by omega), List.singleton_append]

/-- What a node asks of the numbers in a script, and of the heights. -/
structure CanonicalHeights : Prop where
  /-- A number is read back, -/
  reads : ∀ value : UInt32, scriptNumber (encodeScriptNumber value) = value.toNat
  /-- and nothing shorter is read as it. -/
  minimal : ∀ (value : UInt32) (data : Bytes), scriptNumber data = value.toNat →
    (encodeScriptNumber value).length ≤ data.length
  /-- Height 0 is `OP_0`, -/
  zero : (encodeBlockHeight 0 : Checked CoinbaseError Bytes) = .ok [0x00]
  /-- heights 1 to 16 are `OP_1` to `OP_16`, -/
  small : ∀ height : UInt32, 1 ≤ height → height ≤ 16 →
    (encodeBlockHeight height : Checked CoinbaseError Bytes) = .ok [0x50 + height.toUInt8]
  /-- and the others are the length of their number, and the number. -/
  large : ∀ height : UInt32, 16 < height →
    (encodeBlockHeight height : Checked CoinbaseError Bytes) =
      .ok (UInt8.ofNat (encodeScriptNumber height).length :: encodeScriptNumber height)
  /-- No two heights have the same bytes, nor is one the start of the other. -/
  prefixFree : ∀ (height height' : UInt32) (head head' : Bytes),
    (encodeBlockHeight height : Checked CoinbaseError Bytes) = .ok head →
    (encodeBlockHeight height' : Checked CoinbaseError Bytes) = .ok head' →
    height ≠ height' → head ≠ head' ∧ ¬ head <+: head'
  /-- So a script starts with one height at most. -/
  determined : ∀ (height height' : UInt32) (head head' script : Bytes),
    (encodeBlockHeight height : Checked CoinbaseError Bytes) = .ok head →
    (encodeBlockHeight height' : Checked CoinbaseError Bytes) = .ok head' →
    head <+: script → head' <+: script → height = height'

/-- **Heights and numbers are encoded as a node requires**, for every `u32`. -/
theorem canonicalHeights : CanonicalHeights where
  reads := scriptNumber_encodeScriptNumber
  minimal _ _ h := length_encodeScriptNumber_le_of_scriptNumber h
  zero := rfl
  small height h1 h16 := by
    have h0 : height ≠ 0 := by
      rintro rfl
      exact absurd h1 (by decide)
    have hop : 0x51 + height.toUInt8 - 1 = 0x50 + height.toUInt8 := by grind
    rw [encodeBlockHeight, if_neg h0, if_pos h16, hop]
  large height h := by rw [encodeBlockHeight_eq_ok, heightBytes_of_lt h]
  prefixFree height height' head head' h h' hne := by
    obtain rfl := Except.ok.inj ((encodeBlockHeight_eq_ok height).symm.trans h)
    obtain rfl := Except.ok.inj ((encodeBlockHeight_eq_ok height').symm.trans h')
    have hnot : ¬ heightBytes height <+: heightBytes height' := fun hpre =>
      hne (heightBytes_prefix_unique hpre (List.prefix_refl _))
    exact ⟨fun heq => hnot (heq ▸ List.prefix_refl _), hnot⟩
  determined height height' head head' script h h' hpre hpre' := by
    obtain rfl := Except.ok.inj ((encodeBlockHeight_eq_ok height).symm.trans h)
    obtain rfl := Except.ok.inj ((encodeBlockHeight_eq_ok height').symm.trans h')
    exact heightBytes_prefix_unique hpre hpre'

/-! ### The shortest push -/

theorem takeData_eq_some {n : ℕ} {bytes data rest : Bytes}
    (h : takeData n bytes = some (data, rest)) : data.length = n ∧ bytes = data ++ rest := by
  rw [takeData] at h
  split_ifs at h with hle
  simp only [Option.some.injEq, Prod.mk.injEq] at h
  obtain ⟨rfl, rfl⟩ := h
  exact ⟨List.length_take_of_le hle, (List.take_append_drop n bytes).symm⟩

/-- The length that was read in front of data is that of the data. -/
theorem takeSized_eq_some {n : ℕ} {bytes data rest : Bytes}
    (h : takeSized n bytes = some (data, rest)) :
    data.length < 256 ^ n ∧ bytes.length = n + (data.length + rest.length) := by
  rw [takeSized, Option.bind_eq_bind, Option.bind_eq_some_iff] at h
  obtain ⟨⟨length, behind⟩, hlength, hdata⟩ := h
  obtain ⟨rfl, rfl⟩ := takeData_eq_some hlength
  obtain ⟨hlen, rfl⟩ := takeData_eq_some hdata
  rw [hlen, List.length_append, List.length_append, hlen]
  exact ⟨Base256.ofLE_lt length, rfl⟩

/-- The bytes that an opcode pushes by itself: –1 and 1 to 16. -/
def IsNumberOpcode (data : Bytes) : Prop := ∃ b : UInt8, data = [b] ∧ (b = 0x81 ∨ 1 ≤ b ∧ b ≤ 16)

/-- Data that is carried has a head before it, which takes one, two or three bytes. -/
theorem length_pushHead_le {n : ℕ} :
    1 ≤ (pushHead n).length ∧ (n ≤ 75 → (pushHead n).length = 1) ∧
      (n < 256 ^ 1 → (pushHead n).length ≤ 2) ∧ (pushHead n).length ≤ 3 := by
  rw [pushHead]
  split_ifs <;> simp <;> omega

/-- **Every push carries its data behind as long a head**, but for the opcodes that push
a number. -/
theorem length_le_of_readPush {script data rest : Bytes}
    (h : readPush script = some (data, rest)) (hnum : ¬ IsNumberOpcode data) :
    (pushHead data.length ++ data).length + rest.length ≤ script.length := by
  obtain ⟨hhead1, hdirect, htwo, hthree⟩ := length_pushHead_le (n := data.length)
  cases script with
  | nil => exact absurd h (by simp [readPush])
  | cons opcode bytes =>
    rw [List.length_append, List.length_cons]
    rw [readPush] at h
    split_ifs at h with h75 h4c h4d h4e h4f hsmall
    · obtain ⟨hlen, rfl⟩ := takeData_eq_some h
      have hone := hdirect (by omega)
      rw [List.length_append]
      omega
    · obtain ⟨hlt, hlen⟩ := takeSized_eq_some h
      have hle := htwo hlt
      omega
    · obtain ⟨-, hlen⟩ := takeSized_eq_some h
      omega
    · obtain ⟨-, hlen⟩ := takeSized_eq_some h
      omega
    · simp only [Option.some.injEq, Prod.mk.injEq] at h
      exact absurd ⟨0x81, h.1.symm, Or.inl rfl⟩ hnum
    · simp only [Option.some.injEq, Prod.mk.injEq] at h
      obtain ⟨hlow, hhigh⟩ := hsmall
      exact absurd ⟨opcode - 0x50, h.1.symm, Or.inr (by grind)⟩ hnum

/-- A number's opcode pushes its byte. -/
theorem exists_readPush_of_isNumberOpcode {data : Bytes} (h : IsNumberOpcode data) :
    ∃ opcode, readPush [opcode] = some (data, []) := by
  obtain ⟨b, rfl, rfl | ⟨h1, h16⟩⟩ := h
  · exact ⟨0x4F, rfl⟩
  · have hall : ∀ n : Fin 17, 1 ≤ n.val →
        readPush [0x50 + UInt8.ofNat n] = some ([UInt8.ofNat n], []) := by
      decide
    have hle : b.toNat ≤ 16 := UInt8.le_iff_toNat_le.mp h16
    have hread := hall ⟨b.toNat, by omega⟩ (UInt8.le_iff_toNat_le.mp h1)
    simp only [UInt8.ofNat_toNat] at hread
    exact ⟨0x50 + b, hread⟩

/-- What `push_data` appends is read back as the data, whatever script follows, and no
script of pushes that pushes the same is shorter. -/
def IsShortest (data : Bytes) : Prop :=
  ∃ out, (pushData data : Checked CoinbaseError Bytes) = .ok out ∧
    (∀ suffix, readPush (out ++ suffix) = some (data, suffix)) ∧
    ∀ script, ReadsAs script [data] → out.length ≤ script.length

/-- **A push is read back, and it is the shortest unless an opcode pushes that number**:
`OP_1NEGATE` and `OP_1` to `OP_16` take one byte, and `push_data` two. -/
theorem isShortest_iff {data : Bytes} (h : data.length ≤ 520) :
    IsShortest data ↔ ¬ IsNumberOpcode data := by
  have hpush : (pushData data : Checked CoinbaseError Bytes) = .ok (pushHead data.length ++ data) :=
    pushData_eq_ok h
  constructor
  · rintro ⟨out, hout, -, hshort⟩ hnum
    obtain rfl := Except.ok.inj (hpush.symm.trans hout)
    obtain ⟨opcode, hread⟩ := exists_readPush_of_isNumberOpcode hnum
    have hle := hshort [opcode] (.cons hread .nil)
    have hhead := (length_pushHead_le (n := data.length)).1
    obtain ⟨b, rfl, -⟩ := hnum
    simp only [List.length_append, List.length_singleton] at hle hhead
    omega
  · intro hnum
    refine ⟨_, hpush, fun suffix => ?_, fun script hscript => ?_⟩
    · rw [List.append_assoc]
      exact readPush_pushHead h suffix
    · cases hscript with
      | cons hread hrest =>
        have hle := length_le_of_readPush hread hnum
        omega

/-- The shortest push of the two bytes 7 and 8. -/
theorem isShortest_pair : IsShortest [7, 8] :=
  (isShortest_iff (by decide)).mpr (by rintro ⟨b, hb, -⟩; exact absurd hb (by simp))

/-- The number 1 is pushed as `01 01`, where `OP_1` pushes it in one byte. -/
theorem not_isShortest_one : ¬ IsShortest [1] := by
  rintro ⟨out, hout, -, hshort⟩
  obtain rfl := Except.ok.inj hout.symm
  exact absurd (hshort [0x51] (.cons rfl .nil)) (by decide)

end Script

end SoloMiner
