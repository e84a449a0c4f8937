import SoloMiner.Mining.Coinbase
import SoloMiner.Stratum.Json

/-!
# Shares

A miner submits a share as five JSON parameters: a worker name, the job, and its
choices – the extranonce, the time and the nonce, in hex. They are decoded in order,
and the first that is missing or malformed is the error.
-/

namespace SoloMiner

/-- A share submitted by a miner. -/
structure Share where
  /-- The worker name. -/
  worker : Str
  /-- Which job this share is for. -/
  jobId : Str
  /-- The miner's half of the extranonce. -/
  extranonce2 : Bytes
  /-- The header timestamp the miner used. -/
  time : UInt32
  /-- The nonce that produced the hash. -/
  nonce : UInt32
  deriving DecidableEq

/-- Why `mining.submit` parameters could not be decoded. -/
inductive ShareError where
  /-- The parameters were not a JSON array. -/
  | notAnArray
  /-- Fewer than the five required parameters were present. -/
  | wrongParameterCount (n : ℕ)
  /-- A parameter that must be a string was not. -/
  | notAString (i : ℕ)
  /-- A parameter that must be hex was not. -/
  | notHex (i : ℕ)
  deriving DecidableEq

/-- The text of a share error. -/
def ShareError.display : ShareError → Str
  | .notAnArray => "mining.submit params are not an array".toList
  | .wrongParameterCount n => "mining.submit needs 5 parameters, got ".toList ++ decimal n
  | .notAString i =>
    "mining.submit parameter ".toList ++ decimal i ++ " is not a string".toList
  | .notHex i => "mining.submit parameter ".toList ++ decimal i ++ " is not valid hex".toList

namespace Share

open Json

/-- Encodes as `mining.submit` parameters. -/
def toSubmitParams (self : Share) : Value :=
  .array [
    .string self.worker,
    .string self.jobId,
    .string (Hex.encode self.extranonce2),
    hexString self.time,
    hexString self.nonce]

/-- Decodes the extranonce, parameter 2. -/
def extranonceParam (array : List Value) : Checked ShareError Bytes := do
  let s ← stringAt ShareError.notAString array 2
  Checked.mapErr (fun _ => .notHex 2) (Hex.decode s)

/-- Decodes `mining.submit` parameters. -/
def fromSubmitParams (params : Value) : Checked ShareError Share := do
  let array ← Checked.okOr .notAnArray params.asArray
  if array.length < 5 then .err (.wrongParameterCount array.length)
  else do
    let u32FromHex := u32FromHexAt ShareError.notAString ShareError.notHex array
    let worker ← stringAt ShareError.notAString array 0
    let jobId ← stringAt ShareError.notAString array 1
    let extranonce2 ← extranonceParam array
    let time ← u32FromHex 3
    let nonce ← u32FromHex 4
    pure ⟨worker, jobId, extranonce2, time, nonce⟩

/-! ### What is decoded -/

theorem extranonceParam_eq_ok_iff {array : List Value} {bytes : Bytes} :
    extranonceParam array = .ok bytes ↔
      ∃ s, array[2]? = some (.string s) ∧ Hex.decode s = .ok bytes := by
  rw [extranonceParam, Checked.bind_eq_ok]
  simp only [stringAt_eq_ok_iff, Checked.mapErr_eq_ok]

/-- **What the decoder accepts**: five strings or more, the third read as bytes and the
next two as numbers. -/
theorem fromSubmitParams_eq_ok_iff {params : Value} {share : Share} :
    fromSubmitParams params = .ok share ↔
      ∃ array, params.asArray = some array ∧ 5 ≤ array.length ∧
        array[0]? = some (.string share.worker) ∧ array[1]? = some (.string share.jobId) ∧
        (∃ s, array[2]? = some (.string s) ∧ Hex.decode s = .ok share.extranonce2) ∧
        (∃ s n, array[3]? = some (.string s) ∧ Hex.fromStrRadix16 32 s = some n ∧
          share.time = UInt32.ofNat n) ∧
        (∃ s n, array[4]? = some (.string s) ∧ Hex.fromStrRadix16 32 s = some n ∧
          share.nonce = UInt32.ofNat n) := by
  rw [fromSubmitParams, Checked.bind_eq_ok]
  constructor
  · rintro ⟨array, harray, h⟩
    split_ifs at h with hlen
    · exact absurd h (by simp [Checked.err])
    · obtain ⟨worker, hworker, h⟩ := Checked.bind_eq_ok.mp h
      obtain ⟨jobId, hjobId, h⟩ := Checked.bind_eq_ok.mp h
      obtain ⟨extranonce2, hextranonce2, h⟩ := Checked.bind_eq_ok.mp h
      obtain ⟨time, htime, h⟩ := Checked.bind_eq_ok.mp h
      obtain ⟨nonce, hnonce, h⟩ := Checked.bind_eq_ok.mp h
      obtain rfl := Except.ok.inj h
      exact ⟨array, Checked.okOr_eq_ok.mp harray, not_lt.mp hlen, stringAt_eq_ok_iff.mp hworker,
        stringAt_eq_ok_iff.mp hjobId, extranonceParam_eq_ok_iff.mp hextranonce2,
        u32FromHexAt_eq_ok_iff.mp htime, u32FromHexAt_eq_ok_iff.mp hnonce⟩
  · rintro ⟨array, harray, hlen, hworker, hjobId, hextranonce2, htime, hnonce⟩
    refine ⟨array, Checked.okOr_eq_ok.mpr harray, ?_⟩
    rw [if_neg (not_lt.mpr hlen)]
    simp only
    rw [stringAt_eq_ok_iff.mpr hworker, stringAt_eq_ok_iff.mpr hjobId,
      extranonceParam_eq_ok_iff.mpr hextranonce2, u32FromHexAt_eq_ok_iff.mpr htime,
      u32FromHexAt_eq_ok_iff.mpr hnonce]
    rfl

/-- **What the decoder accepts**, in the text: two strings, readable pairs, one for each
byte of the extranonce, and two numbers in hex. -/
theorem exists_fromSubmitParams_iff {params : Value} {jobId : Str} {n : ℕ} :
    (∃ share, fromSubmitParams params = .ok share ∧ share.jobId = jobId ∧
      share.extranonce2.length = n) ↔
      ∃ array worker pairs time nonce, params.asArray = some array ∧ 5 ≤ array.length ∧
        array[0]? = some (.string worker) ∧ array[1]? = some (.string jobId) ∧
        array[2]? = some (.string (Hex.pairChars pairs)) ∧
        (∀ pair ∈ pairs, Hex.ReadablePair pair) ∧ pairs.length = n ∧
        array[3]? = some (.string time) ∧ (Hex.fromStrRadix16 32 time).isSome = true ∧
        array[4]? = some (.string nonce) ∧ (Hex.fromStrRadix16 32 nonce).isSome = true := by
  constructor
  · rintro ⟨share, hshare, rfl, rfl⟩
    obtain ⟨array, harray, hlen, hworker, hjobId, ⟨s, hs, hdecode⟩, ⟨time, t, htime, ht, -⟩,
      nonce, k, hnonce, hk, -⟩ := fromSubmitParams_eq_ok_iff.mp hshare
    obtain ⟨pairs, rfl, hpairs, hwidth⟩ := (Hex.decode_isOk_iff s _).mp ⟨_, hdecode, rfl⟩
    exact ⟨array, _, pairs, time, nonce, harray, hlen, hworker, hjobId, hs, hpairs, hwidth,
      htime, by rw [ht]; rfl, hnonce, by rw [hk]; rfl⟩
  · rintro ⟨array, worker, pairs, time, nonce, harray, hlen, hworker, hjobId, hs, hpairs, rfl,
      htime, ht, hnonce, hk⟩
    obtain ⟨bytes, hdecode, hwidth⟩ :=
      (Hex.decode_isOk_iff _ pairs.length).mpr ⟨pairs, rfl, hpairs, rfl⟩
    obtain ⟨t, ht⟩ := Option.isSome_iff_exists.mp ht
    obtain ⟨k, hk⟩ := Option.isSome_iff_exists.mp hk
    exact ⟨⟨worker, jobId, bytes, UInt32.ofNat t, UInt32.ofNat k⟩,
      fromSubmitParams_eq_ok_iff.mpr ⟨array, harray, hlen, hworker, hjobId, ⟨_, hs, hdecode⟩,
        ⟨_, t, htime, ht, rfl⟩, _, k, hnonce, hk, rfl⟩, rfl, hwidth⟩

/-- **Decoding panics** precisely on a third string that cuts a character in two, behind
two strings and with enough parameters. -/
theorem fromSubmitParams_eq_panic_iff {params : Value} :
    fromSubmitParams params = .panic ↔
      ∃ array worker jobId s, params.asArray = some array ∧ 5 ≤ array.length ∧
        array[0]? = some (.string worker) ∧ array[1]? = some (.string jobId) ∧
        array[2]? = some (.string s) ∧ Hex.SplitsChar s := by
  rw [fromSubmitParams, Checked.bind_eq_panic]
  constructor
  · rintro (h | ⟨array, harray, h⟩)
    · exact absurd h Checked.okOr_ne_panic
    · split_ifs at h with hlen
      · exact absurd h Checked.err_ne_panic
      · rcases Checked.bind_eq_panic.mp h with h | ⟨worker, hworker, h⟩
        · exact absurd (stringAt_eq_panic_iff.mp h) (by omega)
        rcases Checked.bind_eq_panic.mp h with h | ⟨jobId, hjobId, h⟩
        · exact absurd (stringAt_eq_panic_iff.mp h) (by omega)
        rcases Checked.bind_eq_panic.mp h with h | ⟨bytes, -, h⟩
        · rcases Checked.bind_eq_panic.mp h with h | ⟨s, hs, h⟩
          · exact absurd (stringAt_eq_panic_iff.mp h) (by omega)
          · rw [Checked.mapErr_eq_panic, Hex.decode_eq_panic_iff] at h
            exact ⟨array, worker, jobId, s, Checked.okOr_eq_ok.mp harray, not_lt.mp hlen,
              stringAt_eq_ok_iff.mp hworker, stringAt_eq_ok_iff.mp hjobId,
              stringAt_eq_ok_iff.mp hs, h⟩
        -- The numbers are read without a panic once there are five parameters.
        rcases Checked.bind_eq_panic.mp h with h | ⟨time, -, h⟩
        · exact absurd (u32FromHexAt_eq_panic_iff.mp h) (by omega)
        rcases Checked.bind_eq_panic.mp h with h | ⟨nonce, -, h⟩
        · exact absurd (u32FromHexAt_eq_panic_iff.mp h) (by omega)
        · exact absurd h Checked.ok_ne_panic
  · rintro ⟨array, worker, jobId, s, harray, hlen, hworker, hjobId, hs, hsplits⟩
    refine Or.inr ⟨array, Checked.okOr_eq_ok.mpr harray, ?_⟩
    rw [if_neg (not_lt.mpr hlen)]
    simp only
    rw [stringAt_eq_ok_iff.mpr hworker, Checked.ok_bind, stringAt_eq_ok_iff.mpr hjobId,
      Checked.ok_bind, extranonceParam, stringAt_eq_ok_iff.mpr hs, Checked.ok_bind,
      (Hex.decode_eq_panic_iff s).mpr hsplits]
    rfl

/-- **A share survives the wire**: decoding its parameters gives it back. -/
theorem fromSubmitParams_toSubmitParams (share : Share) :
    fromSubmitParams share.toSubmitParams = .ok share := by
  have hnumber : ∀ value : UInt32,
      Hex.fromStrRadix16 32 (Hex.fixedHex 8 value.toNat) = some value.toNat := fun value => by
    have hlt : value.toNat < 2 ^ 32 := value.toNat_lt
    exact Hex.fromStrRadix16_fixedHex (by decide) (by omega) hlt
  refine fromSubmitParams_eq_ok_iff.mpr ⟨_, rfl, by simp, rfl, rfl,
    ⟨_, rfl, Hex.decode_encode _⟩, ⟨_, _, rfl, hnumber _, ?_⟩, ⟨_, _, rfl, hnumber _, ?_⟩⟩
  · rw [UInt32.ofNat_toNat]
  · rw [UInt32.ofNat_toNat]

end Share

end SoloMiner
