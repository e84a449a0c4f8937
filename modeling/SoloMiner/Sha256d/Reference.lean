import Mathlib.Data.List.GetD
import SoloMiner.Sha256d.Padding

/-!
# The portable SHA-256

The reference implementation follows FIPS 180-4: six logical functions on 32-bit
words, a message schedule of 64 words, 64 rounds on eight working variables, and
a feed-forward. It is the definition of correct that the other implementation is
held to.

The hash of a message is the same text in the source whichever compression
function it calls, so it is written here once with the compression function as a
parameter (`SoloMiner.Sha256d.sha256With`, `SoloMiner.Sha256d.sha256dWith`) and
each implementation is that definition at its own compression.
-/

namespace SoloMiner

namespace Sha256d

/-! ### Constants -/

/-- The eight 32-bit words of a hash state, under the names the rounds give
them. -/
structure State where
  /-- Word 0. -/
  a : UInt32
  /-- Word 1. -/
  b : UInt32
  /-- Word 2. -/
  c : UInt32
  /-- Word 3. -/
  d : UInt32
  /-- Word 4. -/
  e : UInt32
  /-- Word 5. -/
  f : UInt32
  /-- Word 6. -/
  g : UInt32
  /-- Word 7. -/
  h : UInt32
  deriving DecidableEq

/-- The words of a state, in order. -/
def State.words (s : State) : List UInt32 := [s.a, s.b, s.c, s.d, s.e, s.f, s.g, s.h]

/-- The initial hash value. -/
def H0 : State :=
  ⟨0x6a09e667, 0xbb67ae85, 0x3c6ef372, 0xa54ff53a, 0x510e527f, 0x9b05688c, 0x1f83d9ab, 0x5be0cd19⟩

/-- The round constants. -/
def K : List UInt32 := [
  0x428a2f98, 0x71374491, 0xb5c0fbcf, 0xe9b5dba5, 0x3956c25b, 0x59f111f1, 0x923f82a4, 0xab1c5ed5,
  0xd807aa98, 0x12835b01, 0x243185be, 0x550c7dc3, 0x72be5d74, 0x80deb1fe, 0x9bdc06a7, 0xc19bf174,
  0xe49b69c1, 0xefbe4786, 0x0fc19dc6, 0x240ca1cc, 0x2de92c6f, 0x4a7484aa, 0x5cb0a9dc, 0x76f988da,
  0x983e5152, 0xa831c66d, 0xb00327c8, 0xbf597fc7, 0xc6e00bf3, 0xd5a79147, 0x06ca6351, 0x14292967,
  0x27b70a85, 0x2e1b2138, 0x4d2c6dfc, 0x53380d13, 0x650a7354, 0x766a0abb, 0x81c2c92e, 0x92722c85,
  0xa2bfe8a1, 0xa81a664b, 0xc24b8b70, 0xc76c51a3, 0xd192e819, 0xd6990624, 0xf40e3585, 0x106aa070,
  0x19a4c116, 0x1e376c08, 0x2748774c, 0x34b0bcb5, 0x391c0cb3, 0x4ed8aa4a, 0x5b9cca4f, 0x682e6ff3,
  0x748f82ee, 0x78a5636f, 0x84c87814, 0x8cc70208, 0x90befffa, 0xa4506ceb, 0xbef9a3f7, 0xc67178f2]

/-- The constant of round `t`. -/
def roundConstant (t : ℕ) : UInt32 := K.getD t 0

/-! ### The logical functions -/

/-- `u32::rotate_right`. -/
def rotateRight (x : UInt32) (n : ℕ) : UInt32 := ⟨x.toBitVec.rotateRight n⟩

/-- Choose: a bit of `x` selects the bit of `y` or of `z`. -/
def ch (x y z : UInt32) : UInt32 := (x &&& y) ^^^ (~~~x &&& z)

/-- Majority. -/
def maj (x y z : UInt32) : UInt32 := (x &&& y) ^^^ (x &&& z) ^^^ (y &&& z)

/-- Big sigma zero. -/
def bigSigma0 (x : UInt32) : UInt32 := rotateRight x 2 ^^^ rotateRight x 13 ^^^ rotateRight x 22

/-- Big sigma one. -/
def bigSigma1 (x : UInt32) : UInt32 := rotateRight x 6 ^^^ rotateRight x 11 ^^^ rotateRight x 25

/-- Small sigma zero; its last term shifts instead of rotating. -/
def smallSigma0 (x : UInt32) : UInt32 := rotateRight x 7 ^^^ rotateRight x 18 ^^^ (x >>> 3)

/-- Small sigma one; its last term shifts instead of rotating. -/
def smallSigma1 (x : UInt32) : UInt32 := rotateRight x 17 ^^^ rotateRight x 19 ^^^ (x >>> 10)

/-! ### The compression function -/

/-- `u32::from_be_bytes` of the four bytes at `offset`. -/
def beWord (block : ByteArr 64) (offset : ℕ) : UInt32 :=
  UInt32.ofNat (Base256.ofBE [block.toList.getD offset 0, block.toList.getD (offset + 1) 0,
    block.toList.getD (offset + 2) 0, block.toList.getD (offset + 3) 0])

/-- The word that follows the words `w` of the message schedule: one of the
block for the first sixteen, a mix of four earlier ones from then on. -/
def scheduleNext (block : ByteArr 64) (w : List UInt32) : UInt32 :=
  if w.length < 16 then beWord block (w.length * 4)
  else smallSigma1 (w.getD (w.length - 2) 0) + w.getD (w.length - 7) 0 +
    smallSigma0 (w.getD (w.length - 15) 0) + w.getD (w.length - 16) 0

/-- The first `t` words of the message schedule, as the two filling loops leave
them. -/
def schedule (block : ByteArr 64) : ℕ → List UInt32
  | 0 => []
  | t + 1 => schedule block t ++ [scheduleNext block (schedule block t)]

/-- One round on the working variables, with round constant `k` and schedule
word `w`. -/
def round (k w : UInt32) (v : State) : State :=
  let t1 := v.h + bigSigma1 v.e + ch v.e v.f v.g + k + w
  let t2 := bigSigma0 v.a + maj v.a v.b v.c
  ⟨t1 + t2, v.a, v.b, v.c, v.d + t1, v.e, v.f, v.g⟩

/-- The first `n` rounds, over the schedule words `w`. -/
def rounds (w : List UInt32) (n : ℕ) (v : State) : State :=
  (List.range n).foldl (fun v t => round (roundConstant t) (w.getD t 0) v) v

/-- The feed-forward: the state added to the working variables, word by word. -/
def feedForward (state v : State) : State :=
  ⟨state.a + v.a, state.b + v.b, state.c + v.c, state.d + v.d,
    state.e + v.e, state.f + v.f, state.g + v.g, state.h + v.h⟩

namespace Reference

/-- The portable compression function. -/
def compressBlock (state : State) (block : ByteArr 64) : State :=
  feedForward state (rounds (schedule block 64) 64 state)

end Reference

/-! ### The hash of a message -/

/-- The state words written out, highest byte first. -/
def digest (state : State) : ByteArr 32 :=
  toArr (state.words.flatMap fun word => Base256.toBE 4 word.toNat) (by simp [State.words])

section Hash

variable (compress : State → ByteArr 64 → State)

/-- SHA-256 of a message over a given compression function: the body that
`reference::sha256` and `neon::sha256` share. -/
def sha256With (message : Bytes) : ByteArr 32 :=
  digest ((blocks (pad message)).foldl compress H0)

/-- Double SHA-256 over a given compression function. -/
def sha256dWith (message : Bytes) : ByteArr 32 :=
  sha256With compress (sha256With compress message).toList

end Hash

namespace Reference

/-- The portable SHA-256. -/
def sha256 (message : Bytes) : ByteArr 32 := sha256With compressBlock message

/-- The portable double SHA-256. -/
def sha256d (message : Bytes) : ByteArr 32 := sha256dWith compressBlock message

end Reference

/-! ### The message schedule -/

@[simp] theorem length_schedule (block : ByteArr 64) (t : ℕ) : (schedule block t).length = t := by
  induction t with
  | zero => rfl
  | succ t ih => simp [schedule, ih]

/-- Filling the schedule further keeps the words it holds. -/
theorem schedule_getD_of_lt (block : ByteArr 64) {t : ℕ} :
    ∀ {n : ℕ}, t < n → (schedule block n).getD t 0 = scheduleNext block (schedule block t) := by
  intro n
  induction n with
  | zero => exact fun h => absurd h (Nat.not_lt_zero t)
  | succ n ih =>
    intro h
    rw [schedule]
    rcases Nat.lt_or_ge t n with hlt | hge
    · rw [List.getD_append _ _ _ _ (by simpa using hlt)]
      exact ih hlt
    · have htn : t = n := by omega
      subst htn
      rw [List.getD_append_right _ _ _ _ (by simp)]
      simp

/-- Word `t` of the message schedule. -/
def word (block : ByteArr 64) (t : ℕ) : UInt32 := (schedule block 64).getD t 0

/-- The first sixteen words are the block's. -/
theorem word_of_lt (block : ByteArr 64) {t : ℕ} (h : t < 16) :
    word block t = beWord block (t * 4) := by
  rw [word, schedule_getD_of_lt block (by omega), scheduleNext, length_schedule, if_pos h]

/-- **The schedule recurrence**: a later word mixes four earlier ones. -/
theorem word_add_sixteen (block : ByteArr 64) {t : ℕ} (h : t + 16 < 64) :
    word block (t + 16) = smallSigma1 (word block (t + 14)) + word block (t + 9) +
      smallSigma0 (word block (t + 1)) + word block t := by
  have hearlier : ∀ s, s < t + 16 → (schedule block (t + 16)).getD s 0 = word block s :=
    fun s hs => (schedule_getD_of_lt block hs).trans (schedule_getD_of_lt block (by omega)).symm
  have hwrite : word block (t + 16) = scheduleNext block (schedule block (t + 16)) :=
    schedule_getD_of_lt block (by omega)
  rw [hwrite, scheduleNext, length_schedule, if_neg (by omega), hearlier _ (by omega),
    hearlier _ (by omega), hearlier _ (by omega), hearlier _ (by omega)]
  rw [show t + 16 - 2 = t + 14 by omega, show t + 16 - 7 = t + 9 by omega,
    show t + 16 - 15 = t + 1 by omega, show t + 16 - 16 = t by omega]

theorem rounds_succ (w : List UInt32) (n : ℕ) (v : State) :
    rounds w (n + 1) v = round (roundConstant n) (w.getD n 0) (rounds w n v) := by
  rw [rounds, List.range_succ, List.foldl_append]
  rfl

end Sha256d

end SoloMiner
