import SoloMiner.Sha256d.Reference

/-!
# SHA-256 on the ARMv8 cryptographic extensions

The hardware implementation advances the eight working variables four rounds at
a time, in two vectors of four words, over a message schedule of which it keeps
only a window of four vectors. This file gives the vector intrinsics their
published semantics, states `neon::compress_block` over them, and shows that it
is the portable compression function
(`SoloMiner.Sha256d.neon_compressBlock_eq`).

Two things carry the argument.

* One vector step is four scalar rounds (`SoloMiner.Sha256d.sha256hash_eq`): the
  hardware loop rotates the two vectors through each other, which is the shift of
  the working variables, and takes the round constant and the schedule word
  already summed.
* The window is a rolling one (`SoloMiner.Sha256d.WindowAt`): before group `n`,
  slot `m % 4` holds the words of group `m` for the four groups from `n` on, and
  the step overwrites the slot it has just read with the group four ahead.
-/

namespace SoloMiner

namespace Sha256d

namespace Neon

/-! ### The vector types and their intrinsics -/

/-- `uint32x4_t`: four 32-bit lanes, lane 0 lowest. -/
@[ext] structure Uint32x4 where
  /-- Lane 0. -/
  e0 : UInt32
  /-- Lane 1. -/
  e1 : UInt32
  /-- Lane 2. -/
  e2 : UInt32
  /-- Lane 3. -/
  e3 : UInt32
  deriving DecidableEq

/-- `uint8x16_t`: sixteen byte lanes. -/
abbrev Uint8x16 := ℕ → UInt8

/-- `vld1q_u8`: sixteen bytes from `offset` on. -/
def vld1qU8 (block : ByteArr 64) (offset : ℕ) : Uint8x16 :=
  fun i => block.toList.getD (offset + i) 0

/-- `vrev32q_u8`: the bytes reversed within each group of four. -/
def vrev32qU8 (v : Uint8x16) : Uint8x16 := fun i => v (4 * (i / 4) + (3 - i % 4))

/-- `vreinterpretq_u32_u8`: four bytes make a lane, lowest byte first. -/
def vreinterpretqU32U8 (v : Uint8x16) : Uint32x4 :=
  let lane := fun i => UInt32.ofNat (Base256.ofLE [v i, v (i + 1), v (i + 2), v (i + 3)])
  ⟨lane 0, lane 4, lane 8, lane 12⟩

/-- `vld1q_u32` on the round constants: four of them from `offset` on. -/
def vld1qK (offset : ℕ) : Uint32x4 :=
  ⟨roundConstant offset, roundConstant (offset + 1), roundConstant (offset + 2),
    roundConstant (offset + 3)⟩

/-- `vaddq_u32`: lane by lane, wrapping. -/
def vaddqU32 (x y : Uint32x4) : Uint32x4 := ⟨x.e0 + y.e0, x.e1 + y.e1, x.e2 + y.e2, x.e3 + y.e3⟩

/-- `SHAchoose`. -/
def shaChoose (x y z : UInt32) : UInt32 := ((y ^^^ z) &&& x) ^^^ z

/-- `SHAmajority`. -/
def shaMajority (x y z : UInt32) : UInt32 := (x &&& y) ||| ((x ||| y) &&& z)

/-- `SHAhashSIGMA0`. -/
def shaHashSigma0 (x : UInt32) : UInt32 :=
  rotateRight x 2 ^^^ rotateRight x 13 ^^^ rotateRight x 22

/-- `SHAhashSIGMA1`. -/
def shaHashSigma1 (x : UInt32) : UInt32 :=
  rotateRight x 6 ^^^ rotateRight x 11 ^^^ rotateRight x 25

/-- One pass of the loop of `SHA256hash`: the top lanes are replaced and the
double vector `Y:X` is rotated left by one lane. -/
def sha256hashPass (w : UInt32) (XY : Uint32x4 × Uint32x4) : Uint32x4 × Uint32x4 :=
  let X := XY.1
  let Y := XY.2
  let chs := shaChoose Y.e0 Y.e1 Y.e2
  let maj := shaMajority X.e0 X.e1 X.e2
  let t := Y.e3 + shaHashSigma1 Y.e0 + chs + w
  let x3 := t + X.e3
  let y3 := t + shaHashSigma0 X.e0 + maj
  (⟨y3, X.e0, X.e1, X.e2⟩, ⟨x3, Y.e0, Y.e1, Y.e2⟩)

/-- `SHA256hash`: four passes, over the lanes of `w`. The two vectors it leaves
are the results of its two parts. -/
def sha256hash (X Y w : Uint32x4) : Uint32x4 × Uint32x4 :=
  sha256hashPass w.e3 (sha256hashPass w.e2 (sha256hashPass w.e1 (sha256hashPass w.e0 (X, Y))))

/-- `vsha256hq_u32` (`SHA256H`): part one of the hash. -/
def vsha256hqU32 (abcd efgh wk : Uint32x4) : Uint32x4 := (sha256hash abcd efgh wk).1

/-- `vsha256h2q_u32` (`SHA256H2`): part two of the hash. -/
def vsha256h2qU32 (efgh abcd wk : Uint32x4) : Uint32x4 := (sha256hash abcd efgh wk).2

/-- `vsha256su0q_u32` (`SHA256SU0`): the first vector plus small sigma zero of
the words one place further on. -/
def vsha256su0qU32 (w0_3 w4_7 : Uint32x4) : Uint32x4 :=
  let sigma := fun x => rotateRight x 7 ^^^ rotateRight x 18 ^^^ (x >>> 3)
  ⟨sigma w0_3.e1 + w0_3.e0, sigma w0_3.e2 + w0_3.e1, sigma w0_3.e3 + w0_3.e2,
    sigma w4_7.e0 + w0_3.e3⟩

/-- `vsha256su1q_u32` (`SHA256SU1`): the lower two lanes mix in the top of
`w12_15`, the upper two the lower two just made. -/
def vsha256su1qU32 (tw0_3 w8_11 w12_15 : Uint32x4) : Uint32x4 :=
  let sigma := fun x => rotateRight x 17 ^^^ rotateRight x 19 ^^^ (x >>> 10)
  let r0 := sigma w12_15.e2 + tw0_3.e0 + w8_11.e1
  let r1 := sigma w12_15.e3 + tw0_3.e1 + w8_11.e2
  let r2 := sigma r0 + tw0_3.e2 + w8_11.e3
  let r3 := sigma r1 + tw0_3.e3 + w12_15.e0
  ⟨r0, r1, r2, r3⟩

/-! ### The compression function -/

/-- What the loop of `compress_block` carries: the two state vectors and the
window `w` of the message schedule. -/
structure Loop where
  /-- Working variables `a` to `d`. -/
  abcd : Uint32x4
  /-- Working variables `e` to `h`. -/
  efgh : Uint32x4
  /-- The window of four schedule vectors. -/
  w : List.Vector Uint32x4 4

/-- The slot of the window that group `n` reads, or the one `k` further on. -/
def slot (n k : ℕ) : Fin 4 := ⟨(n % 4 + k) % 4, Nat.mod_lt _ (by norm_num)⟩

/-- The body of the loop: four rounds, and up to group 12 four new words. -/
def group (s : Loop) (n : ℕ) : Loop :=
  let wk := vaddqU32 (s.w.get (slot n 0)) (vld1qK (n * 4))
  let abcdBefore := s.abcd
  let abcd := vsha256hqU32 s.abcd s.efgh wk
  let efgh := vsha256h2qU32 s.efgh abcdBefore wk
  let w := if n < 12 then
      s.w.set (slot n 0) (vsha256su1qU32
        (vsha256su0qU32 (s.w.get (slot n 0)) (s.w.get (slot n 1)))
        (s.w.get (slot n 2)) (s.w.get (slot n 3)))
    else s.w
  ⟨abcd, efgh, w⟩

/-- The four vectors of a block, each lane read highest byte first. -/
def loadBlock (block : ByteArr 64) : List.Vector Uint32x4 4 :=
  ⟨[vreinterpretqU32U8 (vrev32qU8 (vld1qU8 block 0)),
    vreinterpretqU32U8 (vrev32qU8 (vld1qU8 block 16)),
    vreinterpretqU32U8 (vrev32qU8 (vld1qU8 block 32)),
    vreinterpretqU32U8 (vrev32qU8 (vld1qU8 block 48))], rfl⟩

/-- The first `n` passes of the loop. -/
def groups (n : ℕ) (s : Loop) : Loop := (List.range n).foldl group s

/-- The hardware compression function. -/
def compressBlock (state : State) (block : ByteArr 64) : State :=
  let abcdOrig : Uint32x4 := ⟨state.a, state.b, state.c, state.d⟩
  let efghOrig : Uint32x4 := ⟨state.e, state.f, state.g, state.h⟩
  let s := groups 16 ⟨abcdOrig, efghOrig, loadBlock block⟩
  let abcd := vaddqU32 s.abcd abcdOrig
  let efgh := vaddqU32 s.efgh efghOrig
  ⟨abcd.e0, abcd.e1, abcd.e2, abcd.e3, efgh.e0, efgh.e1, efgh.e2, efgh.e3⟩

/-- The hardware SHA-256. -/
def sha256 (message : Bytes) : ByteArr 32 := sha256With compressBlock message

/-- The hardware double SHA-256. -/
def sha256d (message : Bytes) : ByteArr 32 := sha256dWith compressBlock message

end Neon

/-! ### One vector step is four rounds -/

open Neon

/-- The two spellings of the choose function agree. -/
theorem shaChoose_eq (x y z : UInt32) : shaChoose x y z = ch x y z := by
  apply UInt32.toBitVec_inj.mp
  simp only [shaChoose, ch, UInt32.toBitVec_xor, UInt32.toBitVec_and, UInt32.toBitVec_not]
  refine BitVec.eq_of_getLsbD_eq fun i hi => ?_
  simp only [BitVec.getLsbD_xor, BitVec.getLsbD_and, BitVec.getLsbD_not, hi]
  cases x.toBitVec.getLsbD i <;> cases y.toBitVec.getLsbD i <;> cases z.toBitVec.getLsbD i <;> rfl

/-- The two spellings of the majority function agree. -/
theorem shaMajority_eq (x y z : UInt32) : shaMajority x y z = maj x y z := by
  apply UInt32.toBitVec_inj.mp
  simp only [shaMajority, maj, UInt32.toBitVec_xor, UInt32.toBitVec_and, UInt32.toBitVec_or]
  refine BitVec.eq_of_getLsbD_eq fun i _ => ?_
  simp only [BitVec.getLsbD_xor, BitVec.getLsbD_and, BitVec.getLsbD_or]
  cases x.toBitVec.getLsbD i <;> cases y.toBitVec.getLsbD i <;> cases z.toBitVec.getLsbD i <;> rfl

/-- The two state vectors of a hash state. -/
def pack (v : State) : Uint32x4 × Uint32x4 := (⟨v.a, v.b, v.c, v.d⟩, ⟨v.e, v.f, v.g, v.h⟩)

/-- **One pass of the hardware loop is one round**, on the sum of the schedule
word and the round constant. -/
theorem sha256hashPass_pack (w k : UInt32) (v : State) :
    sha256hashPass (w + k) (pack v) = pack (round k w v) := by
  have ht : v.h + bigSigma1 v.e + ch v.e v.f v.g + (w + k) =
      v.h + bigSigma1 v.e + ch v.e v.f v.g + k + w := by
    rw [UInt32.add_comm w k, ← UInt32.add_assoc]
  have hs0 : shaHashSigma0 v.a = bigSigma0 v.a := rfl
  have hs1 : shaHashSigma1 v.e = bigSigma1 v.e := rfl
  simp only [sha256hashPass, pack, round, shaChoose_eq, shaMajority_eq, hs0, hs1, ht]
  rw [UInt32.add_assoc _ (bigSigma0 v.a), UInt32.add_comm _ v.d]

/-- Lanes `4 * n` to `4 * n + 3` of the message schedule. -/
def quad (block : ByteArr 64) (n : ℕ) : Uint32x4 :=
  ⟨word block (n * 4), word block (n * 4 + 1), word block (n * 4 + 2), word block (n * 4 + 3)⟩

/-- **One vector step is four rounds.** -/
theorem sha256hash_eq (block : ByteArr 64) (n : ℕ) (state : State) :
    let v := rounds (schedule block 64) (n * 4) state
    sha256hash (pack v).1 (pack v).2 (vaddqU32 (quad block n) (vld1qK (n * 4))) =
      pack (rounds (schedule block 64) ((n + 1) * 4) state) := by
  intro v
  have hsucc : ∀ m, round (roundConstant m) (word block m) (rounds (schedule block 64) m state) =
      rounds (schedule block 64) (m + 1) state := fun m => (rounds_succ _ m state).symm
  simp only [sha256hash, vaddqU32, quad, vld1qK]
  rw [Prod.mk.eta, sha256hashPass_pack, hsucc, sha256hashPass_pack, hsucc, sha256hashPass_pack,
    hsucc, sha256hashPass_pack, hsucc, Nat.succ_mul]

/-! ### The rolling window -/

/-- **What the window holds before group `n`**: for each of the four groups from
`n` on, as far as there are any, its words in its slot. -/
def WindowAt (block : ByteArr 64) (n : ℕ) (w : List.Vector Uint32x4 4) : Prop :=
  ∀ k, k < 4 → n + k < 16 → w.get (slot n k) = quad block (n + k)

theorem vsha256su0qU32_eq (x y : Uint32x4) : vsha256su0qU32 x y =
    ⟨smallSigma0 x.e1 + x.e0, smallSigma0 x.e2 + x.e1, smallSigma0 x.e3 + x.e2,
      smallSigma0 y.e0 + x.e3⟩ := rfl

theorem vsha256su1qU32_eq (x y z : Uint32x4) : vsha256su1qU32 x y z =
    ⟨smallSigma1 z.e2 + x.e0 + y.e1, smallSigma1 z.e3 + x.e1 + y.e2,
      smallSigma1 (smallSigma1 z.e2 + x.e0 + y.e1) + x.e2 + y.e3,
      smallSigma1 (smallSigma1 z.e3 + x.e1 + y.e2) + x.e3 + z.e0⟩ := rfl

/-- The order in which the extension adds its four terms. -/
theorem add_rotate (x y z t : UInt32) : x + y + z + t = x + (z + t) + y := by
  ac_rfl

/-- The four words after the sixteen of a full window, from its four vectors. -/
theorem quad_add_four (block : ByteArr 64) {n : ℕ} (h : n < 12) :
    vsha256su1qU32 (vsha256su0qU32 (quad block n) (quad block (n + 1)))
      (quad block (n + 2)) (quad block (n + 3)) = quad block (n + 4) := by
  have hrec : ∀ i, i < 4 → word block (n * 4 + i + 16) =
      smallSigma1 (word block (n * 4 + i + 14)) +
        (smallSigma0 (word block (n * 4 + i + 1)) + word block (n * 4 + i)) +
        word block (n * 4 + i + 9) := by
    intro i hi
    rw [word_add_sixteen block (by omega), add_rotate]
  have h0 := hrec 0 (by omega)
  have h1 := hrec 1 (by omega)
  have h2 := hrec 2 (by omega)
  have h3 := hrec 3 (by omega)
  simp only [Nat.add_zero, Nat.add_assoc, Nat.reduceAdd] at h0 h1 h2 h3
  simp only [vsha256su1qU32_eq, vsha256su0qU32_eq, quad, Nat.add_mul, Nat.add_assoc,
    Nat.reduceMul, Nat.reduceAdd]
  rw [h2, h3, h0, h1]

theorem slot_zero_eq (n : ℕ) : slot (n + 1) 3 = slot n 0 := by
  refine Fin.ext ?_
  simp only [slot]
  omega

theorem slot_succ_eq (n k : ℕ) : slot (n + 1) k = slot n (k + 1) := by
  refine Fin.ext ?_
  simp only [slot]
  omega

theorem slot_ne {n k : ℕ} (hk : 0 < k) (hk4 : k < 4) : slot n k ≠ slot n 0 := by
  intro h
  have hval := congrArg Fin.val h
  simp only [slot] at hval
  omega

/-- **The window rolls on**: after group `n` it is the window of group `n + 1`. -/
theorem windowAt_group {block : ByteArr 64} {n : ℕ} {s : Loop} (h : WindowAt block n s.w) :
    WindowAt block (n + 1) (group s n).w := by
  intro k hk hlt
  rcases Nat.lt_or_ge k 3 with hk3 | hk3
  · -- A slot the step does not write: it was one place further on in the window.
    have hold : s.w.get (slot n (k + 1)) = quad block (n + (k + 1)) :=
      h (k + 1) (by omega) (by omega)
    have hne : slot n 0 ≠ slot n (k + 1) := (slot_ne (by omega) (by omega)).symm
    rw [slot_succ_eq, show n + 1 + k = n + (k + 1) by omega, ← hold]
    simp only [group]
    split_ifs
    · exact List.Vector.get_set_of_ne hne _
    · rfl
  · -- The slot just read, which now holds the group four ahead.
    have hk3 : k = 3 := by omega
    subst hk3
    have hn : n < 12 := by omega
    simp only [group, if_pos hn]
    rw [slot_zero_eq, List.Vector.get_set_same, h 0 (by omega) (by omega),
      h 1 (by omega) (by omega), h 2 (by omega) (by omega), h 3 (by omega) (by omega)]
    exact quad_add_four block hn

/-- A lane of a loaded vector is the big-endian word of the block. -/
theorem vreinterpretqU32U8_rev (block : ByteArr 64) (offset : ℕ) :
    vreinterpretqU32U8 (vrev32qU8 (vld1qU8 block offset)) =
      ⟨beWord block offset, beWord block (offset + 4), beWord block (offset + 8),
        beWord block (offset + 12)⟩ := by
  simp [vreinterpretqU32U8, vrev32qU8, vld1qU8, beWord, Base256.ofBE, Nat.add_assoc]

/-- The block as loaded is the window of group 0. -/
theorem windowAt_loadBlock (block : ByteArr 64) : WindowAt block 0 (loadBlock block) := by
  intro k hk _
  have hquad : quad block k = ⟨beWord block (k * 16), beWord block (k * 16 + 4),
      beWord block (k * 16 + 8), beWord block (k * 16 + 12)⟩ := by
    simp only [quad]
    rw [word_of_lt block (by omega), word_of_lt block (by omega), word_of_lt block (by omega),
      word_of_lt block (by omega), show k * 4 * 4 = k * 16 by omega,
      show (k * 4 + 1) * 4 = k * 16 + 4 by omega, show (k * 4 + 2) * 4 = k * 16 + 8 by omega,
      show (k * 4 + 3) * 4 = k * 16 + 12 by omega]
  rw [Nat.zero_add, hquad, ← vreinterpretqU32U8_rev]
  obtain rfl | rfl | rfl | rfl : k = 0 ∨ k = 1 ∨ k = 2 ∨ k = 3 := by omega
  all_goals rfl

/-! ### The two compression functions -/

/-- **The simulation**: after `n` vector steps the hardware loop holds the
working variables of `4 * n` rounds, and the window of group `n`. -/
theorem groups_eq (state : State) (block : ByteArr 64) : ∀ n, n ≤ 16 →
    let s := groups n ⟨(pack state).1, (pack state).2, loadBlock block⟩
    (s.abcd, s.efgh) = pack (rounds (schedule block 64) (n * 4) state) ∧
      WindowAt block n s.w := by
  intro n
  induction n with
  | zero => exact fun _ => ⟨rfl, windowAt_loadBlock block⟩
  | succ n ih =>
    intro hn
    obtain ⟨hpack, hwin⟩ := ih (by omega)
    have hstep : groups (n + 1) ⟨(pack state).1, (pack state).2, loadBlock block⟩ =
        group (groups n ⟨(pack state).1, (pack state).2, loadBlock block⟩) n := by
      rw [groups, List.range_succ, List.foldl_append]
      rfl
    rw [hstep]
    refine ⟨?_, windowAt_group hwin⟩
    have hread := hwin 0 (by omega) (by omega)
    have habcd := congrArg Prod.fst hpack
    have hefgh := congrArg Prod.snd hpack
    simp only at habcd hefgh
    simp only [group, vsha256hqU32, vsha256h2qU32, Prod.mk.eta]
    rw [hread, habcd, hefgh]
    exact sha256hash_eq block n state

/-- The two compression functions are the same. -/
theorem neon_compressBlock_eq : Neon.compressBlock = Reference.compressBlock := by
  funext state block
  obtain ⟨hpack, -⟩ := groups_eq state block 16 le_rfl
  have habcd := congrArg Prod.fst hpack
  have hefgh := congrArg Prod.snd hpack
  simp only [pack] at habcd hefgh
  simp only [Neon.compressBlock, Reference.compressBlock, habcd, hefgh, vaddqU32, feedForward,
    Nat.reduceMul, UInt32.add_comm]

/-- **Hardware and portable SHA-256 are the same function**: the compression
functions agree on every state and block, and so the hashes on every message. -/
theorem neon_eq_reference :
    (∀ (state : State) (block : ByteArr 64),
      Neon.compressBlock state block = Reference.compressBlock state block) ∧
    ∀ message : Bytes, Neon.sha256d message = Reference.sha256d message := by
  refine ⟨fun state block => congrFun₂ neon_compressBlock_eq state block, fun message => ?_⟩
  rw [Neon.sha256d, neon_compressBlock_eq, Reference.sha256d]

end Sha256d

end SoloMiner
