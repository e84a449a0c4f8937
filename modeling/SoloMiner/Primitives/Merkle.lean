import SoloMiner.Primitives.Hash

/-!
# Merkle trees

The merkle root of a list of ids is computed level by level: an odd level repeats its
last node, and each pair is hashed into a node of the next level. The branch of the
first leaf is its sibling at each level, and from the branch the root can be rebuilt
for any first leaf.

That last fact is what a miner lives on: `SoloMiner.Merkle.merkleRoot_cons` says that
folding a coinbase id into the branch of the others gives the root of the whole list,
whatever stood in the coinbase's place when the branch was computed.
-/

namespace SoloMiner

namespace Merkle

/-- Hashes two child nodes into their parent. -/
def combine (left right : Sha256dHash) : Sha256dHash :=
  let buf := overwrite (zeroArr 64) 0 left.bytes.toList (by simp)
  let buf := overwrite buf 32 right.bytes.toList (by simp)
  .hash buf.toList

/-- A level with its last node repeated if its length is odd. -/
def evened (level : List Sha256dHash) : List Sha256dHash :=
  if level.length % 2 = 1 then level ++ [level.getLastD .ZERO] else level

/-- The nodes of the next level. -/
def nextLevel (level : List Sha256dHash) : List Sha256dHash :=
  (chunksExact 2 (evened level)).map fun pair => combine (pair.get 0) (pair.get 1)

/-- The pairs of a level that are hashed into nodes of the next. -/
def levelPairs (level : List Sha256dHash) : List (Sha256dHash × Sha256dHash) :=
  (chunksExact 2 (evened level)).map fun pair => (pair.get 0, pair.get 1)

/-- The loop of `merkle_root`. The first argument bounds its passes. -/
def climb : ℕ → List Sha256dHash → List Sha256dHash
  | 0, level => level
  | fuel + 1, level => if level.length > 1 then climb fuel (nextLevel level) else level

/-- The merkle root of a list of ids; the empty list has none. -/
def merkleRoot (leaves : List Sha256dHash) : Option Sha256dHash :=
  if leaves.isEmpty then none else some ((climb leaves.length leaves).getD 0 .ZERO)

/-- The loop of `coinbase_branch`: the node next to the first, level by level. -/
def climbBranch : ℕ → List Sha256dHash → List Sha256dHash
  | 0, _ => []
  | fuel + 1, level =>
    if level.length > 1 then
      (evened level).getD 1 .ZERO :: climbBranch fuel (nextLevel level)
    else []

/-- The merkle branch for the first leaf. -/
def coinbaseBranch (leaves : List Sha256dHash) : List Sha256dHash :=
  climbBranch leaves.length leaves

/-- Rebuilds a root from the first leaf and its branch. -/
def rootFromCoinbaseBranch (coinbase : Sha256dHash) (branch : List Sha256dHash) : Sha256dHash :=
  branch.foldl combine coinbase

/-! ### One level -/

/-- A level with two nodes or more, whatever its first one: the second node of the
evened level, and what comes after it. -/
theorem evened_cons {ts : List Sha256dHash} (hts : ts ≠ []) :
    ∃ sibling rest, rest.length ≤ ts.length ∧ ∀ c, evened (c :: ts) = c :: sibling :: rest := by
  obtain ⟨t, ts, rfl⟩ := List.exists_cons_of_ne_nil hts
  by_cases hodd : (t :: ts).length % 2 = 0
  · refine ⟨t, ts ++ [(t :: ts).getLastD .ZERO], by simp, fun c => ?_⟩
    have hlen : (c :: t :: ts).length % 2 = 1 := by
      rw [List.length_cons]
      omega
    rw [evened, if_pos hlen]
    rfl
  · refine ⟨t, ts, by simp, fun c => ?_⟩
    have hlen : ¬ (c :: t :: ts).length % 2 = 1 := by
      rw [List.length_cons]
      omega
    rw [evened, if_neg hlen]

theorem chunksExact_two (a b : Sha256dHash) (l : List Sha256dHash) :
    chunksExact 2 (a :: b :: l) = toArr [a, b] rfl :: chunksExact 2 l :=
  chunksExact_append (by norm_num) (toArr [a, b] rfl) l

/-- The nodes that come of a level after its first two. -/
def pairUp (rest : List Sha256dHash) : List Sha256dHash :=
  (chunksExact 2 rest).map fun pair => combine (pair.get 0) (pair.get 1)

theorem length_pairUp (rest : List Sha256dHash) : (pairUp rest).length = rest.length / 2 := by
  rw [pairUp, List.length_map, length_chunksExact]

/-- **The next level, whatever the first node**: only its first node depends on it. -/
theorem nextLevel_cons {c sibling : Sha256dHash} {ts rest : List Sha256dHash}
    (h : evened (c :: ts) = c :: sibling :: rest) :
    nextLevel (c :: ts) = combine c sibling :: pairUp rest := by
  rw [nextLevel, h, chunksExact_two]
  rfl

/-! ### The branch rebuilds the root -/

/-- **Climbing with a coinbase in front** ends in the fold of the branch, provided
there are as many passes as other leaves. The branch may have been computed with
anything in the coinbase's place. -/
theorem climb_cons {fuel : ℕ} {ts : List Sha256dHash} (c x : Sha256dHash)
    (h : ts.length ≤ fuel) :
    climb fuel (c :: ts) = [rootFromCoinbaseBranch c (climbBranch fuel (x :: ts))] := by
  induction fuel generalizing c x ts with
  | zero =>
    obtain rfl : ts = [] := List.length_eq_zero_iff.mp (Nat.le_zero.mp h)
    rfl
  | succ fuel ih =>
    by_cases hts : ts = []
    · subst hts
      rfl
    · have hpos : 0 < ts.length := List.length_pos_iff.mpr hts
      obtain ⟨sibling, rest, hrest, heven⟩ := evened_cons hts
      have hlen : ∀ y : Sha256dHash, (y :: ts).length > 1 := fun y => by
        rw [List.length_cons]
        omega
      have hnext : (pairUp rest).length ≤ fuel := by
        rw [length_pairUp]
        omega
      rw [climb, if_pos (hlen c), climbBranch, if_pos (hlen x), nextLevel_cons (heven c),
        nextLevel_cons (heven x), heven x, ih (combine c sibling) (combine x sibling) hnext]
      rfl

/-- **The branch rebuilds the root**, for any coinbase id and whatever stood in its
place when the branch was computed. -/
theorem merkleRoot_cons (c x : Sha256dHash) (ts : List Sha256dHash) :
    merkleRoot (c :: ts) = some (rootFromCoinbaseBranch c (coinbaseBranch (x :: ts))) := by
  have hlen : (x :: ts).length = (c :: ts).length := rfl
  rw [merkleRoot, coinbaseBranch, hlen, climb_cons c x (by simp)]
  rfl

end Merkle

end SoloMiner
