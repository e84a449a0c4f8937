import SoloMiner.Primitives.Merkle

/-!
# What a merkle root commits to

A root determines the list that it is computed from, if the length of the list is known
and no two of the pairs that are hashed on the way collide
(`SoloMiner.Merkle.merkleRoot_inj`): a level gives its pairs, these its nodes, and these
with the length the level itself.

Without the length it does not. A list of an odd number of blocks of `2 ^ k` ids, at least
three, has the root of the list with the last block twice
(`SoloMiner.Merkle.merkleRoot_duplicate`): `k` levels up the blocks have become an odd
number of nodes, and the last of them is repeated either way.
-/

namespace SoloMiner

namespace Merkle

/-! ### The pairs of a level -/

/-- The pairs of all levels that the loop of `merkle_root` hashes. -/
def climbPairs : ℕ → List Sha256dHash → List (Sha256dHash × Sha256dHash)
  | 0, _ => []
  | fuel + 1, level =>
    if level.length > 1 then levelPairs level ++ climbPairs fuel (nextLevel level) else []

/-- The pairs that are hashed for the root of a list. -/
def hashedPairs (leaves : List Sha256dHash) : List (Sha256dHash × Sha256dHash) :=
  climbPairs leaves.length leaves

/-- Hashing is injective between the pairs that are hashed for two lists. -/
def NoCollision (pairs pairs' : List (Sha256dHash × Sha256dHash)) : Prop :=
  ∀ a b c d, (a, b) ∈ pairs → (c, d) ∈ pairs' → combine a b = combine c d → a = c ∧ b = d

variable {level level' : List Sha256dHash}

theorem length_evened (level : List Sha256dHash) :
    (evened level).length = 2 * ((level.length + 1) / 2) := by
  rw [evened]
  split_ifs with hodd
  · rw [List.length_append, List.length_singleton]
    omega
  · omega

theorem length_nextLevel (level : List Sha256dHash) :
    (nextLevel level).length = (level.length + 1) / 2 := by
  rw [nextLevel, List.length_map, length_chunksExact, length_evened]
  omega

theorem nextLevel_eq_map (level : List Sha256dHash) :
    nextLevel level = (levelPairs level).map fun pair => combine pair.1 pair.2 := by
  rw [nextLevel, levelPairs, List.map_map]
  rfl

/-- The level is the start of the evened one. -/
theorem take_evened (level : List Sha256dHash) : (evened level).take level.length = level := by
  rw [evened]
  split_ifs
  · exact List.take_left
  · exact List.take_length

/-- The pairs of a level are the evened level. -/
theorem flatMap_levelPairs (level : List Sha256dHash) :
    ((levelPairs level).map fun pair => [pair.1, pair.2]).flatten = evened level := by
  have hdvd : 2 ∣ (evened level).length := ⟨_, length_evened level⟩
  have hpair : ∀ pair : List.Vector Sha256dHash 2, [pair.get 0, pair.get 1] = pair.toList := by
    rintro ⟨l, hl⟩
    obtain ⟨a, b, rfl⟩ := List.length_eq_two.mp hl
    rfl
  rw [levelPairs, List.map_map]
  refine Eq.trans ?_ (flatten_chunksExact (by norm_num) hdvd)
  exact congrArg List.flatten (List.map_congr_left fun pair _ => hpair pair)

/-- **The pairs of a level determine it**, if its length is known. -/
theorem levelPairs_inj (hlen : level.length = level'.length)
    (h : levelPairs level = levelPairs level') : level = level' := by
  rw [← take_evened level, ← take_evened level', ← flatMap_levelPairs, ← flatMap_levelPairs, h,
    hlen]

theorem NoCollision.mono {pairs pairs' first second : List (Sha256dHash × Sha256dHash)}
    (h : NoCollision pairs pairs') (hfirst : first ⊆ pairs) (hsecond : second ⊆ pairs') :
    NoCollision first second :=
  fun a b c d hab hcd => h a b c d (hfirst hab) (hsecond hcd)

/-- Pairs that do not collide are determined by their nodes. -/
theorem NoCollision.eq_of_map {pairs pairs' : List (Sha256dHash × Sha256dHash)}
    (h : NoCollision pairs pairs')
    (heq : (pairs.map fun pair => combine pair.1 pair.2) =
      pairs'.map fun pair => combine pair.1 pair.2) : pairs = pairs' := by
  induction pairs generalizing pairs' with
  | nil => exact (List.map_eq_nil_iff.mp heq.symm).symm
  | cons pair pairs ih =>
    cases pairs' with
    | nil => exact absurd heq (List.cons_ne_nil _ _)
    | cons pair' pairs' =>
      obtain ⟨hhead, htail⟩ := List.cons.inj heq
      obtain ⟨hleft, hright⟩ := h _ _ _ _ List.mem_cons_self List.mem_cons_self hhead
      have hmono := h.mono (List.subset_cons_self pair pairs) (List.subset_cons_self pair' pairs')
      rw [Prod.ext hleft hright, ih hmono htail]

/-- **The next level determines the one before it**, if the pairs do not collide. -/
theorem nextLevel_inj (hlen : level.length = level'.length)
    (hpairs : NoCollision (levelPairs level) (levelPairs level'))
    (h : nextLevel level = nextLevel level') : level = level' := by
  rw [nextLevel_eq_map, nextLevel_eq_map] at h
  exact levelPairs_inj hlen (hpairs.eq_of_map h)

/-- **The end of the climb determines its start**, if the pairs on the way do not collide. -/
theorem climb_inj {fuel : ℕ} (hlen : level.length = level'.length)
    (hpairs : NoCollision (climbPairs fuel level) (climbPairs fuel level'))
    (h : climb fuel level = climb fuel level') : level = level' := by
  induction fuel generalizing level level' with
  | zero => exact h
  | succ fuel ih =>
    rw [climb, climb, ← hlen] at h
    rw [climbPairs, climbPairs, ← hlen] at hpairs
    split_ifs at h hpairs with hmore
    · refine nextLevel_inj hlen ?_ (ih ?_ ?_ h)
      · exact hpairs.mono (List.subset_append_left _ _) (List.subset_append_left _ _)
      · rw [length_nextLevel, length_nextLevel, hlen]
      · exact hpairs.mono (List.subset_append_right _ _) (List.subset_append_right _ _)
    · exact h

/-- The climb from a list that is not empty ends in one node. -/
theorem climb_eq_singleton {leaves : List Sha256dHash} (hne : leaves ≠ []) :
    ∃ root, climb leaves.length leaves = [root] := by
  obtain ⟨c, ts, rfl⟩ := List.exists_cons_of_ne_nil hne
  exact ⟨_, climb_cons c c (by simp)⟩

/-- **A merkle root commits to its list**, if the length is known and no pairs collide that
are hashed for it and for another list of that length. -/
theorem merkleRoot_inj {l₁ l₂ : List Sha256dHash} (hne : l₁ ≠ []) (hlen : l₁.length = l₂.length)
    (hpairs : NoCollision (hashedPairs l₁) (hashedPairs l₂)) (h : merkleRoot l₁ = merkleRoot l₂) :
    l₁ = l₂ := by
  have hne' : l₂ ≠ [] := List.ne_nil_of_length_pos (hlen ▸ List.length_pos_of_ne_nil hne)
  obtain ⟨root₁, hroot₁⟩ := climb_eq_singleton hne
  obtain ⟨root₂, hroot₂⟩ := climb_eq_singleton hne'
  rw [merkleRoot, merkleRoot, if_neg (mt List.isEmpty_iff.mp hne),
    if_neg (mt List.isEmpty_iff.mp hne'), hroot₁, hroot₂] at h
  obtain rfl : root₁ = root₂ := Option.some.inj h
  rw [hashedPairs, hashedPairs, ← hlen] at hpairs
  rw [← hlen] at hroot₂
  exact climb_inj hlen hpairs (hroot₁.trans hroot₂.symm)

/-- Two lists of two ids, with one pair each. -/
theorem merkleRoot_inj_pair : [Sha256dHash.ZERO, ⟨List.Vector.replicate 32 1⟩] =
    [Sha256dHash.ZERO, ⟨List.Vector.replicate 32 1⟩] := by
  have hpairs : hashedPairs [Sha256dHash.ZERO, ⟨List.Vector.replicate 32 1⟩] =
      [(Sha256dHash.ZERO, ⟨List.Vector.replicate 32 1⟩)] := rfl
  refine merkleRoot_inj (List.cons_ne_nil _ _) rfl ?_ rfl
  intro a b c d hab hcd _
  rw [hpairs, List.mem_singleton] at hab hcd
  exact Prod.mk.inj (hab.trans hcd.symm)

/-! ### The list with its last block twice -/

theorem evened_of_even (h : level.length % 2 = 0) : evened level = level := by
  rw [evened, if_neg (by omega)]

/-- A level in two parts, the first of them even: so is the next level. -/
theorem nextLevel_append (h : level.length % 2 = 0) (h' : level'.length % 2 = 0) :
    nextLevel (level ++ level') = nextLevel level ++ nextLevel level' := by
  have happend : (level ++ level').length % 2 = 0 := by
    rw [List.length_append]
    omega
  rw [nextLevel, nextLevel, nextLevel, evened_of_even h, evened_of_even h',
    evened_of_even happend, chunksExact_append_of_dvd (by norm_num) (Nat.dvd_of_mod_eq_zero h),
    List.map_append]

/-- The nodes of the last `2 * n` nodes of an even level are the last `n` of the next. -/
theorem nextLevel_drop {n : ℕ} (h : level.length % 2 = 0) (hn : 2 * n ≤ level.length) :
    nextLevel (level.drop (level.length - 2 * n)) =
      (nextLevel level).drop ((nextLevel level).length - n) := by
  have htake : (level.take (level.length - 2 * n)).length = level.length - 2 * n := by
    rw [List.length_take]
    omega
  have hdrop : (level.drop (level.length - 2 * n)).length = 2 * n := by
    rw [List.length_drop]
    omega
  have heven : (level.take (level.length - 2 * n)).length % 2 = 0 := by omega
  have heven' : (level.drop (level.length - 2 * n)).length % 2 = 0 := by omega
  have hsplit := nextLevel_append heven heven'
  rw [List.take_append_drop] at hsplit
  rw [hsplit, List.drop_left']
  rw [length_nextLevel, List.length_append, length_nextLevel, length_nextLevel, htake, hdrop]
  omega

/-- More passes than a level has nodes change nothing. -/
theorem climb_eq_of_le {fuel fuel' : ℕ} (h : level.length ≤ fuel + 1)
    (h' : level.length ≤ fuel' + 1) : climb fuel level = climb fuel' level := by
  induction fuel generalizing fuel' level with
  | zero =>
    cases fuel' with
    | zero => rfl
    | succ fuel' => rw [climb, climb, if_neg (by omega)]
  | succ fuel ih =>
    cases fuel' with
    | zero => rw [climb, climb, if_neg (by omega)]
    | succ fuel' =>
      rw [climb, climb]
      split_ifs with hmore
      · refine ih ?_ ?_ <;> rw [length_nextLevel] <;> omega
      · rfl

/-- An odd level with its last node twice is the level evened. -/
theorem append_last_eq_evened (h : level.length % 2 = 1) :
    level ++ level.drop (level.length - 1) = evened level := by
  have hne : level ≠ [] := by
    rintro rfl
    exact absurd h (by decide)
  have hlast : level.drop (level.length - 1) = [level.getLast hne] := List.drop_length_sub_one hne
  rw [evened, if_pos h, hlast, List.getLastD_eq_getLast?, List.getLast?_eq_some_getLast hne]
  rfl

/-- **The next level does not see the last node twice**, if the level is odd. -/
theorem nextLevel_duplicate (h : level.length % 2 = 1) :
    nextLevel (level ++ level.drop (level.length - 1)) = nextLevel level := by
  have heven : (evened level).length % 2 = 0 := by
    rw [length_evened]
    omega
  rw [append_last_eq_evened h, nextLevel, evened_of_even heven]
  rfl

/-- **The climb does not see the last block twice**, if there is an odd number of blocks:
by induction on the levels below the one on which a block is one node. -/
theorem climb_duplicate {k m fuel : ℕ} (hodd : m % 2 = 1) (hm : 3 ≤ m)
    (hlen : level.length = m * 2 ^ k) (hfuel : level.length ≤ fuel) :
    climb fuel (level ++ level.drop (level.length - 2 ^ k)) = climb fuel level := by
  induction k generalizing level fuel with
  | zero =>
    have hlen : level.length = m := by rw [hlen, pow_zero, Nat.mul_one]
    obtain ⟨fuel, rfl⟩ : ∃ passes, fuel = passes + 1 := ⟨fuel - 1, by omega⟩
    rw [climb, climb, if_pos, if_pos (by omega), pow_zero, nextLevel_duplicate (by omega)]
    rw [List.length_append]
    omega
  | succ k ih =>
    have hdouble : m * 2 ^ (k + 1) = 2 * (m * 2 ^ k) := by rw [pow_succ]; ring
    have hblock : 2 ^ (k + 1) = 2 * 2 ^ k := pow_succ' 2 k
    have hle : 3 * 2 ^ k ≤ m * 2 ^ k := Nat.mul_le_mul_right _ hm
    have hpos : 0 < 2 ^ k := Nat.two_pow_pos k
    obtain ⟨fuel, rfl⟩ : ∃ passes, fuel = passes + 1 := ⟨fuel - 1, by omega⟩
    have heven : level.length % 2 = 0 := by omega
    have hdrop : (level.drop (level.length - 2 ^ (k + 1))).length % 2 = 0 := by
      rw [List.length_drop]
      omega
    have hnext : (nextLevel level).length = m * 2 ^ k := by
      rw [length_nextLevel]
      omega
    rw [climb, climb, if_pos, if_pos (by omega), nextLevel_append heven hdrop, hblock,
      nextLevel_drop heven (by omega)]
    · exact ih hnext (by omega)
    · rw [List.length_append]
      omega

/-- **The duplication collision**, at every level: a list of an odd number of blocks of
`2 ^ k` ids, at least three, has the root of the list with its last block twice. -/
theorem merkleRoot_duplicate (k m : ℕ) (hodd : m % 2 = 1) (hm : 3 ≤ m) (l : List Sha256dHash)
    (hlen : l.length = m * 2 ^ k) :
    merkleRoot (l ++ l.drop (l.length - 2 ^ k)) = merkleRoot l := by
  have hpos : 0 < l.length := hlen ▸ Nat.mul_pos (by omega) (Nat.two_pow_pos k)
  have hne : l ≠ [] := List.ne_nil_of_length_pos hpos
  have hlong : (l ++ l.drop (l.length - 2 ^ k)).length ≤ l.length + l.length := by
    rw [List.length_append, List.length_drop]
    omega
  have hclimb : climb (l ++ l.drop (l.length - 2 ^ k)).length (l ++ l.drop (l.length - 2 ^ k)) =
      climb l.length l := by
    rw [climb_eq_of_le (Nat.le_succ _) (hlong.trans (Nat.le_succ _)),
      climb_duplicate hodd hm hlen (Nat.le_add_right _ _)]
    exact climb_eq_of_le (by omega) (by omega)
  have hne' : l ++ l.drop (l.length - 2 ^ k) ≠ [] := List.append_ne_nil_of_left_ne_nil hne _
  rw [merkleRoot, merkleRoot, hclimb, if_neg (mt List.isEmpty_iff.mp hne),
    if_neg (mt List.isEmpty_iff.mp hne')]

/-- The smallest case: three ids, and the last of them once more. -/
theorem merkleRoot_three :
    merkleRoot [.ZERO, ⟨List.Vector.replicate 32 1⟩, ⟨List.Vector.replicate 32 2⟩,
      ⟨List.Vector.replicate 32 2⟩] =
    merkleRoot [.ZERO, ⟨List.Vector.replicate 32 1⟩, ⟨List.Vector.replicate 32 2⟩] :=
  merkleRoot_duplicate 0 3 rfl le_rfl
    [.ZERO, ⟨List.Vector.replicate 32 1⟩, ⟨List.Vector.replicate 32 2⟩] rfl

end Merkle

end SoloMiner
