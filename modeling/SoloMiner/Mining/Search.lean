import SoloMiner.Primitives.Header
import SoloMiner.Primitives.Numeric

/-!
# The nonce search

The search tries the nonces of an inclusive range in order, keeps the lowest hash it
has seen, and stops at the first that meets the target. It hashes through the midstate
of the header, so a solution is a nonce with which the header itself has that hash
(`SoloMiner.Search.search_solution`).

What a search has to find is said by `SoloMiner.Search.Finds`: the first nonce of the
range that meets the target, the number of nonces tried, and the lowest of their hashes.
The loop keeps the invariant `SoloMiner.Search.Trying` up to the nonce that decides. On
success the best so far is dropped for the hash of the solution, and rightly so: all
hashes before it are above the target. Searches of adjacent ranges compose
(`SoloMiner.Search.Finds.append`).
-/

namespace SoloMiner

namespace Search

/-- A header that meets its target. -/
structure Solution where
  /-- The nonce that solved it. -/
  nonce : UInt32
  /-- The resulting block hash. -/
  hash : Sha256dHash
  deriving DecidableEq

/-- What a search found. -/
structure SearchResult where
  /-- The winning nonce, if the target was met. -/
  solution : Option Solution
  /-- How many hashes were computed. -/
  hashes : UInt64
  /-- The lowest hash seen. -/
  best : Sha256dHash
  /-- The nonce that produced it. -/
  bestNonce : UInt32
  deriving DecidableEq

/-- The loop over the range: `count` nonces from `nonce` on. -/
def sweep (hash : UInt32 → Sha256dHash) (target : Target) :
    ℕ → UInt32 → UInt64 → Sha256dHash → UInt32 → SearchResult
  | 0, _, hashes, best, bestNonce => ⟨none, hashes, best, bestNonce⟩
  | count + 1, nonce, hashes, best, bestNonce =>
    let found := hash nonce
    if target.isMetBy found then ⟨some ⟨nonce, found⟩, hashes + 1, found, nonce⟩
    else if found.isBelow best then sweep hash target count (nonce + 1) (hashes + 1) found nonce
    else sweep hash target count (nonce + 1) (hashes + 1) best bestNonce

/-- The nonces of `lo..=hi`, as many as there are. -/
def rangeCount (lo hi : UInt32) : ℕ := hi.toNat + 1 - lo.toNat

/-- Tries every nonce of the range, stopping early if one meets the target. -/
def search (header : BlockHeader) (target : Target) (lo hi : UInt32) : SearchResult :=
  let hasher := Sha256d.HeaderHasher.new Sha256d.Reference.compressBlock header.serialize
  sweep (fun nonce => ⟨hasher.hash Sha256d.Reference.compressBlock nonce⟩) target
    (rangeCount lo hi) lo 0 ⟨List.Vector.replicate 32 0xFF⟩ 0

/-- A solution of the loop is a hash it computed that meets the target. -/
theorem sweep_solution {hash : UInt32 → Sha256dHash} {target : Target} {count : ℕ}
    {nonce : UInt32} {hashes : UInt64} {best : Sha256dHash} {bestNonce : UInt32}
    {solution : Solution}
    (h : (sweep hash target count nonce hashes best bestNonce).solution = some solution) :
    solution.hash = hash solution.nonce ∧ target.isMetBy solution.hash = true := by
  induction count generalizing nonce hashes best bestNonce with
  | zero => simp [sweep] at h
  | succ count ih =>
    rw [sweep] at h
    split_ifs at h with hmet hbelow
    · obtain rfl := Option.some.inj h
      exact ⟨rfl, hmet⟩
    · exact ih h
    · exact ih h

/-- **A solution is the hash of the header with its nonce**, and meets the target. -/
theorem search_solution {header : BlockHeader} {target : Target} {lo hi : UInt32}
    {solution : Solution} (h : (search header target lo hi).solution = some solution) :
    solution.hash = { header with nonce := solution.nonce }.hash ∧
      target.isMetBy { header with nonce := solution.nonce }.hash = true := by
  obtain ⟨hhash, hmet⟩ := sweep_solution h
  rw [BlockHeader.midstate_eq_hash] at hhash
  exact ⟨hhash, hhash ▸ hmet⟩

/-! ### What a search finds -/

/-- The highest hash, with which the search starts. -/
def ALL_ONES : Sha256dHash := ⟨List.Vector.replicate 32 0xFF⟩

/-- The last nonce that a search over a range tried. -/
def lastTried (hi : UInt32) (result : SearchResult) : UInt32 :=
  match result.solution with
  | some solution => solution.nonce
  | none => hi

/-- The lowest hash of a range of nonces, and where it is. -/
structure Lowest (hash : UInt32 → Sha256dHash) (lo last : UInt32) (best : Sha256dHash)
    (bestNonce : UInt32) : Prop where
  /-- No hash is lower than the best. -/
  le : ∀ nonce, lo ≤ nonce → nonce ≤ last → best.value ≤ (hash nonce).value
  /-- The best is one of the hashes. -/
  attained : ∃ nonce, lo ≤ nonce ∧ nonce ≤ last ∧ hash nonce = best
  /-- Its nonce is known, unless it is the highest hash. -/
  nonce : best.value < ALL_ONES.value →
    lo ≤ bestNonce ∧ bestNonce ≤ last ∧ hash bestNonce = best

/-- What a search of a range for the first nonce whose hash meets a target has to find,
and how it has to count. -/
structure Finds (hash : UInt32 → Sha256dHash) (target : Target) (lo hi : UInt32)
    (result : SearchResult) : Prop where
  /-- There is a solution precisely if a nonce of the range meets the target. -/
  solved_iff : result.solution.isSome = true ↔
    ∃ nonce, lo ≤ nonce ∧ nonce ≤ hi ∧ target.isMetBy (hash nonce) = true
  /-- A solution is the smallest such nonce, with its hash. -/
  solution : ∀ solution, result.solution = some solution →
    lo ≤ solution.nonce ∧ solution.nonce ≤ hi ∧ solution.hash = hash solution.nonce ∧
      target.isMetBy solution.hash = true ∧
        ∀ nonce, lo ≤ nonce → target.isMetBy (hash nonce) = true → solution.nonce ≤ nonce
  /-- Every nonce tried is counted. -/
  hashes : result.hashes.toNat = (lastTried hi result).toNat - lo.toNat + 1
  /-- The best is the lowest of the hashes tried. -/
  lowest : Lowest hash lo (lastTried hi result) result.best result.bestNonce

/-- The invariant of the loop, with `n` the next nonce: those before it were counted, and
missed the target, and the best of them is kept. -/
structure Trying (hash : UInt32 → Sha256dHash) (target : Target) (lo : UInt32) (n : ℕ)
    (hashes : UInt64) (best : Sha256dHash) (bestNonce : UInt32) : Prop where
  counted : lo.toNat + hashes.toNat = n
  missed : ∀ nonce, lo ≤ nonce → nonce.toNat < n → target.value < (hash nonce).value
  lowest : ∀ nonce, lo ≤ nonce → nonce.toNat < n → best.value ≤ (hash nonce).value
  best : best = ALL_ONES ∨ lo ≤ bestNonce ∧ bestNonce.toNat < n ∧ hash bestNonce = best

section Loop

variable {hash : UInt32 → Sha256dHash} {target : Target} {lo hi : UInt32} {n : ℕ}
  {hashes : UInt64} {best : Sha256dHash} {bestNonce : UInt32}

theorem value_le_ALL_ONES (h : Sha256dHash) : h.value ≤ ALL_ONES.value := by
  have hones : ALL_ONES.value = 2 ^ 256 - 1 := by decide +kernel
  have hlt := h.value_lt
  omega

theorem trying_start (hash : UInt32 → Sha256dHash) (target : Target) (lo : UInt32) :
    Trying hash target lo lo.toNat 0 ALL_ONES 0 where
  counted := rfl
  missed _ hlo hn := absurd (UInt32.le_iff_toNat_le.mp hlo) (not_le.mpr hn)
  lowest _ hlo hn := absurd (UInt32.le_iff_toNat_le.mp hlo) (not_le.mpr hn)
  best := Or.inl rfl

/-- The nonce after those before `n`. -/
theorem eq_ofNat_of_not_lt {nonce : UInt32} (h : nonce.toNat < n + 1) (hn : ¬ nonce.toNat < n) :
    nonce = UInt32.ofNat n := by
  obtain rfl : nonce.toNat = n := by omega
  exact UInt32.ofNat_toNat.symm

/-- **A nonce that misses**: the best is the hash of it or the best before, whichever is
lower. -/
theorem Trying.miss (h : Trying hash target lo n hashes best bestNonce) (hlo : lo.toNat ≤ n)
    (hn : n < 2 ^ 32) (hmiss : target.value < (hash (UInt32.ofNat n)).value)
    {best' : Sha256dHash} {bestNonce' : UInt32} (hbest : best'.value ≤ best.value)
    (hfound : best'.value ≤ (hash (UInt32.ofNat n)).value)
    (hor : best' = hash (UInt32.ofNat n) ∧ bestNonce' = UInt32.ofNat n ∨
      best' = best ∧ bestNonce' = bestNonce) :
    Trying hash target lo (n + 1) (hashes + 1) best' bestNonce' where
  counted := by
    have hcounted := h.counted
    rw [UInt64.toNat_add, UInt64.toNat_one]
    omega
  missed nonce hnonce hlt := by
    by_cases hbefore : nonce.toNat < n
    · exact h.missed nonce hnonce hbefore
    · exact eq_ofNat_of_not_lt hlt hbefore ▸ hmiss
  lowest nonce hnonce hlt := by
    by_cases hbefore : nonce.toNat < n
    · exact hbest.trans (h.lowest nonce hnonce hbefore)
    · exact eq_ofNat_of_not_lt hlt hbefore ▸ hfound
  best := by
    rcases hor with ⟨rfl, rfl⟩ | ⟨rfl, rfl⟩
    · have htoNat : (UInt32.ofNat n).toNat = n := UInt32.toNat_ofNat_of_lt' hn
      refine Or.inr ⟨UInt32.le_iff_toNat_le.mpr ?_, ?_, rfl⟩
      · rwa [htoNat]
      · rw [htoNat]
        exact Nat.lt_succ_self n
    · exact h.best.imp_right fun ⟨hle, hlt, heq⟩ => ⟨hle, Nat.lt_succ_of_lt hlt, heq⟩

/-- **A nonce that meets the target** ends the search. Its hash is the lowest of all: those
before it are above the target. -/
theorem Trying.hit (h : Trying hash target lo n hashes best bestNonce) (hlo : lo.toNat ≤ n)
    (hn : n ≤ hi.toNat) (hmet : target.isMetBy (hash (UInt32.ofNat n)) = true) :
    Finds hash target lo hi
      ⟨some ⟨UInt32.ofNat n, hash (UInt32.ofNat n)⟩, hashes + 1, hash (UInt32.ofNat n),
        UInt32.ofNat n⟩ := by
  have htoNat : (UInt32.ofNat n).toNat = n :=
    UInt32.toNat_ofNat_of_lt' (lt_of_le_of_lt hn hi.toNat_lt)
  have hle : lo ≤ UInt32.ofNat n := UInt32.le_iff_toNat_le.mpr (htoNat.symm ▸ hlo)
  have hhi : UInt32.ofNat n ≤ hi := UInt32.le_iff_toNat_le.mpr (htoNat.symm ▸ hn)
  refine ⟨iff_of_true rfl ⟨_, hle, hhi, hmet⟩, ?_, ?_, ?_,
    ⟨_, hle, UInt32.le_refl _, rfl⟩, fun _ => ⟨hle, UInt32.le_refl _, rfl⟩⟩
  · rintro solution hsolution
    obtain rfl := Option.some.inj hsolution
    refine ⟨hle, hhi, rfl, hmet, fun nonce hnonce hmet' => ?_⟩
    refine UInt32.le_iff_toNat_le.mpr (not_lt.mp fun hlt => ?_)
    have habove := h.missed nonce hnonce (htoNat ▸ hlt)
    exact absurd (Target.isMetBy_iff.mp hmet') (not_le.mpr habove)
  · have hcounted := h.counted
    have hlt := hi.toNat_lt
    change (hashes + 1).toNat = (UInt32.ofNat n).toNat - lo.toNat + 1
    rw [UInt64.toNat_add, UInt64.toNat_one, htoNat]
    omega
  · intro nonce hnonce hlast
    change nonce ≤ UInt32.ofNat n at hlast
    by_cases hbefore : nonce.toNat < n
    · have habove := h.missed nonce hnonce hbefore
      exact (Target.isMetBy_iff.mp hmet).trans habove.le
    · have hlast := UInt32.le_iff_toNat_le.mp hlast
      rw [eq_ofNat_of_not_lt (by omega) hbefore]

/-- **A range without a solution** is searched to its end. -/
theorem Trying.exhausted (h : Trying hash target lo (hi.toNat + 1) hashes best bestNonce)
    (hlohi : lo ≤ hi) : Finds hash target lo hi ⟨none, hashes, best, bestNonce⟩ := by
  have hlt : ∀ {nonce : UInt32}, nonce ≤ hi ↔ nonce.toNat < hi.toNat + 1 := by
    intro nonce
    rw [UInt32.le_iff_toNat_le]
    omega
  have hlow : ∀ nonce, lo ≤ nonce → nonce ≤ hi → best.value ≤ (hash nonce).value :=
    fun nonce hnonce hle => h.lowest nonce hnonce (hlt.mp hle)
  refine ⟨iff_of_false Bool.false_ne_true ?_, ?_, ?_, hlow, ?_, ?_⟩
  · rintro ⟨nonce, hnonce, hle, hmet⟩
    exact absurd (Target.isMetBy_iff.mp hmet) (not_le.mpr (h.missed nonce hnonce (hlt.mp hle)))
  · rintro solution hsolution
    exact absurd hsolution (Option.some_ne_none _).symm
  · have hcounted := h.counted
    have hle := UInt32.le_iff_toNat_le.mp hlohi
    change hashes.toNat = hi.toNat - lo.toNat + 1
    omega
  · rcases h.best with hbest | ⟨hle, hn, heq⟩
    · -- Nothing was below the highest hash, so the first hash is that one.
      refine ⟨lo, UInt32.le_refl lo, hlohi, Sha256dHash.value_injective (le_antisymm ?_ ?_)⟩
      · exact hbest ▸ value_le_ALL_ONES (hash lo)
      · exact hlow lo (UInt32.le_refl lo) hlohi
    · exact ⟨bestNonce, hle, hlt.mpr hn, heq⟩
  · intro hbelow
    rcases h.best with hbest | ⟨hle, hn, heq⟩
    · exact absurd hbelow (not_lt.mpr (congrArg Sha256dHash.value hbest).ge)
    · exact ⟨hle, hlt.mpr hn, heq⟩

/-- **The loop finds what it has to**, from any nonce on before which the invariant holds. -/
theorem Trying.sweep_finds {count : ℕ} (h : Trying hash target lo n hashes best bestNonce)
    (hlohi : lo ≤ hi) (hlo : lo.toNat ≤ n) (hn : n + count = hi.toNat + 1) :
    Finds hash target lo hi (sweep hash target count (UInt32.ofNat n) hashes best bestNonce) := by
  induction count generalizing n hashes best bestNonce with
  | zero =>
    obtain rfl : n = hi.toNat + 1 := hn
    exact h.exhausted hlohi
  | succ count ih =>
    have hlt := hi.toNat_lt
    have hnext : UInt32.ofNat n + 1 = UInt32.ofNat (n + 1) := (UInt32.ofNat_add n 1).symm
    rw [sweep]
    split_ifs with hmet hbelow
    · exact h.hit hlo (by omega) hmet
    · have hmiss := not_le.mp (mt Target.isMetBy_iff.mpr hmet)
      have hbest := (Sha256dHash.isBelow_iff.mp hbelow).le
      rw [hnext]
      exact ih (h.miss hlo (by omega) hmiss hbest le_rfl (Or.inl ⟨rfl, rfl⟩)) (by omega) (by omega)
    · have hmiss := not_le.mp (mt Target.isMetBy_iff.mpr hmet)
      have hfound := not_lt.mp (mt Sha256dHash.isBelow_iff.mpr hbelow)
      rw [hnext]
      exact ih (h.miss hlo (by omega) hmiss le_rfl hfound (Or.inr ⟨rfl, rfl⟩)) (by omega) (by omega)

/-! ### Adjacent ranges -/

variable {result first second : SearchResult} {mid last : UInt32} {best' : Sha256dHash}
  {bestNonce' : UInt32}

/-- The lowest hash is determined. -/
theorem Lowest.unique (h : Lowest hash lo last best bestNonce)
    (h' : Lowest hash lo last best' bestNonce') : best = best' := by
  obtain ⟨nonce, hlo, hle, heq⟩ := h.attained
  obtain ⟨nonce', hlo', hle', heq'⟩ := h'.attained
  refine Sha256dHash.value_injective (le_antisymm ?_ ?_)
  · exact heq' ▸ h.le nonce' hlo' hle'
  · exact heq ▸ h'.le nonce hlo hle

/-- The nonces behind the first of two adjacent ranges. -/
theorem succ_le_iff (hmid : mid < hi) {nonce : UInt32} : mid + 1 ≤ nonce ↔ ¬ nonce ≤ mid := by
  have hlt := UInt32.lt_iff_toNat_lt.mp hmid
  have hhi := hi.toNat_lt
  rw [UInt32.le_iff_toNat_le, UInt32.le_iff_toNat_le, UInt32.toNat_add, UInt32.toNat_one]
  omega

/-- **The lowest of two adjacent ranges** is the lower one of the two. -/
theorem Lowest.append (h : Lowest hash lo mid best bestNonce)
    (h' : Lowest hash (mid + 1) last best' bestNonce') (hlo : lo ≤ mid) (hmid : mid < last) :
    Lowest hash lo last (if best'.isBelow best then best' else best)
      (if best'.isBelow best then bestNonce' else bestNonce) := by
  have hfirst : ∀ {nonce}, nonce ≤ mid → nonce ≤ last := fun hle =>
    UInt32.le_trans hle (UInt32.le_of_lt hmid)
  have hsecond : ∀ {nonce}, mid + 1 ≤ nonce → lo ≤ nonce := fun hle =>
    UInt32.le_trans hlo (UInt32.le_of_lt (UInt32.not_le.mp ((succ_le_iff hmid).mp hle)))
  split_ifs with hbelow
  · have hlt := Sha256dHash.isBelow_iff.mp hbelow
    refine ⟨fun nonce hnonce hle => ?_, ?_, fun hones => ?_⟩
    · by_cases hin : nonce ≤ mid
      · exact hlt.le.trans (h.le nonce hnonce hin)
      · exact h'.le nonce ((succ_le_iff hmid).mpr hin) hle
    · obtain ⟨nonce, hnonce, hle, heq⟩ := h'.attained
      exact ⟨nonce, hsecond hnonce, hle, heq⟩
    · obtain ⟨hnonce, hle, heq⟩ := h'.nonce hones
      exact ⟨hsecond hnonce, hle, heq⟩
  · have hle' := not_lt.mp (mt Sha256dHash.isBelow_iff.mpr hbelow)
    refine ⟨fun nonce hnonce hle => ?_, ?_, fun hones => ?_⟩
    · by_cases hin : nonce ≤ mid
      · exact h.le nonce hnonce hin
      · exact hle'.trans (h'.le nonce ((succ_le_iff hmid).mpr hin) hle)
    · obtain ⟨nonce, hnonce, hle, heq⟩ := h.attained
      exact ⟨nonce, hnonce, hfirst hle, heq⟩
    · obtain ⟨hnonce, hle, heq⟩ := h.nonce hones
      exact ⟨hnonce, hfirst hle, heq⟩

/-- The last nonce tried is in the range. -/
theorem Finds.lastTried_mem (h : Finds hash target lo hi result) (hlohi : lo ≤ hi) :
    lo ≤ lastTried hi result ∧ lastTried hi result ≤ hi := by
  rw [lastTried]
  cases hsolution : result.solution with
  | none => exact ⟨hlohi, UInt32.le_refl hi⟩
  | some solution =>
    obtain ⟨hlo, hhi, -⟩ := h.solution solution hsolution
    exact ⟨hlo, hhi⟩

theorem Finds.hashes_le (h : Finds hash target lo hi result) : result.hashes.toNat ≤ 2 ^ 32 := by
  have hlast := (lastTried hi result).toNat_lt
  rw [h.hashes]
  omega

/-- **What a search finds is determined**: solution, count and best. -/
theorem Finds.unique (h : Finds hash target lo hi first) (h' : Finds hash target lo hi second) :
    first.solution = second.solution ∧ first.hashes = second.hashes ∧ first.best = second.best := by
  have hsolution : first.solution = second.solution := by
    have hiff := h.solved_iff.trans h'.solved_iff.symm
    cases hfirst : first.solution with
    | none =>
      rw [hfirst] at hiff
      exact (Option.not_isSome_iff_eq_none.mp fun hsome => by simpa using hiff.mpr hsome).symm
    | some solution =>
      rw [hfirst] at hiff
      obtain ⟨solution', hsecond⟩ := Option.isSome_iff_exists.mp (hiff.mp rfl)
      obtain ⟨hlo, -, hhash, hmet, hleast⟩ := h.solution solution hfirst
      obtain ⟨hlo', -, hhash', hmet', hleast'⟩ := h'.solution solution' hsecond
      have hnonce : solution.nonce = solution'.nonce :=
        UInt32.le_antisymm (hleast _ hlo' (hhash' ▸ hmet')) (hleast' _ hlo (hhash ▸ hmet))
      rw [hsecond]
      obtain ⟨nonce, found⟩ := solution
      obtain ⟨nonce', found'⟩ := solution'
      obtain rfl : nonce = nonce' := hnonce
      exact congrArg (fun found => some (Solution.mk nonce found)) (hhash.trans hhash'.symm)
  have hlast : lastTried hi first = lastTried hi second := by rw [lastTried, lastTried, hsolution]
  refine ⟨hsolution, ?_, ?_⟩
  · rw [← UInt64.toNat_inj, h.hashes, h'.hashes, hlast]
  · exact (hlast ▸ h.lowest).unique h'.lowest

/-- **A solution ends the search**, however far the range goes on. -/
theorem Finds.extend (h : Finds hash target lo mid result) (hmid : mid ≤ hi)
    (hsolved : result.solution.isSome = true) : Finds hash target lo hi result := by
  obtain ⟨solution, hsolution⟩ := Option.isSome_iff_exists.mp hsolved
  have hlast : lastTried hi result = lastTried mid result := by
    rw [lastTried, lastTried, hsolution]
  obtain ⟨nonce, hlo, hle, hmet⟩ := h.solved_iff.mp hsolved
  refine ⟨iff_of_true hsolved ⟨nonce, hlo, UInt32.le_trans hle hmid, hmet⟩, ?_, ?_, ?_⟩
  · intro solution hsolution
    obtain ⟨hlo, hle, hrest⟩ := h.solution solution hsolution
    exact ⟨hlo, UInt32.le_trans hle hmid, hrest⟩
  · rw [hlast]
    exact h.hashes
  · rw [hlast]
    exact h.lowest

/-- The result of searching one range after another in which nothing was found. -/
def SearchResult.append (first second : SearchResult) : SearchResult :=
  ⟨second.solution, first.hashes + second.hashes,
    if second.best.isBelow first.best then second.best else first.best,
    if second.best.isBelow first.best then second.bestNonce else first.bestNonce⟩

/-- **Two adjacent searches** find what one search of both ranges finds, if there is
nothing in the first. -/
theorem Finds.append (h : Finds hash target lo mid first) (hnone : first.solution = none)
    (h' : Finds hash target (mid + 1) hi second) (hlo : lo ≤ mid) (hmid : mid < hi) :
    Finds hash target lo hi (first.append second) := by
  have hfirst : lastTried mid first = mid := by rw [lastTried, hnone]
  obtain ⟨hlast, hlast_hi⟩ := h'.lastTried_mem ((succ_le_iff hmid).mpr (UInt32.not_le.mpr hmid))
  have hmid_last : mid < lastTried hi second := UInt32.not_le.mp ((succ_le_iff hmid).mp hlast)
  have hsecond : ∀ {nonce}, mid + 1 ≤ nonce → lo ≤ nonce := fun hle =>
    UInt32.le_trans hlo (UInt32.le_of_lt (UInt32.not_le.mp ((succ_le_iff hmid).mp hle)))
  -- Nothing meets the target before the second range.
  have hmiss : ∀ {nonce}, lo ≤ nonce → target.isMetBy (hash nonce) = true → mid + 1 ≤ nonce := by
    refine fun {nonce} hnonce hmet => (succ_le_iff hmid).mpr fun hle => ?_
    have hsolved := h.solved_iff.mpr ⟨nonce, hnonce, hle, hmet⟩
    rw [hnone] at hsolved
    exact Bool.false_ne_true hsolved
  refine ⟨h'.solved_iff.trans ⟨?_, ?_⟩, ?_, ?_, ?_⟩
  · rintro ⟨nonce, hnonce, hle, hmet⟩
    exact ⟨nonce, hsecond hnonce, hle, hmet⟩
  · rintro ⟨nonce, hnonce, hle, hmet⟩
    exact ⟨nonce, hmiss hnonce hmet, hle, hmet⟩
  · intro solution hsolution
    obtain ⟨hnonce, hle, hhash, hmet, hleast⟩ := h'.solution solution hsolution
    exact ⟨hsecond hnonce, hle, hhash, hmet, fun nonce hn hm => hleast nonce (hmiss hn hm) hm⟩
  · have hhashes := h.hashes
    have hhashes' := h'.hashes
    have hhi := hi.toNat_lt
    have hsucc : (mid + 1).toNat = (mid.toNat + 1) % 2 ^ 32 := by
      rw [UInt32.toNat_add, UInt32.toNat_one]
    rw [hfirst] at hhashes
    rw [UInt32.le_iff_toNat_le] at hlo hlast_hi
    rw [UInt32.lt_iff_toNat_lt] at hmid hmid_last
    change (first.hashes + second.hashes).toNat = (lastTried hi second).toNat - lo.toNat + 1
    rw [UInt64.toNat_add]
    omega
  · have hlowest := h.lowest
    rw [hfirst] at hlowest
    exact hlowest.append h'.lowest hlo hmid_last

end Loop

/-- The search hashes the header with each nonce of the range. -/
theorem search_eq (header : BlockHeader) (target : Target) (lo hi : UInt32) :
    search header target lo hi = sweep (fun nonce => { header with nonce }.hash) target
      (rangeCount lo hi) lo 0 ALL_ONES 0 := by
  rw [search]
  exact congrArg (fun hash => sweep hash target (rangeCount lo hi) lo 0 ALL_ONES 0)
    (funext fun nonce => header.midstate_eq_hash nonce)

theorem finds_search (header : BlockHeader) (target : Target) {lo hi : UInt32} (h : lo ≤ hi) :
    Finds (fun nonce => { header with nonce }.hash) target lo hi (search header target lo hi) := by
  have hle := UInt32.le_iff_toNat_le.mp h
  have hcount : lo.toNat + rangeCount lo hi = hi.toNat + 1 := by
    rw [rangeCount]
    omega
  have hfinds := (trying_start (fun nonce => { header with nonce }.hash) target lo).sweep_finds
    h le_rfl hcount
  rwa [UInt32.ofNat_toNat, ← search_eq] at hfinds

/-- **The nonce search is sound, complete and counts honestly**, for every header, target
and range: it has a solution precisely if a nonce of the range meets the target, and then
the smallest, with its hash; it counts the nonces tried; and its best is the lowest of
their hashes. -/
theorem search_sound_complete (header : BlockHeader) (target : Target) (lo hi : UInt32)
    (h : lo ≤ hi) :
    let hash := fun nonce => { header with nonce }.hash
    let result := search header target lo hi
    let Tried := fun nonce => lo ≤ nonce ∧ nonce ≤ lastTried hi result
    (result.solution.isSome = true ↔
      ∃ nonce, lo ≤ nonce ∧ nonce ≤ hi ∧ target.isMetBy (hash nonce) = true) ∧
    (∀ solution, result.solution = some solution →
      (lo ≤ solution.nonce ∧ solution.nonce ≤ hi ∧
        target.isMetBy (hash solution.nonce) = true ∧
        ∀ nonce, lo ≤ nonce → target.isMetBy (hash nonce) = true → solution.nonce ≤ nonce) ∧
      solution.hash = hash solution.nonce ∧
      result.hashes.toNat = solution.nonce.toNat - lo.toNat + 1) ∧
    (result.solution = none → result.hashes.toNat = hi.toNat - lo.toNat + 1) ∧
    ((∃ nonce, Tried nonce ∧ hash nonce = result.best) ∧
      ∀ nonce, Tried nonce → result.best.value ≤ (hash nonce).value) ∧
    ((∃ nonce, Tried nonce ∧ (hash nonce).value < ALL_ONES.value) →
      Tried result.bestNonce ∧ hash result.bestNonce = result.best) := by
  intro hash result Tried
  have hfinds : Finds hash target lo hi result := finds_search header target h
  have hlast : ∀ {solution}, result.solution = some solution →
      lastTried hi result = solution.nonce := fun hsolution => by rw [lastTried, hsolution]
  have hend : result.solution = none → lastTried hi result = hi := fun hnone => by
    rw [lastTried, hnone]
  refine ⟨hfinds.solved_iff, fun solution hsolution => ?_, fun hnone => ?_, ⟨?_, ?_⟩, ?_⟩
  · obtain ⟨hlo, hhi, hhash, hmet, hleast⟩ := hfinds.solution solution hsolution
    exact ⟨⟨hlo, hhi, hhash ▸ hmet, hleast⟩, hhash, hlast hsolution ▸ hfinds.hashes⟩
  · exact hend hnone ▸ hfinds.hashes
  · obtain ⟨nonce, hlo, hle, heq⟩ := hfinds.lowest.attained
    exact ⟨nonce, ⟨hlo, hle⟩, heq⟩
  · exact fun nonce hnonce => hfinds.lowest.le nonce hnonce.1 hnonce.2
  · rintro ⟨nonce, ⟨hlo, hle⟩, hbelow⟩
    have hbest := hfinds.lowest.le nonce hlo hle
    obtain ⟨hlo', hle', heq⟩ := hfinds.lowest.nonce (lt_of_le_of_lt hbest hbelow)
    exact ⟨⟨hlo', hle'⟩, heq⟩

/-- The highest target, which every hash meets: the first nonce of a range solves it. -/
theorem search_ALL_ONES :
    let result := search ⟨1, .ZERO, .ZERO, 0, 0, 0⟩ ⟨List.Vector.replicate 32 0xFF⟩ 5 9
    (∃ solution, result.solution = some solution ∧ solution.nonce = 5) ∧
      result.hashes.toNat = 1 := by
  intro result
  have hmet : ∀ hash : Sha256dHash,
      (⟨List.Vector.replicate 32 0xFF⟩ : Target).isMetBy hash = true := fun hash =>
    Target.isMetBy_iff.mpr (value_le_ALL_ONES hash)
  obtain ⟨hsolved, hsolution, -⟩ := search_sound_complete ⟨1, .ZERO, .ZERO, 0, 0, 0⟩
    ⟨List.Vector.replicate 32 0xFF⟩ 5 9 (by decide)
  obtain ⟨solution, heq⟩ := Option.isSome_iff_exists.mp
    (hsolved.mpr ⟨5, by decide, by decide, hmet _⟩)
  obtain ⟨⟨hlo, -, -, hleast⟩, -, hhashes⟩ := hsolution solution heq
  have hnonce : solution.nonce = 5 :=
    UInt32.le_antisymm (hleast 5 (UInt32.le_refl 5) (hmet _)) hlo
  refine ⟨⟨solution, heq, hnonce⟩, ?_⟩
  rw [hnonce] at hhashes
  exact hhashes

end Search

end SoloMiner
