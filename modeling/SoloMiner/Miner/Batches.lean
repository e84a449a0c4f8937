import SoloMiner.Miner.Worker

/-!
# The batches of a sweep

A mining thread does not search the nonces of an extranonce in one go: it searches batch
after batch, looks in between whether its generation is still current, and records each
batch. As long as the generation stays current, that is one search of all nonces: with
the same solution, the same number of hashes, and the same best
(`SoloMiner.Miner.sweepBatches_eq_search`).

The loop is stated on its own here, as the list of what it records; the threads of the
miner run through it batch by batch, with two moves for each, however the other parties
move in between (`SoloMiner.Miner.threads_of_batchLoop`).
-/

namespace SoloMiner

open Search

/-- How the loop over the batches ends. -/
inductive SweepEnd where
  /-- With a solution, which is submitted. -/
  | solved (solution : Solution)
  /-- With the last nonce. -/
  | exhausted
  /-- Because the generation is not current any more. -/
  | overtaken

/-- The end of a loop that is not overtaken. -/
def SweepEnd.ofSolution : Option Solution → SweepEnd
  | some solution => .solved solution
  | none => .exhausted

/-! ### Where a batch ends -/

theorem le_top (nonce : UInt32) : nonce ≤ 0xFFFFFFFF := by
  have htop : (0xFFFFFFFF : UInt32).toNat = 0xFFFFFFFF := rfl
  have hlt := nonce.toNat_lt
  rw [UInt32.le_iff_toNat_le]
  omega

/-- The end of a batch is the end of all nonces if that comes first. -/
theorem toNat_batchEnd (start : UInt32) :
    (batchEnd start).toNat = min (start.toNat + 0xFFFFF) 0xFFFFFFFF := by
  have hlt := start.toNat_lt
  have hsize : (BATCH - 1).toNat = 0xFFFFF := rfl
  have htop : (0xFFFFFFFF : UInt32).toNat = 0xFFFFFFFF := rfl
  have hle := le_top start
  rw [batchEnd]
  split_ifs with hsat
  · rw [UInt32.lt_iff_toNat_lt, UInt32.toNat_sub_of_le _ _ hle, hsize, htop] at hsat
    omega
  · rw [UInt32.lt_iff_toNat_lt, UInt32.toNat_sub_of_le _ _ hle, hsize, htop] at hsat
    rw [UInt32.toNat_add, hsize]
    omega

theorem le_batchEnd (start : UInt32) : start ≤ batchEnd start := by
  have hlt := start.toNat_lt
  rw [UInt32.le_iff_toNat_le, toNat_batchEnd]
  omega

/-- Behind a nonce that is not the last there is another. -/
theorem succ_toNat_lt {nonce : UInt32} (h : nonce ≠ 0xFFFFFFFF) : nonce.toNat + 1 < 2 ^ 32 := by
  have htop : (0xFFFFFFFF : UInt32).toNat = 0xFFFFFFFF := rfl
  have hne := mt UInt32.toNat_inj.mp h
  have hlt := nonce.toNat_lt
  omega

/-- What is left of the nonces after a batch. -/
theorem left_batchEnd_lt {start : UInt32} (h : (batchEnd start).toNat + 1 < 2 ^ 32) :
    2 ^ 32 - (batchEnd start + 1).toNat < 2 ^ 32 - start.toNat := by
  have hle := UInt32.le_iff_toNat_le.mp (le_batchEnd start)
  rw [UInt32.toNat_add, UInt32.toNat_one]
  omega

namespace Miner

/-- The loop over the batches, from `start` on and with a check before each: what it
records, and how it ends. It has no result if the next start overflows. -/
def batchLoop (searchBatch : UInt32 → SearchResult) (isCurrent : ℕ → Bool) (k : ℕ)
    (start : UInt32) : Option (List (UInt64 × Sha256dHash) × SweepEnd) :=
  if isCurrent k then
    let result := searchBatch start
    match result.solution with
    | some solution => some ([(result.hashes, result.best)], .solved solution)
    | none =>
      if batchEnd start = 0xFFFFFFFF then some ([(result.hashes, result.best)], .exhausted)
      else if h : (batchEnd start).toNat + 1 < 2 ^ 32 then
        (batchLoop searchBatch isCurrent (k + 1) (batchEnd start + 1)).map
          fun (records, ending) => ((result.hashes, result.best) :: records, ending)
      else none
  else some ([], .overtaken)
termination_by 2 ^ 32 - start.toNat
decreasing_by exact left_batchEnd_lt h

/-- The inner loop of `mine`. -/
def sweepBatches (header : BlockHeader) (target : Target) (isCurrent : ℕ → Bool) :
    Option (List (UInt64 × Sha256dHash) × SweepEnd) :=
  batchLoop (fun start => search header target start (batchEnd start)) isCurrent 0 0

/-! ### A loop that is not overtaken -/

/-- The records of the batches of a sweep with a given result: they sum up to its hashes,
and the lowest of their bests is its best. -/
structure Records (total : SearchResult) (records : List (UInt64 × Sha256dHash)) : Prop where
  hashes : (records.map fun record => record.1.toNat).sum = total.hashes.toNat
  best : total.best ∈ records.map Prod.snd
  lowest : ∀ best ∈ records.map Prod.snd, total.best.value ≤ best.value

/-- The records of one batch. -/
theorem records_singleton (result : SearchResult) :
    Records result [(result.hashes, result.best)] where
  hashes := by simp
  best := by simp
  lowest best hbest := by
    obtain rfl : best = result.best := by simpa using hbest
    exact le_rfl

/-- One batch more, before the others. -/
theorem Records.cons {first second : SearchResult} {records : List (UInt64 × Sha256dHash)}
    (h : Records second records)
    (hfirst : first.hashes.toNat ≤ 2 ^ 32) (hsecond : second.hashes.toNat ≤ 2 ^ 32) :
    Records (first.append second) ((first.hashes, first.best) :: records) where
  hashes := by
    rw [List.map_cons, List.sum_cons, h.hashes]
    change first.hashes.toNat + second.hashes.toNat = (first.hashes + second.hashes).toNat
    rw [UInt64.toNat_add]
    omega
  best := by
    rw [SearchResult.append, List.map_cons]
    dsimp only
    split_ifs
    · exact List.mem_cons_of_mem _ h.best
    · exact List.mem_cons_self
  lowest best hbest := by
    rw [SearchResult.append]
    dsimp only
    split_ifs with hbelow
    · rcases List.mem_cons.mp hbest with rfl | hbest
      · exact (Sha256dHash.isBelow_iff.mp hbelow).le
      · exact h.lowest best hbest
    · rcases List.mem_cons.mp hbest with rfl | hbest
      · exact le_rfl
      · exact (not_lt.mp (mt Sha256dHash.isBelow_iff.mpr hbelow)).trans (h.lowest best hbest)

/-- **The loop is one search** of all nonces from its start on, if it is not overtaken. -/
theorem batchLoop_finds {hash : UInt32 → Sha256dHash} {target : Target}
    {searchBatch : UInt32 → SearchResult}
    (hbatch : ∀ start, Finds hash target start (batchEnd start) (searchBatch start)) (k : ℕ)
    (start : UInt32) :
    ∃ records total, Finds hash target start 0xFFFFFFFF total ∧ Records total records ∧
      batchLoop searchBatch (fun _ => true) k start =
        some (records, .ofSolution total.solution) := by
  induction hleft : 2 ^ 32 - start.toNat using Nat.strong_induction_on generalizing k start with
  | _ left ih =>
    have hstop : batchEnd start ≤ 0xFFFFFFFF := le_top _
    rw [batchLoop, if_pos rfl]
    dsimp only
    cases hsolution : (searchBatch start).solution with
    | some solution =>
      have hsolved : (searchBatch start).solution.isSome = true := by rw [hsolution]; rfl
      refine ⟨_, _, (hbatch start).extend hstop hsolved, records_singleton _, ?_⟩
      rw [hsolution]
      rfl
    | none =>
      dsimp only
      split_ifs with hend hlt
      · refine ⟨_, _, hend ▸ hbatch start, records_singleton _, ?_⟩
        rw [hsolution]
        rfl
      · have hless := lt_of_lt_of_eq (left_batchEnd_lt hlt) hleft
        obtain ⟨records, total, htotal, hrecords, hloop⟩ :=
          ih _ hless (k + 1) (batchEnd start + 1) rfl
        have hmid : batchEnd start < 0xFFFFFFFF :=
          UInt32.lt_iff_toNat_lt.mpr (Nat.lt_of_succ_lt_succ hlt)
        have happend := (hbatch start).append hsolution htotal (le_batchEnd start) hmid
        refine ⟨_, _, happend, hrecords.cons (hbatch start).hashes_le htotal.hashes_le, ?_⟩
        rw [hloop]
        rfl
      · exact absurd (succ_toNat_lt hend) hlt

/-- **The batched sweep is the full search**, for every header and target, if the
generation stays current throughout: no start overflows, the loop ends with the solution
of one search of all nonces, or with the last nonce if that has none; the hashes it
records are as many, and the lowest of the bests it records is the best of that search. -/
theorem sweepBatches_eq_search (header : BlockHeader) (target : Target) :
    let full := search header target 0 0xFFFFFFFF
    ∃ records ending, sweepBatches header target (fun _ => true) = some (records, ending) ∧
      (∀ solution, ending = .solved solution ↔ full.solution = some solution) ∧
      (ending = .exhausted ↔ full.solution = none) ∧
      (records.map fun record => record.1.toNat).sum = full.hashes.toNat ∧
      full.best ∈ records.map Prod.snd ∧
      ∀ best ∈ records.map Prod.snd, full.best.value ≤ best.value := by
  intro full
  have hfull : Finds (fun nonce => { header with nonce }.hash) target 0 0xFFFFFFFF full :=
    finds_search header target (le_top 0)
  obtain ⟨records, total, htotal, hrecords, hloop⟩ := batchLoop_finds
    (fun start => finds_search header target (le_batchEnd start)) 0 0
  obtain ⟨hsolution, hhashes, hbest⟩ := htotal.unique hfull
  refine ⟨records, _, hloop, ?_, ?_, ?_, ?_, ?_⟩
  · intro solution
    rw [hsolution]
    cases full.solution <;> simp [SweepEnd.ofSolution]
  · rw [hsolution]
    cases full.solution <;> simp [SweepEnd.ofSolution]
  · rw [← hhashes]
    exact hrecords.hashes
  · rw [← hbest]
    exact hrecords.best
  · rw [← hbest]
    exact hrecords.lowest

/-! ### The threads run through the loop -/

section Threads

variable {worker : Str} {extranonce1 : Bytes} {extranonce2Size : ℕ} {s s' : Miner} {i : ℕ}
  {action : MinerAction} {actions : List MinerAction}

/-- How often a thread moves in a run. -/
def moves (i : ℕ) (actions : List MinerAction) : ℕ :=
  actions.countP fun
    | .run j => j == i
    | _ => false

/-- **The next move of a thread**, wherever it is in a run: the others leave the thread
where it was until then. -/
theorem exists_move {C : Miner → MinerAction → Prop} {n : ℕ}
    (hrun : StepSystem.exec (step worker extranonce1 extranonce2Size) s actions = some s')
    (hC : StepSystem.EachStep (step worker extranonce1 extranonce2Size) C s actions)
    (hmoves : moves i actions = n + 1) :
    ∃ s₁ later, s₁.threads i = s.threads i ∧ C s₁ (.run i) ∧ moves i later = n ∧
      StepSystem.exec (step worker extranonce1 extranonce2Size) (s₁.mine worker i) later = some s' ∧
      StepSystem.EachStep (step worker extranonce1 extranonce2Size) C (s₁.mine worker i) later := by
  induction actions generalizing s with
  | nil => exact absurd hmoves (Nat.succ_ne_zero n).symm
  | cons action actions ih =>
    obtain ⟨s₂, hstep, hrest⟩ := Option.bind_eq_some_iff.mp hrun
    obtain ⟨hCs, hCrest⟩ := hC s₂ hstep
    by_cases hact : action = .run i
    · subst hact
      obtain rfl := Option.some.inj hstep
      refine ⟨s, actions, rfl, hCs, ?_, hrest, hCrest⟩
      simpa [moves] using hmoves
    · have hmoves' : moves i actions = n + 1 := by
        rw [← hmoves, moves, moves, List.countP_cons_of_neg]
        cases action with
        | run j => simpa using fun hj => hact (congrArg MinerAction.run hj)
        | install job => simp
        | bump => simp
      obtain ⟨s₁, later, hthreads, hlater⟩ := ih hrest hCrest hmoves'
      exact ⟨s₁, later, hthreads.trans (threads_step hact hstep), hlater⟩

/-- A thread that does not move stays where it is. -/
theorem threads_of_moves_eq_zero
    (hrun : StepSystem.exec (step worker extranonce1 extranonce2Size) s actions = some s')
    (hmoves : moves i actions = 0) : s'.threads i = s.threads i := by
  induction actions generalizing s with
  | nil =>
    obtain rfl : s = s' := Option.some.inj hrun
    rfl
  | cons action actions ih =>
    obtain ⟨s₁, hstep, hrest⟩ := Option.bind_eq_some_iff.mp hrun
    have hact : action ≠ .run i := by
      rintro rfl
      simp [moves] at hmoves
    have hmoves' : moves i actions = 0 := by
      rw [moves, List.countP_cons] at hmoves
      exact Nat.eq_zero_of_add_eq_zero_right hmoves
    rw [ih hrest hmoves', threads_step hact hstep]

/-- What one batch does to a loop that is not overtaken. -/
theorem batchLoop_cases {searchBatch : UInt32 → SearchResult} {k : ℕ} {start : UInt32}
    {records : List (UInt64 × Sha256dHash)} {ending : SweepEnd}
    (h : batchLoop searchBatch (fun _ => true) k start = some (records, ending)) :
    (∃ record solution, (searchBatch start).solution = some solution ∧ records = [record] ∧
      ending = .solved solution) ∨
    (searchBatch start).solution = none ∧
      ((∃ record, batchEnd start = 0xFFFFFFFF ∧ records = [record] ∧ ending = .exhausted) ∨
        ∃ record later, batchEnd start ≠ 0xFFFFFFFF ∧ records = record :: later ∧
          batchLoop searchBatch (fun _ => true) (k + 1) (batchEnd start + 1) =
            some (later, ending)) := by
  rw [batchLoop, if_pos rfl] at h
  dsimp only at h
  cases hsolution : (searchBatch start).solution with
  | some solution =>
    rw [hsolution] at h
    obtain ⟨rfl, rfl⟩ := Prod.mk.inj (Option.some.inj h)
    exact Or.inl ⟨_, solution, rfl, rfl, rfl⟩
  | none =>
    rw [hsolution] at h
    dsimp only at h
    split_ifs at h with hend hlt
    · obtain ⟨rfl, rfl⟩ := Prod.mk.inj (Option.some.inj h)
      exact Or.inr ⟨rfl, Or.inl ⟨_, hend, rfl, rfl⟩⟩
    · obtain ⟨⟨later, ending'⟩, hloop, heq⟩ := Option.map_eq_some_iff.mp h
      obtain ⟨rfl, rfl⟩ := Prod.mk.inj heq
      exact Or.inr ⟨rfl, Or.inr ⟨_, later, hend, rfl, hloop⟩⟩

/-- Where a thread is after the loop. -/
def endPhase (sweep : Sweep) : SweepEnd → Mining
  | .solved solution => .found sweep solution
  | .exhausted => .top
  | .overtaken => .top

/-- Where a thread is after a batch. -/
def phaseAfter (sweep : Sweep) : Option Solution → Mining
  | some solution => .found sweep solution
  | none =>
    if batchEnd sweep.start = 0xFFFFFFFF then .top
    else .checking { sweep with start := batchEnd sweep.start + 1 }

theorem threads_afterBatch (s : Miner) (i : ℕ) (sweep : Sweep) (solution : Option Solution) :
    (s.afterBatch i sweep solution).threads i = phaseAfter sweep solution := by
  cases solution with
  | some solution => exact Function.update_self _ _ _
  | none =>
    rw [afterBatch, phaseAfter]
    split_ifs <;> exact Function.update_self _ _ _

/-- A batch takes a thread two moves: the check, and the search. -/
theorem threads_batch {sweep : Sweep} {n : ℕ} (hphase : s.threads i = .checking sweep)
    (hrun : StepSystem.exec (step worker extranonce1 extranonce2Size) s actions = some s')
    (hcurrent : StepSystem.EachStep (step worker extranonce1 extranonce2Size)
      (fun s _ => s.state.isCurrent sweep.generation = true) s actions)
    (hmoves : moves i actions = n + 2) :
    ∃ s₁ later, moves i later = n ∧
      s₁.threads i = phaseAfter sweep
        (search sweep.header sweep.work.target sweep.start (batchEnd sweep.start)).solution ∧
      StepSystem.exec (step worker extranonce1 extranonce2Size) s₁ later = some s' ∧
      StepSystem.EachStep (step worker extranonce1 extranonce2Size)
        (fun s _ => s.state.isCurrent sweep.generation = true) s₁ later := by
  obtain ⟨s₁, later, hthreads, hcheck, hmoves, hrun, hcurrent⟩ :=
    exists_move hrun hcurrent hmoves
  rw [hphase] at hthreads
  have hsearching : (s₁.mine worker i).threads i = .searching sweep := by
    simp only [mine, hthreads, hcheck, if_true]
    exact Function.update_self _ _ _
  obtain ⟨s₂, later, hthreads, -, hmoves, hrun, hcurrent⟩ := exists_move hrun hcurrent hmoves
  rw [hsearching] at hthreads
  refine ⟨_, later, hmoves, ?_, hrun, hcurrent⟩
  simp only [mine, hthreads, threads_afterBatch]

/-- **The threads run through the loop**: if the generation stays current throughout a run,
however the other parties move in it, a thread at the start of a sweep is where the loop
ends after two moves for each batch of the loop. -/
theorem threads_of_batchLoop {searchBatch : UInt32 → SearchResult} {sweep : Sweep}
    {records : List (UInt64 × Sha256dHash)} {ending : SweepEnd} {k : ℕ}
    (hphase : s.threads i = .checking sweep)
    (hbatch : ∀ start, search sweep.header sweep.work.target start (batchEnd start) =
      searchBatch start)
    (hloop : batchLoop searchBatch (fun _ => true) k sweep.start = some (records, ending))
    (hrun : StepSystem.exec (step worker extranonce1 extranonce2Size) s actions = some s')
    (hcurrent : StepSystem.EachStep (step worker extranonce1 extranonce2Size)
      (fun s _ => s.state.isCurrent sweep.generation = true) s actions)
    (hmoves : moves i actions = 2 * records.length) :
    ∃ start, s'.threads i = endPhase { sweep with start } ending := by
  induction records generalizing s sweep actions k with
  | nil =>
    rcases batchLoop_cases hloop with ⟨_, _, _, hnil, _⟩ |
      ⟨_, ⟨_, _, hnil, _⟩ | ⟨_, _, _, hnil, _⟩⟩ <;> exact absurd hnil (List.cons_ne_nil _ _).symm
  | cons record records ih =>
    have hmoves' : moves i actions = 2 * records.length + 2 := hmoves
    obtain ⟨s₁, later, hlater, hthreads, hrun, hcurrent⟩ :=
      threads_batch hphase hrun hcurrent hmoves'
    rw [hbatch] at hthreads
    rcases batchLoop_cases hloop with ⟨record', solution, hsolution, hrecords, rfl⟩ |
      ⟨hnone, ⟨record', hend, hrecords, rfl⟩ | ⟨record', records', hend, hrecords, hloop⟩⟩
    · obtain ⟨-, rfl⟩ := List.cons.inj hrecords
      rw [hsolution] at hthreads
      exact ⟨sweep.start, (threads_of_moves_eq_zero hrun hlater).trans hthreads⟩
    · obtain ⟨-, rfl⟩ := List.cons.inj hrecords
      rw [hnone, phaseAfter, if_pos hend] at hthreads
      exact ⟨sweep.start, (threads_of_moves_eq_zero hrun hlater).trans hthreads⟩
    · obtain ⟨-, rfl⟩ := List.cons.inj hrecords
      rw [hnone, phaseAfter, if_neg hend] at hthreads
      have hrest := ih hthreads hbatch hloop hrun hcurrent hlater
      exact hrest

/-- **A thread's sweep is one search** of all nonces: there is a number of moves after which
it has the solution of that search, or is at the top again if that has none, in every run
through which its generation stays current. -/
theorem threads_of_search {sweep : Sweep} (hphase : s.threads i = .checking sweep)
    (hstart : sweep.start = 0) :
    ∃ n, ∀ {actions s'},
      StepSystem.exec (step worker extranonce1 extranonce2Size) s actions = some s' →
      StepSystem.EachStep (step worker extranonce1 extranonce2Size)
        (fun s _ => s.state.isCurrent sweep.generation = true) s actions →
      moves i actions = n →
      ∃ start, s'.threads i = endPhase { sweep with start }
        (.ofSolution (search sweep.header sweep.work.target 0 0xFFFFFFFF).solution) := by
  obtain ⟨records, total, htotal, -, hloop⟩ := batchLoop_finds
    (fun start => finds_search sweep.header sweep.work.target (le_batchEnd start)) 0 sweep.start
  have hfull := finds_search sweep.header sweep.work.target (le_top 0)
  rw [hstart] at htotal
  rw [(htotal.unique hfull).1] at hloop
  exact ⟨2 * records.length, fun hrun hcurrent hmoves =>
    threads_of_batchLoop hphase (fun _ => rfl) hloop hrun hcurrent hmoves⟩

end Threads

end Miner

end SoloMiner
