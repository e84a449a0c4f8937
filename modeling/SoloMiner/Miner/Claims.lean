import Mathlib.Data.Int.ModEq
import SoloMiner.Miner.Worker

/-!
# The extranonces that threads claim

Before a sweep a mining thread takes the next number of a shared counter and encodes it
into as many bytes as the connection has for it. So no two threads search the same
coinbase, until the numbers repeat in these bytes: two claims that are less than
`256 ^ size` apart give different coinbases (`SoloMiner.Miner.claims_distinct`).

The claims of a run are read off its steps (`SoloMiner.Miner.claims`): a claim is a step of
a thread out of the phase before claiming.
-/

namespace SoloMiner

open Search

/-! ### Encoding the counter -/

/-- **The encoded extranonce** is the big-endian form of the counter, whatever the width. -/
theorem encodeExtranonce2_eq (counter : UInt64) (size : ℕ) :
    encodeExtranonce2 counter size = Base256.toBE size counter.toNat := by
  rw [encodeExtranonce2]
  rcases le_total size 8 with hle | hle
  · -- The counter is wider than the field, and keeps its low bytes.
    have hsplit := Base256.toBE_add size (8 - size) counter.toNat
    rw [Nat.add_sub_cancel' hle] at hsplit
    rw [min_eq_left hle, Nat.sub_self, hsplit, List.drop_left' (by simp)]
    rfl
  · -- The field is wider than the counter, and starts with zeros.
    have hsplit := Base256.toBE_add 8 (size - 8) counter.toNat
    have hlt : counter.toNat / 256 ^ 8 = 0 := Nat.div_eq_of_lt counter.toNat_lt
    rw [Nat.add_sub_cancel' hle, hlt] at hsplit
    rw [min_eq_right hle, Nat.sub_self, List.drop_zero, hsplit, Base256.toBE, Base256.toBE,
      Base256.toLE_zero_right, List.reverse_replicate]

/-- A width keeps numbers apart that are less than its range apart. -/
theorem encodeExtranonce2_ne {counter counter' : UInt64} {size : ℕ} (hne : counter ≠ counter')
    (hlt : counter.toNat < counter'.toNat + 256 ^ size)
    (hlt' : counter'.toNat < counter.toNat + 256 ^ size) :
    encodeExtranonce2 counter size ≠ encodeExtranonce2 counter' size := by
  rw [encodeExtranonce2_eq, encodeExtranonce2_eq, ne_eq, Base256.toBE_inj]
  refine fun hmod => hne (UInt64.toNat_inj.mp (Nat.ModEq.eq_of_abs_lt hmod ?_))
  rw [abs_lt]
  omega

/-! ### The claims of a run -/

/-- What a thread claimed: a number, and the sweep it starts with it. -/
structure Claim where
  counter : UInt64
  sweep : Sweep

namespace Miner

variable {worker : Str} {extranonce1 : Bytes} {extranonce2Size : ℕ} {s s' : Miner} {i : ℕ}
  {action : MinerAction} {actions : List MinerAction} {claim : Claim}

/-- The claim that a step makes, if it makes one. -/
def claimOf (worker : Str) (s : Miner) : MinerAction → Option Claim
  | .run i =>
    match s.threads i, (s.mine worker i).threads i with
    | .claiming _ _, .checking sweep => some ⟨s.extranonceCounter, sweep⟩
    | _, _ => none
  | _ => none

/-- The claims of a run, in their order. -/
def claims (worker : Str) (extranonce1 : Bytes) (extranonce2Size : ℕ) :
    Miner → List MinerAction → List Claim
  | _, [] => []
  | s, action :: actions =>
    match step worker extranonce1 extranonce2Size s action with
    | none => []
    | some s' =>
      (claimOf worker s action).toList ++ claims worker extranonce1 extranonce2Size s' actions

/-- The claim of a work under a number. -/
def claimWith (counter : UInt64) (work : Work) (generation : UInt64) : Claim :=
  let extranonce2 := encodeExtranonce2 counter work.extranonce2Size
  ⟨counter, work, generation, extranonce2,
    work.job.header work.extranonce1 extranonce2 work.job.time 0, 0⟩

/-- **Who claims**: a thread with a work, which takes the number and counts on. -/
theorem mine_claiming {work : Work} {generation : UInt64}
    (h : s.threads i = .claiming work generation) :
    claimOf worker s (.run i) = some (claimWith s.extranonceCounter work generation) ∧
      (s.mine worker i).extranonceCounter = s.extranonceCounter + 1 := by
  have hthread : (s.mine worker i).threads i =
      .checking (claimWith s.extranonceCounter work generation).sweep := by
    simp only [mine, h]
    exact Function.update_self _ _ _
  refine ⟨?_, by simp only [mine, h]⟩
  rw [claimOf, h, hthread]
  rfl

theorem counter_afterBatch (s : Miner) (i : ℕ) (sweep : Sweep) (solution : Option Solution) :
    (s.afterBatch i sweep solution).extranonceCounter = s.extranonceCounter := by
  cases solution with
  | some solution => rfl
  | none =>
    rw [afterBatch]
    split_ifs <;> rfl

/-- No other step claims. -/
theorem mine_of_not_claiming (h : ∀ work generation, s.threads i ≠ .claiming work generation) :
    claimOf worker s (.run i) = none ∧
      (s.mine worker i).extranonceCounter = s.extranonceCounter := by
  constructor
  · rw [claimOf]
    cases hphase : s.threads i with
    | claiming work generation => exact absurd hphase (h work generation)
    | _ => rfl
  · cases hphase : s.threads i with
    | claiming work generation => exact absurd hphase (h work generation)
    | top =>
      cases hcurrent : s.state.current <;> simp only [mine, hphase, hcurrent, setThread]
    | fresh work generation =>
      simp only [mine, hphase]
      split_ifs <;> rfl
    | checking sweep =>
      simp only [mine, hphase]
      split_ifs <;> rfl
    | searching sweep => simp only [mine, hphase, counter_afterBatch]
    | cloned work => simp only [mine, hphase, setThread]
    | found sweep solution => simp only [mine, hphase, setThread]
    | submitting sweep solution => simp only [mine, hphase, setThread]
    | sending sweep solution id => simp only [mine, hphase, setThread]
    | waiting generation => simp only [mine, hphase, setThread]

/-- **What a step claims**: the next number, by a thread with a work; or nothing, and then
the counter stays. -/
theorem claimOf_cases (h : step worker extranonce1 extranonce2Size s action = some s') :
    (∃ i work generation, s.threads i = .claiming work generation ∧
      claimOf worker s action = some (claimWith s.extranonceCounter work generation) ∧
        s'.extranonceCounter = s.extranonceCounter + 1) ∨
    claimOf worker s action = none ∧ s'.extranonceCounter = s.extranonceCounter := by
  cases action with
  | install job =>
    obtain rfl | ⟨-, work, rfl⟩ := step_install h <;> exact Or.inr ⟨rfl, rfl⟩
  | bump =>
    obtain ⟨-, rfl⟩ := step_bump h
    exact Or.inr ⟨rfl, rfl⟩
  | run i =>
    obtain rfl := Option.some.inj h
    by_cases hclaiming : ∃ work generation, s.threads i = .claiming work generation
    · obtain ⟨work, generation, hphase⟩ := hclaiming
      exact Or.inl ⟨i, work, generation, hphase, mine_claiming hphase⟩
    · exact Or.inr (mine_of_not_claiming fun work generation hphase =>
        hclaiming ⟨work, generation, hphase⟩)

/-- **The numbers of the claims** are those of the counter, one after the other. -/
theorem counter_claims (worker : Str) (extranonce1 : Bytes) (extranonce2Size : ℕ) (s : Miner)
    (actions : List MinerAction) :
    (claims worker extranonce1 extranonce2Size s actions).map Claim.counter =
      (List.range (claims worker extranonce1 extranonce2Size s actions).length).map
        fun k => s.extranonceCounter + UInt64.ofNat k := by
  induction actions generalizing s with
  | nil => rfl
  | cons action actions ih =>
    rw [claims]
    cases hstep : step worker extranonce1 extranonce2Size s action with
    | none => rfl
    | some s' =>
      dsimp only
      obtain ⟨i, work, generation, -, hclaim, hcounter⟩ | ⟨hclaim, hcounter⟩ :=
        claimOf_cases hstep
      · have hsucc : ∀ k : ℕ, s.extranonceCounter + 1 + UInt64.ofNat k =
            s.extranonceCounter + UInt64.ofNat (k + 1) := fun k => by
          rw [UInt64.ofNat_add, UInt64.add_assoc, UInt64.add_comm 1]
          rfl
        rw [hclaim, Option.toList_some, List.singleton_append, List.map_cons, ih, hcounter,
          List.length_cons, List.range_succ_eq_map, List.map_cons, List.map_map]
        refine congrArg₂ List.cons ?_ (List.map_congr_left fun k _ => hsucc k)
        exact (UInt64.add_zero _).symm
      · rw [hclaim, Option.toList_none, List.nil_append, ih, hcounter]

/-! ### The works of a connection -/

/-- The work that a thread has. -/
def heldWork : Mining → Option Work
  | .cloned work | .fresh work _ | .claiming work _ => some work
  | .checking sweep | .searching sweep | .found sweep _ | .submitting sweep _
  | .sending sweep _ _ => some sweep.work
  | .top | .waiting _ => none

/-- Every work has the extranonce1 and the width of the connection. -/
structure Connected (extranonce1 : Bytes) (extranonce2Size : ℕ) (s : Miner) : Prop where
  current : ∀ work, s.state.current = some work →
    work.extranonce1 = extranonce1 ∧ work.extranonce2Size = extranonce2Size
  held : ∀ i work, heldWork (s.threads i) = some work →
    work.extranonce1 = extranonce1 ∧ work.extranonce2Size = extranonce2Size

theorem connected_init (extranonce1 : Bytes) (extranonce2Size : ℕ) :
    Connected extranonce1 extranonce2Size init :=
  ⟨nofun, nofun⟩

theorem heldWork_afterBatch {sweep : Sweep} {solution : Option Solution} {work : Work}
    (h : heldWork ((s.afterBatch i sweep solution).threads i) = some work) : sweep.work = work := by
  have hset : ∀ t, (s.setThread i t).threads i = t := fun t => Function.update_self _ _ _
  cases solution with
  | some solution =>
    rw [afterBatch, hset] at h
    exact Option.some.inj h
  | none =>
    rw [afterBatch] at h
    split_ifs at h
    · rw [hset] at h
      exact absurd h (Option.some_ne_none work).symm
    · rw [hset] at h
      exact Option.some.inj h

/-- A thread has the work it had, or clones the current one. -/
theorem heldWork_mine {work : Work} (h : heldWork ((s.mine worker i).threads i) = some work) :
    heldWork (s.threads i) = some work ∨ s.state.current = some work := by
  have hset : ∀ t, (s.setThread i t).threads i = t := fun t => Function.update_self _ _ _
  cases hphase : s.threads i with
  | top =>
    cases hcurrent : s.state.current with
    | none =>
      simp only [mine, hphase, hcurrent] at h
      exact Or.inl h
    | some work' =>
      simp only [mine, hphase, hcurrent, hset] at h
      exact Or.inr h
  | fresh work' generation =>
    simp only [mine, hphase] at h
    split_ifs at h
    · rw [hset] at h
      exact Or.inl h
    · rw [hset] at h
      exact absurd h (Option.some_ne_none work).symm
  | checking sweep =>
    simp only [mine, hphase] at h
    split_ifs at h
    · rw [hset] at h
      exact Or.inl h
    · rw [hset] at h
      exact absurd h (Option.some_ne_none work).symm
  | searching sweep =>
    simp only [mine, hphase] at h
    exact Or.inl (congrArg some (heldWork_afterBatch h))
  | cloned work' =>
    simp only [mine, hphase, hset] at h
    exact Or.inl h
  | claiming work' generation =>
    simp only [mine, hphase, hset] at h
    exact Or.inl h
  | found sweep solution =>
    simp only [mine, hphase, hset] at h
    exact Or.inl h
  | submitting sweep solution =>
    simp only [mine, hphase, hset] at h
    exact Or.inl h
  | sending sweep solution id =>
    simp only [mine, hphase, hset] at h
    exact absurd h (Option.some_ne_none work).symm
  | waiting generation =>
    simp only [mine, hphase, hset] at h
    exact absurd h (Option.some_ne_none work).symm

/-- What a mining thread does leaves the current work in place. -/
theorem current_mine (worker : Str) (s : Miner) (i : ℕ) :
    (s.mine worker i).state.current = s.state.current := by
  obtain ⟨sweep, solution, -, hstate, -⟩ | ⟨-, hstate, -⟩ := mine_cases worker s i
  · rw [hstate]
    rfl
  · rw [hstate]

/-- **One step** leaves the works those of the connection. -/
theorem Connected.step (hs : Connected extranonce1 extranonce2Size s)
    (h : step worker extranonce1 extranonce2Size s action = some s') :
    Connected extranonce1 extranonce2Size s' := by
  cases action with
  | install job =>
    rw [Miner.step] at h
    split_ifs at h
    split at h
    · obtain rfl := Option.some.inj h
      exact hs
    · obtain rfl := Option.some.inj h
      refine ⟨fun work hwork => ?_, hs.held⟩
      obtain rfl := Option.some.inj hwork
      exact ⟨rfl, rfl⟩
  | bump =>
    obtain ⟨-, rfl⟩ := step_bump h
    exact ⟨hs.current, hs.held⟩
  | run i =>
    obtain rfl := Option.some.inj h
    refine ⟨fun work hwork => hs.current work (current_mine worker s i ▸ hwork), ?_⟩
    intro j work hwork
    by_cases hj : j = i
    · subst hj
      rcases heldWork_mine hwork with hheld | hcurrent
      · exact hs.held j work hheld
      · exact hs.current work hcurrent
    · rw [threads_mine_of_ne hj] at hwork
      exact hs.held j work hwork

/-- **Every claim of a run** is of a work of the connection. -/
theorem exists_of_mem_claims (hs : Connected extranonce1 extranonce2Size s)
    (h : claim ∈ claims worker extranonce1 extranonce2Size s actions) :
    claim.sweep.extranonce2 = encodeExtranonce2 claim.counter extranonce2Size ∧
      claim.sweep.work.extranonce1 = extranonce1 := by
  induction actions generalizing s with
  | nil => exact absurd h List.not_mem_nil
  | cons action actions ih =>
    rw [claims] at h
    cases hstep : Miner.step worker extranonce1 extranonce2Size s action with
    | none =>
      rw [hstep] at h
      exact absurd h List.not_mem_nil
    | some s' =>
      rw [hstep] at h
      rcases List.mem_append.mp h with hfirst | hlater
      · obtain ⟨i, work, generation, hphase, hclaim, -⟩ | ⟨hclaim, -⟩ := claimOf_cases hstep
        · rw [hclaim, Option.toList_some, List.mem_singleton] at hfirst
          obtain ⟨hextranonce1, hsize⟩ := hs.held i work (by rw [hphase]; rfl)
          subst hfirst
          exact ⟨congrArg (encodeExtranonce2 s.extranonceCounter) hsize, hextranonce1⟩
        · rw [hclaim] at hfirst
          exact absurd hfirst List.not_mem_nil
      · exact ih (hs.step hstep) hlater

/-- **Threads never search the same coinbase.** For every connection and every
interleaving of any number of threads: each extranonce claimed is the big-endian form of
its number in exactly as many bytes as the connection has for it; the numbers are those of
the counter, one after the other; and two claims whose numbers differ by less than the
range of the bytes give different coinbases of every job. -/
theorem claims_distinct (worker : Str) (extranonce1 : Bytes) (extranonce2Size : ℕ)
    (actions : List MinerAction) :
    let claimed := claims worker extranonce1 extranonce2Size init actions
    (∀ claim ∈ claimed, claim.sweep.extranonce2.length = extranonce2Size ∧
      claim.sweep.extranonce2 =
        Base256.toBE extranonce2Size (claim.counter.toNat % 256 ^ extranonce2Size)) ∧
    claimed.map Claim.counter = (List.range claimed.length).map UInt64.ofNat ∧
    ∀ claim ∈ claimed, ∀ claim' ∈ claimed, claim.counter ≠ claim'.counter →
      claim.counter.toNat < claim'.counter.toNat + 256 ^ extranonce2Size →
      claim'.counter.toNat < claim.counter.toNat + 256 ^ extranonce2Size →
      ∀ job : Job, job.coinbase extranonce1 claim.sweep.extranonce2 ≠
        job.coinbase extranonce1 claim'.sweep.extranonce2 := by
  intro claimed
  have hclaimed : ∀ claim ∈ claimed,
      claim.sweep.extranonce2 = encodeExtranonce2 claim.counter extranonce2Size :=
    fun claim hclaim => (exists_of_mem_claims (connected_init _ _) hclaim).1
  refine ⟨fun claim hclaim => ?_, ?_, fun claim hclaim claim' hclaim' hne hlt hlt' job heq => ?_⟩
  · rw [hclaimed claim hclaim, encodeExtranonce2_eq, Base256.toBE_mod]
    exact ⟨Base256.length_toBE _ _, rfl⟩
  · refine (counter_claims worker extranonce1 extranonce2Size init actions).trans ?_
    exact List.map_congr_left fun k _ => UInt64.zero_add _
  · rw [hclaimed claim hclaim, hclaimed claim' hclaim', Job.coinbase, Job.coinbase,
      List.append_left_inj, List.append_right_inj] at heq
    exact encodeExtranonce2_ne hne hlt hlt' heq

end Miner

end SoloMiner
