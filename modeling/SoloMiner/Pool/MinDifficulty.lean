import SoloMiner.Pool.JobBuilder

/-!
# The minimum-difficulty window

On testnet a block whose timestamp is more than twenty minutes after its parent's may
be mined at the minimum difficulty. The pool chooses the first such timestamp and
rewrites its job for it; the block may be submitted once the timestamp is at most two
hours ahead. Times are Unix seconds, which an `i64` holds with room to spare.

The timestamp is stored in 32 bits, and the time from which it is legal in 64. They agree
as long as the sum of the parent's timestamp and the gap fits the 32 bits; for a parent in
the last twenty minutes of their range the timestamp starts again from zero, and is not
the first one that qualifies (`SoloMiner.MinDifficulty.plan_earliest_iff`).
-/

namespace SoloMiner

namespace MinDifficulty

/-- Minimum difficulty in compact form. -/
def MIN_DIFFICULTY_BITS : UInt32 := 0x1d00ffff

/-- How far past its parent a block's timestamp must be to qualify. -/
def MIN_DIFFICULTY_GAP : ℤ := 20 * 60

/-- How far ahead of the present a block's timestamp may be. -/
def MAX_FUTURE_BLOCK_TIME : ℤ := 2 * 60 * 60

/-- A plan for mining one minimum-difficulty block. -/
structure Window where
  /-- The timestamp our block must carry. -/
  ntime : UInt32
  /-- When a block with that timestamp can be submitted. -/
  legalAt : ℤ
  deriving DecidableEq

/-- The window that follows `parentTime`. -/
def plan (parentTime : UInt32) : Window :=
  let ntime : ℤ := parentTime.toNat + MIN_DIFFICULTY_GAP + 1
  { ntime := UInt32.ofNat ntime.toNat, legalAt := ntime - MAX_FUTURE_BLOCK_TIME }

/-- How long until the window opens. Zero or negative means it is open. -/
def Window.secondsUntilOpen (self : Window) (now : Int64) : Int64 := Int64.ofInt self.legalAt - now

/-- Whether a block for the window can be submitted now. -/
def Window.isOpen (self : Window) (now : Int64) : Bool := now ≥ Int64.ofInt self.legalAt

/-! ### The earliest timestamp that qualifies -/

theorem legalAt_plan_eq (parentTime : UInt32) :
    (plan parentTime).legalAt = (parentTime.toNat : ℤ) - 5999 := by
  change (parentTime.toNat : ℤ) + 20 * 60 + 1 - 2 * 60 * 60 = _
  omega

/-- The timestamp is the sum, as far as 32 bits hold it. -/
theorem ntime_plan (parentTime : UInt32) :
    (plan parentTime).ntime.toNat = (parentTime.toNat + 1201) % 2 ^ 32 := by
  have hsum :
      ((parentTime.toNat : ℤ) + MIN_DIFFICULTY_GAP + 1).toNat = parentTime.toNat + 1201 := by
    rw [MIN_DIFFICULTY_GAP]
    omega
  rw [plan, hsum, UInt32.toNat_ofNat']

/-- The 64 bits hold when the window opens. -/
theorem toInt_legalAt (parentTime : UInt32) :
    (Int64.ofInt (plan parentTime).legalAt).toInt = (parentTime.toNat : ℤ) - 5999 := by
  have hlt : parentTime.toNat < 2 ^ 32 := parentTime.toNat_lt
  rw [legalAt_plan_eq, Int64.toInt_ofInt_of_le (by omega) (by omega)]

theorem isOpen_plan_iff (parentTime : UInt32) (now : Int64) :
    (plan parentTime).isOpen now = true ↔ (parentTime.toNat : ℤ) - 5999 ≤ now.toInt := by
  rw [Window.isOpen, decide_eq_true_iff, ge_iff_le, Int64.le_iff_toInt_le, toInt_legalAt]

/-- The time until the window opens, unless it is beyond 64 bits. -/
theorem toInt_secondsUntilOpen (parentTime : UInt32) (now : Int64) :
    ((plan parentTime).secondsUntilOpen now).toInt =
      ((parentTime.toNat : ℤ) - 5999 - now.toInt).bmod (2 ^ 64) := by
  rw [Window.secondsUntilOpen, Int64.toInt_sub, toInt_legalAt]

/-- What a plan promises, at some time on the clock. -/
structure Earliest (parentTime : UInt32) (now : Int64) : Prop where
  /-- The timestamp is the first one that qualifies. -/
  least : IsLeast {t : ℤ | parentTime.toNat + MIN_DIFFICULTY_GAP < t}
    ((plan parentTime).ntime.toNat : ℤ)
  /-- The window is open when no seconds are left until then, -/
  seconds : (plan parentTime).isOpen now = true ↔ (plan parentTime).secondsUntilOpen now ≤ 0
  /-- and that is when the timestamp is no more than two hours ahead. -/
  legal : (plan parentTime).isOpen now = true ↔
    ((plan parentTime).ntime.toNat : ℤ) ≤ now.toInt + MAX_FUTURE_BLOCK_TIME

/-- The first timestamp that qualifies is the sum itself. -/
theorem isLeast_qualifying_iff (parentTime : UInt32) (t : ℤ) :
    IsLeast {t : ℤ | parentTime.toNat + MIN_DIFFICULTY_GAP < t} t ↔
      t = parentTime.toNat + 1201 := by
  have hleast : IsLeast {t : ℤ | parentTime.toNat + MIN_DIFFICULTY_GAP < t}
      (parentTime.toNat + 1201) := by
    refine ⟨?_, fun t ht => ?_⟩
    · change (parentTime.toNat : ℤ) + MIN_DIFFICULTY_GAP < parentTime.toNat + 1201
      rw [MIN_DIFFICULTY_GAP]
      omega
    · change (parentTime.toNat : ℤ) + MIN_DIFFICULTY_GAP < t at ht
      rw [MIN_DIFFICULTY_GAP] at ht
      omega
  exact ⟨fun h => le_antisymm (h.2 hleast.1) (hleast.2 h.1), fun h => h ▸ hleast⟩

/-- A difference beyond 64 bits comes out with the wrong sign. -/
theorem bmod_nonpos_iff {d : ℤ} (hlow : -2 ^ 64 < d) (hhigh : d < 2 ^ 64)
    (hwide : d < -2 ^ 63 ∨ 2 ^ 63 ≤ d) : d.bmod (2 ^ 64) ≤ 0 ↔ 0 < d := by
  rcases hwide with hneg | hpos
  · have hwrap : d.bmod (2 ^ 64) = d + 2 ^ 64 := by
      rw [← Int.add_bmod_right]
      exact Int.bmod_eq_of_le (by omega) (by omega)
    rw [hwrap]
    omega
  · have hwrap : d.bmod (2 ^ 64) = d - 2 ^ 64 := by
      rw [← Int.sub_bmod_right]
      exact Int.bmod_eq_of_le (by omega) (by omega)
    rw [hwrap]
    omega

/-- **When a plan keeps its promise**: precisely if the sum fits the timestamp, and the
time until then fits the 64 bits. -/
theorem plan_earliest_iff (parentTime : UInt32) (now : Int64) :
    Earliest parentTime now ↔ parentTime.toNat + 1201 < 2 ^ 32 ∧
      -2 ^ 63 ≤ (parentTime.toNat : ℤ) - 5999 - now.toInt ∧
        (parentTime.toNat : ℤ) - 5999 - now.toInt < 2 ^ 63 := by
  have hparent : parentTime.toNat < 2 ^ 32 := parentTime.toNat_lt
  have hnow : now.toInt < 2 ^ 63 := now.toInt_lt
  have hnow' : -2 ^ 63 ≤ now.toInt := now.le_toInt
  have hntime := ntime_plan parentTime
  have hseconds : (plan parentTime).secondsUntilOpen now ≤ 0 ↔
      ((parentTime.toNat : ℤ) - 5999 - now.toInt).bmod (2 ^ 64) ≤ 0 := by
    rw [Int64.le_iff_toInt_le, toInt_secondsUntilOpen]
    rfl
  constructor
  · intro h
    have hleast := (isLeast_qualifying_iff parentTime _).mp h.least
    have hopen := h.seconds
    rw [hseconds, isOpen_plan_iff] at hopen
    refine ⟨by omega, ?_⟩
    by_contra hwide
    rw [bmod_nonpos_iff (by omega) (by omega) (by omega)] at hopen
    omega
  · rintro ⟨hfits, hlow, hhigh⟩
    have hsum : (plan parentTime).ntime.toNat = parentTime.toNat + 1201 := by
      rw [hntime, Nat.mod_eq_of_lt hfits]
    have hdiff : ((parentTime.toNat : ℤ) - 5999 - now.toInt).bmod (2 ^ 64) =
        (parentTime.toNat : ℤ) - 5999 - now.toInt :=
      Int.bmod_eq_of_le (by omega) (by omega)
    refine ⟨(isLeast_qualifying_iff parentTime _).mpr (by omega), ?_, ?_⟩
    · rw [hseconds, hdiff, isOpen_plan_iff]
      omega
    · rw [isOpen_plan_iff, hsum, MAX_FUTURE_BLOCK_TIME]
      omega

/-- A parent in the last twenty minutes of the range: the timestamp is the least of all,
and not after the parent's. -/
theorem not_earliest_max : ¬ ∀ now : Int64, 0 ≤ now → Earliest 0xFFFFFFFF now := by
  intro h
  have hleast := (isLeast_qualifying_iff 0xFFFFFFFF _).mp (h 0 (by decide)).least
  exact absurd hleast (by decide)

end MinDifficulty

open MinDifficulty

/-- What `poll_templates` does to a freshly built job before it installs it: on the
network that has the rule, and if the node tells the parent's timestamp, the job is
rewritten for the window. -/
def ActiveJob.withWindow (active : ActiveJob) (exploit : Bool) (parentTime : Option UInt32) :
    ActiveJob :=
  match exploit, parentTime, Target.fromCompact MIN_DIFFICULTY_BITS with
  | true, some parentTime, .ok target =>
    let window := plan parentTime
    { active with
      job := { active.job with time := window.ntime, bits := MIN_DIFFICULTY_BITS }
      networkTarget := target
      submitNotBefore := some window.legalAt }
  | _, _, _ => active

/-- The minimum difficulty has a target. -/
theorem MinDifficulty.exists_target :
    ∃ target, Target.fromCompact MIN_DIFFICULTY_BITS = .ok target := ⟨_, rfl⟩

/-- What the rewriting does to a job: its bits and when it may be submitted, if the
network has the rule and the parent's timestamp is known; and nothing to the rest. -/
theorem ActiveJob.withWindow_job (active : ActiveJob) (exploit : Bool)
    (parentTime : Option UInt32) :
    (active.withWindow exploit parentTime).job.prevHash = active.job.prevHash ∧
      (active.withWindow exploit parentTime).job.jobId = active.job.jobId ∧
        (active.withWindow exploit parentTime).job.cleanJobs = active.job.cleanJobs ∧
          if (exploit && parentTime.isSome) = true then
            (active.withWindow exploit parentTime).job.bits = MIN_DIFFICULTY_BITS ∧
              (active.withWindow exploit parentTime).submitNotBefore.isSome = true
          else active.withWindow exploit parentTime = active := by
  obtain ⟨target, htarget⟩ := exists_target
  unfold ActiveJob.withWindow
  rw [htarget]
  cases exploit <;> cases parentTime <;> exact ⟨rfl, rfl, rfl, by simp⟩

/-- **The rewriting keeps a job coherent**: the new target is that of the new bits, and
the rest is as it was. -/
theorem ActiveJob.Coherent.withWindow {active : ActiveJob} (h : active.Coherent) (exploit : Bool)
    (parentTime : Option UInt32) : (active.withWindow exploit parentTime).Coherent := by
  unfold ActiveJob.withWindow
  split
  · next target htarget =>
    exact ⟨h.coinbasePrefix, h.coinbaseSuffix, h.merkleBranch, h.lengths, htarget⟩
  · exact h

/-- The rewriting leaves the transactions alone. -/
theorem ActiveJob.FromTemplate.withWindow {active : ActiveJob} {template : BlockTemplate}
    (h : active.FromTemplate template) (exploit : Bool) (parentTime : Option UInt32) :
    (active.withWindow exploit parentTime).FromTemplate template := by
  unfold ActiveJob.withWindow
  split
  · exact ⟨h.transactions, h.txids, h.witnessCommitment⟩
  · exact h

/-- **The jobs that the poller can install**: built from a template, and rewritten for
the window or not. -/
inductive Installable : ActiveJob → Prop
  | mk {jobId : Str} {template : BlockTemplate} {payoutScript : Bytes} {cleanJobs : Bool}
    {active : ActiveJob} (exploit : Bool) (parentTime : Option UInt32)
    (h : build jobId template payoutScript cleanJobs = .ok active) :
    Installable (active.withWindow exploit parentTime)

theorem Installable.coherent {active : ActiveJob} (h : Installable active) : active.Coherent := by
  obtain ⟨exploit, parentTime, hbuild⟩ := h
  exact (build_coherent hbuild).withWindow exploit parentTime

end SoloMiner
