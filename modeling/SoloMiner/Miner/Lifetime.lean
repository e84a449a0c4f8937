import Mathlib.Data.List.Induction
import SoloMiner.Miner.Stats

/-!
# The totals over all sessions

The reporting thread keeps totals that outlive the miner: every hash ever computed, and
the best hash ever seen. A session loads them from a file; every report folds into them
what the counters have gained since the report before, and saves them.

The file is modelled by the totals that can be read in it, if any, and a save as leaving
behind what a load finds. A run (`SoloMiner.Reporting.step`) is any order of starts and
reports: a start may come at any time, and the session before it is over then, reported or
not.

In 64 bits the differences telescope only up to saturation, which is absorbing: after a
report the total is what was loaded and the count of the session, as far as 64 bits go
(`SoloMiner.Accurate`), and nothing that is saved is ever lost
(`SoloMiner.Reporting.reports_accurate`).
-/

namespace SoloMiner

open Search StepSystem

/-- Totals carried across sessions. -/
structure Lifetime where
  /-- Every hash this miner has ever computed. -/
  totalHashes : UInt64
  /-- The lowest hash ever seen, in display form. -/
  bestHash : Str
  /-- Its leading zero bits. -/
  bestZeroBits : ℕ
  /-- How many times the miner has been started. -/
  sessions : UInt64
  /-- Unix time of the first ever run. -/
  firstRun : UInt64
  /-- Unix time of the most recent run. -/
  lastRun : UInt64
  deriving DecidableEq

/-- `u64::saturating_add`. -/
def saturatingAdd (a b : UInt64) : UInt64 := UInt64.ofNat (min (a.toNat + b.toNat) (2 ^ 64 - 1))

namespace Lifetime

/-- The totals of a miner that has never run. -/
def fresh (now : UInt64) : Lifetime := ⟨0, ALL_ONES.display, 0, 0, now, now⟩

/-- Loads the totals, or starts fresh if there are none to be read. -/
def load (file : Option Lifetime) (now : UInt64) : Lifetime :=
  let lifetime := file.getD (fresh now)
  { lifetime with sessions := lifetime.sessions + 1, lastRun := now }

/-- Folds new hashes and a session's best hash into the totals. -/
def record (self : Lifetime) (newHashes : UInt64) (best : Sha256dHash) (bestZeroBits : ℕ)
    (now : UInt64) : Lifetime :=
  let self := { self with totalHashes := saturatingAdd self.totalHashes newHashes, lastRun := now }
  if self.bestZeroBits < bestZeroBits then
    { self with bestZeroBits := bestZeroBits, bestHash := best.display }
  else self

end Lifetime

/-- What a report reads: the counters, their count before their best hash, and the time. -/
structure Reading where
  stats : Stats
  now : UInt64
  deriving DecidableEq

/-- The variables of `report_forever`: the totals, and the part of the session's count that
is folded into them. -/
structure ReportForever where
  lifetime : Lifetime
  foldedIn : UInt64
  deriving DecidableEq

namespace ReportForever

/-- Before the loop. -/
def start (file : Option Lifetime) (now : UInt64) : ReportForever := ⟨.load file now, 0⟩

/-- One pass of the loop, up to the save. -/
def report (self : ReportForever) (reading : Reading) : ReportForever :=
  let total := reading.stats.totalHashes
  -- A difference below zero would wrap here, and end the thread in a debug build.
  let recent := total - self.foldedIn
  let (best, zeroBits) := reading.stats.readBest
  ⟨self.lifetime.record recent best zeroBits reading.now, total⟩

end ReportForever

/-- The file, and the reporting thread of the session that runs, if any. -/
structure Reporting where
  file : Option Lifetime
  reporter : Option ReportForever
  deriving DecidableEq

/-- What happens to the totals. -/
inductive LifetimeAction where
  /-- The miner is started, and the session before it is over. -/
  | start (now : UInt64)
  /-- The session that runs reports, and saves. -/
  | report (reading : Reading)

namespace Reporting

/-- One start, or one report. -/
def step (self : Reporting) : LifetimeAction → Option Reporting
  | .start now => some { self with reporter := some (.start self.file now) }
  | .report reading => self.reporter.map fun reporter =>
    let reporter := reporter.report reading
    ⟨some reporter.lifetime, some reporter⟩

/-- A miner that is not running, with totals in its file or none. -/
def stopped (file : Option Lifetime) : Reporting := ⟨file, none⟩

end Reporting

/-! ### Folding into the totals -/

theorem toNat_saturatingAdd (a b : UInt64) :
    (saturatingAdd a b).toNat = min (a.toNat + b.toNat) (2 ^ 64 - 1) := by
  rw [saturatingAdd, UInt64.toNat_ofNat', Nat.mod_eq_of_lt]
  omega

/-- The best hash that is kept has the zero bits that are kept, if there are any. -/
def Lifetime.Consistent (self : Lifetime) : Prop :=
  0 < self.bestZeroBits →
    ∃ h : Sha256dHash, self.bestHash = h.display ∧ h.leadingZeroBits = self.bestZeroBits

namespace Lifetime

variable {self : Lifetime} {file : Option Lifetime}

theorem totalHashes_record (newHashes : UInt64) (best : Sha256dHash) (bestZeroBits : ℕ)
    (now : UInt64) : (self.record newHashes best bestZeroBits now).totalHashes =
      saturatingAdd self.totalHashes newHashes := by
  rw [record]
  split_ifs <;> rfl

theorem bestZeroBits_record (newHashes : UInt64) (best : Sha256dHash) (bestZeroBits : ℕ)
    (now : UInt64) : (self.record newHashes best bestZeroBits now).bestZeroBits =
      max self.bestZeroBits bestZeroBits := by
  rw [record]
  split_ifs with hmore
  · exact (max_eq_right hmore.le).symm
  · exact (max_eq_left (not_lt.mp hmore)).symm

/-- **Recording keeps the best hash consistent**, if it is told the hash's zero bits. -/
theorem Consistent.record (h : self.Consistent) (newHashes : UInt64) (best : Sha256dHash)
    (now : UInt64) : (self.record newHashes best best.leadingZeroBits now).Consistent := by
  rw [Lifetime.record]
  split_ifs with hmore
  · exact fun _ => ⟨best, rfl, rfl⟩
  · exact h

/-- Loading gives what was saved, or the start values, with no hash to be consistent
about. -/
theorem Consistent.load (h : ∀ lifetime, file = some lifetime → lifetime.Consistent)
    (now : UInt64) : (Lifetime.load file now).Consistent := by
  cases file with
  | none => exact fun hpos => absurd hpos (lt_irrefl 0)
  | some lifetime => exact h lifetime rfl

end Lifetime

/-! ### One session -/

/-- What has been counted at the last of these reports. -/
def counted (readings : List Reading) : UInt64 :=
  (readings.getLast?.map fun reading => reading.stats.totalHashes).getD 0

/-- What the totals are meant to be after these reports of a session that loaded others. -/
structure Accurate (loaded : Lifetime) (readings : List Reading) (after : Lifetime) : Prop where
  /-- The total is what was loaded and what the session has counted, as far as it fits. -/
  totalHashes : after.totalHashes.toNat =
    min (loaded.totalHashes.toNat + (counted readings).toNat) (2 ^ 64 - 1)
  /-- The zero bits are the most of those loaded and those of every report. -/
  bestZeroBits : after.bestZeroBits =
    (readings.map fun reading => reading.stats.readBest.2).foldl max loaded.bestZeroBits

@[simp] theorem counted_concat (readings : List Reading) (reading : Reading) :
    counted (readings ++ [reading]) = reading.stats.totalHashes := by
  simp [counted]

/-- A session that has not reported has what it loaded. -/
theorem accurate_nil (loaded : Lifetime) : Accurate loaded [] loaded where
  totalHashes := by
    have hlt := loaded.totalHashes.toNat_lt
    change loaded.totalHashes.toNat = min (loaded.totalHashes.toNat + 0) (2 ^ 64 - 1)
    omega
  bestZeroBits := rfl

/-- **The step lemma**: a report adds the difference of two counts to a total that has the
earlier one in it, saturated or not, so that the later one is in it. -/
theorem Accurate.concat {loaded : Lifetime} {readings : List Reading} {self : ReportForever}
    (h : Accurate loaded readings self.lifetime) (hfolded : self.foldedIn = counted readings)
    (reading : Reading) (hle : counted readings ≤ reading.stats.totalHashes) :
    Accurate loaded (readings ++ [reading]) (self.report reading).lifetime where
  totalHashes := by
    have hdiff : (reading.stats.totalHashes - self.foldedIn).toNat =
        reading.stats.totalHashes.toNat - (counted readings).toNat := by
      rw [hfolded, UInt64.toNat_sub_of_le _ _ hle]
    have hle' := UInt64.le_iff_toNat_le.mp hle
    have htotal := h.totalHashes
    rw [ReportForever.report, Lifetime.totalHashes_record, toNat_saturatingAdd, hdiff,
      counted_concat]
    omega
  bestZeroBits := by
    rw [ReportForever.report, Lifetime.bestZeroBits_record, h.bestZeroBits, List.map_append,
      List.foldl_append]
    rfl

namespace Reporting

variable {s s' : Reporting} {action : LifetimeAction} {actions : List LifetimeAction}

/-- The session that runs has loaded these totals and made these reports, and has saved
after the last of them. -/
def InSession (s : Reporting) (loaded : Lifetime) (readings : List Reading) : Prop :=
  ∃ reporter, s.reporter = some reporter ∧ reporter.foldedIn = counted readings ∧
    Accurate loaded readings reporter.lifetime ∧
      (readings ≠ [] → s.file = some reporter.lifetime)

/-- **A session**: from its start, all its reports are made, and after the last of them the
totals are what they are meant to be. The induction is on the reports, from the last one
back. -/
theorem exec_session (s : Reporting) (now : UInt64) (readings : List Reading)
    (hcounts : (readings.map fun reading => reading.stats.totalHashes).Pairwise (· ≤ ·)) :
    ∃ s', exec step s (.start now :: readings.map .report) = some s' ∧
      s'.InSession (.load s.file now) readings := by
  induction readings using List.reverseRecOn with
  | nil =>
    exact ⟨{ s with reporter := some (.start s.file now) }, rfl, .start s.file now, rfl, rfl,
      accurate_nil _, fun hne => absurd rfl hne⟩
  | append_singleton readings reading ih =>
    rw [List.map_append, List.pairwise_append] at hcounts
    obtain ⟨hbefore, -, hlast⟩ := hcounts
    obtain ⟨s₁, hexec, reporter, hreporter, hfolded, haccurate, -⟩ := ih hbefore
    have hle : counted readings ≤ reading.stats.totalHashes := by
      rcases List.eq_nil_or_concat readings with rfl | ⟨init, last, rfl⟩
      · exact UInt64.zero_le
      · rw [List.concat_eq_append, counted_concat]
        exact hlast _ (by simp) _ (by simp)
    refine ⟨⟨some (reporter.report reading).lifetime, some (reporter.report reading)⟩, ?_,
      reporter.report reading, rfl, (counted_concat readings reading).symm,
      haccurate.concat hfolded reading hle, fun _ => rfl⟩
    rw [List.map_append, ← List.cons_append, exec_append, hexec]
    change (step s₁ (.report reading)).bind some = _
    rw [step, hreporter]
    rfl

/-! ### All sessions -/

/-- The hashes that are saved, if any are. -/
def savedHashes (s : Reporting) : ℕ :=
  (s.file.map fun lifetime => lifetime.totalHashes.toNat).getD 0

/-- The zero bits that are saved, if any are. -/
def savedZeroBits (s : Reporting) : ℕ := (s.file.map Lifetime.bestZeroBits).getD 0

/-- **What a step can do**: it starts a session on the file, or the session that runs
reports into the file. -/
theorem step_cases (h : step s action = some s') :
    (∃ now, action = .start now ∧ s' = { s with reporter := some (.start s.file now) }) ∨
    ∃ reading reporter, action = .report reading ∧ s.reporter = some reporter ∧
      s' = ⟨some (reporter.report reading).lifetime, some (reporter.report reading)⟩ := by
  cases action with
  | start now => exact Or.inl ⟨now, rfl, (Option.some.inj h).symm⟩
  | report reading =>
    obtain ⟨reporter, hreporter, hs'⟩ := Option.map_eq_some_iff.mp h
    exact Or.inr ⟨reading, reporter, rfl, hreporter, hs'.symm⟩

/-- The session that runs has the hashes and the zero bits that are saved. -/
def InStep (s : Reporting) : Prop :=
  ∀ reporter, s.reporter = some reporter →
    reporter.lifetime.totalHashes.toNat = s.savedHashes ∧
      reporter.lifetime.bestZeroBits = s.savedZeroBits

/-- **The step lemma**: after a step the session that runs has what is saved, and no less is
saved than before. -/
theorem InStep.after_step (h : InStep s) (hstep : step s action = some s') :
    InStep s' ∧ s.savedHashes ≤ s'.savedHashes ∧ s.savedZeroBits ≤ s'.savedZeroBits := by
  obtain ⟨now, rfl, rfl⟩ | ⟨reading, reporter, rfl, hreporter, rfl⟩ := step_cases hstep
  · refine ⟨fun reporter hreporter => ?_, le_rfl, le_rfl⟩
    obtain rfl := Option.some.inj hreporter
    change (Lifetime.load s.file now).totalHashes.toNat = s.savedHashes ∧
      (Lifetime.load s.file now).bestZeroBits = s.savedZeroBits
    rw [savedHashes, savedZeroBits]
    cases s.file with
    | none => exact ⟨rfl, rfl⟩
    | some lifetime => exact ⟨rfl, rfl⟩
  · obtain ⟨hhashes, hbits⟩ := h reporter hreporter
    refine ⟨fun reporter' hreporter' => ?_, ?_, ?_⟩
    · obtain rfl := Option.some.inj hreporter'
      exact ⟨rfl, rfl⟩
    · have hlt := reporter.lifetime.totalHashes.toNat_lt
      change s.savedHashes ≤ (reporter.report reading).lifetime.totalHashes.toNat
      rw [ReportForever.report, Lifetime.totalHashes_record, toNat_saturatingAdd]
      omega
    · change s.savedZeroBits ≤ (reporter.report reading).lifetime.bestZeroBits
      rw [ReportForever.report, Lifetime.bestZeroBits_record, ← hbits]
      exact le_max_left _ _

/-- **The run lemma.** -/
theorem InStep.after_run (h : InStep s) (hexec : exec step s actions = some s') :
    InStep s' ∧ s.savedHashes ≤ s'.savedHashes ∧ s.savedZeroBits ≤ s'.savedZeroBits := by
  induction actions generalizing s with
  | nil =>
    obtain rfl := Option.some.inj hexec
    exact ⟨h, le_rfl, le_rfl⟩
  | cons action actions ih =>
    obtain ⟨s₁, hstep, hrest⟩ := Option.bind_eq_some_iff.mp hexec
    obtain ⟨h₁, hhashes, hbits⟩ := h.after_step hstep
    obtain ⟨h', hhashes', hbits'⟩ := ih h₁ hrest
    exact ⟨h', hhashes.trans hhashes', hbits.trans hbits'⟩

/-- The totals in the file and those of the session that runs are consistent. -/
structure Consistent (s : Reporting) : Prop where
  file : ∀ lifetime, s.file = some lifetime → lifetime.Consistent
  reporter : ∀ reporter, s.reporter = some reporter → reporter.lifetime.Consistent

/-- **The step lemma** for the best hash. -/
theorem Consistent.after_step (h : Consistent s) (hstep : step s action = some s') :
    Consistent s' := by
  obtain ⟨now, rfl, rfl⟩ | ⟨reading, reporter, rfl, hreporter, rfl⟩ := step_cases hstep
  · refine ⟨h.file, fun reporter hreporter => ?_⟩
    obtain rfl := Option.some.inj hreporter
    exact Lifetime.Consistent.load h.file now
  · have hreport : (reporter.report reading).lifetime.Consistent :=
      (h.reporter reporter hreporter).record _ _ _
    exact ⟨fun lifetime hlifetime => Option.some.inj hlifetime ▸ hreport,
      fun reporter' hreporter' => Option.some.inj hreporter' ▸ hreport⟩

/-- **The totals neither double count nor regress.** After any sessions, the next one finds
after each of its reports, if its counter does not fall, what it loaded and what it has
counted, and saves it. Whatever happens from there on, no less is saved. And the best hash
is consistent, if the file was at first. -/
theorem reports_accurate (file : Option Lifetime) (before : List LifetimeAction) (s : Reporting)
    (hbefore : exec step (stopped file) before = some s) :
    (∀ now (readings : List Reading),
      (readings.map fun reading => reading.stats.totalHashes).Pairwise (· ≤ ·) →
        ∃ s', exec step s (.start now :: readings.map .report) = some s' ∧
          s'.InSession (.load s.file now) readings) ∧
    (∀ (more : List LifetimeAction) (s' : Reporting), exec step s more = some s' →
      s.savedHashes ≤ s'.savedHashes ∧ s.savedZeroBits ≤ s'.savedZeroBits) ∧
    ((∀ lifetime, file = some lifetime → lifetime.Consistent) → Consistent s) := by
  have hstopped : InStep (stopped file) := fun _ hreporter => nomatch hreporter
  have hinStep := (hstopped.after_run hbefore).1
  refine ⟨exec_session s, fun more s' hmore => (hinStep.after_run hmore).2, fun hfile => ?_⟩
  have hconsistent : Consistent (stopped file) := ⟨hfile, fun _ hreporter => nomatch hreporter⟩
  exact (always_of_step (fun _ _ _ h hstep => h.after_step hstep) hconsistent before).last hbefore

/-- A report of a million hashes, the best of them with eight zero bits. -/
def sampleReading : Reading :=
  ⟨⟨1000000, 8, Recorders.sampleHash 0x81⟩, 1700000000⟩

/-- A second session after a first one, of one report each: its total is twice as high. -/
theorem reports_accurate_sampleReading :
    ∃ s s', exec step (stopped none) [.start 1600000000, .report sampleReading] = some s ∧
      exec step s [.start 1700000000, .report sampleReading] = some s' ∧
      s'.InSession (.load s.file 1700000000) [sampleReading] ∧
      s'.savedHashes = 2000000 ∧ s.savedHashes ≤ s'.savedHashes ∧ Consistent s := by
  obtain ⟨hsession, hmore, hconsistent⟩ := reports_accurate none
    [.start 1600000000, .report sampleReading] _ rfl
  obtain ⟨s', hexec, hin⟩ := hsession 1700000000 [sampleReading] (List.pairwise_singleton _ _)
  refine ⟨_, s', rfl, hexec, hin, ?_, (hmore _ s' hexec).1, hconsistent fun _ h => nomatch h⟩
  obtain rfl := Option.some.inj hexec
  rfl

end Reporting

end SoloMiner
