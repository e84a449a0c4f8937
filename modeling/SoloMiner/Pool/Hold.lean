import SoloMiner.Pool.Agreement

/-!
# When a block is submitted

A block for the minimum-difficulty window has a timestamp ahead of the clock, and nodes
refuse it as long as that is more than two hours. So `check` waits, by the clock and the
time that was planned for the job, until the block is legal; but never longer than
`SoloMiner.MAX_SUBMISSION_HOLD`.

The clock is modelled by the moments at which a run performs its operations
(`SoloMiner.Clocked`): they are in order, a reading of the clock tells its own moment,
and a sleep takes at least its time. `SoloMiner.legal_or_held` says what is known when
a block is submitted: it is legal if its time is at most the planned one, or it was held
for the longest time there is.
-/

namespace SoloMiner

open MinDifficulty

/-! ### Runs by the clock -/

/-- How long an operation takes at least. -/
def Effect.duration : Effect → ℤ
  | sleep seconds => seconds
  | _ => 0

@[simp] theorem Effect.duration_unixNow : unixNow.duration = 0 := rfl

@[simp] theorem Effect.duration_sleep (seconds : ℤ) : (sleep seconds).duration = seconds := rfl

/-- What the moment of an operation says about its answer: a reading of the clock is the
moment itself. -/
def Effect.Tells (now : ℤ) : (effect : Effect) → effect.Answer → Prop
  | unixNow, answer => answer = now
  | _, _ => True

/-- **A trace by the clock**: each operation is performed at a moment, not before the one
before it is over. -/
def Clocked : ℤ → List (ℤ × Sigma Effect.Answer) → Prop
  | _, [] => True
  | earliest, (now, ⟨effect, answer⟩) :: later =>
    earliest ≤ now ∧ effect.Tells now answer ∧ Clocked (now + effect.duration) later

/-- A check of a share is run along the moments, and submits a block at `now`. -/
structure SubmitsAt (active : ActiveJob) (share : Share) (extranonce1 : Bytes)
    (timed : List (ℤ × Sigma Effect.Answer)) (block : Str) (now : ℤ) : Prop where
  /-- The run. -/
  runs : ∃ result, Prog.Runs (check active share extranonce1) (timed.map Prod.snd) result
  /-- Its moments. -/
  clocked : ∃ start, Clocked start timed
  /-- The submission. -/
  submits : ∃ answer, (now, ⟨.submitBlock block, answer⟩) ∈ timed

/-- The job has its time, and the moment to wait for, from the parent's timestamp. -/
structure ActiveJob.PlannedFrom (active : ActiveJob) (parentTime : UInt32) : Prop where
  /-- The time of the job. -/
  time : active.job.time = (plan parentTime).ntime
  /-- When it may be submitted. -/
  submitNotBefore : active.submitNotBefore = some (plan parentTime).legalAt

/-- What the poller rewrites is planned so. -/
theorem ActiveJob.plannedFrom_withWindow (active : ActiveJob) (parentTime : UInt32) :
    (active.withWindow true (some parentTime)).PlannedFrom parentTime := by
  obtain ⟨target, htarget⟩ := exists_target
  unfold ActiveJob.withWindow
  rw [htarget]
  exact ⟨rfl, rfl⟩

/-! ### The trace of a check that submits -/

/-- The operations of a wait, for what it reads off the clock. -/
def holdTrace (legalAt seen : ℤ) : Prog.Trace Effect.Answer :=
  ⟨.unixNow, seen⟩ ::
    if legalAt - seen > 0 then [⟨.sleep (min (legalAt - seen) MAX_SUBMISSION_HOLD), ()⟩] else []

theorem runs_hold_iff {legalAt : ℤ} {trace : Prog.Trace Effect.Answer} {result : Option Unit} :
    Prog.Runs (hold (some legalAt)) trace result ↔
      ∃ seen, trace = holdTrace legalAt seen ∧ result = some () := by
  constructor
  · intro h
    obtain ⟨seen, rest, rfl, hrest⟩ := Prog.runs_perform_bind_iff.mp h
    refine ⟨seen, ?_⟩
    dsimp only at hrest
    rw [holdTrace]
    split_ifs at hrest ⊢ with hwait
    · obtain ⟨_, last, rfl, hlast⟩ := Prog.runs_op_iff.mp hrest
      obtain ⟨rfl, rfl⟩ := Prog.runs_ret_iff.mp hlast
      exact ⟨rfl, rfl⟩
    · obtain ⟨rfl, rfl⟩ := Prog.runs_pure_iff.mp hrest
      exact ⟨rfl, rfl⟩
  · rintro ⟨seen, rfl, rfl⟩
    refine Prog.runs_perform_bind_iff.mpr ⟨seen, _, rfl, ?_⟩
    dsimp only
    split_ifs
    · exact .op (.ret ())
    · exact .ret ()

/-- **A run that submits a block**: the wait, and then the block of the rebuilt share. -/
theorem runs_check_of_mem {active : ActiveJob} {share : Share} {extranonce1 : Bytes}
    {trace : Prog.Trace Effect.Answer} {result : Option (Except ValidationError Verdict)}
    {text : Str} {answer : Except Str (Option Str)}
    (h : Prog.Runs (check active share extranonce1) trace result)
    (hmem : ⟨.submitBlock text, answer⟩ ∈ trace) :
    ∃ coinbase header block held, rebuild active share extranonce1 = .ok (coinbase, header) ∧
      assemble active coinbase = .ok block ∧ text = Hex.encode (block.serialize header) ∧
        Prog.Runs (hold active.submitNotBefore) held (some ()) ∧
          trace = held ++ [⟨.submitBlock text, answer⟩] := by
  rcases Prog.runs_attempt_iff.mp h with ⟨⟨coinbase, header⟩, hrebuild, h⟩ | ⟨_, -, rfl, -⟩ |
    ⟨-, rfl, -⟩
  · dsimp only at h
    split_ifs at h with hmet
    · rcases Prog.runs_attempt_iff.mp h with ⟨block, hblock, h⟩ | ⟨_, -, rfl, -⟩ | ⟨-, rfl, -⟩
      · rcases Prog.runs_bind_iff.mp h with ⟨held, rest, _, rfl, hheld, hrest⟩ | ⟨-, hpanic⟩
        · obtain ⟨answer', last, rfl, hlast⟩ := Prog.runs_perform_bind_iff.mp hrest
          obtain ⟨rfl, -⟩ := Prog.runs_pure_iff.mp hlast
          rcases List.mem_append.mp hmem with hmem | hmem
          · exact absurd ((only_hold _).of_runs hheld _ hmem) id
          · obtain ⟨htext, hanswer⟩ := Sigma.mk.inj (List.mem_singleton.mp hmem)
            obtain rfl := Effect.submitBlock.inj htext
            obtain rfl := eq_of_heq hanswer
            exact ⟨coinbase, header, block, held, hrebuild, hblock, rfl, hheld, rfl⟩
        · exact absurd ((safe_hold _).of_runs hpanic) (by simp)
      · exact absurd hmem List.not_mem_nil
      · exact absurd hmem List.not_mem_nil
    · obtain ⟨rfl, -⟩ := Prog.runs_pure_iff.mp h
      exact absurd hmem List.not_mem_nil
  · exact absurd hmem List.not_mem_nil
  · exact absurd hmem List.not_mem_nil

/-! ### What the wait achieves -/

/-- **After the wait the planned moment has come**, unless it was further away than the
longest wait, and that is over. -/
theorem Clocked.of_holdTrace {start legalAt seen now : ℤ} {timed : List (ℤ × Sigma Effect.Answer)}
    {text : Str} {answer : Except Str (Option Str)} (h : Clocked start timed)
    (htrace : timed.map Prod.snd = holdTrace legalAt seen ++ [⟨.submitBlock text, answer⟩])
    (hmem : (now, ⟨.submitBlock text, answer⟩) ∈ timed) :
    (seen, ⟨.unixNow, seen⟩) ∈ timed ∧
      (legalAt ≤ now ∨
        MAX_SUBMISSION_HOLD < legalAt - seen ∧ seen + MAX_SUBMISSION_HOLD ≤ now) := by
  rw [holdTrace, List.cons_append] at htrace
  obtain ⟨⟨moment, _⟩, later, rfl, rfl, hlater⟩ := List.map_eq_cons_iff.mp htrace
  obtain ⟨-, hseen, hclock⟩ := h
  obtain rfl : seen = moment := hseen
  refine ⟨List.mem_cons_self, ?_⟩
  -- The submission is the last operation, behind the reading and the sleep.
  replace hmem : (now, ⟨.submitBlock text, answer⟩) ∈ later := by
    refine (List.mem_cons.mp hmem).resolve_left fun heq => ?_
    exact absurd (Sigma.mk.inj (Prod.mk.inj heq).2).1 (by simp)
  split_ifs at hlater with hwait
  · obtain ⟨⟨asleep, _⟩, last, rfl, rfl, hlast⟩ := List.map_eq_cons_iff.mp hlater
    obtain ⟨⟨submitted, _⟩, _, rfl, rfl, hnil⟩ := List.map_eq_cons_iff.mp hlast
    obtain rfl := List.map_eq_nil_iff.mp hnil
    obtain ⟨hasleep, -, hsubmitted, -⟩ := hclock
    have hnow : now = submitted := by
      rcases List.mem_cons.mp hmem with heq | hmem
      · exact absurd (Sigma.mk.inj (Prod.mk.inj heq).2).1 (by simp)
      · exact (Prod.mk.inj (List.mem_singleton.mp hmem)).1
    rw [Effect.duration_unixNow] at hasleep
    rw [Effect.duration_sleep] at hsubmitted
    omega
  · obtain ⟨⟨submitted, _⟩, _, rfl, rfl, hnil⟩ := List.map_eq_cons_iff.mp hlater
    obtain rfl := List.map_eq_nil_iff.mp hnil
    obtain ⟨hsubmitted, -⟩ := hclock
    have hnow : now = submitted := (Prod.mk.inj (List.mem_singleton.mp hmem)).1
    rw [Effect.duration_unixNow] at hsubmitted
    omega

/-- The planned time is the parent's and twenty minutes and a second, and it is legal two
hours before. -/
theorem legalAt_plan (parentTime : UInt32) :
    (plan parentTime).legalAt + MAX_FUTURE_BLOCK_TIME =
      parentTime.toNat + MIN_DIFFICULTY_GAP + 1 := by
  exact sub_add_cancel _ _

/-- **What is submitted for the window is legal, or was held for as long as is allowed**,
whatever time up to the planned one the miner has put in the header. -/
theorem legal_or_held {active : ActiveJob} {share : Share} {extranonce1 : Bytes}
    {parentTime : UInt32} {timed : List (ℤ × Sigma Effect.Answer)} {text : Str} {now : ℤ}
    (hplan : active.PlannedFrom parentTime)
    (htime : (share.time.toNat : ℤ) ≤ parentTime.toNat + MIN_DIFFICULTY_GAP + 1)
    (h : SubmitsAt active share extranonce1 timed text now) :
    ∃ (block : BlockBuilder) (header : BlockHeader),
      text = Hex.encode (block.serialize header) ∧ header.time = share.time ∧
        ((header.time.toNat : ℤ) ≤ now + MAX_FUTURE_BLOCK_TIME ∨
          ∃ seen, (seen, ⟨.unixNow, seen⟩) ∈ timed ∧
            MAX_SUBMISSION_HOLD < (plan parentTime).legalAt - seen ∧
              seen + MAX_SUBMISSION_HOLD ≤ now) := by
  obtain ⟨⟨result, hrun⟩, ⟨start, hclock⟩, ⟨answer, hmem⟩⟩ := h
  obtain ⟨coinbase, header, block, held, hrebuild, -, rfl, hheld, htrace⟩ :=
    runs_check_of_mem hrun (List.mem_map_of_mem hmem)
  obtain ⟨-, -, _, -, rfl⟩ := rebuild_eq_ok.mp hrebuild
  rw [hplan.submitNotBefore] at hheld
  obtain ⟨seen, rfl, -⟩ := runs_hold_iff.mp hheld
  obtain ⟨hseen, hlegal | ⟨hfar, hover⟩⟩ := hclock.of_holdTrace htrace hmem
  · refine ⟨block, _, rfl, rfl, Or.inl ?_⟩
    have hplanned := legalAt_plan parentTime
    have hheader : (shareHeader active share ‹_›).time = share.time := rfl
    rw [hheader]
    omega
  · exact ⟨block, _, rfl, rfl, Or.inr ⟨seen, hseen, hfar, hover⟩⟩

/-! ### A block that is held for half an hour -/

/-- The job with another time, to be submitted from a moment on. -/
def ActiveJob.timed (active : ActiveJob) (time : UInt32) (legalAt : ℤ) : ActiveJob :=
  { active with job := { active.job with time := time }, submitNotBefore := some legalAt }

theorem ActiveJob.plannedFrom_timed (active : ActiveJob) {time parentTime : UInt32} {legalAt : ℤ}
    (h : plan parentTime = ⟨time, legalAt⟩) :
    (active.timed time legalAt).PlannedFrom parentTime := by
  refine ⟨?_, ?_⟩
  · rw [h]
    rfl
  · rw [h]
    rfl

theorem ActiveJob.Coherent.timed {active : ActiveJob} (h : active.Coherent) (time : UInt32)
    (legalAt : ℤ) : (active.timed time legalAt).Coherent :=
  ⟨h.coinbasePrefix, h.coinbaseSuffix, h.merkleBranch, h.lengths, h.networkTarget⟩

/-- A share that solves the job is submitted after the wait. -/
theorem exists_submitsAt {active : ActiveJob} {share : Share} {extranonce1 : Bytes}
    {coinbase : Transaction} {header : BlockHeader} (hcoherent : active.Coherent)
    (hrebuild : rebuild active share extranonce1 = .ok (coinbase, header))
    (hmet : active.networkTarget.isMetBy header.hash = true) (time : UInt32) (legalAt seen : ℤ) :
    ∃ timed text, SubmitsAt (active.timed time legalAt) share extranonce1 timed text
      (seen + max 0 (min (legalAt - seen) MAX_SUBMISSION_HOLD)) := by
  obtain ⟨block, hblock⟩ : ∃ block, assemble (active.timed time legalAt) coinbase = .ok block :=
    ⟨_, (hcoherent.timed time legalAt).assemble_eq coinbase⟩
  have hrebuild' : rebuild (active.timed time legalAt) share extranonce1 =
      .ok (coinbase, header) := hrebuild
  have hmet' : (active.timed time legalAt).networkTarget.isMetBy header.hash = true := hmet
  have hsubmit : ∀ held, Prog.Runs (hold (some legalAt)) held (some ()) →
      Prog.Runs (check (active.timed time legalAt) share extranonce1)
        (held ++ [⟨.submitBlock (Hex.encode (block.serialize header)), .ok none⟩])
        (some (verdictOf (active.timed time legalAt) header.hash (.ok none))) := by
    intro held hheld
    refine Prog.Runs.attempt hrebuild' ?_
    dsimp only
    rw [if_pos hmet']
    exact Prog.Runs.attempt hblock (hheld.bind (.op (.ret _)))
  have hheld : Prog.Runs (hold (some legalAt)) (holdTrace legalAt seen) (some ()) :=
    runs_hold_iff.mpr ⟨seen, rfl, rfl⟩
  have hhold : 0 < MAX_SUBMISSION_HOLD := by decide
  by_cases hwait : legalAt - seen > 0
  · rw [holdTrace, if_pos hwait] at hheld
    refine ⟨[(seen, ⟨.unixNow, seen⟩),
      (seen, ⟨.sleep (min (legalAt - seen) MAX_SUBMISSION_HOLD), ()⟩),
      (_, ⟨.submitBlock (Hex.encode (block.serialize header)), .ok none⟩)], _,
      ⟨⟨_, hsubmit _ hheld⟩, ⟨seen, le_rfl, rfl, ?_, trivial, ?_, trivial, trivial⟩,
        ⟨_, List.mem_cons_of_mem _ (List.mem_cons_of_mem _ List.mem_cons_self)⟩⟩⟩
    · rw [Effect.duration_unixNow]
      omega
    · rw [Effect.duration_sleep]
      omega
  · rw [holdTrace, if_neg hwait] at hheld
    refine ⟨[(seen, ⟨.unixNow, seen⟩),
      (_, ⟨.submitBlock (Hex.encode (block.serialize header)), .ok none⟩)], _,
      ⟨⟨_, hsubmit _ hheld⟩, ⟨seen, le_rfl, rfl, ?_, trivial, trivial⟩,
        ⟨_, List.mem_cons_of_mem _ List.mem_cons_self⟩⟩⟩
    rw [Effect.duration_unixNow]
    omega

/-- A block whose window is open is submitted at once, and is legal. -/
theorem legal_or_held_sample : ∃ active timed text,
    (active : ActiveJob).PlannedFrom 1699998799 ∧
      SubmitsAt active sampleShare [0, 0, 0, 1] timed text 1700000000 ∧
        ∃ (block : BlockBuilder) (header : BlockHeader),
          text = Hex.encode (block.serialize header) ∧ header.time = sampleShare.time ∧
            ((header.time.toNat : ℤ) ≤ 1700000000 + MAX_FUTURE_BLOCK_TIME ∨
              ∃ seen, (seen, ⟨.unixNow, seen⟩) ∈ timed ∧
                MAX_SUBMISSION_HOLD < (plan 1699998799).legalAt - seen ∧
                  seen + MAX_SUBMISSION_HOLD ≤ 1700000000) := by
  obtain ⟨active, coinbase, header, hbuild, hrebuild, hmet⟩ := exists_of_solves solves_sample
  obtain ⟨timed, text, hsubmits⟩ := exists_submitsAt (build_coherent hbuild) hrebuild hmet
    1700000000 1699992800 1700000000
  have hplan := active.plannedFrom_timed
    (show plan 1699998799 = ⟨1700000000, 1699992800⟩ by decide)
  exact ⟨_, timed, text, hplan, hsubmits, legal_or_held hplan (by decide) hsubmits⟩

/-- The clock is years behind the parent's timestamp. The block is held for half an hour
and submitted, and is not legal for years. -/
theorem not_always_legal : ∃ active, build ['1'] sampleTemplate [0x51] true = .ok active ∧
    (active.timed 1700000000 1699992800).PlannedFrom 1699998799 ∧ ∃ timed text,
      SubmitsAt (active.timed 1700000000 1699992800) sampleShare [0, 0, 0, 1] timed text
          1600001800 ∧
        ¬ (sampleShare.time.toNat : ℤ) ≤ 1600001800 + MAX_FUTURE_BLOCK_TIME := by
  obtain ⟨active, coinbase, header, hbuild, hrebuild, hmet⟩ := exists_of_solves solves_sample
  obtain ⟨timed, text, hsubmits⟩ := exists_submitsAt (build_coherent hbuild) hrebuild hmet
    1700000000 1699992800 1600000000
  exact ⟨active, hbuild, active.plannedFrom_timed (by decide), timed, text, hsubmits, by decide⟩

end SoloMiner
