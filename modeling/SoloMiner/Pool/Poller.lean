import SoloMiner.Pool.Server

/-!
# The poller

The poller asks the node for a template over and over. When the tip has moved, or the
difficulty has changed, or the job has grown old, it builds a new job; and it tells the
miners to drop the old one (`clean_jobs`) in the first two cases only. What has changed
it sees by the template of the last job it installed. But on the network with the
minimum-difficulty rule a job's bits are not those of its template, as long as the node
also tells the parent's timestamp, which is asked for apart.

`SoloMiner.PollRun.always_changesAnnounced_iff` says when every job that differs from the
one before is announced as clean: precisely if no job that merely refreshes another is
rewritten for the window when that was not, or the other way round.
-/

namespace SoloMiner

open MinDifficulty
open Json

/-- The networks. -/
inductive Network where
  | regtest
  | testnet4
  | mainnet
  deriving DecidableEq

/-- What the poller remembers of the last template it made a job of. -/
structure Poller where
  lastTip : Option Str
  lastBits : Option UInt32

/-- What goes wrong in a pass is printed, and the loop goes on. -/
inductive PollError where
  | fetch (message : Str)
  | build (error : BuildError)

/-- What the poller is answered in one pass of its loop. -/
structure Tick where
  /-- The node's template. -/
  template : Except Str BlockTemplate
  /-- Whether `REFRESH_INTERVAL` has passed since the last job. -/
  stale : Bool
  /-- The id that is allocated for the job. -/
  jobId : Str
  /-- The timestamp in the parent's header, as the node tells it. -/
  parentTime : Except Str UInt32

namespace Poller

/-- Before the first pass. -/
def new : Poller := ⟨none, none⟩

/-- Whether the template is for another tip. -/
def tipChanged (self : Poller) (template : BlockTemplate) : Bool :=
  self.lastTip != some template.previousBlockHash

/-- Whether the bits of the template, if they can be read, are others. -/
def bitsChanged (self : Poller) (bits : Option UInt32) : Bool :=
  self.lastBits.isSome && bits.isSome && bits != self.lastBits

/-- Whether the job of the template invalidates the work in flight. -/
def changed (self : Poller) (template : BlockTemplate) (bits : Option UInt32) : Bool :=
  self.tipChanged template || self.bitsChanged bits

/-- One pass of `poll_templates`: what it remembers afterwards, and the job that it
installs and broadcasts, if any. -/
def poll (network : Network) (payoutScript : Bytes) (self : Poller) (tick : Tick) :
    Checked PollError (Poller × Option ActiveJob) :=
  match tick.template with
  -- Nothing is remembered of a pass that fails.
  | .error message => .err (.fetch message)
  | .ok template => do
    let bits ← Checked.dropErr template.compactBits
    let clean := self.changed template bits
    if clean || tick.stale then do
      let active ← Checked.mapErr .build (build tick.jobId template payoutScript clean)
      let job := active.withWindow (network == .testnet4) tick.parentTime.toOption
      pure (⟨some template.previousBlockHash, bits⟩, some job)
    else pure (self, none)

end Poller

/-- A run of the poller: its memory, and the jobs it has installed, the latest first. -/
structure PollRun where
  poller : Poller
  installed : List ActiveJob

namespace PollRun

/-- Before the first pass. -/
def init : PollRun := ⟨.new, []⟩

/-- One pass. A panic ends the poller. -/
def step (network : Network) (payoutScript : Bytes) (s : PollRun) (tick : Tick) :
    Option PollRun :=
  match s.poller.poll network payoutScript tick with
  | .ok (poller, job) => some ⟨poller, job.toList ++ s.installed⟩
  | .error (.error _) => some s
  | .error .panic => none

/-- **What changes is announced as changed**: the first job is clean, and a job that is
not clean has the tip and the bits of the one before. The latest job is first. -/
def ChangesAnnounced : List ActiveJob → Prop
  | [] => True
  | [first] => first.job.cleanJobs = true
  | active :: previous :: older =>
    (active.job.cleanJobs = false → previous.job.prevHash = active.job.prevHash ∧
      previous.job.bits = active.job.bits) ∧ ChangesAnnounced (previous :: older)

variable {network : Network} {payoutScript : Bytes}

/-! ### What a pass does -/

/-- Whether a job that is built in this pass is rewritten for the window. -/
def rewrites (network : Network) (tick : Tick) : Bool :=
  network == .testnet4 && tick.parentTime.toOption.isSome

variable (payoutScript) in
/-- **A pass installs a job**: the job `built` of the template, rewritten or not. -/
structure Installs (memory : Poller) (tick : Tick) (template : BlockTemplate) (built : ActiveJob) :
    Prop where
  /-- The node answers with the template. -/
  fetched : tick.template = .ok template
  /-- There is a reason to build a job. -/
  due : (memory.changed template (some built.job.bits) || tick.stale) = true
  /-- The job can be built. -/
  built : build tick.jobId template payoutScript
    (memory.changed template (some built.job.bits)) = .ok built

/-- What a pass that installs a job leaves. -/
theorem Installs.poll_eq {memory : Poller} {tick : Tick} {template : BlockTemplate}
    {built : ActiveJob} (h : Installs payoutScript memory tick template built) :
    memory.poll network payoutScript tick =
      .ok (⟨some template.previousBlockHash, some built.job.bits⟩,
        some (built.withWindow (network == .testnet4) tick.parentTime.toOption)) := by
  obtain ⟨-, hbits, -, -, -⟩ := build_job h.built
  have hdue := h.due
  unfold Poller.poll
  rw [h.fetched]
  simp only [hbits, Checked.dropErr, Checked.ok_bind]
  rw [if_pos hdue, h.built]
  rfl

/-- The run after it. -/
theorem Installs.step_eq {s : PollRun} {tick : Tick} {template : BlockTemplate}
    {built : ActiveJob} (h : Installs payoutScript s.poller tick template built) :
    step network payoutScript s tick =
      some ⟨⟨some template.previousBlockHash, some built.job.bits⟩,
        built.withWindow (network == .testnet4) tick.parentTime.toOption :: s.installed⟩ := by
  rw [step, h.poll_eq]
  rfl

/-- A pass installs a job, or remembers what it did. -/
theorem Installs.of_poll {memory poller : Poller} {tick : Tick} {job : Option ActiveJob}
    (h : memory.poll network payoutScript tick = .ok (poller, job)) :
    (∃ template built, Installs payoutScript memory tick template built) ∨
      poller = memory ∧ job = none := by
  unfold Poller.poll at h
  split at h
  · exact absurd h (by simp [Checked.err])
  · next template htemplate =>
    obtain ⟨bits, hbits, h⟩ := Checked.bind_eq_ok.mp h
    dsimp only at h
    split_ifs at h with hdue
    · obtain ⟨built, hbuilt, h⟩ := Checked.bind_eq_ok.mp h
      rw [Checked.mapErr_eq_ok] at hbuilt
      obtain ⟨-, hcompact, -, -, -⟩ := build_job hbuilt
      rw [hcompact] at hbits
      obtain rfl : some built.job.bits = bits := Except.ok.inj hbits
      exact Or.inl ⟨template, built, htemplate, hdue, hbuilt⟩
    · obtain ⟨rfl, rfl⟩ := Prod.mk.inj (Except.ok.inj h)
      exact Or.inr ⟨rfl, rfl⟩

/-- **What one pass does**: it installs a job, or leaves everything as it was. -/
theorem step_cases {s s' : PollRun} {tick : Tick}
    (h : step network payoutScript s tick = some s') :
    (∃ template built, Installs payoutScript s.poller tick template built ∧
      s' = ⟨⟨some template.previousBlockHash, some built.job.bits⟩,
        built.withWindow (network == .testnet4) tick.parentTime.toOption :: s.installed⟩) ∨
    (∀ template built, ¬ Installs payoutScript s.poller tick template built) ∧ s' = s := by
  by_cases hinstalls : ∃ template built, Installs payoutScript s.poller tick template built
  · obtain ⟨template, built, hbuilt⟩ := hinstalls
    exact Or.inl ⟨template, built, hbuilt, Option.some.inj (h.symm.trans hbuilt.step_eq)⟩
  · refine Or.inr ⟨fun template built hbuilt => hinstalls ⟨template, built, hbuilt⟩, ?_⟩
    unfold step at h
    split at h
    · next poller job hpoll =>
      obtain hbuilt | ⟨rfl, rfl⟩ := Installs.of_poll hpoll
      · exact absurd hbuilt hinstalls
      · exact (Option.some.inj h).symm
    · exact (Option.some.inj h).symm
    · exact absurd h (by simp)

variable (network) in
/-- What the window makes of the job that a pass installs. -/
theorem Installs.withWindow {memory : Poller} {tick : Tick} {template : BlockTemplate}
    {built : ActiveJob} (h : Installs payoutScript memory tick template built) :
    let active := built.withWindow (network == .testnet4) tick.parentTime.toOption
    template.previousBlock = .ok active.job.prevHash ∧
      active.job.cleanJobs = memory.changed template (some built.job.bits) ∧
        active.submitNotBefore.isSome = rewrites network tick ∧
          active.job.bits =
            if rewrites network tick then MIN_DIFFICULTY_BITS else built.job.bits := by
  obtain ⟨hprev, -, -, hclean, hnone⟩ := build_job h.built
  obtain ⟨hprev', -, hclean', hwindow⟩ :=
    built.withWindow_job (network == .testnet4) tick.parentTime.toOption
  refine ⟨hprev.trans (congrArg Except.ok hprev'.symm), hclean'.trans hclean, ?_⟩
  rw [rewrites]
  split_ifs at hwindow ⊢ with hrewrites
  · exact ⟨hwindow.2.trans hrewrites.symm, hwindow.1⟩
  · rw [hwindow, hnone]
    exact ⟨((Bool.not_eq_true _).mp hrewrites).symm, rfl⟩

/-! ### What the poller remembers -/

variable (network) in
/-- **What is remembered is of the job installed last**: its tip, and the bits of its
template, which are those of the job unless it was rewritten. -/
def Remembers (s : PollRun) : Prop :=
  match s.installed with
  | [] => s.poller = .new
  | last :: _ => ∃ (template : BlockTemplate) (bits : UInt32),
    s.poller = ⟨some template.previousBlockHash, some bits⟩ ∧
      template.previousBlock = .ok last.job.prevHash ∧
        (last.submitNotBefore.isSome = true → network = .testnet4) ∧
          last.job.bits = if last.submitNotBefore.isSome then MIN_DIFFICULTY_BITS else bits

theorem remembers_init : Remembers network init := rfl

/-- Every pass keeps it. -/
theorem Remembers.of_step {s s' : PollRun} {tick : Tick} (hs : Remembers network s)
    (h : step network payoutScript s tick = some s') : Remembers network s' := by
  obtain ⟨template, built, hbuilt, rfl⟩ | ⟨-, rfl⟩ := step_cases h
  · obtain ⟨hprev, -, hwindow, hbits⟩ := hbuilt.withWindow network
    refine ⟨template, built.job.bits, rfl, hprev, fun hsome => ?_, ?_⟩
    · rw [hwindow, rewrites, Bool.and_eq_true, beq_iff_eq] at hsome
      exact hsome.1
    · rw [hbits, hwindow]
  · exact hs

/-! ### When a refreshed job is another one -/

variable (network payoutScript) in
/-- **A refresh that leaves the window as it was**: if the pass only refreshes the last
job, since it finds the tip and the bits that it remembers, then this job is rewritten
if that one was, and not if it was not; or the bits are those of the window anyway. -/
def SteadyWindow (s : PollRun) (tick : Tick) : Prop :=
  ∀ (template : BlockTemplate) (bits : UInt32) (last : ActiveJob),
    tick.template = .ok template → s.installed.head? = some last →
    s.poller = ⟨some template.previousBlockHash, some bits⟩ →
    template.compactBits = .ok bits → tick.stale = true →
    (∃ built, build tick.jobId template payoutScript false = .ok built) →
      rewrites network tick = last.submitNotBefore.isSome ∨ bits = MIN_DIFFICULTY_BITS

/-- A pass finds what it remembers precisely if nothing has changed. -/
theorem changed_eq_false_iff {memory : Poller} {template : BlockTemplate} {bits : UInt32} :
    memory.changed template (some bits) = false ↔
      memory.lastTip = some template.previousBlockHash ∧
        (memory.lastBits = none ∨ memory.lastBits = some bits) := by
  rw [Poller.changed, Poller.tipChanged, Poller.bitsChanged, Bool.or_eq_false_iff]
  rcases memory with ⟨lastTip, _ | lastBits⟩
  · simp only [Option.isSome_none, Bool.false_and, bne_eq_false_iff_eq, true_or, and_true]
  · simp only [Option.isSome_some, Bool.true_and, bne_eq_false_iff_eq, reduceCtorEq, false_or,
      eq_comm (a := some bits)]

/-- Two jobs with the same bits of their own keep them the same precisely if both are
rewritten for the window or none is, or if the bits are those of the window anyway. -/
theorem rewritten_eq_iff {rewritten rewritten' : Bool} {bits : UInt32} :
    ((if rewritten then MIN_DIFFICULTY_BITS else bits) =
      if rewritten' then MIN_DIFFICULTY_BITS else bits) ↔
        rewritten = rewritten' ∨ bits = MIN_DIFFICULTY_BITS := by
  cases rewritten <;> cases rewritten' <;> simp [eq_comm]

/-- A pass that installs no job did not refresh one: it would have built the job. -/
theorem steadyWindow_of_not_installs {s : PollRun} {tick : Tick}
    (hnone : ∀ template built, ¬ Installs payoutScript s.poller tick template built) :
    SteadyWindow network payoutScript s tick := by
  intro template bits last htemplate _ hmemory hcompact hstale
  rintro ⟨built, hbuilt⟩
  obtain ⟨-, hcompact', -, -, -⟩ := build_job hbuilt
  obtain rfl : bits = built.job.bits := Except.ok.inj (hcompact.symm.trans hcompact')
  have hunchanged : s.poller.changed template (some built.job.bits) = false :=
    changed_eq_false_iff.mpr (by rw [hmemory]; exact ⟨rfl, Or.inr rfl⟩)
  exact absurd ⟨htemplate, by rw [hunchanged, hstale]; rfl, by rwa [hunchanged]⟩
    (hnone template built)

/-- **One pass**: what is installed is announced as what it is precisely if the window is
steady. -/
theorem changesAnnounced_step_iff {s s' : PollRun} {tick : Tick} (hs : Remembers network s)
    (hannounced : ChangesAnnounced s.installed)
    (h : step network payoutScript s tick = some s') :
    ChangesAnnounced s'.installed ↔ SteadyWindow network payoutScript s tick := by
  rcases s with ⟨memory, installed⟩
  obtain ⟨template, built, hbuilt, rfl⟩ | ⟨hnone, rfl⟩ := step_cases h
  · obtain ⟨hprev, hclean, hwindow, hbits⟩ := hbuilt.withWindow network
    obtain ⟨-, hcompact, -, -, -⟩ := build_job hbuilt.built
    cases installed with
    | nil =>
      -- The first job is clean, since no tip is remembered.
      obtain rfl : memory = .new := hs
      exact iff_of_true hclean fun _ _ _ _ hhead => absurd hhead (by simp)
    | cons last older =>
      obtain ⟨template', bits', rfl, hprev', -, hbits'⟩ := hs
      -- Only the last two jobs are new to compare.
      refine (and_iff_left hannounced).trans ⟨fun hsame => ?_, fun hsteady hnot => ?_⟩
      · intro template₁ bits₁ last₁ htemplate₁ hlast₁ hmemory₁ hcompact₁ _ _
        obtain rfl : template = template₁ :=
          Except.ok.inj (hbuilt.fetched.symm.trans htemplate₁)
        obtain rfl : last = last₁ := Option.some.inj hlast₁
        obtain rfl : built.job.bits = bits₁ := Except.ok.inj (hcompact.symm.trans hcompact₁)
        obtain ⟨htip, hremembered⟩ := Poller.mk.inj hmemory₁
        have hunchanged : Poller.changed ⟨some template'.previousBlockHash, some bits'⟩ template
            (some built.job.bits) = false := changed_eq_false_iff.mpr ⟨htip, Or.inr hremembered⟩
        have heq := (hsame (hclean.trans hunchanged)).2
        rw [hbits, hbits', Option.some.inj hremembered] at heq
        exact (rewritten_eq_iff.mp heq).imp_left Eq.symm
      · -- A job that is not clean found the tip and the bits that are remembered.
        rw [hclean] at hnot
        obtain ⟨htip, hremembered⟩ := changed_eq_false_iff.mp hnot
        obtain rfl : bits' = built.job.bits :=
          Option.some.inj (hremembered.resolve_left (by simp))
        have hdue := hbuilt.due
        rw [hnot, Bool.false_or] at hdue
        have htip' : template'.previousBlockHash = template.previousBlockHash :=
          Option.some.inj htip
        refine ⟨?_, ?_⟩
        · rw [BlockTemplate.previousBlock, htip'] at hprev'
          exact Except.ok.inj (hprev'.symm.trans hprev)
        · have hwin := hsteady template _ last hbuilt.fetched rfl (by rw [htip']) hcompact hdue
            ⟨built, hnot ▸ hbuilt.built⟩
          rw [hbits, hbits']
          exact rewritten_eq_iff.mpr (hwin.imp_left Eq.symm)
  · exact iff_of_true hannounced (steadyWindow_of_not_installs hnone)

/-- **When changed work is announced as changed.** On every network and along every run
of the poller, whatever the node answers, the first job is clean, and a job that is not
clean has the tip and the bits of the one before, precisely if every refresh leaves the
window as it was. -/
theorem always_changesAnnounced_iff (network : Network) (payoutScript : Bytes)
    (ticks : List Tick) :
    StepSystem.Always (step network payoutScript) (fun s => ChangesAnnounced s.installed) init
        ticks ↔
      StepSystem.EachStep (step network payoutScript) (SteadyWindow network payoutScript) init
        ticks :=
  StepSystem.always_iff_eachStep (fun _ _ _ hs h => Remembers.of_step hs h)
    (fun _ _ _ hs hannounced h => changesAnnounced_step_iff hs hannounced h) ticks
    remembers_init trivial

/-- **Where there is no such rule**, what has changed is always announced as changed. -/
theorem always_changesAnnounced_of_ne (hne : network ≠ .testnet4) (ticks : List Tick) :
    StepSystem.Always (step network payoutScript) (fun s => ChangesAnnounced s.installed) init
      ticks := by
  refine (StepSystem.always_of_step
    (I := fun s => Remembers network s ∧ ChangesAnnounced s.installed) (fun s tick s' hs h => ?_)
    ⟨remembers_init, trivial⟩ ticks).mono fun _ hs => hs.2
  -- Neither the last job nor the next one is rewritten.
  refine ⟨hs.1.of_step h, (changesAnnounced_step_iff hs.1 hs.2 h).mpr ?_⟩
  intro _ _ last _ hlast _ _ _ _
  obtain ⟨older, hinstalled⟩ : ∃ older, s.installed = last :: older :=
    List.head?_eq_some_iff.mp hlast
  have hremembers := hs.1
  rw [Remembers, hinstalled] at hremembers
  obtain ⟨_, _, -, -, hwindow, -⟩ := hremembers
  refine Or.inl (Bool.eq_iff_iff.mpr (iff_of_false (fun hrewrites => ?_) fun h => hne (hwindow h)))
  rw [rewrites, Bool.and_eq_true, beq_iff_eq] at hrewrites
  exact hne hrewrites.1

/-- **A pass is a run of the poller's thread in the process**: the jobs it installs are
installed there, if the id is the one that is allocated there. -/
theorem exists_exec_server {fromStr : Str → Option Value} {difficulty : UInt32 → Value}
    {r r' : PollRun} {tick : Tick} (h : step network payoutScript r tick = some r') {s : Server}
    (hidle : s.poller = .idle) (hid : tick.jobId = s.pool.allocateJobId.1)
    (hinstalled : s.installed = r.installed) :
    ∃ events s', StepSystem.exec (Server.step fromStr difficulty) s events = some s' ∧
      s'.poller = .idle ∧ s'.installed = r'.installed := by
  obtain ⟨template, built, hbuilt, rfl⟩ | ⟨-, rfl⟩ := step_cases h
  · obtain ⟨-, -, hjobId, -, -⟩ := build_job hbuilt.built
    obtain ⟨-, hjobId', -, -⟩ :=
      built.withWindow_job (network == .testnet4) tick.parentTime.toOption
    refine ⟨[.startJob,
      .install (built.withWindow (network == .testnet4) tick.parentTime.toOption), .announce],
      ?_⟩
    simp only [StepSystem.exec, Server.step, hidle, Option.bind_some, hjobId', hjobId, hid,
      if_true]
    exact ⟨_, rfl, rfl, congrArg (List.cons _) hinstalled⟩
  · exact ⟨[], s, rfl, hidle, hinstalled⟩

/-! ### A header that cannot be fetched -/

/-- A template without transactions. -/
def plainTemplate : BlockTemplate where
  version := 0x20000000
  previousBlockHash := List.replicate 64 '0'
  transactions := []
  coinbaseValue := 5000000000
  bits := "1c00ffff".toList
  height := 113
  currentTime := 1700000000
  defaultWitnessCommitment := none

/-- Two passes on the same tip. In the second, the job is refreshed, and the node does not
tell the parent's timestamp. -/
def headerLost : List Tick :=
  [⟨.ok plainTemplate, false, ['1'], .ok 1700000000⟩,
    ⟨.ok plainTemplate, true, ['2'], .error "timed out".toList⟩]

theorem compactBits_plainTemplate : plainTemplate.compactBits = .ok 0x1C00FFFF := by
  decide +kernel

/-- The job can be built in both. -/
theorem exists_build_plainTemplate : ∃ first second,
    build ['1'] plainTemplate [] true = .ok first ∧
      build ['2'] plainTemplate [] false = .ok second := by
  have hfirst : (build ['1'] plainTemplate [] true).toOption.isSome = true := by decide +kernel
  have hsecond : (build ['2'] plainTemplate [] false).toOption.isSome = true := by decide +kernel
  rcases hbuild : build ['1'] plainTemplate [] true with _ | first
  · exact absurd hfirst (by rw [hbuild]; simp [Except.toOption])
  · rcases hbuild' : build ['2'] plainTemplate [] false with _ | second
    · exact absurd hsecond (by rw [hbuild']; simp [Except.toOption])
    · exact ⟨first, second, rfl, rfl⟩

/-- The second job has the bits of the template, and the first those of the window. Yet it
is not clean. -/
theorem not_always_changesAnnounced :
    ¬ StepSystem.Always (step .testnet4 []) (fun s => ChangesAnnounced s.installed) init
      headerLost := by
  intro h
  obtain ⟨first, second, hfirst, hsecond⟩ := exists_build_plainTemplate
  obtain ⟨-, hcompact, -, -, -⟩ := build_job hfirst
  obtain ⟨-, hcompact', -, hclean, -⟩ := build_job hsecond
  have hbits : first.job.bits = 0x1C00FFFF :=
    Except.ok.inj (hcompact.symm.trans compactBits_plainTemplate)
  have hbits' : second.job.bits = 0x1C00FFFF :=
    Except.ok.inj (hcompact'.symm.trans compactBits_plainTemplate)
  have hchanged : Poller.new.changed plainTemplate (some first.job.bits) = true := rfl
  have hunchanged : Poller.changed ⟨some plainTemplate.previousBlockHash, some first.job.bits⟩
      plainTemplate (some second.job.bits) = false :=
    changed_eq_false_iff.mpr ⟨rfl, Or.inr (by rw [hbits, hbits'])⟩
  have hpass : Installs [] .new ⟨.ok plainTemplate, false, ['1'], .ok 1700000000⟩ plainTemplate
      first := ⟨rfl, by rw [hchanged]; rfl, by rw [hchanged]; exact hfirst⟩
  have hpass' : Installs [] ⟨some plainTemplate.previousBlockHash, some first.job.bits⟩
      ⟨.ok plainTemplate, true, ['2'], .error "timed out".toList⟩ plainTemplate second :=
    ⟨rfl, by rw [hunchanged]; rfl, by rw [hunchanged]; exact hsecond⟩
  have hlast := ((h.2 _ (hpass.step_eq (s := init))).2 _ hpass'.step_eq).head
  have hsame := (hlast.1 hclean).2
  have hwindow : (first.withWindow true (some 1700000000)).job.bits = MIN_DIFFICULTY_BITS := rfl
  have hplain : second.withWindow true none = second := rfl
  rw [MIN_DIFFICULTY_BITS] at hwindow
  exact absurd (hwindow.symm.trans (hsame.trans hbits')) (by decide)

end PollRun

end SoloMiner
