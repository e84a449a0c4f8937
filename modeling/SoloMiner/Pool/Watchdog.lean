import SoloMiner.Pool.Watch

/-!
# The watchdog

A pool whose miners work on a dead job looks healthy from outside, so the poller has to
notice by itself, and then to stop. An observer of its operations
(`SoloMiner.Watchdog.protocol`) keeps the books: when the last job was installed, what was
measured since the node was asked for a template, and what the node has told of itself.
Along every run, whatever the node and the clocks answer
(`SoloMiner.Watchdog.runs_pollTemplates`),

* nothing at all is done after an outage was measured or the node was found unfit;
* the poller does not sleep before it has measured both times, from the right moments, and
  has checked the node if it is time;
* and it stops for these two reasons only.
-/

namespace SoloMiner

open Readiness

namespace Watchdog

/-! ### The observer -/

/-- What the observer has seen. -/
structure Seen where
  /-- When the last job was installed. -/
  installedAt : ℕ
  /-- When the node was last checked. -/
  checkedAt : ℕ
  /-- Whether a job was set since the clock was read last. -/
  installing : Bool
  /-- The time since the last installation, if it was measured in this pass. -/
  outage : Option ℕ
  /-- The time since the last check, if it was measured in this pass. -/
  unchecked : Option ℕ
  /-- What the node has told of itself in this pass. -/
  info : Option (Except Str BlockchainInfo)
  /-- Of its peers. -/
  peers : Option (Except Str UInt32)
  /-- What was found wrong with it. -/
  unfit : Option NotReady

namespace Seen

/-- Before the first pass. -/
def start (installedAt checkedAt : ℕ) : Seen :=
  ⟨installedAt, checkedAt, false, none, none, none, none, none⟩

/-- **There is no reason to stop.** -/
structure Alive (s : Seen) : Prop where
  outage : ∀ elapsed, s.outage = some elapsed → elapsed < MAX_TEMPLATE_OUTAGE
  fit : s.unfit = none

/-- **Everything was looked at in this pass**: the time since the last installation, and the
time since the last check, which was made again if it was time. -/
structure Examined (s : Seen) : Prop where
  outage : ∃ elapsed, s.outage = some elapsed
  unchecked : ∃ elapsed, s.unchecked = some elapsed ∧
    (elapsed < READINESS_INTERVAL ∨ s.info.isSome = true ∧ s.peers.isSome = true)

/-- The verdict on the node, from its own words. -/
def verdict (network : Network) (s : Seen) (now : Int64) : Option NotReady :=
  match s.info, s.peers with
  | some (.ok info), some (.ok peers) =>
    match Readiness.check network info peers now with
    | .error reason => some reason
    | .ok () => s.unfit
  | _, _ => s.unfit

/-- What the observer makes of an operation and its answer. -/
def next (network : Network) (s : Seen) : (o : WatchOp) → o.Answer → Seen
  -- A pass begins with the template.
  | .getBlockTemplate, _ =>
    { s with outage := none, unchecked := none, info := none, peers := none }
  | .setCurrentJob _, _ => { s with installing := true, outage := none }
  -- The clock is read after an installation and before a check.
  | .instantNow, now =>
    if s.installing then { s with installing := false, installedAt := now }
    else { s with checkedAt := now }
  | .elapsed .lastJobInstalled since, elapsed =>
    { s with outage := if since = s.installedAt then some elapsed else none }
  | .elapsed .lastReadinessCheck since, elapsed =>
    { s with unchecked := if since = s.checkedAt then some elapsed else none }
  | .getBlockchainInfo, info => { s with info := some info }
  | .getConnectionCount, peers => { s with peers := some peers }
  | .unixNow, now => { s with unfit := s.verdict network now }
  | _, _ => s

end Seen

/-- What the watchdog demands: nothing is done once there is a reason to stop, and the
poller sleeps only when everything was looked at. -/
def protocol (network : Network) : Protocol Seen WatchOp WatchOp.Answer where
  may s o := s.Alive ∧ (o = .wait → s.Examined)
  next := Seen.next network

/-! ### The passes keep to it -/

/-- The poller and the observer agree on the moments. -/
structure Agree (watch : Watch) (s : Seen) : Prop where
  installedAt : s.installedAt = watch.lastJobInstalled
  checkedAt : s.checkedAt = watch.lastReadinessCheck
  installing : s.installing = false
  alive : s.Alive

/-- What the observer knows when the passes have ended. -/
def Ended (s : Seen) : Except Stop Watch → Prop
  | .ok watch => Agree watch s
  | .error .outage =>
    s.unfit = none ∧ ∃ elapsed, s.outage = some elapsed ∧ MAX_TEMPLATE_OUTAGE ≤ elapsed
  | .error (.notReady reason) => s.unfit = some reason
  | .error _ => False

variable {network : Network} {payoutScript : Bytes} {watch : Watch} {s : Seen}

theorem alive_of_none (houtage : s.outage = none) (hfit : s.unfit = none) : s.Alive :=
  ⟨fun elapsed h => absurd (houtage.symm.trans h) (by simp), hfit⟩

/-- An operation that is not the sleep is in order while there is no reason to stop. -/
theorem may_of_alive (h : s.Alive) {o : WatchOp} (ho : o ≠ .wait) : (protocol network).may s o :=
  ⟨h, fun heq => absurd heq ho⟩

theorem keepsTo_parentTime {template : BlockTemplate} (h : s.Alive) :
    (Watch.parentTime network template).KeepsTo (protocol network) (fun s' _ => s = s') s := by
  unfold Watch.parentTime
  split_ifs
  · exact .perform (may_of_alive h (by simp)) fun _ => rfl
  · exact rfl

/-- **A job that is due** is installed, and the clock is read, or it cannot be built. -/
theorem keepsTo_install {template : BlockTemplate} {bits : Option UInt32} {clean : Bool}
    (h : Agree watch s) (houtage : s.outage = none) :
    (Watch.install network payoutScript watch template bits clean).KeepsTo (protocol network)
      (fun s' polled => Agree (polled.toOption.getD watch) s' ∧ s'.outage = none) s := by
  refine .perform (may_of_alive h.alive (by simp)) fun jobId => .attempt (fun built _ => ?_) ?_
  · refine (keepsTo_parentTime h.alive).bind ?_
    rintro _ time rfl
    have halive : Seen.Alive { s with installing := true, outage := none } :=
      alive_of_none rfl h.alive.fit
    refine .perform (may_of_alive h.alive (by simp)) fun _ =>
      .perform (may_of_alive halive (by simp)) fun _ =>
        .perform (may_of_alive halive (by simp)) fun now => ?_
    exact ⟨⟨rfl, h.checkedAt, rfl, alive_of_none rfl h.alive.fit⟩, rfl⟩
  · intro _ _
    exact ⟨h, houtage⟩

/-- **Asking for a template** forgets what was measured, and nothing is measured in it. -/
theorem keepsTo_poll (h : Agree watch s) :
    (Watch.poll network payoutScript watch).KeepsTo (protocol network)
      (fun s' polled => Agree (polled.toOption.getD watch) s' ∧ s'.outage = none) s := by
  refine .perform (may_of_alive h.alive (by simp)) fun answer => ?_
  have hagree : Agree watch (s.next network .getBlockTemplate answer) :=
    ⟨h.installedAt, h.checkedAt, h.installing, alive_of_none rfl h.alive.fit⟩
  cases answer with
  | error message => exact ⟨hagree, rfl⟩
  | ok template =>
    refine .attempt (fun bits _ => ?_) fun _ _ => ⟨hagree, rfl⟩
    refine .perform (may_of_alive hagree.alive (by simp)) fun elapsed => ?_
    dsimp only
    split_ifs
    · exact keepsTo_install hagree rfl
    · exact ⟨hagree, rfl⟩

/-- **The check of the node**, after the outage was measured: all is in order still, or the
node has told of itself what makes it unfit. -/
theorem keepsTo_recheck (h : Agree watch s) (houtage : ∃ elapsed, s.outage = some elapsed) :
    (Watch.recheck network watch).KeepsTo (protocol network)
      (fun s' checked => Ended s' checked ∧ ∀ watch', checked = .ok watch' → s'.Examined) s := by
  obtain ⟨outage, houtage⟩ := houtage
  obtain ⟨installedAt, checkedAt, installing, _, unchecked, info, peers, unfit⟩ := s
  obtain ⟨rfl, rfl, rfl, halive⟩ := h
  obtain rfl : _ = some outage := houtage
  obtain rfl : unfit = none := halive.fit
  -- Neither what is measured nor what is asked bears on the reasons to stop.
  have hok : ∀ checkedAt unchecked info peers, Seen.Alive ⟨watch.lastJobInstalled, checkedAt,
      false, some outage, unchecked, info, peers, none⟩ :=
    fun _ _ _ _ => ⟨halive.outage, rfl⟩
  have hmay : ∀ {checkedAt unchecked info peers} {o : WatchOp}, o ≠ .wait →
      (protocol network).may ⟨watch.lastJobInstalled, checkedAt, false, some outage, unchecked,
        info, peers, none⟩ o := fun ho => may_of_alive (hok _ _ _ _) ho
  refine .perform (hmay (by simp)) fun elapsed => ?_
  simp only [protocol, Seen.next, if_true]
  split_ifs with hdue
  · refine .perform (hmay (by simp)) fun now =>
      .perform (hmay (by simp)) fun info => .perform (hmay (by simp)) fun peers => ?_
    have hend : ∀ unfit, unfit = none → Ended ⟨watch.lastJobInstalled, now, false, some outage,
        some elapsed, some info, some peers, unfit⟩ (.ok { watch with lastReadinessCheck := now }) ∧
          Seen.Examined ⟨watch.lastJobInstalled, now, false, some outage, some elapsed, some info,
            some peers, unfit⟩ := by
      rintro _ rfl
      exact ⟨⟨rfl, rfl, rfl, hok _ _ _ _⟩, ⟨_, rfl⟩, _, rfl, Or.inr ⟨rfl, rfl⟩⟩
    cases info with
    | error message => exact ⟨(hend none rfl).1, fun _ _ => (hend none rfl).2⟩
    | ok info =>
      cases peers with
      | error message => exact ⟨(hend none rfl).1, fun _ _ => (hend none rfl).2⟩
      | ok peers =>
        refine .perform (hmay (by simp)) fun unix => ?_
        have hverdict : Seen.verdict network ⟨watch.lastJobInstalled, now, false, some outage,
            some elapsed, some (.ok info), some (.ok peers), none⟩ unix =
              match Readiness.check network info peers unix with
              | .error reason => some reason
              | .ok () => none := rfl
        cases hcheck : Readiness.check network info peers unix with
        | error reason =>
          rw [hcheck] at hverdict
          exact ⟨hverdict, by simp⟩
        | ok _ =>
          rw [hcheck] at hverdict
          exact ⟨(hend _ hverdict).1, fun _ _ => (hend _ hverdict).2⟩
  · exact ⟨⟨rfl, rfl, rfl, hok _ _ _ _⟩, fun _ _ =>
      ⟨⟨_, rfl⟩, _, rfl, Or.inl (Nat.lt_of_not_le hdue)⟩⟩

/-- **One pass**, from an agreement to an agreement or to the end. -/
theorem keepsTo_pass (h : Agree watch s) :
    (Watch.pass network payoutScript watch).KeepsTo (protocol network) Ended s := by
  refine (keepsTo_poll h).bind fun s' polled hpolled => ?_
  obtain ⟨hagree, houtage⟩ := hpolled
  generalize polled.toOption.getD watch = watch' at hagree
  refine .perform (may_of_alive hagree.alive (by simp)) fun elapsed => ?_
  have hmeasured : (if watch'.lastJobInstalled = s'.installedAt then some elapsed else none) =
      some elapsed := if_pos hagree.installedAt.symm
  split_ifs with hover
  · exact ⟨hagree.alive.fit, elapsed, hmeasured, hover⟩
  · have halive : (s'.next network (.elapsed .lastJobInstalled watch'.lastJobInstalled)
        elapsed).Alive := by
      refine ⟨fun elapsed' heq => ?_, hagree.alive.fit⟩
      obtain rfl := Option.some.inj (hmeasured.symm.trans heq)
      exact Nat.lt_of_not_le hover
    have hagree' : Agree watch' (s'.next network
        (.elapsed .lastJobInstalled watch'.lastJobInstalled) elapsed) :=
      ⟨hagree.installedAt, hagree.checkedAt, hagree.installing, halive⟩
    refine (keepsTo_recheck hagree' ⟨elapsed, hmeasured⟩).bind fun s'' checked hchecked => ?_
    obtain ⟨hended, hexamined⟩ := hchecked
    cases checked with
    | error stop => exact hended
    | ok watch'' =>
      exact .perform ⟨hended.alive, fun _ => hexamined watch'' rfl⟩ fun _ => hended

/-- **So many passes**, by induction on their number. -/
theorem keepsTo_passes (n : ℕ) (h : Agree watch s) :
    (Watch.passes network payoutScript n watch).KeepsTo (protocol network) Ended s := by
  induction n generalizing watch s with
  | zero => exact h
  | succ n ih =>
    refine (keepsTo_pass h).bind fun s' passed hpassed => ?_
    cases passed with
    | error stop => exact hpassed
    | ok watch' => exact ih hpassed

theorem agree_start (poller : Poller) (lastBuilt lastJobInstalled lastReadinessCheck : ℕ) :
    Agree ⟨poller, lastBuilt, lastJobInstalled, lastReadinessCheck⟩
      (.start lastJobInstalled lastReadinessCheck) :=
  ⟨rfl, rfl, rfl, alive_of_none rfl rfl⟩

/-! ### Every run -/

variable (network) in
/-- **The poller stops in time, and only then.** After the first three readings of the clock,
at every operation there is no reason to stop, the poller sleeps only after it has looked at
everything, and what it stops for is what was seen. -/
def Guarded (trace : Prog.Trace WatchOp.Answer) (result : Option (Except Stop Watch)) : Prop :=
  ∃ (lastBuilt lastJobInstalled lastReadinessCheck : ℕ) (passes : Prog.Trace WatchOp.Answer),
    trace = ⟨.instantNow, lastBuilt⟩ :: ⟨.instantNow, lastJobInstalled⟩ ::
      ⟨.instantNow, lastReadinessCheck⟩ :: passes ∧
    let seen := (protocol network).after (.start lastJobInstalled lastReadinessCheck)
    (∀ before o answer after, passes = before ++ ⟨o, answer⟩ :: after →
      (seen before).Alive ∧ (o = .wait → (seen before).Examined)) ∧
    ∀ ended, result = some ended → Ended (seen passes) ended

/-- The node is out of reach for two minutes from the start. -/
def outageTrace : Prog.Trace WatchOp.Answer :=
  [⟨.instantNow, (5 : ℕ)⟩, ⟨.instantNow, (6 : ℕ)⟩, ⟨.instantNow, (7 : ℕ)⟩,
    ⟨.getBlockTemplate, .error "refused".toList⟩,
    ⟨.elapsed .lastJobInstalled 6, MAX_TEMPLATE_OUTAGE⟩]

end Watchdog

end SoloMiner
