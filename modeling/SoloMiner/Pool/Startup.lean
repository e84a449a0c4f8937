import SoloMiner.Pool.Agreement
import SoloMiner.Pool.Watch

/-!
# From the start to the jobs

Rewards go where the jobs of the pool say, and cannot be recovered if that is wrong. So the
pool starts with its checks (`SoloMiner.Startup.run`), and nothing is done before the ones
it depends on have passed. What may be done next is said of the whole past
(`SoloMiner.Startup.InOrder`); in particular every job that is ever installed

* was preceded by a check that found the node fit;
* pays to the script which the node gave for the address of the user, or on a private chain
  for one of the wallet, and which it called valid;
* and is built from the template that was fetched last.

`SoloMiner.Startup.inOrder_of_runs` is the result, for every run.
-/

namespace SoloMiner

open Readiness

namespace Startup

open WatchOp (ask)

/-! ### The program -/

/-- The options that decide what is paid. -/
structure Options where
  network : Network
  address : Option Str

/-- The wallet of a private chain. -/
def WALLET : Str := "solo-miner-regtest".toList

/-- The address that is paid: the user's, or on a private chain one of the wallet. -/
def payoutAddress (options : Options) : WatchProg (Except Stop Str) :=
  match options.address with
  | some address => pure (.ok address)
  | none =>
    if options.network = .regtest then do
      match ← ask (.ensureWallet WALLET) with
      | .error message => pure (.error (.rpc message))
      | .ok () =>
        match ← ask (.getNewAddress WALLET) with
        | .error message => pure (.error (.rpc message))
        | .ok address => pure (.ok address)
    else pure (.error .addressRequired)

/-- The script in the node's answer. -/
def scriptOf (address : Str) (info : AddressInfo) : WatchProg (Except Stop Bytes) :=
  if !info.isValid then pure (.error (.invalidAddress address))
  else
    match info.scriptPubkey with
    | none => pure (.error .noScript)
    | some text => .attempt (Checked.mapErr .badScript (Hex.decode text)) fun script =>
      pure (.ok script)

/-- Works out where rewards go. -/
def resolvePayoutScript (options : Options) : WatchProg (Except Stop Bytes) := do
  match ← payoutAddress options with
  | .error stop => pure (.error stop)
  | .ok address =>
    match ← ask (.validateAddress address) with
    | .error message => pure (.error (.rpc message))
    | .ok info => scriptOf address info

/-- What follows the check of the node, up to the first `n` passes of the poller. -/
def serve (options : Options) (n : ℕ) : WatchProg (Except Stop Watch) := do
  match ← resolvePayoutScript options with
  | .error stop => pure (.error stop)
  | .ok payoutScript =>
    match ← ask .bind with
    | .error message => pure (.error (.bind message))
    | .ok () => Watch.pollTemplates options.network payoutScript n

/-- The program of the main thread, and of the poller that it starts. -/
def run (options : Options) (n : ℕ) : WatchProg (Except Stop Watch) := do
  match ← ask .getBlockchainInfo with
  | .error message => pure (.error (.rpc message))
  | .ok info =>
    match ← ask .getConnectionCount with
    | .error message => pure (.error (.rpc message))
    | .ok peers => do
      let now ← ask .unixNow
      match Readiness.check options.network info peers now with
      | .error reason => pure (.error (.notReady reason))
      | .ok () => serve options n

/-! ### What is in order -/

variable (options : Options)

/-- The node was found fit. -/
def FoundFit (before : Prog.Trace WatchOp.Answer) : Prop :=
  ∃ info peers now, ⟨.getBlockchainInfo, .ok info⟩ ∈ before ∧
    ⟨.getConnectionCount, .ok peers⟩ ∈ before ∧ ⟨.unixNow, now⟩ ∈ before ∧
      Fit options.network info peers now

/-- The address to pay is the user's, or on a private chain one of the wallet. -/
def IsPayout (before : Prog.Trace WatchOp.Answer) (address : Str) : Prop :=
  options.address = some address ∨
    options.address = none ∧ options.network = .regtest ∧
      ⟨.getNewAddress WALLET, .ok address⟩ ∈ before

/-- The node gave the script for that address, and called it valid. -/
def Pays (before : Prog.Trace WatchOp.Answer) (payoutScript : Bytes) : Prop :=
  ∃ address text, IsPayout options before address ∧
    ⟨.validateAddress address, .ok ⟨true, some text⟩⟩ ∈ before ∧
      Hex.decode text = .ok payoutScript

/-- The template is the one that was fetched last, and this is what was done since. -/
def Latest (before : Prog.Trace WatchOp.Answer) (template : BlockTemplate)
    (since : Prog.Trace WatchOp.Answer) : Prop :=
  (∃ earlier, before = earlier ++ ⟨.getBlockTemplate, .ok template⟩ :: since) ∧
    ∀ event ∈ since, event.1 ≠ .getBlockTemplate

/-- **The job is of the last template**, under an id that was allocated for it, and rewritten for
the window where the node told the parent's timestamp. -/
def Built (before : Prog.Trace WatchOp.Answer) (payoutScript : Bytes) (active : ActiveJob) : Prop :=
  ∃ template since jobId clean built time, Latest before template since ∧
    ⟨.allocateJobId, jobId⟩ ∈ since ∧ build jobId template payoutScript clean = .ok built ∧
      (∀ t, time = some t → ⟨.getBlockHeader template.previousBlockHash, .ok t⟩ ∈ since) ∧
        active = built.withWindow (options.network == .testnet4) time

/-- The pool has started: the node was found fit, the script is known, the socket is bound. -/
structure Started (payoutScript : Bytes) (before : Prog.Trace WatchOp.Answer) : Prop where
  fit : FoundFit options before
  pays : Pays options before payoutScript
  bound : ⟨.bind, .ok ()⟩ ∈ before

/-- No address was looked up yet. -/
def Unasked (before : Prog.Trace WatchOp.Answer) : Prop :=
  ∀ event ∈ before, ∀ address, event.1 ≠ .validateAddress address

/-- **What may be done after such a past.** -/
def InOrder (before : Prog.Trace WatchOp.Answer) : WatchOp → Prop
  | .getBlockchainInfo => True
  | .getConnectionCount => True
  | .unixNow => True
  | .ensureWallet name => FoundFit options before ∧ options.address = none ∧
      options.network = .regtest ∧ name = WALLET
  | .getNewAddress name => FoundFit options before ∧ options.address = none ∧
      options.network = .regtest ∧ name = WALLET
  | .validateAddress address => FoundFit options before ∧ IsPayout options before address ∧
      Unasked before
  | .bind => FoundFit options before ∧ ∃ payoutScript, Pays options before payoutScript
  | .setCurrentJob active => ∃ payoutScript, Started options payoutScript before ∧
      Built options before payoutScript active
  | _ => ∃ payoutScript, Started options payoutScript before

/-! ### What stays so -/

variable {options} {before : Prog.Trace WatchOp.Answer} {payoutScript : Bytes}

theorem FoundFit.append (h : FoundFit options before) (more : Prog.Trace WatchOp.Answer) :
    FoundFit options (before ++ more) := by
  obtain ⟨info, peers, now, hinfo, hpeers, hnow, hfit⟩ := h
  exact ⟨info, peers, now, List.mem_append_left _ hinfo, List.mem_append_left _ hpeers,
    List.mem_append_left _ hnow, hfit⟩

theorem IsPayout.append {address : Str} (h : IsPayout options before address)
    (more : Prog.Trace WatchOp.Answer) : IsPayout options (before ++ more) address := by
  rcases h with h | ⟨hnone, hregtest, hmem⟩
  · exact Or.inl h
  · exact Or.inr ⟨hnone, hregtest, List.mem_append_left _ hmem⟩

theorem Pays.append (h : Pays options before payoutScript) (more : Prog.Trace WatchOp.Answer) :
    Pays options (before ++ more) payoutScript := by
  obtain ⟨address, text, hpayout, hmem, hdecode⟩ := h
  exact ⟨address, text, hpayout.append more, List.mem_append_left _ hmem, hdecode⟩

theorem Started.append (h : Started options payoutScript before)
    (more : Prog.Trace WatchOp.Answer) : Started options payoutScript (before ++ more) :=
  ⟨h.fit.append more, h.pays.append more, List.mem_append_left _ h.bound⟩

theorem Unasked.append (h : Unasked before) {more : Prog.Trace WatchOp.Answer}
    (hmore : Unasked more) : Unasked (before ++ more) := by
  intro event hevent
  rcases List.mem_append.mp hevent with hevent | hevent
  · exact h event hevent
  · exact hmore event hevent

theorem unasked_singleton (event : Sigma WatchOp.Answer)
    (h : ∀ address, event.1 ≠ .validateAddress address) : Unasked [event] := by
  intro event' hevent
  obtain rfl := List.mem_singleton.mp hevent
  exact h

theorem Latest.append {template : BlockTemplate} {since : Prog.Trace WatchOp.Answer}
    (h : Latest before template since) {more : Prog.Trace WatchOp.Answer}
    (hmore : ∀ event ∈ more, event.1 ≠ .getBlockTemplate) :
    Latest (before ++ more) template (since ++ more) := by
  obtain ⟨⟨earlier, rfl⟩, hsince⟩ := h
  refine ⟨⟨earlier, List.append_assoc _ _ _⟩, fun event hevent => ?_⟩
  rcases List.mem_append.mp hevent with hevent | hevent
  · exact hsince event hevent
  · exact hmore event hevent

/-! ### The start keeps to it -/

/-- The address. -/
theorem keepsTo_payoutAddress (h : FoundFit options before) (hunasked : Unasked before) :
    (payoutAddress options).KeepsTo (.history (InOrder options)) (fun before' found =>
      FoundFit options before' ∧ Unasked before' ∧
        ∀ address, found = .ok address → IsPayout options before' address) before := by
  unfold payoutAddress
  cases haddress : options.address with
  | some address => exact ⟨h, hunasked, fun _ heq => Or.inl (Except.ok.inj heq ▸ haddress)⟩
  | none =>
    dsimp only
    split_ifs with hregtest
    · refine .perform ⟨h, haddress, hregtest, rfl⟩ fun ensured => ?_
      have h₁ := h.append [⟨.ensureWallet WALLET, ensured⟩]
      have hunasked₁ := hunasked.append
        (unasked_singleton ⟨.ensureWallet WALLET, ensured⟩ (by simp))
      cases ensured with
      | error message => exact ⟨h₁, hunasked₁, fun _ heq => absurd heq (by simp)⟩
      | ok _ =>
        refine .perform ⟨h₁, haddress, hregtest, rfl⟩ fun made => ?_
        have h₂ := h₁.append [⟨.getNewAddress WALLET, made⟩]
        have hunasked₂ := hunasked₁.append
          (unasked_singleton ⟨.getNewAddress WALLET, made⟩ (by simp))
        cases made with
        | error message => exact ⟨h₂, hunasked₂, fun _ heq => absurd heq (by simp)⟩
        | ok address =>
          refine ⟨h₂, hunasked₂, fun address' heq => ?_⟩
          obtain rfl := Except.ok.inj heq
          exact Or.inr ⟨haddress, hregtest, List.mem_append_right _ (List.mem_singleton_self _)⟩
    · exact ⟨h, hunasked, fun _ heq => absurd heq (by simp)⟩

/-- The script. -/
theorem keepsTo_resolvePayoutScript (h : FoundFit options before) (hunasked : Unasked before) :
    (resolvePayoutScript options).KeepsTo (.history (InOrder options)) (fun before' found =>
      FoundFit options before' ∧
        ∀ payoutScript, found = .ok payoutScript → Pays options before' payoutScript) before := by
  refine (keepsTo_payoutAddress h hunasked).bind fun before₁ found hfound => ?_
  obtain ⟨h₁, hunasked₁, hpayout⟩ := hfound
  cases found with
  | error stop => exact ⟨h₁, fun _ heq => absurd heq (by simp)⟩
  | ok address =>
    refine .perform ⟨h₁, hpayout address rfl, hunasked₁⟩ fun validated => ?_
    have h₂ := h₁.append [⟨.validateAddress address, validated⟩]
    cases validated with
    | error message => exact ⟨h₂, fun _ heq => absurd heq (by simp)⟩
    | ok info =>
      obtain ⟨_ | _, scriptPubkey⟩ := info
      · exact ⟨h₂, fun _ heq => absurd heq (by simp)⟩
      · cases scriptPubkey with
        | none => exact ⟨h₂, fun _ heq => absurd heq (by simp)⟩
        | some text =>
          refine .attempt (fun payoutScript hdecode => ⟨h₂, fun payoutScript' heq => ?_⟩)
            fun _ _ => ⟨h₂, fun _ heq => absurd heq (by simp)⟩
          obtain rfl := Except.ok.inj heq
          exact ⟨address, text, (hpayout address rfl).append _,
            List.mem_append_right _ (List.mem_singleton_self _), Checked.mapErr_eq_ok.mp hdecode⟩

/-! ### The poller keeps to it -/

variable {watch : Watch} {template : BlockTemplate} {since : Prog.Trace WatchOp.Answer}

theorem keepsTo_parentTime (h : Started options payoutScript before) :
    (Watch.parentTime options.network template).KeepsTo (.history (InOrder options))
      (fun before' time => ∃ more, before' = before ++ more ∧
        (∀ event ∈ more, event.1 ≠ .getBlockTemplate) ∧
          ∀ t, time = some t → ⟨.getBlockHeader template.previousBlockHash, .ok t⟩ ∈ more)
      before := by
  unfold Watch.parentTime
  split_ifs
  · refine .perform ⟨payoutScript, h⟩ fun answer => ⟨[⟨_, answer⟩], rfl, ?_, fun t ht => ?_⟩
    · intro event hevent
      obtain rfl := List.mem_singleton.mp hevent
      simp
    · cases answer with
      | error message => exact absurd ht (by simp [Except.toOption])
      | ok time =>
        obtain rfl : time = t := Option.some.inj ht
        exact List.mem_singleton_self _
  · exact ⟨[], (List.append_nil _).symm, by simp, by simp⟩

/-- **A job that is due** is built from the last template, for the script. -/
theorem keepsTo_install {bits : Option UInt32} {clean : Bool}
    (h : Started options payoutScript before) (hlatest : Latest before template since) :
    (Watch.install options.network payoutScript watch template bits clean).KeepsTo
      (.history (InOrder options)) (fun before' _ => Started options payoutScript before')
        before := by
  refine .perform ⟨payoutScript, h⟩ fun jobId => .attempt (fun built hbuilt => ?_) fun _ _ =>
    h.append _
  rw [Checked.mapErr_eq_ok] at hbuilt
  have h₁ := h.append [⟨.allocateJobId, jobId⟩]
  refine (keepsTo_parentTime h₁).bind ?_
  rintro _ time ⟨more, rfl, hmore, htime⟩
  have h₂ := h₁.append more
  have hallocate : ∀ event ∈ ([⟨.allocateJobId, jobId⟩] : Prog.Trace WatchOp.Answer),
      event.1 ≠ .getBlockTemplate := by simp
  have hlatest₁ := hlatest.append hallocate
  have hlatest₂ := hlatest₁.append hmore
  refine .perform ⟨payoutScript, h₂, template, _, jobId, clean, built, time, hlatest₂, ?_, hbuilt,
    fun t ht => List.mem_append_right _ (htime t ht), rfl⟩ fun _ => ?_
  · exact List.mem_append_left _ (List.mem_append_right _ (List.mem_singleton_self _))
  · exact .perform ⟨payoutScript, h₂.append _⟩ fun _ =>
      .perform ⟨payoutScript, (h₂.append _).append _⟩ fun now => ((h₂.append _).append _).append _

theorem keepsTo_poll (h : Started options payoutScript before) :
    (Watch.poll options.network payoutScript watch).KeepsTo (.history (InOrder options))
      (fun before' _ => Started options payoutScript before') before := by
  refine .perform ⟨payoutScript, h⟩ fun answer => ?_
  have h₁ := h.append [⟨.getBlockTemplate, answer⟩]
  cases answer with
  | error message => exact h₁
  | ok template =>
    refine .attempt (fun bits _ => ?_) fun _ _ => h₁
    refine .perform ⟨payoutScript, h₁⟩ fun elapsed => ?_
    have h₂ := h₁.append [⟨.elapsed .lastBuilt watch.lastBuilt, elapsed⟩]
    have hlatest : Latest (before ++ [⟨.getBlockTemplate, .ok template⟩]) template [] :=
      ⟨⟨before, rfl⟩, by simp⟩
    dsimp only
    split_ifs
    · exact keepsTo_install h₂ (hlatest.append (by simp))
    · exact h₂

theorem keepsTo_recheck (h : Started options payoutScript before) :
    (Watch.recheck options.network watch).KeepsTo (.history (InOrder options))
      (fun before' _ => Started options payoutScript before') before := by
  refine .perform ⟨payoutScript, h⟩ fun elapsed => ?_
  have h₁ := h.append [⟨.elapsed .lastReadinessCheck watch.lastReadinessCheck, elapsed⟩]
  split_ifs
  · refine .perform ⟨payoutScript, h₁⟩ fun now => .perform trivial fun info =>
      .perform trivial fun peers => ?_
    have h₂ := ((h₁.append [⟨.instantNow, now⟩]).append [⟨.getBlockchainInfo, info⟩]).append
      [⟨.getConnectionCount, peers⟩]
    cases info with
    | error message => exact h₂
    | ok info =>
      cases peers with
      | error message => exact h₂
      | ok peers =>
        refine .perform trivial fun unix => ?_
        have h₃ := h₂.append [⟨.unixNow, unix⟩]
        cases Readiness.check options.network info peers unix with
        | error reason => exact h₃
        | ok _ => exact h₃
  · exact h₁

theorem keepsTo_pass (h : Started options payoutScript before) :
    (Watch.pass options.network payoutScript watch).KeepsTo (.history (InOrder options))
      (fun before' _ => Started options payoutScript before') before := by
  refine (keepsTo_poll h).bind fun before₁ polled h₁ => ?_
  refine .perform ⟨payoutScript, h₁⟩ fun elapsed => ?_
  split_ifs
  · exact h₁.append _
  · refine (keepsTo_recheck (h₁.append _)).bind fun before₂ checked h₂ => ?_
    cases checked with
    | error stop => exact h₂
    | ok watch' => exact .perform ⟨payoutScript, h₂⟩ fun _ => h₂.append _

theorem keepsTo_passes (n : ℕ) (h : Started options payoutScript before) :
    (Watch.passes options.network payoutScript n watch).KeepsTo (.history (InOrder options))
      (fun _ _ => True) before := by
  induction n generalizing watch before with
  | zero => exact trivial
  | succ n ih =>
    refine (keepsTo_pass h).bind fun before' passed h' => ?_
    cases passed with
    | error stop => exact trivial
    | ok watch' => exact ih h'

/-- **The whole program.** -/
theorem keepsTo_run (n : ℕ) :
    (run options n).KeepsTo (.history (InOrder options)) (fun _ _ => True) [] := by
  refine .perform trivial fun info => ?_
  cases info with
  | error message => exact trivial
  | ok info =>
    refine .perform trivial fun peers => ?_
    cases peers with
    | error message => exact trivial
    | ok peers =>
      refine .perform trivial fun now => ?_
      cases hcheck : Readiness.check options.network info peers now with
      | error reason => exact trivial
      | ok _ =>
        have hfit : FoundFit options [⟨.getBlockchainInfo, .ok info⟩,
            ⟨.getConnectionCount, .ok peers⟩, ⟨.unixNow, now⟩] :=
          ⟨info, peers, now, by simp, by simp, by simp, check_eq_ok_iff.mp hcheck⟩
        refine (keepsTo_resolvePayoutScript hfit (by simp [Unasked])).bind
          fun before found hfound => ?_
        obtain ⟨h₁, hpays⟩ := hfound
        cases found with
        | error stop => exact trivial
        | ok payoutScript =>
          refine .perform ⟨h₁, payoutScript, hpays payoutScript rfl⟩ fun bound => ?_
          cases bound with
          | error message => exact trivial
          | ok _ =>
            have hstarted : Started options payoutScript (before ++ [⟨.bind, .ok ()⟩]) :=
              ⟨h₁.append _, (hpays payoutScript rfl).append _,
                List.mem_append_right _ (List.mem_singleton_self _)⟩
            exact .perform ⟨payoutScript, hstarted⟩ fun _ =>
              .perform ⟨payoutScript, hstarted.append _⟩ fun _ =>
                .perform ⟨payoutScript, (hstarted.append _).append _⟩ fun _ =>
                  keepsTo_passes n (((hstarted.append _).append _).append _)

/-! ### Every run -/

theorem build_payoutScript {jobId : Str} {template : BlockTemplate} {cleanJobs : Bool}
    {active : ActiveJob} (h : build jobId template payoutScript cleanJobs = .ok active) :
    active.payoutScript = payoutScript := by
  obtain ⟨collected, hcollect, h⟩ := Checked.bind_eq_ok.mp h
  obtain ⟨halves, -, h⟩ := Checked.bind_eq_ok.mp h
  obtain rfl := (Except.ok.inj h).symm
  obtain ⟨wtxids, -, h⟩ := Checked.bind_eq_ok.mp hcollect
  obtain ⟨_, -, h⟩ := Checked.bind_eq_ok.mp h
  obtain ⟨txids, -, h⟩ := Checked.bind_eq_ok.mp h
  obtain ⟨transactions, -, h⟩ := Checked.bind_eq_ok.mp h
  obtain ⟨prevHash, -, h⟩ := Checked.bind_eq_ok.mp h
  obtain ⟨bits, -, h⟩ := Checked.bind_eq_ok.mp h
  obtain ⟨time, -, h⟩ := Checked.bind_eq_ok.mp h
  obtain ⟨target, -, h⟩ := Checked.bind_eq_ok.mp h
  obtain rfl := (Except.ok.inj h).symm
  rfl

/-- The window does not change where a job pays. -/
theorem withWindow_payoutScript (active : ActiveJob) (exploit : Bool) (time : Option UInt32) :
    (active.withWindow exploit time).payoutScript = active.payoutScript := by
  unfold ActiveJob.withWindow
  split
  · rfl
  · rfl

/-- A job that is built pays to the script that it is built for. -/
theorem Built.payoutScript_eq {active : ActiveJob} (h : Built options before payoutScript active) :
    active.payoutScript = payoutScript := by
  obtain ⟨template, since, jobId, clean, built, time, -, -, hbuild, -, rfl⟩ := h
  rw [withWindow_payoutScript, build_payoutScript hbuild]

/-- **An address is looked up once**, so there is one script to pay to. -/
theorem pays_unique {trace : Prog.Trace WatchOp.Answer}
    (h : ∀ before o answer after, trace = before ++ ⟨o, answer⟩ :: after →
      InOrder options before o) {payoutScript payoutScript' : Bytes}
    (hpays : Pays options trace payoutScript) (hpays' : Pays options trace payoutScript') :
    payoutScript = payoutScript' := by
  obtain ⟨address, text, -, hmem, hdecode⟩ := hpays
  obtain ⟨address', text', -, hmem', hdecode'⟩ := hpays'
  obtain ⟨before, after, rfl⟩ := List.append_of_mem hmem
  obtain ⟨-, -, hunasked⟩ := h before _ _ after rfl
  rcases List.mem_append.mp hmem' with hearlier | hmem'
  · exact absurd rfl (hunasked _ hearlier address')
  rcases List.mem_cons.mp hmem' with hsame | hlater
  · -- It is the same answer to the same question.
    obtain ⟨hop, hanswer⟩ := Sigma.mk.inj hsame
    obtain rfl := WatchOp.validateAddress.inj hop
    obtain rfl : text' = text := by simpa using hanswer
    exact Except.ok.inj (hdecode.symm.trans hdecode')
  · obtain ⟨between, after, rfl⟩ := List.append_of_mem hlater
    obtain ⟨-, -, hunasked'⟩ := h (before ++ ⟨.validateAddress address, .ok ⟨true, some text⟩⟩ ::
      between) _ _ after (List.append_assoc _ (_ :: between) _).symm
    exact absurd rfl (hunasked' _ (List.mem_append_right _ List.mem_cons_self) address)

/-- **Nothing is done out of order, and all rewards go to one place.** In every run of the
pool's main program, whatever the node and the clocks answer, each operation is in order
after those before it, and all jobs that are installed pay to the same script. -/
theorem inOrder_of_runs {n : ℕ} {trace : Prog.Trace WatchOp.Answer}
    {result : Option (Except Stop Watch)} (h : Prog.Runs (run options n) trace result) :
    (∀ before o answer after, trace = before ++ ⟨o, answer⟩ :: after →
      InOrder options before o) ∧
    ∃ payoutScript, ∀ active, ⟨.setCurrentJob active, ()⟩ ∈ trace →
      active.payoutScript = payoutScript := by
  have horder : ∀ before o answer after, trace = before ++ ⟨o, answer⟩ :: after →
      InOrder options before o := by
    rintro before o answer after rfl
    have hmay := (keepsTo_run n).may_of_runs h
    rwa [Protocol.after_history, List.nil_append] at hmay
  have hpaid : ∀ active, ⟨.setCurrentJob active, ()⟩ ∈ trace →
      Pays options trace active.payoutScript := by
    intro active hactive
    obtain ⟨before, after, rfl⟩ := List.append_of_mem hactive
    obtain ⟨payoutScript, hstarted, hbuilt⟩ := horder before _ _ after rfl
    exact hbuilt.payoutScript_eq ▸ hstarted.pays.append _
  refine ⟨horder, ?_⟩
  by_cases hsome : ∃ payoutScript, Pays options trace payoutScript
  · obtain ⟨payoutScript, hpays⟩ := hsome
    exact ⟨payoutScript, fun active hactive => pays_unique horder (hpaid active hactive) hpays⟩
  · exact ⟨[], fun active hactive => absurd ⟨_, hpaid active hactive⟩ hsome⟩

/-- The options of a user with an address on the main network. -/
def sampleOptions : Options := ⟨.mainnet, some "bc1".toList⟩

/-- The answers of a node that is caught up, and the first pass of the poller. -/
def sampleTrace : Prog.Trace WatchOp.Answer :=
  [⟨.getBlockchainInfo, .ok ⟨"main".toList, 900000, 900000, false, 1000⟩⟩,
    ⟨.getConnectionCount, .ok 8⟩, ⟨.unixNow, (2000 : Int64)⟩,
    ⟨.validateAddress "bc1".toList, .ok ⟨true, some "51".toList⟩⟩, ⟨.bind, .ok ()⟩] ++
      Watch.firstPass sampleTemplate ['1'] sampleJob

/-- The start on the main network, up to the first job. -/
theorem inOrder_sampleTrace :
    (∀ before o answer after, sampleTrace = before ++ ⟨o, answer⟩ :: after →
      InOrder sampleOptions before o) ∧
    ∃ payoutScript, ∀ active, ⟨.setCurrentJob active, ()⟩ ∈ sampleTrace →
      active.payoutScript = payoutScript := by
  have hcheck : Readiness.check .mainnet ⟨"main".toList, 900000, 900000, false, 1000⟩ 8 2000 =
      .ok () := by decide
  have hdecode : Hex.decode "51".toList = .ok [0x51] := by decide +kernel
  have hscript : Prog.Runs (scriptOf "bc1".toList ⟨true, some "51".toList⟩) []
      (some (.ok [0x51])) := by
    rw [scriptOf, if_neg (by simp)]
    exact .attempt (Checked.mapErr_eq_ok.mpr hdecode) (.ret _)
  have hresolve : Prog.Runs (resolvePayoutScript sampleOptions)
      [⟨.validateAddress "bc1".toList, .ok ⟨true, some "51".toList⟩⟩] (some (.ok [0x51])) :=
    Prog.runs_perform_bind_iff.mpr ⟨.ok ⟨true, some _⟩, _, rfl, hscript⟩
  have hpolls : Prog.Runs (Watch.pollTemplates .mainnet [0x51] 1)
      (Watch.firstPass sampleTemplate ['1'] sampleJob)
      (some (.ok ⟨⟨some sampleTemplate.previousBlockHash, some 0x207FFFFF⟩, 9, 9, 7⟩)) :=
    Watch.runs_firstPass dropErr_sampleTemplate build_sampleJob (by decide)
  have hrun : Prog.Runs (run sampleOptions 1) sampleTrace
      (some (.ok ⟨⟨some sampleTemplate.previousBlockHash, some 0x207FFFFF⟩, 9, 9, 7⟩)) := by
    refine Prog.runs_perform_bind_iff.mpr ⟨.ok _, _, rfl, ?_⟩
    refine Prog.runs_perform_bind_iff.mpr ⟨.ok _, _, rfl, ?_⟩
    refine Prog.runs_perform_bind_iff.mpr ⟨_, _, rfl, ?_⟩
    rw [show Readiness.check sampleOptions.network _ _ _ = _ from hcheck]
    exact hresolve.bind (.op hpolls)
  exact inOrder_of_runs hrun

end Startup

end SoloMiner
