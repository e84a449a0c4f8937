import SoloMiner.Pool.Agreement
import SoloMiner.Pool.Offers
import SoloMiner.Pool.Stage

/-!
# The blocks that a run submits

A block is submitted by a reader, in the middle of a line, for a job that the poller
installed some time before, while other readers and the poller go on. What is submitted
is good throughout: if the node is honest in the templates it gives
(`SoloMiner.Consensus.Offers`), then in every state of every run what any reader is about
to submit is a block that the node parses to the last byte, that is valid on top of the
tip of the job's template, and that pays all of the reward to the job's script
(`SoloMiner.Server.submissions_valid`).

The code of a reader is only as good as the jobs it finds, so the invariant is about the
code under the answers that the state can give: `SoloMiner.Prog.Under` with lookups that
find nothing but genuine jobs.
-/

namespace SoloMiner

open Json MinDifficulty

namespace Consensus

/-! ### Genuine jobs -/

/-- Where the pool makes use of the window, the network has it: any time past the gap is
due the minimum difficulty. The parent is not in the last twenty minutes of its range. -/
def HasWindow (next : NextBlock) (exploit : Bool) (parentTime : Option UInt32) : Prop :=
  exploit = true → ∀ parent, parentTime = some parent → parent.toNat + 1201 < 2 ^ 32 ∧
    ∀ time : UInt32, (parent.toNat : ℤ) + MIN_DIFFICULTY_GAP < time.toNat →
      next.bitsAt time = MIN_DIFFICULTY_BITS

/-- A job that the poller installs for a template of an honest node. -/
inductive Genuine (next : NextBlock) (others : List Transaction) : ActiveJob → Prop
  | mk {jobId : Str} {template : BlockTemplate} {payoutScript : Bytes} {cleanJobs : Bool}
    {built : ActiveJob} {exploit : Bool} {parentTime : Option UInt32}
    (hoffers : Offers next others template) (hwindow : HasWindow next exploit parentTime)
    (hbuild : build jobId template payoutScript cleanJobs = .ok built) :
    Genuine next others (built.withWindow exploit parentTime)

/-- What the job of a template has besides its transactions. -/
structure BuiltFrom (template : BlockTemplate) (active : ActiveJob) : Prop where
  height : active.height = template.height
  coinbaseValue : active.coinbaseValue = template.coinbaseValue
  time : active.job.time = template.currentTime.toUInt32

theorem builtFrom_of_build {jobId : Str} {template : BlockTemplate} {payoutScript : Bytes}
    {cleanJobs : Bool} {active : ActiveJob}
    (h : build jobId template payoutScript cleanJobs = .ok active) : BuiltFrom template active := by
  obtain ⟨collected, hcollect, h⟩ := Checked.bind_eq_ok.mp h
  obtain ⟨halves, -, h⟩ := Checked.bind_eq_ok.mp h
  obtain rfl := Except.ok.inj h
  obtain ⟨wtxids, -, h⟩ := Checked.bind_eq_ok.mp hcollect
  obtain ⟨_, -, h⟩ := Checked.bind_eq_ok.mp h
  obtain ⟨txids, -, h⟩ := Checked.bind_eq_ok.mp h
  obtain ⟨transactions, -, h⟩ := Checked.bind_eq_ok.mp h
  obtain ⟨prevHash, -, h⟩ := Checked.bind_eq_ok.mp h
  obtain ⟨bits, -, h⟩ := Checked.bind_eq_ok.mp h
  obtain ⟨time, htime, h⟩ := Checked.bind_eq_ok.mp h
  obtain ⟨target, -, h⟩ := Checked.bind_eq_ok.mp h
  obtain rfl := Except.ok.inj h
  rw [jobTime] at htime
  split_ifs at htime
  · exact ⟨rfl, rfl, (Except.ok.inj htime).symm⟩
  · exact absurd htime (by simp [Checked.err])

/-- The rewriting for the window keeps all of a job but its time and its difficulty. -/
theorem withWindow_rest (active : ActiveJob) (exploit : Bool) (parentTime : Option UInt32) :
    (active.withWindow exploit parentTime).height = active.height ∧
      (active.withWindow exploit parentTime).coinbaseValue = active.coinbaseValue := by
  unfold ActiveJob.withWindow
  split <;> exact ⟨rfl, rfl⟩

/-- A job that has the bits due at its time has them after the rewriting, too: the new time
is past the gap. -/
theorem bits_withWindow {next : NextBlock} {built : ActiveJob} {exploit : Bool}
    {parentTime : Option UInt32} (hwindow : HasWindow next exploit parentTime)
    (hbuilt : built.job.bits = next.bitsAt built.job.time) :
    (built.withWindow exploit parentTime).job.bits =
      next.bitsAt (built.withWindow exploit parentTime).job.time := by
  obtain ⟨target, htarget⟩ := exists_target
  unfold ActiveJob.withWindow
  rw [htarget]
  cases exploit with
  | false => exact hbuilt
  | true =>
    cases parentTime with
    | none => exact hbuilt
    | some parent =>
      obtain ⟨hrange, hdue⟩ := hwindow rfl parent rfl
      have htime := ntime_plan parent
      rw [Nat.mod_eq_of_lt hrange] at htime
      refine (hdue _ ?_).symm
      rw [htime, MIN_DIFFICULTY_GAP]
      omega

/-- **What a genuine job has of the block that comes next.** -/
structure Describes (next : NextBlock) (others : List Transaction) (active : ActiveJob) :
    Prop where
  coherent : active.Coherent
  prevHash : active.job.prevHash = next.prevHash
  height : active.height = next.height
  coinbaseValue : active.coinbaseValue.toNat ≤ next.reward
  transactions : active.transactions = others.map Transaction.serialize
  txids : active.txids = others.map Transaction.txid
  witnessCommitment : active.witnessCommitment =
    Witness.commitmentScript (others.map Transaction.wtxid)
  inputs : ∀ tx ∈ others, tx.inputs ≠ []
  notCoinbase : ∀ tx ∈ others, ¬ IsCoinbase tx
  /-- At its own time, the job's difficulty is the one that is due. -/
  bits : active.job.bits = next.bitsAt active.job.time

theorem Genuine.describes {next : NextBlock} {others : List Transaction} {active : ActiveJob}
    (h : Genuine next others active) : Describes next others active := by
  obtain ⟨hoffers, hwindow, hbuild⟩ := h
  next jobId template payoutScript cleanJobs built exploit parentTime =>
  have hfrom := (build_fromTemplate hbuild).withWindow exploit parentTime
  obtain ⟨wtxids, hwtxids, hcommitment⟩ := hfrom.witnessCommitment
  obtain ⟨hheight, hvalue, htime⟩ := builtFrom_of_build hbuild
  obtain ⟨hprev, hbits, -, -, -⟩ := build_job hbuild
  have hbits' := Except.ok.inj (hbits.symm.trans hoffers.bits)
  obtain ⟨hheight', hvalue'⟩ := withWindow_rest built exploit parentTime
  obtain ⟨hprev', -⟩ := built.withWindow_job exploit parentTime
  obtain ⟨hraw, htxids, hwtxids', hprevious⟩ := hoffers.reads
  refine ⟨(Installable.mk exploit parentTime hbuild).coherent, ?_, ?_, ?_, ?_, ?_, ?_,
    hoffers.inputs, hoffers.notCoinbase, ?_⟩
  · rw [hprev', Except.ok.inj (hprev.symm.trans hprevious)]
  · rw [hheight', hheight, hoffers.height]
  · rw [hvalue', hvalue]
    exact hoffers.coinbaseValue
  · exact Except.ok.inj (hfrom.transactions.symm.trans hraw)
  · exact Except.ok.inj (hfrom.txids.symm.trans htxids)
  · rw [hcommitment, Except.ok.inj (hwtxids.symm.trans hwtxids')]
  · exact bits_withWindow hwindow (by rw [hbits', htime])

/-! ### What is submitted for a genuine job -/

/-- **The text is a block that the node takes**: it is the hex of bytes that are parsed to
the last one; what is parsed is valid on top of the tip of the job's template, at the
time of the job or at any other that is due the same bits; and the coinbase pays to the
script of the job. -/
structure Solves (next : NextBlock) (others : List Transaction) (active : ActiveJob) (text : Str)
    (raw : Bytes) (header : BlockHeader) (coinbase : Transaction) : Prop where
  hex : text = Hex.encode raw
  parsed : ∀ s : Slice, s.bytes = raw → parseBlock s = some (header, coinbase :: others)
  valid : header.time = active.job.time ∨ next.bitsAt header.time = active.job.bits →
    Valid next header (coinbase :: others)
  pays : coinbase.outputs =
    [⟨active.coinbaseValue, active.payoutScript⟩, ⟨0, active.witnessCommitment⟩]

variable {next : NextBlock} {others : List Transaction} {active : ActiveJob}

/-- **What `check` submits for a genuine job**, whatever share it is given. -/
theorem Describes.solves_of_reaches (h : Describes next others active) {share : Share}
    {extranonce1 : Bytes} {text : Str}
    (hreach : (check active share extranonce1).Reaches (.submitBlock text)) :
    ∃ raw header coinbase, Solves next others active text raw header coinbase := by
  obtain ⟨coinbase, header, block, hrebuild, hmet, hblock, rfl⟩ := reaches_check_iff.mp hreach
  obtain ⟨hcoinbase, -, merkleRoot, hroot, rfl⟩ := rebuild_eq_ok.mp hrebuild
  rw [h.coherent.assemble_eq] at hblock
  obtain rfl := Except.ok.inj hblock
  obtain ⟨-, htx⟩ := ActiveJob.coinbase_eq_ok hcoinbase
  refine ⟨_, shareHeader active share merkleRoot, coinbase, rfl, fun s hs => ?_,
    fun hbits => ?_, ?_⟩
  · have hinputs : coinbase.inputs ≠ [] := by
      rw [htx]
      exact List.cons_ne_nil _ _
    exact parseBlock_serialize _ hinputs h.inputs h.transactions hs
  · have hextra : (extranonce1 ++ share.extranonce2).length ≤ 520 := by
      by_contra hlong
      rw [(active.coinbase_eq_panic_iff _).mpr (not_le.mp hlong)] at hcoinbase
      exact absurd hcoinbase (by simp [Checked.panic])
    have hdue : active.job.bits = next.bitsAt share.time := by
      rcases hbits with htime | hdue
      · have htime : share.time = active.job.time := htime
        rw [htime, h.bits]
      · exact hdue.symm
    have htag : TAG.length ≤ 520 := by rw [length_TAG]; decide
    have hcommit : some active.witnessCommitment =
        some (Witness.commitmentScript (others.map Transaction.wtxid)) :=
      congrArg some h.witnessCommitment
    refine valid_of_build hextra htag hcoinbase h.height h.coinbaseValue hcommit h.notCoinbase
      h.prevHash hdue ?_ ?_
    · have htarget : (shareHeader active share merkleRoot).target = .ok active.networkTarget :=
        h.coherent.networkTarget
      rw [BlockHeader.isValidProofOfWork, htarget]
      exact congrArg Except.ok hmet
    · rw [List.map_cons, ← h.txids]
      exact hroot
  · rw [htx]
    rfl

end Consensus

namespace Server

open Consensus

/-! ### What is submitted in a run -/

/-- The reader `i` is about to submit a block. -/
def Submitting (s : Server) (i : ℕ) (text : Str) : Prop :=
  ∃ t request next, s.threads[i]? = some t ∧
    t.phase = .handling request (.op (.submitBlock text) next)

/-- The answers of a state that has only such jobs. -/
def Finds (J : ActiveJob → Prop) : (effect : Effect) → effect.Answer → Prop
  | .jobById _, job => ∀ active, job = some active → J active
  | _, _ => True

/-- The operations that submit only such blocks. -/
def SubmitsOnly (good : Str → Prop) (effect : Effect) : Prop :=
  ∀ text, effect = .submitBlock text → good text

variable {J : ActiveJob → Prop} {good : Str → Prop}

theorem submitsOnly_reply (response : Response) :
    (Session.reply response).Only (SubmitsOnly good) :=
  ⟨fun _ h => absurd h (by simp), fun _ => trivial⟩

theorem submitsOnly_answerShare (id : Option UInt64) (outcome : Except ValidationError Verdict) :
    (Session.answerShare id outcome).Only (SubmitsOnly good) := by
  have hrefresh : SubmitsOnly good .requestRefresh := fun _ h => absurd h (by simp)
  rcases outcome with error | ⟨_, _⟩ | ⟨_, _⟩ | ⟨_, _⟩ | ⟨_, _⟩
  · exact submitsOnly_reply _
  · exact (submitsOnly_reply _).bind fun _ => ⟨hrefresh, fun _ => trivial⟩
  · exact (submitsOnly_reply _).bind fun _ => ⟨hrefresh, fun _ => trivial⟩
  · exact submitsOnly_reply _
  · exact submitsOnly_reply _

/-- **What a share makes a session submit**, if the lookup finds only such jobs. -/
theorem under_onSubmit
    (hgood : ∀ active, J active → ∀ share extranonce1 text,
      (check active share extranonce1).Reaches (.submitBlock text) → good text)
    (session : Session) (request : Request) :
    (session.onSubmit request).Under (Finds J) (SubmitsOnly good) := by
  rw [Session.onSubmit]
  split_ifs
  · exact (submitsOnly_reply _).under _
  · split
    · next share hshare =>
      refine ⟨fun _ h => absurd h (by simp), fun job hjob => ?_⟩
      cases job with
      | none => exact (submitsOnly_reply _).under _
      | some active =>
        have hcheck : (check active share session.extranonce1.toList).Only (SubmitsOnly good) :=
          Prog.only_of_reaches fun effect hreach text heq =>
            hgood active (hjob active rfl) share _ text (heq ▸ hreach)
        exact (hcheck.under _).bind fun outcome => (submitsOnly_answerShare _ outcome).under _
    · exact (submitsOnly_reply _).under _
    · exact trivial

/-- An authorization submits nothing. -/
theorem submitsOnly_onAuthorize (difficulty : UInt32 → Value) (session : Session)
    (request : Request) : (session.onAuthorize difficulty request).Only (SubmitsOnly good) := by
  refine Prog.Only.bind (submitsOnly_reply _) fun _ => Prog.Only.bind ?_ fun _ => trivial
  refine ⟨fun _ h => absurd h (by simp), fun job => ?_⟩
  cases job with
  | none => exact trivial
  | some active =>
    exact ⟨fun _ h => absurd h (by simp), fun _ =>
      ⟨fun _ h => absurd h (by simp), fun _ => trivial⟩⟩

/-- **What a line makes a session submit.** -/
theorem under_dispatch
    (hgood : ∀ active, J active → ∀ share extranonce1 text,
      (check active share extranonce1).Reaches (.submitBlock text) → good text)
    (fromStr : Str → Option Value) (difficulty : UInt32 → Value) (session : Session) (text : Str) :
    (session.dispatch fromStr difficulty text).Under (Finds J) (SubmitsOnly good) := by
  have hother : ∀ effect : Effect, (∀ text, effect ≠ .submitBlock text) →
      SubmitsOnly good effect := fun effect hne text heq => absurd heq (hne text)
  rw [Session.dispatch]
  rcases Incoming.parse fromStr text with _ | request | response
  · exact trivial
  · refine Prog.Under.bind ?_ fun _ => trivial
    rw [Session.onRequest]
    split_ifs
    · exact ⟨hother _ (by simp), fun _ _ => ⟨hother _ (by simp), fun _ _ => trivial⟩⟩
    · exact (submitsOnly_onAuthorize difficulty session request).under _
    · exact Prog.Under.bind (under_onSubmit hgood session request) fun _ => trivial
    · exact ⟨hother _ (by simp), fun _ _ => trivial⟩
  · exact trivial

/-- **What a run keeps**: the jobs of the state are such jobs, and so what is left of any
reader's code submits only such blocks, whatever it finds. -/
structure Submits (J : ActiveJob → Prop) (good : Str → Prop) (s : Server) : Prop where
  jobs : ∀ active ∈ s.pool.jobs, J active
  code : ∀ (i : ℕ) (t : Thread), s.threads[i]? = some t → ∀ request code,
    t.phase = .handling request code → code.Under (Finds J) (SubmitsOnly good)

theorem submits_init : Submits J good init where
  jobs active h := absurd h List.not_mem_nil
  code i t h := absurd h (by simp [init])

variable {fromStr : Str → Option Value} {difficulty : UInt32 → Value} {s s' : Server}

/-- What is left after a reader has gone on is what it was given. -/
theorem under_resume {t : Thread} {request request' : Option Request}
    {code code' : PoolProg (Session × Bool)} (h : code.Under (Finds J) (SubmitsOnly good))
    (hphase : (t.resume request code).phase = .handling request' code') :
    code'.Under (Finds J) (SubmitsOnly good) := by
  rcases code with ⟨session, _ | _⟩ | _ | ⟨effect, next⟩
  · exact absurd hphase (by simp [Thread.resume])
  · exact absurd hphase (by simp [Thread.resume])
  · exact absurd hphase (by simp [Thread.resume])
  · obtain ⟨-, rfl⟩ := Phase.handling.inj hphase
    exact h

/-- What a state answers is such a job, if it has no others. -/
theorem finds_answer {pool : PoolState} (h : ∀ active ∈ pool.jobs, J active) (world : World)
    (effect : Effect) : Finds J effect (answer pool world effect) := by
  cases effect with
  | jobById jobId => exact fun active hactive => h active (List.mem_of_find?_eq_some hactive)
  | _ => exact trivial

/-- The code of the readers, after one of them was changed. -/
theorem Submits.setThread (h : s.Submits J good) {i : ℕ} {t : Thread}
    (ht : ∀ request code, t.phase = .handling request code →
      code.Under (Finds J) (SubmitsOnly good)) : (s.setThread i t).Submits J good :=
  ⟨h.jobs, fun j u hu => by
    rcases getElem?_set_cases hu with ⟨-, rfl⟩ | ⟨-, hu⟩
    · exact ht
    · exact h.code j u hu⟩

/-- **The step lemma**: an event that installs, if anything, such a job. -/
theorem Submits.of_step (h : s.Submits J good)
    (hgood : ∀ active, J active → ∀ share extranonce1 text,
      (check active share extranonce1).Reaches (.submitBlock text) → good text)
    {event : Event} (hevent : ∀ active, event = .install active → J active)
    (hstep : step fromStr difficulty s event = some s') : s'.Submits J good := by
  cases event with
  | connect =>
    obtain rfl := step_connect hstep
    refine ⟨h.jobs, fun j u hu => ?_⟩
    rcases getElem?_concat_cases hu with hu | ⟨-, rfl⟩
    · exact h.code j u hu
    · exact fun _ _ hphase => absurd hphase (by simp [Thread.new])
  | refuse =>
    obtain rfl := step_refuse hstep
    exact ⟨h.jobs, h.code⟩
  | line i text =>
    obtain ⟨t, -, -, ⟨-, rfl⟩ | ⟨-, rfl⟩⟩ := step_line hstep
    · exact h
    · exact h.setThread fun _ _ hphase =>
        under_resume (under_dispatch hgood fromStr difficulty t.session text) hphase
  | perform i world =>
    obtain ⟨t, request, effect, next, ht, hphase, rfl⟩ := step_perform hstep
    have hnext := (h.code i t ht _ _ hphase).2 _ (finds_answer h.jobs world effect)
    have hset : (s.setThread i ((t.receive (linesOf effect)).resume request
        (next (answer s.pool world effect)))).Submits J good :=
      h.setThread fun _ _ hphase' => under_resume hnext hphase'
    exact ⟨fun active hactive => h.jobs active ((affect_jobs s.pool effect).1 ▸ hactive), hset.code⟩
  | hangUp i =>
    obtain ⟨t, -, -, rfl⟩ := step_hangUp hstep
    exact h.setThread fun _ _ hphase => absurd hphase (by simp)
  | unregister i =>
    obtain ⟨t, -, -, rfl⟩ := step_unregister hstep
    have hset : (s.setThread i { t with phase := .returned }).Submits J good :=
      h.setThread fun _ _ hphase => absurd hphase (by simp)
    exact ⟨h.jobs, hset.code⟩
  | writerEnds i =>
    obtain ⟨t, ht, rfl⟩ := step_writerEnds hstep
    exact h.setThread fun _ _ hphase => h.code i t ht _ _ hphase
  | startJob =>
    obtain ⟨-, rfl⟩ := step_startJob hstep
    exact ⟨h.jobs, h.code⟩
  | abandon =>
    obtain ⟨_, -, rfl⟩ := step_abandon hstep
    exact ⟨h.jobs, h.code⟩
  | install active =>
    obtain ⟨-, rfl⟩ := step_install hstep
    refine ⟨fun active' hactive' => ?_, h.code⟩
    rcases List.mem_cons.mp (List.mem_of_mem_take hactive') with rfl | hold
    · exact hevent _ rfl
    · exact h.jobs active' hold
  | announce =>
    obtain ⟨active, -, rfl⟩ := step_announce hstep
    refine ⟨h.jobs, fun j u hu => ?_⟩
    rw [List.getElem?_mapIdx] at hu
    obtain ⟨t, ht, rfl⟩ := Option.map_eq_some_iff.mp hu
    exact h.code j t ht

/-- The block that the sample template is for. -/
def sampleNext : NextBlock where
  prevHash := samplePrevious
  height := 113
  bitsAt _ := 0x207FFFFF
  reward := 5000000000

theorem offers_sampleTemplate : Offers sampleNext [samplePayment] sampleTemplate where
  previousBlockHash := by decide +kernel
  transactions := by decide +kernel
  inputs tx h := by
    obtain rfl := List.mem_singleton.mp h
    exact List.cons_ne_nil _ _
  notCoinbase tx h := by
    obtain rfl := List.mem_singleton.mp h
    rintro ⟨input, hinput, hnull⟩
    obtain rfl := List.singleton_inj.mp hinput
    exact absurd hnull (by decide)
  coinbaseValue := by decide
  height := rfl
  bits := compactBits_sampleTemplate

/-- The line with the sample share. -/
def shareText : Str :=
  ("\x7b\"id\":4,\"method\":\"mining.submit\",".toList ++
    "\"params\":[\"\",\"1\",\"00000007\",\"6553f100\",\"00000001\"]\x7d".toList)

/-- The reading of that line, and of those of a handshake. -/
def readShare (s : Str) : Option Value :=
  if s = shareText then
    some (.object [("id".toList, .number (.posInt 4)), ("method".toList, .string method.SUBMIT),
      ("params".toList, sampleShare.toSubmitParams)])
  else readHandshake s

/-- A job is installed and announced; a miner subscribes, is authorized, and sends the sample
share. -/
def firstShare : List Event :=
  [.startJob, .install sampleJob, .announce, .connect] ++ request method.SUBSCRIBE 2 ++
    request method.AUTHORIZE 4 ++ [.line 0 shareText, .perform 0 ⟨0, .ok none⟩]

/-- The block that a reader is about to submit, if there is one. -/
def submission (s : Server) (i : ℕ) : Option Str := do
  let t ← s.threads[i]?
  match t.phase with
  | .handling _ (.op (.submitBlock text) _) => some text
  | _ => none

theorem submitting_of_submission {s : Server} {i : ℕ} {text : Str}
    (h : s.submission i = some text) : s.Submitting i text := by
  obtain ⟨t, ht, h⟩ := Option.bind_eq_some_iff.mp h
  split at h
  · next request text' next hphase =>
    obtain rfl := Option.some.inj h
    exact ⟨t, request, next, ht, hphase⟩
  · exact absurd h (by simp)

/-- The run comes to a submission. -/
theorem exists_submitting : ∃ s text,
    StepSystem.exec (step readShare fun _ => .null) init firstShare = some s ∧
      s.Submitting 0 text := by
  have h : ((StepSystem.exec (step readShare fun _ => .null) init firstShare).bind
      fun s => s.submission 0).isSome = true := by
    decide +kernel
  obtain ⟨text, h⟩ := Option.isSome_iff_exists.mp h
  obtain ⟨s, hexec, h⟩ := Option.bind_eq_some_iff.mp h
  exact ⟨s, text, hexec, submitting_of_submission h⟩

end Server

end SoloMiner
