import SoloMiner.Pool.Agreement
import SoloMiner.Pool.Session

/-!
# The lines a session survives

A panic in the reader thread of a connection ends it without a reply, and leaves its
subscription behind. The texts of a share go into the hex decoder and from there into
the coinbase, and both can panic: the decoder on a string that cuts a character in two,
the coinbase on an extranonce that is too long to push. And the decoders take a plus
sign for part of a number, so that a share can be malformed and be accepted.

`SoloMiner.Session.survives_iff` says that these are all: a line is survived, and
refused if it is a malformed share, precisely if it is none of the three. The strings
that cut a character in two are described in `SoloMiner.Hex.SplitsChar`.
-/

namespace SoloMiner

open Json

namespace Session

/-! ### What is asked of a session -/

/-- The parameters of a share, well-formed: an array of at least five, strings up front,
the third four bytes in hex, the next two numbers in hex. -/
def WellFormed (params : Value) : Prop :=
  ∃ array worker jobId extranonce2 time nonce, params.asArray = some array ∧ 5 ≤ array.length ∧
    array[0]? = some (.string worker) ∧ array[1]? = some (.string jobId) ∧
    array[2]? = some (.string extranonce2) ∧ array[3]? = some (.string time) ∧
    array[4]? = some (.string nonce) ∧
    (extranonce2.length = 2 * EXTRANONCE2_SIZE ∧ ∀ c ∈ extranonce2, Hex.IsHexDigit c) ∧
    (time ≠ [] ∧ ∀ c ∈ time, Hex.IsHexDigit c) ∧ (nonce ≠ [] ∧ ∀ c ∈ nonce, Hex.IsHexDigit c)

/-- The readings of the pool's jobs in a trace are of one state of the pool. A line is
answered with one reading at most, so the state is that of the moment of the reading. -/
def Consistent (pool : PoolState) (trace : Prog.Trace Effect.Answer) : Prop :=
  (∀ jobId job, (⟨.jobById jobId, job⟩ : Sigma Effect.Answer) ∈ trace →
    job = pool.jobById jobId) ∧
  ∀ job, (⟨.currentJob, job⟩ : Sigma Effect.Answer) ∈ trace → job = pool.currentJob

variable (fromStr : Str → Option Value) (difficulty : UInt32 → Value) (pool : PoolState)
  (session : Session) (line : Str)

/-- **A line is survived**: whatever the node, the clock and the pool answer, handling it
returns; and if it is a malformed share, an error is sent back. -/
structure Survives : Prop where
  /-- Handling the line returns, and the connection stays open. -/
  returns : ∀ trace result, Prog.Runs (session.dispatch fromStr difficulty line) trace result →
    Consistent pool trace → ∃ session' : Session, result = some (session', true)
  /-- A malformed share is refused. -/
  refuses : ∀ request, Incoming.parse fromStr line = some (.request request) →
    request.method = method.SUBMIT → ¬ WellFormed request.params → ∀ trace result,
      Prog.Runs (session.dispatch fromStr difficulty line) trace result → Consistent pool trace →
        ∃ error, ⟨.send (.response (.failure request.id error)), ()⟩ ∈ trace

/-- **The lines that are survived**, by what stands in them. It matters only for the share
of an authorized miner with enough parameters, strings up front: the third must not cut
a character in two; and if the share is decoded and names a known job, its extranonce
must be at most 516 bytes long, and one of four bytes must come without a plus sign. -/
def Handled : Prop :=
  ∀ request array worker jobId extranonce2,
    Incoming.parse fromStr line = some (.request request) → request.method = method.SUBMIT →
    session.authorized = true → request.params.asArray = some array → 5 ≤ array.length →
    array[0]? = some (.string worker) → array[1]? = some (.string jobId) →
    array[2]? = some (.string extranonce2) →
    ¬ Hex.SplitsChar extranonce2 ∧
      ∀ pairs time nonce active, extranonce2 = Hex.pairChars pairs →
        (∀ pair ∈ pairs, Hex.ReadablePair pair) →
        array[3]? = some (.string time) → (Hex.fromStrRadix16 32 time).isSome = true →
        array[4]? = some (.string nonce) → (Hex.fromStrRadix16 32 nonce).isSome = true →
        pool.jobById jobId = some active →
        pairs.length ≤ 516 ∧
          (pairs.length = EXTRANONCE2_SIZE → '+' ∉ extranonce2 ∧ '+' ∉ time ∧ '+' ∉ nonce)

/-! ### The check of a share of any width -/

variable {fromStr difficulty pool session line}
variable {active : ActiveJob} {share : Share} {extranonce1 : Bytes} {request : Request}
  {trace : Prog.Trace Effect.Answer}

/-- Assembling, holding back and submitting a block does not panic. -/
theorem safe_submitShare (active : ActiveJob) (coinbase : Transaction) (header : BlockHeader) :
    (submitShare active coinbase header).Safe := by
  have hassemble : assemble active coinbase ≠ .panic := by
    rw [assemble, Ne, Checked.mapErr_eq_panic, BlockBuilder.new]
    split_ifs
    · exact Checked.err_ne_panic
    · exact Checked.ok_ne_panic
  rw [submitShare]
  rcases hblock : assemble active coinbase with (error | _) | block
  · exact trivial
  · exact absurd hblock hassemble
  · exact (safe_hold _).bind fun _ _ => trivial

/-- **A check panics** precisely on an extranonce too long to push. -/
theorem runs_check_none_iff :
    Prog.Runs (check active share extranonce1) trace none ↔
      trace = [] ∧ 520 < (extranonce1 ++ share.extranonce2).length := by
  constructor
  · intro hrun
    rcases Prog.runs_attempt_iff.mp hrun with
      ⟨⟨coinbase, header⟩, -, hrest⟩ | ⟨_, -, -, hresult⟩ | ⟨hpanic, htrace, -⟩
    · dsimp only at hrest
      split_ifs at hrest
      · obtain ⟨_, hresult⟩ := (safe_submitShare _ _ _).of_runs hrest
        exact absurd hresult (by simp)
      · exact absurd (Prog.runs_pure_iff.mp hrest).2 (by simp)
    · exact absurd hresult (by simp)
    · exact ⟨htrace, rebuild_eq_panic_iff.mp hpanic⟩
  · rintro ⟨rfl, hlen⟩
    exact Prog.runs_attempt_iff.mpr (Or.inr (Or.inr ⟨rebuild_eq_panic_iff.mpr hlen, rfl, rfl⟩))

/-- **An extranonce of another width is an error.** -/
theorem runs_check_of_length_ne (h : active.Coherent) (h1 : extranonce1.length = 4)
    (hne : share.extranonce2.length ≠ 4) {result : Option (Except ValidationError Verdict)}
    (hrun : Prog.Runs (check active share extranonce1) trace result) :
    (∃ error, result = some (.error error)) ∨ result = none := by
  rcases Prog.runs_attempt_iff.mp hrun with
    ⟨⟨coinbase, header⟩, hrebuild, -⟩ | ⟨error, -, -, hresult⟩ | ⟨-, -, hresult⟩
  · exact absurd (h.length_of_rebuild h1 hrebuild) hne
  · exact Or.inl ⟨error, hresult⟩
  · exact Or.inr hresult

/-- The replies to a share that was accepted. -/
def IsAccepted : Verdict → Prop
  | .blockAccepted _ _ => True
  | .share _ _ => True
  | _ => False

theorem exists_runs_submitShare (h : active.Coherent) (coinbase : Transaction)
    (header : BlockHeader) :
    ∃ trace, Prog.Runs (submitShare active coinbase header) trace
      (some (.ok (.blockAccepted header.hash active.height))) := by
  obtain ⟨wait, hwait⟩ := exists_runs_hold active.submitNotBefore
  exact ⟨_, .attempt (h.assemble_eq coinbase)
    (hwait.bind (Prog.runs_perform_bind_iff.mpr ⟨.ok none, [], rfl, .ret _⟩))⟩

/-- **A share of the right width can be accepted**: the node may take the block. -/
theorem exists_runs_check (h : active.Coherent) (h1 : extranonce1.length = 4)
    (h2 : share.extranonce2.length = 4) :
    ∃ trace verdict, Prog.Runs (check active share extranonce1) trace (some (.ok verdict)) ∧
      IsAccepted verdict := by
  obtain ⟨coinbase, -, hrebuild⟩ := h.rebuild_eq share h1 h2
  generalize active.job.header extranonce1 share.extranonce2 share.time share.nonce = header
    at hrebuild
  by_cases hmet : active.networkTarget.isMetBy header.hash = true
  · obtain ⟨trace, hrun⟩ := exists_runs_submitShare h coinbase header
    refine ⟨trace, .blockAccepted header.hash active.height, .attempt hrebuild ?_, trivial⟩
    dsimp only
    rwa [if_pos hmet]
  · refine ⟨[], .share header.hash header.hash.leadingZeroBits, .attempt hrebuild ?_, trivial⟩
    dsimp only
    rw [if_neg hmet]
    exact .ret _

/-! ### Handling a share -/

theorem safe_reply (response : Response) : (reply response).Safe := fun _ => trivial

theorem safe_answerShare (id : Option UInt64) (outcome : Except ValidationError Verdict) :
    (answerShare id outcome).Safe := by
  rcases outcome with error | ⟨_, _⟩ | ⟨_, _⟩ | ⟨_, _⟩ | ⟨_, _⟩
  · exact safe_reply _
  · exact (safe_reply _).bind fun _ _ => trivial
  · exact (safe_reply _).bind fun _ _ => trivial
  · exact safe_reply _
  · exact safe_reply _

theorem safe_onSubscribe : (session.onSubscribe request).Safe :=
  (safe_reply _).bind fun _ _ => trivial

theorem safe_onAuthorize : (session.onAuthorize difficulty request).Safe := by
  refine (safe_reply _).bind fun _ => Prog.Safe.bind (fun job => ?_) fun _ => trivial
  cases job with
  | none => exact trivial
  | some active => exact fun _ _ => trivial

/-- A run of the dispatcher on a share is a run of its handler. -/
theorem runs_dispatch_submit_iff (hparse : Incoming.parse fromStr line = some (.request request))
    (hmethod : request.method = method.SUBMIT) {result : Option (Session × Bool)} :
    Prog.Runs (session.dispatch fromStr difficulty line) trace result ↔
      ∃ r, Prog.Runs (session.onSubmit request) trace r ∧
        result = r.map fun _ => (session, true) := by
  have hsubmit : session.onRequest difficulty request =
      (do session.onSubmit request; pure session) := by
    have h1 : method.SUBMIT ≠ method.SUBSCRIBE := by decide
    have h2 : method.SUBMIT ≠ method.AUTHORIZE := by decide
    rw [onRequest, hmethod, if_neg h1, if_neg h2, if_pos rfl]
  have hdispatch : session.dispatch fromStr difficulty line =
      (do let session ← session.onRequest difficulty request; pure (session, true)) := by
    rw [dispatch, hparse]
  rw [hdispatch, Prog.runs_bind_pure_iff, hsubmit]
  simp only [Prog.runs_bind_pure_iff]
  constructor
  · rintro ⟨_, ⟨r, hrun, rfl⟩, rfl⟩
    exact ⟨r, hrun, by cases r <;> rfl⟩
  · rintro ⟨r, hrun, rfl⟩
    exact ⟨_, ⟨r, hrun, rfl⟩, by cases r <;> rfl⟩

/-- Every line that is no share is survived. -/
theorem returns_of_not_submit
    (h : ∀ request, Incoming.parse fromStr line = some (.request request) →
      request.method ≠ method.SUBMIT) {result : Option (Session × Bool)}
    (hrun : Prog.Runs (session.dispatch fromStr difficulty line) trace result) :
    ∃ session' : Session, result = some (session', true) := by
  rw [dispatch] at hrun
  cases hparse : Incoming.parse fromStr line with
  | none =>
    rw [hparse] at hrun
    exact ⟨session, (Prog.runs_pure_iff.mp hrun).2⟩
  | some incoming =>
    rw [hparse] at hrun
    cases incoming with
    | response response => exact ⟨session, (Prog.runs_pure_iff.mp hrun).2⟩
    | request request =>
      obtain ⟨r, hrequest, rfl⟩ := Prog.runs_bind_pure_iff.mp hrun
      have hsafe : (session.onRequest difficulty request).Safe := by
        rw [onRequest]
        split_ifs with hsubscribe hauthorize hsubmit
        · exact safe_onSubscribe.bind fun _ => trivial
        · exact safe_onAuthorize
        · exact absurd hsubmit (h request hparse)
        · exact (safe_reply _).bind fun _ => trivial
      obtain ⟨session', rfl⟩ := hsafe.of_runs hrequest
      exact ⟨session', rfl⟩

theorem runs_reply_iff {response : Response} {r : Option Unit} :
    Prog.Runs (reply response) trace r ↔
      trace = [⟨.send (.response response), ()⟩] ∧ r = some () := by
  constructor
  · intro hrun
    obtain ⟨_, _, rfl, hrest⟩ := Prog.runs_op_iff.mp hrun
    obtain ⟨rfl, rfl⟩ := Prog.runs_ret_iff.mp hrest
    exact ⟨rfl, rfl⟩
  · rintro ⟨rfl, rfl⟩
    exact .op (.ret ())

/-- The handler on a share that was decoded. -/
theorem runs_onSubmit_iff_of_ok (hauth : session.authorized = true)
    (hshare : Share.fromSubmitParams request.params = .ok share) {r : Option Unit} :
    Prog.Runs (session.onSubmit request) trace r ↔
      ∃ (job : Option ActiveJob) (rest : Prog.Trace Effect.Answer),
        trace = ⟨.jobById share.jobId, job⟩ :: rest ∧
        Prog.Runs (match job with
          | none => reply (.failure request.id .jobNotFound)
          | some active => do
            let outcome ← check active share session.extranonce1.toList
            answerShare request.id outcome) rest r := by
  have hsubmit : session.onSubmit request = session.onShare request.id share := by
    rw [onSubmit, hauth, hshare]
    rfl
  rw [hsubmit, onShare, Prog.runs_perform_bind_iff]
  refine exists_congr fun job => exists_congr fun rest => and_congr_right fun _ => ?_
  cases job with
  | none => exact Iff.rfl
  | some active => exact Iff.rfl

/-- A share that was decoded meets the conditions of its line. -/
theorem Handled.of_decoded (h : Handled fromStr pool session line)
    (hparse : Incoming.parse fromStr line = some (.request request))
    (hmethod : request.method = method.SUBMIT) (hauth : session.authorized = true)
    (hshare : Share.fromSubmitParams request.params = .ok share)
    (hjob : pool.jobById share.jobId = some active) :
    share.extranonce2.length ≤ 516 ∧
      (share.extranonce2.length = EXTRANONCE2_SIZE → WellFormed request.params) := by
  obtain ⟨array, worker, pairs, time, nonce, harray, hlen, hworker, hjobId, hs, hpairs, hwidth,
    htime, ht, hnonce, hn⟩ := Share.exists_fromSubmitParams_iff.mp ⟨share, hshare, rfl, rfl⟩
  obtain ⟨-, hcond⟩ := h request array _ _ _ hparse hmethod hauth harray hlen hworker hjobId hs
  obtain ⟨hle, hplus⟩ := hcond pairs time nonce active rfl hpairs htime ht hnonce hn hjob
  rw [hwidth] at hle hplus
  refine ⟨hle, fun hsize => ?_⟩
  obtain ⟨hplus2, hplus3, hplus4⟩ := hplus hsize
  obtain ⟨t, ht⟩ := Option.isSome_iff_exists.mp ht
  obtain ⟨n, hn⟩ := Option.isSome_iff_exists.mp hn
  refine ⟨array, _, _, _, time, nonce, harray, hlen, hworker, hjobId, hs, htime, hnonce,
    ⟨?_, Hex.isHexDigit_of_pairChars hpairs hplus2⟩, Hex.isHexDigit_of_fromStrRadix16 ht hplus3,
    Hex.isHexDigit_of_fromStrRadix16 hn hplus4⟩
  rw [Hex.length_pairChars, hwidth, hsize]

/-- **Decoding does not panic** on the share of a handled line. -/
theorem Handled.fromSubmitParams_ne_panic (h : Handled fromStr pool session line)
    (hparse : Incoming.parse fromStr line = some (.request request))
    (hmethod : request.method = method.SUBMIT) (hauth : session.authorized = true) :
    Share.fromSubmitParams request.params ≠ .panic := by
  intro hpanic
  obtain ⟨array, worker, jobId, s, harray, hlen, hworker, hjobId, hs, hsplits⟩ :=
    Share.fromSubmitParams_eq_panic_iff.mp hpanic
  exact (h request array worker jobId s hparse hmethod hauth harray hlen hworker hjobId hs).1
    hsplits

/-- **A handled share is answered**, and refused if it is malformed. -/
theorem Handled.onSubmit (h : Handled fromStr pool session line) (hpool : pool.Reachable)
    (hparse : Incoming.parse fromStr line = some (.request request))
    (hmethod : request.method = method.SUBMIT) {r : Option Unit}
    (hrun : Prog.Runs (session.onSubmit request) trace r) (hconsistent : Consistent pool trace) :
    r = some () ∧ (¬ WellFormed request.params →
      ∃ error, ⟨.send (.response (.failure request.id error)), ()⟩ ∈ trace) := by
  by_cases hauth : session.authorized = true
  · rcases hdecode : Share.fromSubmitParams request.params with (error | _) | share
    · rw [Session.onSubmit, hauth, hdecode] at hrun
      obtain ⟨rfl, rfl⟩ := runs_reply_iff.mp hrun
      exact ⟨rfl, fun _ => ⟨_, List.mem_singleton_self _⟩⟩
    · exact absurd hdecode (h.fromSubmitParams_ne_panic hparse hmethod hauth)
    · obtain ⟨job, rest, rfl, hrest⟩ := (runs_onSubmit_iff_of_ok hauth hdecode).mp hrun
      have hjob := hconsistent.1 share.jobId job List.mem_cons_self
      cases job with
      | none =>
        obtain ⟨rfl, rfl⟩ := runs_reply_iff.mp hrest
        exact ⟨rfl, fun _ => ⟨_, List.mem_cons_of_mem _ (List.mem_singleton_self _)⟩⟩
      | some active =>
        obtain ⟨hle, hwell⟩ := h.of_decoded hparse hmethod hauth hdecode hjob.symm
        have hcoherent := hpool.coherent_of_jobById hjob.symm
        have h1 : session.extranonce1.toList.length = 4 := session.extranonce1.toList_length
        rcases Prog.runs_bind_iff.mp hrest with
          ⟨first, last, outcome, rfl, hcheck, hanswer⟩ | ⟨-, hpanic⟩
        · refine ⟨?_, fun hnot => ?_⟩
          · obtain ⟨_, rfl⟩ := (safe_answerShare _ _).of_runs hanswer
            rfl
          · -- A malformed share that was decoded has an extranonce of another width.
            have hne : share.extranonce2.length ≠ 4 := fun hsize => hnot (hwell hsize)
            rcases runs_check_of_length_ne hcoherent h1 hne hcheck with ⟨error, herror⟩ | hnone
            · obtain rfl := Option.some.inj herror
              obtain ⟨rfl, -⟩ := runs_reply_iff.mp hanswer
              exact ⟨_, List.mem_cons_of_mem _
                (List.mem_append_right _ (List.mem_singleton_self _))⟩
            · exact absurd hnone (by simp)
        · obtain ⟨-, hlong⟩ := runs_check_none_iff.mp hpanic
          rw [List.length_append] at hlong
          omega
  · rw [Session.onSubmit, Bool.eq_false_iff.mpr hauth] at hrun
    obtain ⟨rfl, rfl⟩ := runs_reply_iff.mp hrun
    exact ⟨rfl, fun _ => ⟨_, List.mem_singleton_self _⟩⟩

/-! ### Lines that are not handled -/

theorem Consistent.nil : Consistent pool [] :=
  ⟨fun _ _ h => absurd h List.not_mem_nil, fun _ h => absurd h List.not_mem_nil⟩

/-- Readings of one job, and operations that read none. -/
theorem Consistent.cons_jobById {jobId : Str} {job : Option ActiveJob}
    (hjob : pool.jobById jobId = job)
    (hrest : ∀ event ∈ trace, (∀ jobId, event.1 ≠ .jobById jobId) ∧ event.1 ≠ .currentJob) :
    Consistent pool (⟨.jobById jobId, job⟩ :: trace) := by
  constructor
  · intro jobId' job' h
    rcases List.mem_cons.mp h with h | h
    · obtain ⟨hid, hanswer⟩ := Sigma.mk.inj h
      obtain rfl := Effect.jobById.inj hid
      rw [eq_of_heq hanswer, hjob]
    · exact absurd rfl ((hrest _ h).1 jobId')
  · intro job' h
    rcases List.mem_cons.mp h with h | h
    · exact absurd (Sigma.mk.inj h).1 (by simp)
    · exact absurd rfl (hrest _ h).2

/-- A share that was accepted is answered, and not with an error. -/
theorem exists_runs_answerShare (id : Option UInt64) {verdict : Verdict}
    (h : IsAccepted verdict) :
    ∃ trace, Prog.Runs (answerShare id (.ok verdict)) trace (some ()) ∧ ∀ event ∈ trace,
      event.1 = .send (.response (.ok id (.bool true))) ∨ event.1 = .requestRefresh := by
  cases verdict with
  | blockAccepted hash height =>
    refine ⟨[⟨.send (.response (.ok id (.bool true))), ()⟩, ⟨.requestRefresh, ()⟩],
      .op (.op (.ret ())), fun event hevent => ?_⟩
    rcases List.mem_cons.mp hevent with rfl | hevent
    · exact Or.inl rfl
    · obtain rfl := List.mem_singleton.mp hevent
      exact Or.inr rfl
  | share hash zeroBits =>
    refine ⟨[⟨.send (.response (.ok id (.bool true))), ()⟩], .op (.ret ()), fun event hevent => ?_⟩
    obtain rfl := List.mem_singleton.mp hevent
    exact Or.inl rfl
  | blockStale reason hash => exact False.elim h
  | blockRejected reason hash => exact False.elim h

variable (difficulty) in
/-- **A share that was decoded can be accepted** if it names a known job and its
extranonce has the right width: no error is sent. -/
theorem exists_runs_accepted (hpool : pool.Reachable)
    (hparse : Incoming.parse fromStr line = some (.request request))
    (hmethod : request.method = method.SUBMIT) (hauth : session.authorized = true)
    (hshare : Share.fromSubmitParams request.params = .ok share)
    (hjob : pool.jobById share.jobId = some active)
    (hsize : share.extranonce2.length = EXTRANONCE2_SIZE) :
    ∃ trace result, Prog.Runs (session.dispatch fromStr difficulty line) trace result ∧
      Consistent pool trace ∧
        ∀ error, ⟨.send (.response (.failure request.id error)), ()⟩ ∉ trace := by
  obtain ⟨checked, verdict, hcheck, haccepted⟩ := exists_runs_check
    (hpool.coherent_of_jobById hjob) (session.extranonce1.toList_length) hsize
  obtain ⟨answered, hanswer, hevents⟩ := exists_runs_answerShare request.id haccepted
  have honNode := (only_check active share session.extranonce1.toList).of_runs hcheck
  refine ⟨_, _, (runs_dispatch_submit_iff hparse hmethod).mpr ⟨_,
    (runs_onSubmit_iff_of_ok hauth hshare).mpr ⟨some active, _, rfl, hcheck.bind hanswer⟩, rfl⟩,
    Consistent.cons_jobById hjob fun event hevent => ?_, fun error herror => ?_⟩
  · rcases List.mem_append.mp hevent with hevent | hevent
    · have h := honNode event hevent
      exact ⟨fun jobId heq => by rw [heq] at h; exact h, fun heq => by rw [heq] at h; exact h⟩
    · rcases hevents event hevent with h | h
      · exact ⟨fun jobId heq => by simp [h] at heq, fun heq => by simp [h] at heq⟩
      · exact ⟨fun jobId heq => by simp [h] at heq, fun heq => by simp [h] at heq⟩
  · rcases List.mem_cons.mp herror with h | h
    · exact absurd (Sigma.mk.inj h).1 (by simp)
    · rcases List.mem_append.mp h with h | h
      · exact honNode _ h
      · rcases hevents _ h with h | h
        · simp [Response.ok, Response.failure] at h
        · simp at h

/-- A malformed share is one that does not consist of hex digits where it should. -/
theorem WellFormed.not_mem_plus {params : Value} (h : WellFormed params) {array : List Value}
    {extranonce2 time nonce : Str} (harray : params.asArray = some array)
    (h2 : array[2]? = some (.string extranonce2)) (h3 : array[3]? = some (.string time))
    (h4 : array[4]? = some (.string nonce)) :
    '+' ∉ extranonce2 ∧ '+' ∉ time ∧ '+' ∉ nonce := by
  obtain ⟨array', _, _, extranonce2', time', nonce', harray', -, -, -, h2', h3', h4',
    ⟨-, hdigits2⟩, ⟨-, hdigits3⟩, -, hdigits4⟩ := h
  obtain rfl : array' = array := Option.some.inj (harray'.symm.trans harray)
  obtain rfl : extranonce2' = extranonce2 := by simpa using h2'.symm.trans h2
  obtain rfl : time' = time := by simpa using h3'.symm.trans h3
  obtain rfl : nonce' = nonce := by simpa using h4'.symm.trans h4
  exact ⟨fun hmem => Hex.not_isHexDigit_plus (hdigits2 _ hmem),
    fun hmem => Hex.not_isHexDigit_plus (hdigits3 _ hmem),
    fun hmem => Hex.not_isHexDigit_plus (hdigits4 _ hmem)⟩

/-- A share that decoding panics on ends its session. -/
theorem runs_dispatch_of_panic (hparse : Incoming.parse fromStr line = some (.request request))
    (hmethod : request.method = method.SUBMIT) (hauth : session.authorized = true)
    (hpanic : Share.fromSubmitParams request.params = .panic) :
    Prog.Runs (session.dispatch fromStr difficulty line) [] none := by
  refine (runs_dispatch_submit_iff hparse hmethod).mpr ⟨none, ?_, rfl⟩
  rw [onSubmit, hauth, hpanic]
  exact .panic

/-- A share with an extranonce too long to push ends its session. -/
theorem runs_dispatch_of_long (hparse : Incoming.parse fromStr line = some (.request request))
    (hmethod : request.method = method.SUBMIT) (hauth : session.authorized = true)
    (hshare : Share.fromSubmitParams request.params = .ok share)
    (hlong : 516 < share.extranonce2.length) :
    Prog.Runs (session.dispatch fromStr difficulty line)
      [⟨.jobById share.jobId, some active⟩] none := by
  refine (runs_dispatch_submit_iff hparse hmethod).mpr ⟨none,
    (runs_onSubmit_iff_of_ok hauth hshare).mpr ⟨some active, [], rfl, ?_⟩, rfl⟩
  refine Prog.runs_bind_iff.mpr (Or.inr ⟨rfl, runs_check_none_iff.mpr ⟨rfl, ?_⟩⟩)
  have h1 : session.extranonce1.toList.length = 4 := session.extranonce1.toList_length
  rw [List.length_append]
  omega

/-- **The lines a session survives.** In every reachable state of the pool, a line is
survived, and refused if it is a malformed share, precisely if it is handled. -/
theorem survives_iff (hpool : pool.Reachable) :
    Survives fromStr difficulty pool session line ↔ Handled fromStr pool session line := by
  constructor
  · intro h request array worker jobId extranonce2 hparse hmethod hauth harray hlen hworker
      hjobId hs
    constructor
    · intro hsplits
      obtain ⟨_, hreturns⟩ := h.returns [] none (runs_dispatch_of_panic hparse hmethod hauth
        (Share.fromSubmitParams_eq_panic_iff.mpr
          ⟨array, worker, jobId, extranonce2, harray, hlen, hworker, hjobId, hs, hsplits⟩))
        Consistent.nil
      exact absurd hreturns (by simp)
    · intro pairs time nonce active hpairs hreadable htime ht hnonce hn hjob
      subst hpairs
      obtain ⟨share, hshare, rfl, hwidth⟩ := Share.exists_fromSubmitParams_iff.mpr
        ⟨array, worker, pairs, time, nonce, harray, hlen, hworker, hjobId, hs, hreadable, rfl,
          htime, ht, hnonce, hn⟩
      constructor
      · by_contra hlong
        obtain ⟨_, hreturns⟩ := h.returns _ none
          (runs_dispatch_of_long hparse hmethod hauth hshare (by omega))
          (Consistent.cons_jobById hjob fun event hevent => absurd hevent List.not_mem_nil)
        exact absurd hreturns (by simp)
      · intro hsize
        by_contra hplus
        -- The share is malformed, and the node may still take its block.
        have hnot : ¬ WellFormed request.params := fun hwell =>
          hplus (hwell.not_mem_plus harray hs htime hnonce)
        obtain ⟨trace, result, hrun, hconsistent, hnone⟩ := exists_runs_accepted
          difficulty hpool hparse hmethod hauth hshare hjob (hwidth.trans hsize)
        obtain ⟨error, herror⟩ := h.refuses request hparse hmethod hnot trace result hrun
          hconsistent
        exact hnone error herror
  · intro h
    refine ⟨fun trace result hrun hconsistent => ?_,
      fun request hparse hmethod hnot trace result hrun hconsistent => ?_⟩
    · by_cases hsubmit : ∃ request, Incoming.parse fromStr line = some (.request request) ∧
          request.method = method.SUBMIT
      · obtain ⟨request, hparse, hmethod⟩ := hsubmit
        obtain ⟨r, hhandler, rfl⟩ := (runs_dispatch_submit_iff hparse hmethod).mp hrun
        obtain ⟨rfl, -⟩ := h.onSubmit hpool hparse hmethod hhandler hconsistent
        exact ⟨session, rfl⟩
      · exact returns_of_not_submit (fun request hparse hmethod =>
          hsubmit ⟨request, hparse, hmethod⟩) hrun
    · obtain ⟨r, hhandler, rfl⟩ := (runs_dispatch_submit_iff hparse hmethod).mp hrun
      exact (h.onSubmit hpool hparse hmethod hhandler hconsistent).2 hnot

/-! ### A line that ends its session -/

/-- A share whose third parameter has a character of two bytes in the wrong place. -/
def cutRequest : Request where
  id := some 1
  method := method.SUBMIT
  params := .array [.string ['w'], .string ['1'], .string ['a', 'é', 'b'], .string ['0'],
    .string ['0']]

/-- The share as a line. -/
def cutLine : Str :=
  ("\x7b\"id\":1,\"method\":\"mining.submit\"," ++
    "\"params\":[\"w\",\"1\",\"aéb\",\"0\",\"0\"]\x7d").toList

/-- The reading of that line. -/
def readCutLine (s : Str) : Option Value :=
  if s = cutLine then
    some (.object [("id".toList, .number (.posInt 1)), ("method".toList, .string method.SUBMIT),
      ("params".toList, cutRequest.params)])
  else none

/-- An authorized miner. -/
def cutSession : Session := { new 1 0 with authorized := true }

theorem parse_cutLine : Incoming.parse readCutLine cutLine = some (.request cutRequest) := by
  rfl

/-- In the first state of the pool, the line is read as a share and ends its session. -/
theorem not_survives_cutLine :
    PoolState.Reachable .new ∧
      ¬ Survives readCutLine (fun _ => .null) .new cutSession cutLine := by
  refine ⟨.new, ?_⟩
  intro h
  have hpanic : Share.fromSubmitParams cutRequest.params = .panic := by rfl
  obtain ⟨_, hreturns⟩ := h.returns [] none
    (runs_dispatch_of_panic parse_cutLine rfl rfl hpanic) Consistent.nil
  exact absurd hreturns (by simp)

/-- The line is survived precisely if it is handled, in the first state of the pool. -/
theorem survives_iff_cutLine : PoolState.Reachable .new ∧
    (Survives readCutLine (fun _ => .null) .new cutSession cutLine ↔
      Handled readCutLine .new cutSession cutLine) :=
  ⟨.new, survives_iff .new⟩

end Session

end SoloMiner
