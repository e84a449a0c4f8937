import SoloMiner.Pool.Welcome
import SoloMiner.System.Exchange

/-!
# When all is quiet, every miner mines the current job

Jobs reach a miner over several threads and two queues, and at any moment a miner may still
be working on an old one. But once the poller is between two jobs, and on a connection
nothing is under way, neither a request nor a line of the pool, the miner has been through
its handshake and mines the current job
(`SoloMiner.System.miners_follow`). That is so along every run that is in order, which is
what `SoloMiner.Server.always_lastJobIsCurrent` asks for as well.

What is kept for it relates what a miner does to the lines that it has read
(`SoloMiner.Link.Follows`): before its handshake is over it has read no answer that would have
taken it further, and afterwards its work is the last job behind the yes.
-/

namespace SoloMiner

open Json

/-- The miner works on this job. -/
def Miner.WorksOn (miner : Miner) (job : Job) : Prop :=
  ∃ work, miner.state.current = some work ∧ work.job = job

namespace Miner

variable {worker : Str} {extranonce1 : Bytes} {extranonce2Size : ℕ} {s s' : Miner}

/-- A job that can be decoded is worked on from then on. -/
theorem worksOn_install {job : Job} {target : Target} (htarget : Target.fromCompact job.bits =
    .ok target) (h : step worker extranonce1 extranonce2Size s (.install job) = some s') :
    s'.WorksOn job := by
  rw [step] at h
  split_ifs at h
  rw [htarget] at h
  obtain rfl := Option.some.inj h
  exact ⟨_, rfl, rfl⟩

/-- Nothing else changes the work. -/
theorem current_step {action : MinerAction} (hinstall : ∀ job, action ≠ .install job)
    (h : step worker extranonce1 extranonce2Size s action = some s') :
    s'.state.current = s.state.current := by
  cases action with
  | install job => exact absurd rfl (hinstall job)
  | bump =>
    obtain ⟨-, rfl⟩ := step_bump h
    rfl
  | run i =>
    obtain rfl := Option.some.inj h
    exact current_mine worker s i

end Miner

/-! ### What a miner has read -/

namespace Link

/-- The lines of the pool that have arrived at a miner, the latest first. -/
def read (link : Link) (t : Thread) : List Incoming := Log.oldest link.received t.sent

/-- **The miner follows** what it has read. -/
def Follows (link : Link) (t : Thread) : Prop :=
  match link.client.phase with
  | .subscribing => ∀ line ∈ link.read t, answerTo 1 line = none
  | .authorizing _ _ => ∀ line ∈ link.read t, ¬ IsYes line
  | .mining _ _ => ∃ newer yes older, link.read t = newer ++ yes :: older ∧ IsYes yes ∧
    (∀ line ∈ older, ¬ IsYes line) ∧ ∀ active,
      newer.find? isNotify = some (Server.notifyLine active) →
        link.client.miner.WorksOn active.job
  | .ended => True

/-- **Nothing is under way** on the connection. -/
structure Quiet (link : Link) (t : Thread) : Prop where
  waiting : t.phase = .waiting
  writing : t.writing = true
  delivered : link.delivered = link.client.said.length
  received : link.received = t.sent.length

/-- Once all lines have arrived, the last job behind the first yes is the last job. -/
theorem find?_of_read {sent newer older newer' older' : List Incoming} {yes yes' : Incoming}
    (hread : sent = newer ++ yes :: older) (holder : ∀ line ∈ older, ¬ IsYes line)
    (hsent : sent = newer' ++ yes' :: older') (hyes' : IsYes yes') {line : Incoming}
    (hmem : line ∈ newer') (hnotify : isNotify line = true) :
    newer.find? isNotify = sent.find? isNotify := by
  -- The yes that is known to have a job behind it is no earlier than the first one.
  obtain ⟨between, hbetween⟩ : newer' <+: newer := by
    rcases List.append_eq_append_iff.mp (hread.symm.trans hsent) with
      ⟨between, hnewer', hrest⟩ | ⟨between, hnewer, -⟩
    · cases between with
      | nil => exact ⟨[], by rw [hnewer', List.append_nil, List.append_nil]⟩
      | cons first between =>
        obtain ⟨-, rfl⟩ := List.cons.inj hrest
        exact absurd hyes' (holder _ (List.mem_append_right _ List.mem_cons_self))
    · exact ⟨between, hnewer.symm⟩
  obtain ⟨found, hfound⟩ : ∃ found, newer'.find? isNotify = some found :=
    Option.isSome_iff_exists.mp (List.find?_isSome.mpr ⟨line, hmem, hnotify⟩)
  rw [hsent, ← hbetween, List.find?_append, List.find?_append, hfound]
  rfl

end Link

/-! ### What arrives -/

namespace System

variable {difficulty : UInt32 → Value} {worker : Str} {stopped : Prop}
  {installed : List ActiveJob} {link : Link} {t : Thread}

/-- The only yes to a miner that has made two requests is the second answer. -/
theorem yes_of_ownLine {n : ℕ} (hn : n ≤ 2) {line : Incoming}
    (hline : OwnLine difficulty t.session.subscribeResult n line) (hyes : IsYes line) :
    2 ≤ n ∧ answerTo 2 line = some (.ok (.bool true)) := by
  obtain ⟨id, hid⟩ := hyes
  cases hline with
  | subscribed =>
    have hresult : t.session.subscribeResult = .bool true := by
      simpa [Response.ok] using congrArg Response.result (Incoming.response.inj hid)
    exact absurd hresult (by simp [Session.subscribeResult, Session.subscribeReply])
  | authorized h => exact ⟨h, rfl⟩
  | share h => omega
  | difficulty bits => exact absurd hid (by simp [difficultyLine])
  | job active => exact absurd hid (by simp [Server.notifyLine])

/-- The second answer is a yes. -/
theorem isYes_of_answer {n : ℕ} (hn : n ≤ 2) {line message : Incoming}
    (hline : OwnLine difficulty t.session.subscribeResult n line)
    (hmessage : message = line ∨ isDifficulty line = true ∧ isDifficulty message = true)
    {answer : Checked HandshakeError Value} (hanswer : answerTo 2 message = some answer) :
    IsYes line := by
  obtain rfl | ⟨-, hdifficulty⟩ := hmessage
  · cases hline with
    | subscribed =>
      have hid : (Response.ok (some 1) t.session.subscribeResult).id ≠ some 2 := by
        simp [Response.ok]
      rw [answerTo, if_neg hid] at hanswer
      exact absurd hanswer (by simp)
    | authorized => exact ⟨some 2, rfl⟩
    | share h => exact absurd (h.trans hn) (by decide)
    | difficulty bits => exact absurd hanswer (by simp [difficultyLine, answerTo])
    | job active => exact absurd hanswer (by simp [Server.notifyLine, answerTo])
  · exact absurd ((answerTo_request 2 (Or.inl hdifficulty)).symm.trans hanswer) (by simp)

/-- A message that is taken for no answer stands for a line that is none. -/
theorem answerTo_eq_none {id : UInt64} {line message : Incoming}
    (hmessage : message = line ∨ isDifficulty line = true ∧ isDifficulty message = true)
    (h : answerTo id message = none) : answerTo id line = none := by
  obtain rfl | ⟨hdifficulty, -⟩ := hmessage
  · exact h
  · exact answerTo_request id (Or.inl hdifficulty)

/-- **A line that a mining miner reads** is a job that it works on from then on, or it is no
job and changes nothing. -/
theorem mining_receive (hcoherent : ∀ active ∈ installed, active.Coherent)
    (htells : t.Tells difficulty (· ∈ installed)) {line message : Incoming} {client : Client}
    (hline : line ∈ t.sent)
    (hmessage : message = line ∨ isDifficulty line = true ∧ isDifficulty message = true)
    {extranonce1 : Bytes} {extranonce2Size : ℕ}
    (hphase : link.client.phase = .mining extranonce1 extranonce2Size)
    (hreceive : link.client.receive worker message = some client) :
    client.phase = .mining extranonce1 extranonce2Size ∧
      ((isNotify line = true ∧ ∀ active, line = Server.notifyLine active →
        client.miner.WorksOn active.job) ∨ isNotify line = false ∧ client = link.client) := by
  obtain ⟨-, ⟨request, job, miner, rfl, hmethod, hjob, hstep, rfl⟩ |
    ⟨request, rfl, hmethod, hpanic, -⟩ | ⟨hother, rfl⟩⟩ := Client.receive_mining hphase hreceive
  · obtain ⟨active, hactive, hdecode⟩ := job_of_notify htells hline hmessage hmethod
    obtain rfl := Except.ok.inj (hdecode.symm.trans hjob)
    have hnotify : isNotify (.request request) = true := beq_iff_eq.mpr hmethod
    obtain rfl : Incoming.request request = line := by
      rcases hmessage with heq | ⟨-, hdifficulty⟩
      · exact heq
      · have hother : request.method = method.SET_DIFFICULTY := beq_iff_eq.mp hdifficulty
        exact absurd (hmethod.symm.trans hother) (by decide)
    refine ⟨hphase, Or.inl ⟨hnotify, fun active' hactive' => ?_⟩⟩
    obtain rfl := Incoming.request.inj hactive'
    have hsame : active.job = active'.job :=
      Except.ok.inj (hdecode.symm.trans (Job.fromNotifyParams_toNotifyParams active'.job))
    rw [← hsame]
    exact Miner.worksOn_install (hcoherent active hactive).networkTarget hstep
  · obtain ⟨active, -, hdecode⟩ := job_of_notify htells hline hmessage hmethod
    exact absurd (hdecode.symm.trans hpanic) (by simp [Checked.panic])
  · refine ⟨hphase, Or.inr ⟨Bool.eq_false_iff.mpr fun hnotify => ?_, rfl⟩⟩
    -- A job is decoded, so it is not dropped.
    obtain ⟨active, -, rfl⟩ := htells.sent line hline hnotify
    obtain rfl : message = Server.notifyLine active := by
      rcases hmessage with heq | ⟨hdifficulty, -⟩
      · exact heq
      · exact absurd (beq_iff_eq.mp hdifficulty) (show method.NOTIFY ≠ _ by decide)
    obtain ⟨error, herror⟩ := hother _ rfl rfl
    exact absurd ((Job.fromNotifyParams_toNotifyParams active.job).symm.trans herror)
      (by simp [Checked.err])

/-- **A line arrives**, and the miner follows it. -/
theorem Linked.follows_receive (h : Linked difficulty worker stopped installed link t)
    (hcoherent : ∀ active ∈ installed, active.Coherent)
    (htells : t.Tells difficulty (· ∈ installed)) (hfollows : link.Follows t)
    {line message : Incoming} {client : Client} (hline : t.sent.reverse[link.received]? = some line)
    (hmessage : message = line ∨ isDifficulty line = true ∧ isDifficulty message = true)
    (hreceive : link.client.receive worker message = some client) :
    ({ link with received := link.received + 1, client := client } : Link).Follows t := by
  have hread : ({ link with received := link.received + 1, client := client } : Link).read t =
      line :: link.read t := Log.oldest_succ hline
  have hmem : line ∈ t.sent := List.mem_reverse.mp (List.mem_of_getElem? hline)
  have hown := h.lines line hmem
  have hasked := h.asked
  have hdelivered := h.delivered
  rw [Link.Follows] at hfollows ⊢
  rw [hread]
  cases hphase : link.client.phase with
  | subscribing =>
    rw [hphase] at hfollows
    rw [Client.Asked, hphase] at hasked
    rw [Client.said, hasked.1, hasked.2] at hdelivered
    obtain ⟨hnone, rfl⟩ | ⟨answer, -, ⟨extranonce1, extranonce2Size, -, rfl⟩ | ⟨-, rfl⟩⟩ :=
      Client.receive_subscribing hphase hreceive
    · dsimp only
      rw [hphase]
      rintro line' (_ | ⟨_, hold⟩)
      · exact answerTo_eq_none hmessage hnone
      · exact hfollows line' hold
    · -- Only one request has been made, so nothing has said yes.
      have hno : ∀ line' ∈ t.sent, ¬ IsYes line' := fun line' hline' hyes => by
        have htwo := (yes_of_ownLine (hdelivered.trans (by decide)) (h.lines line' hline') hyes).1
        exact absurd (htwo.trans hdelivered) (by decide)
      rintro line' (_ | ⟨_, hold⟩)
      · exact hno line hmem
      · exact hno line' (Log.mem_of_mem_oldest hold)
    · exact trivial
  | authorizing extranonce1 extranonce2Size =>
    rw [hphase] at hfollows
    rw [Client.Asked, hphase] at hasked
    rw [Client.said, hasked.1, hasked.2] at hdelivered
    obtain ⟨hnone, rfl⟩ | ⟨hyes, rfl⟩ | ⟨answer, -, -, rfl⟩ :=
      Client.receive_authorizing hphase hreceive
    · dsimp only
      rw [hphase]
      rintro line' (_ | ⟨_, hold⟩)
      · intro hyes
        have hanswer := (yes_of_ownLine hdelivered hown hyes).2
        exact absurd (hanswer.symm.trans (answerTo_eq_none hmessage hnone)) (by simp)
      · exact hfollows line' hold
    · exact ⟨[], line, link.read t, rfl, isYes_of_answer hdelivered hown hmessage hyes, hfollows,
        fun active hfound => absurd hfound (by simp)⟩
    · exact trivial
  | mining extranonce1 extranonce2Size =>
    rw [hphase] at hfollows
    obtain ⟨newer, yes, older, hsplit, hyes, holder, hworks⟩ := hfollows
    obtain ⟨hphase', hcases⟩ :=
      mining_receive hcoherent htells hmem hmessage hphase hreceive
    dsimp only
    rw [hphase', hsplit]
    refine ⟨line :: newer, yes, older, rfl, hyes, holder, fun active hfound => ?_⟩
    rcases hcases with ⟨hnotify, hinstall⟩ | ⟨hnotify, rfl⟩
    · rw [List.find?_cons_of_pos hnotify] at hfound
      exact hinstall active (Option.some.inj hfound)
    · rw [List.find?_cons_of_neg (by simp [hnotify])] at hfound
      exact hworks active hfound
  | ended =>
    rw [Client.receive, hphase] at hreceive
    exact absurd hreceive (by simp)

/-! ### All miners -/

variable {fromStr : Str → Option Value} {print : Value → Str} {workers : ℕ → Str}
  {stopping : ℕ → Prop} {s s' : System} {event : SystemEvent}

/-- **All miners follow** what they have read. -/
def Following (s : System) : Prop :=
  ∀ i link t, s.links i = some link → s.server.threads[i]? = some t →
    link.received ≤ t.sent.length ∧ link.Follows t

/-- A miner that has read no more and works on the same job. -/
theorem follows_of_eq (h : link.Follows t) {link' : Link} {u : Thread}
    (hread : link'.read u = link.read t) (hphase : link'.client.phase = link.client.phase)
    (hcurrent : link'.client.miner.state.current = link.client.miner.state.current) :
    link'.Follows u := by
  rw [Link.Follows] at h ⊢
  rw [hread, hphase]
  simp only [Miner.WorksOn, hcurrent]
  exact h

/-- Lines that were put on a channel stay there. -/
theorem suffix_of_becomes {pool : PoolState} {event : Event} {u : Thread}
    (h : t.Becomes difficulty pool event u) : t.sent <:+ u.sent := by
  cases h with
  | same => exact List.suffix_rfl
  | begins _ hbegins => cases hbegins <;> exact List.suffix_rfl
  | advance hadvance => cases hadvance <;> first | exact t.suffix_put _ | exact List.suffix_rfl
  | hangUp => exact List.suffix_rfl
  | unregister => exact List.suffix_rfl
  | writerEnds => exact List.suffix_rfl
  | announce => exact t.suffix_put _

theorem sent_resume (t : Thread) (request : Option Request) (code : PoolProg (Session × Bool)) :
    (t.resume request code).sent = t.sent := by
  rcases code with ⟨session, _ | _⟩ | _ | _ <;> rfl

/-- **One event keeps all miners following.** -/
theorem Served.following_of_step (hs : s.Served difficulty workers stopping)
    (hfair : s.Fair fromStr print stopping event)
    (h : step fromStr print difficulty workers s event = some s') (hfollowing : s.Following) :
    s'.Following := by
  intro i link' u hlink' hu
  rcases hs.moves hfair h hlink' hu with ⟨rfl, _, rfl⟩ | ⟨link, t, hlink, ht, hmoves⟩
  · exact ⟨Nat.zero_le _, fun line hline => absurd hline List.not_mem_nil⟩
  obtain ⟨hreceived, hfollows⟩ := hfollowing i link t hlink ht
  have hlinked := hs.linked i link t hlink ht
  cases hmoves with
  | idle => exact ⟨hreceived, hfollows⟩
  | pool _ hline hserver =>
    rcases hs.told.wired.thread_cases hserver hu with ⟨t', ht', hbecomes⟩ | ⟨-, rfl, -⟩
    · obtain rfl := Option.some.inj (ht.symm.trans ht')
      have hsuffix := suffix_of_becomes hbecomes
      exact ⟨hreceived.trans hsuffix.length_le,
        follows_of_eq hfollows (Log.oldest_of_suffix hsuffix hreceived) rfl rfl⟩
    · exact absurd (List.getElem?_eq_some_iff.mp ht).1 (lt_irrefl _)
  | deliver =>
    refine ⟨by rwa [sent_resume], follows_of_eq hfollows ?_ rfl rfl⟩
    rw [Link.read, sent_resume]
    rfl
  | receive _ hline hmessage hreceive =>
    exact ⟨Log.lt_length_of_getElem? hline,
      hlinked.follows_receive hs.coherent (hs.told.threads i _ ht) hfollows hline hmessage
        hreceive⟩
  | act _ hact =>
    obtain ⟨_, _, miner, hphase, hinstall, hstep, rfl⟩ := Client.act_eq_some hact
    exact ⟨hreceived, follows_of_eq hfollows rfl rfl (Miner.current_step hinstall hstep)⟩
  | stop => exact ⟨hreceived, trivial⟩

/-! ### When all is quiet -/

/-- Who has subscribed and then been authorized has joined, whatever came later. -/
theorem joined_append (newer : List Request) {authorize subscribe : Request}
    (hauthorize : authorize.method = method.AUTHORIZE)
    (hsubscribe : subscribe.method = method.SUBSCRIBE) :
    Joined (newer ++ [authorize, subscribe]) := by
  induction newer with
  | nil => exact Or.inr ⟨hauthorize, subscribe, List.mem_cons_self, hsubscribe⟩
  | cons r newer ih => exact Or.inl ih

/-- The work that a miner has for a job on the connection of a session. -/
def workFor (active : ActiveJob) (t : Thread) : Work :=
  ⟨active.job, t.session.extranonce1.toList, EXTRANONCE2_SIZE, active.networkTarget⟩

/-- **What a run in order keeps.** -/
structure Orderly (difficulty : UInt32 → Value) (workers : ℕ → Str) (stopping : ℕ → Prop)
    (s : System) : Prop where
  served : s.Served difficulty workers stopping
  exchanged : s.Exchanged
  replied : s.server.Replied
  following : s.Following
  kept : s.server.Kept difficulty
  current : s.server.LastJobIsCurrent
  welcoming : s.server.Welcoming difficulty

theorem orderly_init : Orderly difficulty workers stopping init where
  served := served_init
  exchanged _ _ _ hlink := absurd hlink (by simp [init])
  replied := Server.replied_init
  following _ _ _ hlink := absurd hlink (by simp [init])
  kept := Server.kept_init
  current := Server.lastJobIsCurrent_init
  welcoming := Server.welcoming_init

/-- The event is in order for the pool. -/
def InOrder (print : Value → Str) (s : System) (event : SystemEvent) : Prop :=
  ∀ event', s.poolEvent print event = some event' → s.server.InOrder event'

theorem Orderly.of_step (hs : s.Orderly difficulty workers stopping)
    (hfair : s.Fair fromStr print stopping event) (horder : s.InOrder print event)
    (h : step fromStr print difficulty workers s event = some s') :
    s'.Orderly difficulty workers stopping := by
  have hpool : s'.server.Kept difficulty ∧ s'.server.LastJobIsCurrent ∧
      s'.server.Welcoming difficulty := by
    have hserver := server_of_step h
    split at hserver
    · rw [hserver]
      exact ⟨hs.kept, hs.current, hs.welcoming⟩
    · next event' hevent =>
      have horder := horder event' hevent
      exact ⟨hs.kept.of_step hserver horder, hs.current.of_step hs.kept hserver horder,
        hs.welcoming.of_step hs.kept hserver⟩
  exact ⟨hs.served.of_step hfair h, hs.served.exchanged_of_step hfair h hs.exchanged,
    replied_of_step h hs.replied, hs.served.following_of_step hfair h hs.following, hpool.1,
    hpool.2.1, hpool.2.2⟩

/-- **A miner on a quiet connection is mining**, the current job if there is one. -/
theorem Orderly.mines (hs : s.Orderly difficulty workers stopping) (hsettled : s.server.Settled)
    {i : ℕ} {link : Link} {t : Thread} (hlink : s.links i = some link)
    (ht : s.server.threads[i]? = some t) (hquiet : link.Quiet t) (hrunning : ¬ stopping i) :
    (∃ extranonce1 extranonce2Size, link.client.phase = .mining extranonce1 extranonce2Size) ∧
      ∀ active, s.server.pool.currentJob = some active →
        link.client.miner.state.current = some (workFor active t) := by
  have hlinked := hs.served.linked i link t hlink ht
  have hasked := hlinked.asked
  obtain ⟨-, hfollows⟩ := hs.following i link t hlink ht
  have hread : link.read t = t.sent := by rw [Link.read, hquiet.received, Log.oldest_length]
  -- Everything the miner has said was handled and has its reply.
  have hhandled : t.handled = link.client.said := by
    have htaken := (hs.exchanged i link t hlink ht).1
    rw [Thread.taken, hquiet.waiting, Link.arrived, hquiet.delivered, Log.oldest_length] at htaken
    exact htaken
  have hreplies : replyIds t.sent = link.client.said.map Request.id := by
    have hreplied := hs.replied i t ht hquiet.writing
    rw [Thread.Replied, hquiet.waiting, hhandled] at hreplied
    exact hreplied
  rw [Link.Follows, hread] at hfollows
  rw [Client.Asked] at hasked
  cases hphase : link.client.phase with
  | subscribing =>
    rw [hphase] at hfollows hasked
    obtain ⟨response, hmem, hid⟩ : ∃ response, .response response ∈ t.sent ∧
        response.id = some 1 := by
      rw [← mem_replyIds, hreplies, Client.said, hasked.1, hasked.2]
      exact List.mem_cons_self
    have hnone := hfollows _ hmem
    rw [answerTo, if_pos hid] at hnone
    exact absurd hnone (by simp)
  | authorizing extranonce1 extranonce2Size =>
    rw [hphase] at hfollows hasked
    obtain ⟨response, hmem, hid⟩ : ∃ response, .response response ∈ t.sent ∧
        response.id = some 2 := by
      rw [← mem_replyIds, hreplies, Client.said, hasked.1, hasked.2]
      exact List.mem_cons_self
    have htwo : link.delivered = 2 := by
      rw [hquiet.delivered, Client.said, hasked.1, hasked.2]
      rfl
    have hanswer : answerTo 2 (.response response) ≠ none := by
      rw [answerTo, if_pos hid]
      simp
    obtain ⟨answer, hanswer⟩ := Option.ne_none_iff_exists'.mp hanswer
    exact absurd (isYes_of_answer htwo.le (hlinked.lines _ hmem) (Or.inl rfl) hanswer)
      (hfollows _ hmem)
  | mining extranonce1 extranonce2Size =>
    rw [hphase] at hfollows hasked
    refine ⟨⟨extranonce1, extranonce2Size, rfl⟩, fun active hactive => ?_⟩
    obtain ⟨newer, yes, older, hsplit, hyes, holder, hworks⟩ := hfollows
    have hjoined : Joined t.handled := by
      rw [hhandled, Client.said, hasked]
      exact joined_append _ rfl rfl
    have halive := Thread.alive_of_waiting hquiet.waiting
    have hmid : ¬ t.MidSend := Thread.not_midSend_of_phase (by simp [hquiet.waiting])
    have hlast := hs.current hsettled i t ht halive hquiet.writing hjoined hmid active hactive
    obtain ⟨newer', yes', older', hsplit', hyes', line, hline, hnotify⟩ :=
      hs.welcoming.begun hsettled i t ht halive hquiet.writing hjoined hmid (by rw [hactive]; rfl)
    have hfind := Link.find?_of_read hsplit holder hsplit' hyes' hline hnotify
    obtain ⟨work, hcurrent, hjob⟩ := hworks active (hfind.trans hlast)
    have hwork := hlinked.sound.current work hcurrent
    have htarget := (hs.served.coherent active (hs.served.told.currentJob hactive)).networkTarget
    have hsame : work.target = active.networkTarget := by
      have hdecoded := hwork.target
      rw [hjob] at hdecoded
      exact Except.ok.inj (hdecoded.symm.trans htarget)
    rw [hcurrent, workFor, ← hjob, ← hsame, ← hwork.extranonce1, ← hwork.extranonce2Size]
  | ended => exact absurd (hlinked.ended hphase) hrunning

/-- **When all is quiet, every miner mines the current job.** In every state of every run in
order of the pool with its miners in which the poller is between two jobs: a miner that
was not stopped, and on whose connection nothing is under way, has been through its handshake,
and if there is a job it is the miner's current work, with the session's half of the extranonce
and the job's own target. -/
theorem miners_follow (fromStr : Str → Option Value) (print : Value → Str)
    (difficulty : UInt32 → Value) (workers : ℕ → Str) {events : List SystemEvent}
    (h : StepSystem.EachStep (step fromStr print difficulty workers)
      (fun s event => s.Fair fromStr print (fun i => SystemEvent.stop i ∈ events) event ∧
        s.InOrder print event) init events) :
    StepSystem.Always (step fromStr print difficulty workers)
      (fun s => s.server.Settled → ∀ i (link : Link) (t : Thread), s.links i = some link →
        s.server.threads[i]? = some t → link.Quiet t → SystemEvent.stop i ∉ events →
          (∃ extranonce1 extranonce2Size,
            link.client.phase = .mining extranonce1 extranonce2Size) ∧
          ∀ active, s.server.pool.currentJob = some active →
            link.client.miner.state.current = some (workFor active t)) init events := by
  have hrun := StepSystem.always_of_eachStep
    (I := fun s => s.Orderly difficulty workers fun i => SystemEvent.stop i ∈ events)
    (fun _ _ _ hs hevent hstep => hs.of_step hevent.1 hevent.2 hstep) orderly_init h
  refine hrun.mono fun s hs hsettled i link t hlink ht hquiet hrunning => ?_
  exact hs.mines hsettled hlink ht hquiet hrunning

/-- Connections and lines are always in order. -/
theorem inOrder_of_pool (h : ∀ event', event = .pool event' → s.server.InOrder event') :
    s.InOrder print event := by
  intro event' hevent'
  cases event with
  | pool event => exact h event' (congrArg SystemEvent.pool (Option.some.inj hevent'))
  | join =>
    obtain rfl := Option.some.inj hevent'
    exact trivial
  | deliver i =>
    rw [poolEvent] at hevent'
    split at hevent'
    · exact absurd hevent' (by simp)
    · obtain ⟨_, -, rfl⟩ := Option.map_eq_some_iff.mp hevent'
      exact trivial
  | receive i => exact absurd hevent' (by simp [poolEvent])
  | act i action => exact absurd hevent' (by simp [poolEvent])
  | stop i => exact absurd hevent' (by simp [poolEvent])

/-- No session sends a job in the run of a first share, so it is in order. -/
theorem inOrder_sampleRun :
    StepSystem.EachStep sampleStep (InOrder textOf) init sampleRun := by
  refine eachStep_sampleRun.mono fun s event hevent => ?_
  obtain ⟨⟨-, hquiet⟩, hevent⟩ := hevent
  refine inOrder_of_pool fun event' heq => ?_
  subst heq
  have hkinds : event' = .perform 0 ⟨0, .ok none⟩ ∨ event' = .startJob ∨
      event' = .install sampleJob ∨ event' = .announce ∨ event' = .perform 0 ⟨0, .ok none⟩ := by
    simpa [sampleRun] using hevent
  obtain rfl | rfl | rfl | rfl | rfl := hkinds
  · exact Server.inOrder_of_requesting _ hquiet
  · exact trivial
  · exact trivial
  · exact trivial
  · exact Server.inOrder_of_requesting _ hquiet

/-- The run in which a miner takes its first job and solves it: in the end all is quiet. -/
theorem miners_follow_sample : StepSystem.Always sampleStep
    (fun s => s.server.Settled → ∀ i (link : Link) (t : Thread), s.links i = some link →
      s.server.threads[i]? = some t → link.Quiet t → SystemEvent.stop i ∉ sampleRun →
        (∃ extranonce1 extranonce2Size,
          link.client.phase = .mining extranonce1 extranonce2Size) ∧
        ∀ active, s.server.pool.currentJob = some active →
          link.client.miner.state.current = some (workFor active t)) init sampleRun :=
  miners_follow _ _ _ _ ((fair_sampleRun _).and inOrder_sampleRun)

end System

end SoloMiner
