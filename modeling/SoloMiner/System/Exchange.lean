import SoloMiner.Lib.Log
import SoloMiner.Pool.Replied
import SoloMiner.System.Shares

/-!
# Every request is answered once

A miner gives its shares ids, sends them, not always in the order of their ids, and goes on,
and what it is told about them comes back some time later, with jobs in between. It can tell
which answer is to which share, and that none is missing: what the session of a miner has
taken are the requests that have arrived, in their order (`SoloMiner.System.Exchanged`), it has
replied to each of them once, and no two have the same id. The one exception is the request in
hand (`SoloMiner.System.requests_answered`).
-/

namespace SoloMiner

open Json

/-! ### What a session has taken -/

/-- The requests that a session has taken so far, the latest first. -/
def Thread.taken (t : Thread) : List Request :=
  match t.phase with
  | .handling request _ => request.toList ++ t.handled
  | _ => t.handled

namespace Thread

theorem taken_resume {t : Thread} {request : Option Request} {code : PoolProg (Session × Bool)}
    (h : (t.resume request code).phase ≠ .crashed) :
    (t.resume request code).taken = request.toList ++ t.handled := by
  rcases code with ⟨session, _ | _⟩ | _ | ⟨effect, next⟩
  · rfl
  · rfl
  · exact absurd rfl h
  · rfl

/-- The replies on the channel are those to what was taken, up to the one in hand. -/
theorem Replied.pending {t : Thread} (h : t.Replied) (halive : t.phase ≠ .crashed) :
    ∃ pending, pending.length ≤ 1 ∧ (t.phase = .waiting → pending = []) ∧
      (replyIds t.sent).reverse ++ pending = t.taken.reverse.map Request.id := by
  have hall : replyIds t.sent = t.handled.map Request.id → t.taken = t.handled →
      ∃ pending : List (Option UInt64), pending.length ≤ 1 ∧ (t.phase = .waiting → pending = []) ∧
        (replyIds t.sent).reverse ++ pending = t.taken.reverse.map Request.id := by
    intro hsent htaken
    refine ⟨[], Nat.zero_le _, fun _ => rfl, ?_⟩
    rw [List.append_nil, hsent, htaken, List.map_reverse]
  rw [Replied] at h
  cases hphase : t.phase with
  | waiting =>
    rw [hphase] at h hall
    exact hall h (by rw [taken, hphase])
  | closing =>
    rw [hphase] at h hall
    exact hall h (by rw [taken, hphase])
  | returned =>
    rw [hphase] at h hall
    exact hall h (by rw [taken, hphase])
  | crashed => exact absurd hphase halive
  | handling request code =>
    rw [hphase] at h
    obtain ⟨come, left, -, hids, hsent⟩ := h
    refine ⟨left, ?_, by simp, ?_⟩
    · have hlength := congrArg List.length hids
      have hone : request.toList.length ≤ 1 := by cases request <;> simp
      rw [List.length_append, List.length_map] at hlength
      omega
    · have hreverse : request.toList.reverse = request.toList := by cases request <;> rfl
      rw [taken, hphase, hsent, List.reverse_append, List.reverse_reverse, List.append_assoc, hids,
        List.reverse_append, List.map_append, hreverse, List.map_reverse]

end Thread

namespace Server

variable {fromStr : Str → Option Value} {difficulty : UInt32 → Value} {s s' : Server}
  {event : Event} {i : ℕ} {t u : Thread}

/-- **Only a line is taken.** -/
theorem taken_of_step (h : step fromStr difficulty s event = some s')
    (hline : ∀ text, event ≠ .line i text) (ht : s.threads[i]? = some t)
    (hu : s'.threads[i]? = some u) (hrunning : u.phase ≠ .crashed) : u.taken = t.taken := by
  have hsame : s.threads[i]? = some u → u.taken = t.taken := fun hu => by
    obtain rfl := Option.some.inj (ht.symm.trans hu)
    rfl
  cases event with
  | connect =>
    obtain rfl := step_connect h
    rcases getElem?_concat_cases hu with hu | ⟨rfl, -⟩
    · exact hsame hu
    · exact absurd (List.getElem?_eq_some_iff.mp ht).1 (lt_irrefl _)
  | refuse =>
    obtain rfl := step_refuse h
    exact hsame hu
  | line j text =>
    obtain ⟨_, -, -, ⟨-, rfl⟩ | ⟨-, rfl⟩⟩ := step_line h
    · exact hsame hu
    · rcases getElem?_set_cases hu with ⟨rfl, -⟩ | ⟨-, hu⟩
      · exact absurd rfl (hline text)
      · exact hsame hu
  | perform j world =>
    obtain ⟨_, request, effect, next, ht', hphase, rfl⟩ := step_perform h
    rcases getElem?_set_cases hu with ⟨rfl, rfl⟩ | ⟨-, hu⟩
    · obtain rfl := Option.some.inj (ht.symm.trans ht')
      rw [Thread.taken_resume hrunning, Thread.taken, hphase]
      rfl
    · exact hsame hu
  | hangUp j =>
    obtain ⟨_, ht', hphase, rfl⟩ := step_hangUp h
    rcases getElem?_set_cases hu with ⟨rfl, rfl⟩ | ⟨-, hu⟩
    · obtain rfl := Option.some.inj (ht.symm.trans ht')
      rw [Thread.taken, Thread.taken, hphase]
    · exact hsame hu
  | unregister j =>
    obtain ⟨_, ht', hphase, rfl⟩ := step_unregister h
    rcases getElem?_set_cases hu with ⟨rfl, rfl⟩ | ⟨-, hu⟩
    · obtain rfl := Option.some.inj (ht.symm.trans ht')
      rw [Thread.taken, Thread.taken, hphase]
    · exact hsame hu
  | writerEnds j =>
    obtain ⟨_, ht', rfl⟩ := step_writerEnds h
    rcases getElem?_set_cases hu with ⟨rfl, rfl⟩ | ⟨-, hu⟩
    · obtain rfl := Option.some.inj (ht.symm.trans ht')
      rfl
    · exact hsame hu
  | startJob =>
    obtain ⟨-, rfl⟩ := step_startJob h
    exact hsame hu
  | abandon =>
    obtain ⟨_, -, rfl⟩ := step_abandon h
    exact hsame hu
  | install active =>
    obtain ⟨-, rfl⟩ := step_install h
    exact hsame hu
  | announce =>
    obtain ⟨active, -, rfl⟩ := step_announce h
    rw [List.getElem?_mapIdx, ht] at hu
    obtain rfl := Option.some.inj hu
    rfl

end Server

/-! ### What a miner has said -/

namespace Client

variable {worker : Str} {self self' : Client}

/-- What the miner's threads do adds requests, and keeps their ids those of the counter. -/
theorem said_miner {extranonce1 : Bytes} {extranonce2Size : ℕ} {action : MinerAction}
    {miner : Miner} (hstep : Miner.step worker extranonce1 extranonce2Size self.miner action =
      some miner) :
    self.said <:+ ({ self with miner := miner } : Client).said ∧
      (self.miner.Numbered → miner.Numbered) := by
  obtain ⟨newer, hnewer⟩ := Miner.outbound_step hstep
  refine ⟨⟨newer.map submitRequest, ?_⟩, fun h => h.step hstep⟩
  rw [said, said, ← List.append_assoc, ← List.map_append, hnewer]

/-- So does a message that arrives. -/
theorem said_receive (h : self.Asked worker) {message : Incoming}
    (hreceive : self.receive worker message = some self') :
    self.said <:+ self'.said ∧ (self.miner.Numbered → self'.miner.Numbered) := by
  cases hphase : self.phase with
  | subscribing =>
    rw [Asked, hphase] at h
    obtain ⟨-, rfl⟩ | ⟨answer, -, ⟨extranonce1, extranonce2Size, -, rfl⟩ | ⟨-, rfl⟩⟩ :=
      receive_subscribing hphase hreceive
    · exact ⟨List.suffix_rfl, id⟩
    · rw [said, said, h.2]
      exact ⟨List.suffix_cons _ _, id⟩
    · exact ⟨List.suffix_rfl, id⟩
  | authorizing extranonce1 extranonce2Size =>
    obtain ⟨-, rfl⟩ | ⟨-, rfl⟩ | ⟨_, -, -, rfl⟩ := receive_authorizing hphase hreceive <;>
      exact ⟨List.suffix_rfl, id⟩
  | mining extranonce1 extranonce2Size =>
    obtain ⟨-, ⟨_, _, miner, -, -, -, hstep, rfl⟩ | ⟨_, -, -, -, rfl⟩ | ⟨-, rfl⟩⟩ :=
      receive_mining hphase hreceive
    · exact said_miner hstep
    · exact ⟨List.suffix_rfl, id⟩
    · exact ⟨List.suffix_rfl, id⟩
  | ended =>
    rw [receive, hphase] at hreceive
    exact absurd hreceive (by simp)

/-- And what the process does besides. -/
theorem said_act {action : MinerAction} (hact : self.act worker action = some self') :
    self.said <:+ self'.said ∧ (self.miner.Numbered → self'.miner.Numbered) := by
  obtain ⟨_, _, miner, -, -, hstep, rfl⟩ := act_eq_some hact
  exact said_miner hstep

/-- **No two requests have the same id**, until the counter of the shares wraps. -/
theorem Asked.nodup_ids (h : self.Asked worker) (hnumbered : self.miner.Numbered)
    (hbound : 100 + self.miner.submitted ≤ 2 ^ 64) : (self.said.map Request.id).Nodup := by
  rw [← List.nodup_reverse, ← List.map_reverse]
  rcases h.cases with hsaid | hsaid
  · rw [hsaid]
    exact List.nodup_singleton _
  have hids : ((self.miner.outbound.map submitRequest).reverse).map Request.id =
      ((self.miner.outbound.map Prod.fst).map some).reverse := by
    rw [List.map_reverse, List.map_map, List.map_map]
    rfl
  -- The handshake has the ids 1 and 2, and the shares have theirs from 100 on.
  have hshare : ∀ id : UInt64, id.toNat < 100 →
      some id ∉ ((self.miner.outbound.map Prod.fst).map some).reverse := by
    intro id hid hmem
    rw [List.mem_reverse, List.map_map] at hmem
    obtain ⟨entry, hentry, heq⟩ := List.mem_map.mp hmem
    obtain ⟨k, hk, hnumber⟩ := hnumbered.sent entry hentry
    obtain rfl : entry.1 = id := Option.some.inj heq
    rw [hnumber, Miner.toNat_shareId (by omega)] at hid
    omega
  rw [hsaid, List.map_cons, List.map_cons, hids]
  refine List.nodup_cons.mpr ⟨?_, List.nodup_cons.mpr ⟨hshare 2 (by decide), ?_⟩⟩
  · rw [List.mem_cons, not_or]
    have hne : (some 1 : Option UInt64) ≠ some 2 := by decide
    exact ⟨hne, hshare 1 (by decide)⟩
  · exact List.nodup_reverse.mpr
      ((hnumbered.nodup hbound).map (Option.some_injective UInt64))

end Client

/-! ### Requests and replies -/

/-- The requests of a miner that have arrived, the latest first. -/
def Link.arrived (link : Link) : List Request := Log.oldest link.delivered link.client.said

namespace System

variable {fromStr : Str → Option Value} {print : Value → Str} {difficulty : UInt32 → Value}
  {workers : ℕ → Str} {stopped : ℕ → Prop} {s s' : System} {event : SystemEvent}

/-- **What the sessions have taken is what has arrived**, and the requests are numbered. -/
def Exchanged (s : System) : Prop :=
  ∀ i link t, s.links i = some link → s.server.threads[i]? = some t →
    t.taken = link.arrived ∧ link.client.miner.Numbered

theorem Served.exchanged_of_step (hs : s.Served difficulty workers stopped)
    (hfair : s.Fair fromStr print stopped event)
    (h : step fromStr print difficulty workers s event = some s')
    (hexchanged : s.Exchanged) : s'.Exchanged := by
  intro i link' u hlink' hu
  have hrunning := ((hs.of_step hfair h).linked i link' u hlink' hu).serves.running
  rcases hs.moves hfair h hlink' hu with ⟨rfl, _, rfl⟩ | ⟨link, t, hlink, ht, hmoves⟩
  · exact ⟨rfl, Miner.numbered_init⟩
  obtain ⟨htaken, hnumbered⟩ := hexchanged i link t hlink ht
  have hlinked := hs.linked i link t hlink ht
  cases hmoves with
  | idle => exact ⟨htaken, hnumbered⟩
  | pool _ hline hserver =>
    exact ⟨(Server.taken_of_step hserver hline ht hu hrunning).trans htaken, hnumbered⟩
  | deliver hphase hrequest =>
    refine ⟨?_, hnumbered⟩
    have hhandled : t.taken = t.handled := by rw [Thread.taken, hphase]
    rw [Thread.taken_resume hrunning, ← hhandled, htaken]
    exact (Log.oldest_succ hrequest).symm
  | receive _ _ _ hreceive =>
    obtain ⟨hsaid, hkeeps⟩ := Client.said_receive hlinked.asked hreceive
    exact ⟨htaken.trans (Log.oldest_of_suffix hsaid hlinked.delivered).symm, hkeeps hnumbered⟩
  | act _ hact =>
    obtain ⟨hsaid, hkeeps⟩ := Client.said_act hact
    exact ⟨htaken.trans (Log.oldest_of_suffix hsaid hlinked.delivered).symm, hkeeps hnumbered⟩
  | stop => exact ⟨htaken, hnumbered⟩

/-- The channels hold the replies in every state of a run. -/
theorem replied_of_step (h : step fromStr print difficulty workers s event = some s')
    (hreplied : s.server.Replied) : s'.server.Replied := by
  have hserver := server_of_step h
  split at hserver
  · rwa [hserver]
  · exact hreplied.of_step hserver

/-- **The requests of a miner and the replies to them.** -/
structure AnsweredOnce (link : Link) (t : Thread) : Prop where
  /-- The session has taken exactly the requests that have arrived, in their order, whether or
  not there is a writer. -/
  taken : t.taken = link.arrived
  /-- As long as there is a writer, the replies so far are those to the requests that have
  arrived, one for each and in their order, up to the one in hand. -/
  replies : t.writing = true → ∃ pending, pending.length ≤ 1 ∧
    (t.phase = .waiting → pending = []) ∧ (replyIds t.sent).reverse ++ pending =
      (link.client.said.reverse.take link.delivered).map Request.id
  /-- No two requests have the same id, until the counter wraps. -/
  ids : 100 + link.client.miner.submitted ≤ 2 ^ 64 → (link.client.said.map Request.id).Nodup

/-- **Every request of a miner is answered once**, in every state of every run of the pool
with its miners. -/
theorem requests_answered (fromStr : Str → Option Value) (print : Value → Str)
    (difficulty : UInt32 → Value) (workers : ℕ → Str) {events : List SystemEvent}
    (h : StepSystem.EachStep (step fromStr print difficulty workers)
      (Fair fromStr print fun i => SystemEvent.stop i ∈ events) init events) :
    StepSystem.Always (step fromStr print difficulty workers)
      (fun s => ∀ i link, s.links i = some link →
        ∃ t, s.server.threads[i]? = some t ∧ AnsweredOnce link t) init events := by
  have hrun := StepSystem.always_of_eachStep
    (I := fun s => s.Served difficulty workers (fun i => SystemEvent.stop i ∈ events) ∧
      s.Exchanged ∧ s.server.Replied)
    (fun _ _ _ hs hfair hstep => ⟨hs.1.of_step hfair hstep,
      hs.1.exchanged_of_step hfair hstep hs.2.1, replied_of_step hstep hs.2.2⟩)
    ⟨served_init, fun _ _ _ hlink => absurd hlink (by simp [init]), Server.replied_init⟩ h
  refine hrun.mono fun s hs i link hlink => ?_
  obtain ⟨hserved, hexchanged, hreplied⟩ := hs
  obtain ⟨t, ht⟩ : ∃ t, s.server.threads[i]? = some t :=
    ⟨_, List.getElem?_eq_getElem (hserved.links i link hlink)⟩
  obtain ⟨htaken, hnumbered⟩ := hexchanged i link t hlink ht
  have hlinked := hserved.linked i link t hlink ht
  refine ⟨t, ht, htaken, fun hwriting => ?_, hlinked.asked.nodup_ids hnumbered⟩
  have hrunning := hlinked.serves.running
  obtain ⟨pending, hlength, hwaiting, hids⟩ := (hreplied i _ ht hwriting).pending hrunning
  refine ⟨pending, hlength, hwaiting, hids.trans ?_⟩
  rw [htaken, Link.arrived, Log.reverse_oldest]

/-- A miner connects, subscribes, is authorized, takes its first job and sends a share. -/
theorem requests_answered_sample : StepSystem.Always sampleStep
    (fun s => ∀ i link, s.links i = some link →
      ∃ t, s.server.threads[i]? = some t ∧ AnsweredOnce link t) init sampleRun :=
  requests_answered _ _ _ _ (fair_sampleRun _)

end System

end SoloMiner
