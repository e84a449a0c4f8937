import Mathlib.Data.Set.Card
import SoloMiner.Pool.Stage

/-!
# Who is pushed work

Every connection that subscribes is entered in a list, and a broadcast puts its line on
the channel of each entry. The list is to have one entry for each subscribed miner that
is connected. Nothing but the miners' behaviour keeps it so: a miner that subscribes
twice is entered twice, and gets every job twice from then on; and a reader that panics
never unregisters.

`SoloMiner.Server.always_subscribersExact_iff` says that these two are the only ways:
the list is exact throughout a run precisely if no connection registers while its id is
in the list, and no reader crashes while its channel is.
-/

namespace SoloMiner

open Json

namespace Server

/-- The entry is that of a connection whose `handle` is running. -/
def Live (s : Server) (entry : Subscriber) : Prop :=
  ∃ t, s.threads[entry.outbound]? = some t ∧ t.Alive ∧ t.session.connectionId = entry.id

variable (fromStr : Str → Option Value) (difficulty : UInt32 → Value)

/-- **The list of subscribers is exact.** -/
structure SubscribersExact (s : Server) : Prop where
  /-- There is at most one entry for each connection id. -/
  oneEntry : (s.pool.subscribers.map Subscriber.id).Nodup
  /-- Every entry is that of a session that is running. -/
  live : ∀ entry ∈ s.pool.subscribers, s.Live entry
  /-- A broadcast puts exactly one copy of its line on the channel of every subscribed
  session that has a writer, and nothing on any other. -/
  once : ∀ active s', s.poller = .announcing active →
    step fromStr difficulty s .announce = some s' → ∀ i t, s.threads[i]? = some t →
      t.writing = true →
        (s.Subscribed i → s'.threads[i]? = some { t with sent := notifyLine active :: t.sent }) ∧
          (¬ s.Subscribed i → s'.threads[i]? = some t)
  /-- The count is that of the running sessions that are subscribed. -/
  count : s.pool.subscriberCount =
    Set.ncard {i | s.Subscribed i ∧ ∃ t, s.threads[i]? = some t ∧ t.Alive}

/-- What a step must not do: register an id that is in the list, or crash a reader whose
channel is. -/
def Orderly (s : Server) : Event → Prop
  | .line i text => ∀ t, s.threads[i]? = some t → t.phase = .waiting → isBlank text = false →
    t.session.dispatch fromStr difficulty text = .panic → ¬ s.Subscribed i
  | .perform i world => ∀ (t : Thread) request effect next, s.threads[i]? = some t →
    t.phase = .handling request (.op effect next) →
      (∀ id outbound, effect = .subscribe id outbound →
        id ∉ s.pool.subscribers.map Subscriber.id) ∧
          (next (answer s.pool world effect) = .panic → ¬ s.Subscribed i)
  | _ => True

variable {fromStr difficulty} {s s' : Server} {event : Event}

/-! ### What follows from the entries -/

/-- The channels of the entries are distinct, if their ids are and their sessions run. -/
theorem nodup_outbounds (hone : (s.pool.subscribers.map Subscriber.id).Nodup)
    (hlive : ∀ entry ∈ s.pool.subscribers, s.Live entry) :
    (s.pool.subscribers.map Subscriber.outbound).Nodup := by
  refine List.Nodup.map_on (fun x hx y hy hxy => ?_) hone.of_map
  obtain ⟨t, ht, -, hid⟩ := hlive x hx
  obtain ⟨u, hu, -, hid'⟩ := hlive y hy
  rw [hxy, hu] at ht
  obtain rfl := Option.some.inj ht
  obtain ⟨id, outbound⟩ := x
  obtain ⟨id', outbound'⟩ := y
  obtain rfl : id = id' := hid.symm.trans hid'
  obtain rfl : outbound = outbound' := hxy
  rfl

/-- **The entries say it all**: the two other parts follow from them. -/
theorem subscribersExact_iff : s.SubscribersExact fromStr difficulty ↔
    (s.pool.subscribers.map Subscriber.id).Nodup ∧ ∀ entry ∈ s.pool.subscribers, s.Live entry := by
  refine ⟨fun h => ⟨h.oneEntry, h.live⟩, fun ⟨hone, hlive⟩ => ⟨hone, hlive, ?_, ?_⟩⟩
  · intro active s' hpoller hstep i t ht hwriting
    rw [getElem?_announce hpoller hstep ht, entries_eq_count]
    constructor
    · intro hsubscribed
      rw [List.count_eq_one_of_mem (nodup_outbounds hone hlive) (subscribed_iff_mem.mp hsubscribed),
        Thread.receive, Thread.put, if_pos hwriting]
      rfl
    · intro hnot
      rw [List.count_eq_zero_of_not_mem (mt subscribed_iff_mem.mpr hnot), List.replicate_zero,
        Thread.receive_nil]
  · have hset : {i | s.Subscribed i ∧ ∃ t, s.threads[i]? = some t ∧ t.Alive} =
        ((s.pool.subscribers.map Subscriber.outbound).toFinset : Set ℕ) := by
      ext i
      rw [List.coe_toFinset]
      refine ⟨fun h => subscribed_iff_mem.mp h.1, fun h => ⟨subscribed_iff_mem.mpr h, ?_⟩⟩
      obtain ⟨entry, hentry, rfl⟩ := subscribed_iff_mem.mpr h
      obtain ⟨t, ht, halive, -⟩ := hlive entry hentry
      exact ⟨t, ht, halive⟩
    rw [hset, Set.ncard_coe_finset, List.toFinset_card_of_nodup (nodup_outbounds hone hlive),
      List.length_map, PoolState.subscriberCount]

/-! ### One event -/

variable {i : ℕ} {t t' : Thread} {entry : Subscriber}

/-- The connection that a live entry names has a reader that runs, under its id. -/
theorem Live.thread (h : s.Live entry) (hi : entry.outbound = i) (ht : s.threads[i]? = some t) :
    t.Alive ∧ t.session.connectionId = entry.id := by
  obtain ⟨u, hu, halive, hid⟩ := h
  rw [hi, ht] at hu
  obtain rfl := Option.some.inj hu
  exact ⟨halive, hid⟩

theorem Live.setThread (h : s.Live entry) (ht : s.threads[i]? = some t)
    (hid : t'.session.connectionId = t.session.connectionId)
    (halive : entry.outbound = i → t'.Alive) : (s.setThread i t').Live entry := by
  by_cases hi : entry.outbound = i
  · refine ⟨t', ?_, halive hi, hid.trans (h.thread hi ht).2⟩
    subst hi
    exact List.getElem?_set_self (List.getElem?_eq_some_iff.mp ht).1
  · obtain ⟨u, hu, hualive, huid⟩ := h
    refine ⟨u, ?_, hualive, huid⟩
    exact (List.getElem?_set_ne (Ne.symm hi)).trans hu

/-- An entry that is live after an event of its connection has a reader that runs. -/
theorem Live.alive (h : (s.setThread i t').Live entry) (ht : s.threads[i]? = some t)
    (hi : entry.outbound = i) : t'.Alive :=
  (h.thread hi (List.getElem?_set_self (List.getElem?_eq_some_iff.mp ht).1)).1

theorem mem_subscribers_affect {pool : PoolState} {effect : Effect}
    (h : entry ∈ pool.subscribers) : entry ∈ (affect pool effect).subscribers := by
  cases effect with
  | subscribe id outbound => exact List.mem_append_left _ h
  | _ => exact h

/-- **An event that leaves the list exact is orderly.** -/
theorem orderly_of_step (hstep : step fromStr difficulty s event = some s')
    (h : s'.SubscribersExact fromStr difficulty) : s.Orderly fromStr difficulty event := by
  cases event with
  | line i text =>
    rintro t ht hphase hblank hpanic ⟨entry, hentry, hi⟩
    obtain ⟨t', ht', -, ⟨hblank', -⟩ | ⟨-, rfl⟩⟩ := step_line hstep
    · exact absurd (hblank.symm.trans hblank') (by simp)
    · obtain rfl := Option.some.inj (ht.symm.trans ht')
      exact Thread.alive_resume_iff.mp ((h.live entry hentry).alive ht hi) hpanic
  | perform i world =>
    intro t request effect next ht hphase
    obtain ⟨t', request', effect', next', ht', hphase', rfl⟩ := step_perform hstep
    rw [ht] at ht'
    obtain rfl := Option.some.inj ht'
    rw [hphase] at hphase'
    obtain ⟨rfl, hcode⟩ := Phase.handling.inj hphase'
    obtain ⟨rfl, hnext⟩ := Prog.op.inj hcode
    obtain rfl := eq_of_heq hnext
    refine ⟨?_, ?_⟩
    · rintro id outbound rfl hmem
      have hone : (s.pool.subscribers.map Subscriber.id ++ [id]).Nodup := by
        have hone := h.oneEntry
        rwa [show (affect s.pool (.subscribe id outbound)).subscribers =
          s.pool.subscribers ++ [⟨id, outbound⟩] from rfl, List.map_append] at hone
      exact List.disjoint_of_nodup_append hone hmem (List.mem_singleton_self id)
    · rintro hpanic ⟨entry, hentry, hi⟩
      have hlive := h.live entry (mem_subscribers_affect hentry)
      exact Thread.alive_resume_iff.mp (Live.alive hlive ht hi) hpanic
  | _ => trivial

/-- The entries after an operation that does not crash its reader, and registers no id
that is in the list. -/
theorem entries_of_advance (hs : s.Wired difficulty)
    (hone : (s.pool.subscribers.map Subscriber.id).Nodup)
    (hlive : ∀ entry ∈ s.pool.subscribers, s.Live entry) {pool' : PoolState}
    (ht : s.threads[i]? = some t) (hadvance : Advance difficulty s.pool t pool' t')
    (halive : s.Subscribed i → t'.Alive)
    (hregister : ∀ request, t.phase = .handling (some request) t.session.registering →
      t'.Alive ∧ t.session.connectionId ∉ s.pool.subscribers.map Subscriber.id) :
    (pool'.subscribers.map Subscriber.id).Nodup ∧
      ∀ entry ∈ pool'.subscribers, (s.setThread i t').Live entry := by
  have hold : ∀ entry ∈ s.pool.subscribers, (s.setThread i t').Live entry := fun entry hentry =>
    (hlive entry hentry).setThread ht hadvance.connectionId fun hi => halive ⟨entry, hentry, hi⟩
  rcases hadvance.subscribers with rfl | ⟨rfl, request, hphase⟩
  · exact ⟨hone, hold⟩
  · obtain ⟨halive', hfresh⟩ := hregister request hphase
    refine ⟨?_, fun entry hentry => ?_⟩
    · rw [PoolState.subscribe, List.map_append]
      refine List.nodup_append.mpr ⟨hone, List.nodup_singleton _, fun id hid id' hid' heq =>
        hfresh ?_⟩
      have hid' : id' = t.session.connectionId := List.mem_singleton.mp hid'
      rwa [← hid', ← heq]
    · rcases List.mem_append.mp hentry with hentry | hentry
      · exact hold entry hentry
      · obtain rfl := List.mem_singleton.mp hentry
        refine ⟨t', ?_, halive', hadvance.connectionId⟩
        dsimp only
        rw [(hs i t ht).outbound, Server.setThread]
        exact List.getElem?_set_self (List.getElem?_eq_some_iff.mp ht).1

/-- The entries after a line that does not crash its reader. -/
theorem live_of_alive (hlive : ∀ entry ∈ s.pool.subscribers, s.Live entry)
    (ht : s.threads[i]? = some t) (hid : t'.session.connectionId = t.session.connectionId)
    (halive : s.Subscribed i → t'.Alive) :
    ∀ entry ∈ s.pool.subscribers, (s.setThread i t').Live entry := fun entry hentry =>
  (hlive entry hentry).setThread ht hid fun hi => halive ⟨entry, hentry, hi⟩

/-- **An orderly event leaves the list exact.** -/
theorem subscribersExact_of_orderly (hs : s.Wired difficulty)
    (h : s.SubscribersExact fromStr difficulty)
    (hstep : step fromStr difficulty s event = some s')
    (horderly : s.Orderly fromStr difficulty event) : s'.SubscribersExact fromStr difficulty := by
  rw [subscribersExact_iff]
  have hone := h.oneEntry
  have hlive := h.live
  cases event with
  | connect =>
    obtain rfl := step_connect hstep
    refine ⟨hone, fun entry hentry => ?_⟩
    obtain ⟨t, ht, halive⟩ := hlive entry hentry
    exact ⟨t, (List.getElem?_append_left (List.getElem?_eq_some_iff.mp ht).1).trans ht, halive⟩
  | refuse =>
    obtain rfl := step_refuse hstep
    exact ⟨hone, hlive⟩
  | line i text =>
    obtain ⟨t, ht, hphase, ⟨-, rfl⟩ | ⟨hblank, rfl⟩⟩ := step_line hstep
    · exact ⟨hone, hlive⟩
    · exact ⟨hone, live_of_alive hlive ht (opening_dispatch text).begins.connectionId
        fun hsub => Thread.alive_resume_iff.mpr fun hpanic =>
          horderly t ht hphase hblank hpanic hsub⟩
  | perform i world =>
    obtain ⟨t, request, effect, next, ht, hphase, rfl⟩ := step_perform hstep
    have hadvance := Stage.advance hphase ((hs i t ht).stage _ _ hphase) s.pool world
    obtain ⟨hregister, hcrash⟩ := horderly t request effect next ht hphase
    refine entries_of_advance hs hone hlive ht hadvance (fun hsub => Thread.alive_resume_iff.mpr
      fun hpanic => hcrash hpanic hsub) fun request' hphase' => ?_
    obtain ⟨-, hcode⟩ := Phase.handling.inj (hphase.symm.trans hphase')
    obtain ⟨rfl, hnext⟩ := Prog.op.inj hcode
    obtain rfl := eq_of_heq hnext
    exact ⟨Thread.alive_resume_iff.mpr (by simp), hregister _ _ rfl⟩
  | hangUp i =>
    obtain ⟨t, ht, -, rfl⟩ := step_hangUp hstep
    exact ⟨hone, live_of_alive hlive ht rfl fun _ => Thread.alive_of_closing rfl⟩
  | unregister i =>
    obtain ⟨t, ht, -, rfl⟩ := step_unregister hstep
    refine ⟨(List.filter_sublist.map _).nodup hone, fun entry hentry => ?_⟩
    obtain ⟨hentry, hne⟩ := List.mem_filter.mp hentry
    -- No entry that is left has the channel of the session that returns.
    refine (hlive entry hentry).setThread ht rfl fun hi => absurd ?_ (bne_iff_ne.mp hne)
    exact ((hlive entry hentry).thread hi ht).2.symm
  | writerEnds i =>
    obtain ⟨t, ht, rfl⟩ := step_writerEnds hstep
    refine ⟨hone, fun entry hentry => (hlive entry hentry).setThread ht rfl fun hi => ?_⟩
    exact ((hlive entry hentry).thread hi ht).1
  | startJob =>
    obtain ⟨-, rfl⟩ := step_startJob hstep
    exact ⟨hone, hlive⟩
  | abandon =>
    obtain ⟨_, -, rfl⟩ := step_abandon hstep
    exact ⟨hone, hlive⟩
  | install active =>
    obtain ⟨-, rfl⟩ := step_install hstep
    exact ⟨hone, hlive⟩
  | announce =>
    obtain ⟨active, -, rfl⟩ := step_announce hstep
    refine ⟨(List.filter_sublist.map _).nodup hone, fun entry hentry => ?_⟩
    obtain ⟨t, ht, halive, hid⟩ := hlive entry (List.mem_of_mem_filter hentry)
    refine ⟨t.receive (List.replicate (entries s.pool entry.outbound) (notifyLine active)), ?_,
      halive, hid⟩
    rw [List.getElem?_mapIdx, ht]
    rfl

theorem subscribersExact_init : init.SubscribersExact fromStr difficulty :=
  subscribersExact_iff.mpr ⟨List.nodup_nil, fun _ h => absurd h List.not_mem_nil⟩

/-- **When the list of subscribers is exact.** Along a run, whatever lines arrive and
however the threads are interleaved, the list is exact in every state precisely if every
event is orderly. -/
theorem always_subscribersExact_iff (fromStr : Str → Option Value) (difficulty : UInt32 → Value)
    (events : List Event) :
    StepSystem.Always (step fromStr difficulty) (SubscribersExact fromStr difficulty) init events ↔
      StepSystem.EachStep (step fromStr difficulty) (Orderly fromStr difficulty) init events :=
  StepSystem.always_iff_eachStep (fun _ _ _ hs hstep => Wired.of_step hs hstep)
    (fun _ _ _ hs h hstep => ⟨orderly_of_step hstep, subscribersExact_of_orderly hs h hstep⟩)
    events (wired_init : init.Wired difficulty) subscribersExact_init

/-! ### A miner that subscribes twice -/

/-- A miner connects and subscribes, and subscribes again. -/
def subscribeTwice : List Event :=
  .connect :: (request method.SUBSCRIBE 2 ++ request method.SUBSCRIBE 2)

/-- It is entered twice. -/
theorem not_always_subscribersExact :
    ¬ StepSystem.Always (step readHandshake fun _ => .null)
      (SubscribersExact readHandshake fun _ => .null) init subscribeTwice := by
  intro h
  have hentries : (StepSystem.exec (step readHandshake fun _ => .null) init subscribeTwice).map
      (fun s => s.pool.subscribers) = some [⟨1, 0⟩, ⟨1, 0⟩] := by
    rfl
  obtain ⟨s, hexec, hs⟩ := Option.map_eq_some_iff.mp hentries
  have hone := (h.last hexec).oneEntry
  rw [hs] at hone
  exact absurd hone (by decide)

end Server

end SoloMiner
