import SoloMiner.System.Linked

/-!
# One event and one miner

An event of the system is for each miner and its session one of few things: a line that is
carried over one way or the other, a step of the miner's own, or something that the pool does
elsewhere (`SoloMiner.System.Served.moves`). So what is to be shown of all miners in a run is
shown of one of them, case by case. The first invariant that is shown so is that all miners
are served (`SoloMiner.System.Served.of_step`).
-/

namespace SoloMiner

open Json

namespace System

variable {fromStr : Str → Option Value} {print : Value → Str} {difficulty : UInt32 → Value}
  {workers : ℕ → Str} {stopped : ℕ → Prop} {installed : List ActiveJob}

/-- **What a run keeps.** -/
structure Served (difficulty : UInt32 → Value) (workers : ℕ → Str) (stopped : ℕ → Prop)
    (s : System) : Prop where
  told : s.server.Told difficulty
  coherent : ∀ active ∈ s.server.installed, active.Coherent
  links : ∀ i link, s.links i = some link → i < s.server.threads.length
  linked : ∀ i link t, s.links i = some link → s.server.threads[i]? = some t →
    Linked difficulty (workers i) (stopped i) s.server.installed link t

theorem served_init : Served difficulty workers stopped init where
  told := Server.told_init
  coherent active h := absurd h List.not_mem_nil
  links i link h := absurd h (by simp [init])
  linked i link t h := absurd h (by simp [init])

/-- The miner of a connection after one of them was changed. -/
theorem links_setLink {s : System} {i j : ℕ} {link link' : Link}
    (h : (s.setLink i link).links j = some link') :
    (j = i ∧ link' = link) ∨ (j ≠ i ∧ s.links j = some link') := by
  rw [setLink] at h
  dsimp only at h
  by_cases hj : j = i
  · subst hj
    rw [Function.update_self] at h
    exact Or.inl ⟨rfl, (Option.some.inj h).symm⟩
  · rw [Function.update_of_ne hj] at h
    exact Or.inr ⟨hj, h⟩

/-- **An event of the pool**, as seen by a miner: if it is not a line on its connection. -/
theorem Linked.of_server {worker : Str} {stopped : Prop} {i : ℕ} {link : Link} {s s' : Server}
    {event : Event} (hs : s.Told difficulty) (hcoherent : ∀ active ∈ s.installed, active.Coherent)
    (hlink : ∀ t, s.threads[i]? = some t →
      Linked difficulty worker stopped s.installed link t) (hi : i < s.threads.length)
    (hevent : ∀ text, event ≠ .line i text)
    (h : Server.step fromStr difficulty s event = some s') {u : Thread}
    (hu : s'.threads[i]? = some u) :
    Linked difficulty worker stopped s'.installed link u := by
  have hmono := Server.installed_mono h
  have hjobs : ∀ active ∈ s.pool.jobs, active.Coherent := fun active hactive =>
    hcoherent active (List.mem_of_mem_take (hs.recorded.jobs ▸ hactive))
  -- A connection that the event does not touch.
  have hsame : s.threads[i]? = some u → Linked difficulty worker stopped s'.installed link u :=
    fun hu => (hlink u hu).of_thread hmono (.refl u) (hlink u hu).serves fun _ => Or.inl
  -- A connection whose session is left alone.
  have hquiet : ∀ {t : Thread} {phase : Phase} {writing : Bool}, s.threads[i]? = some t →
      (Thread.Serves difficulty link.delivered { t with phase := phase, writing := writing }) →
        Linked difficulty worker stopped s'.installed link
          { t with phase := phase, writing := writing } :=
    fun ht hserves => (hlink _ ht).of_thread hmono ⟨rfl, rfl⟩ hserves fun _ => Or.inl
  cases event with
  | connect =>
    obtain rfl := Server.step_connect h
    rcases Server.getElem?_concat_cases hu with hu | ⟨rfl, -⟩
    · exact hsame hu
    · exact absurd hi (lt_irrefl _)
  | refuse =>
    obtain rfl := Server.step_refuse h
    exact hsame hu
  | line j text =>
    obtain ⟨t, -, -, ⟨-, rfl⟩ | ⟨-, rfl⟩⟩ := Server.step_line h
    · exact hsame hu
    · rcases Server.getElem?_set_cases hu with ⟨rfl, -⟩ | ⟨-, hu⟩
      · exact absurd rfl (hevent text)
      · exact hsame hu
  | perform j world =>
    obtain ⟨t, request, effect, next, ht, hphase, rfl⟩ := Server.step_perform h
    rcases Server.getElem?_set_cases hu with ⟨rfl, rfl⟩ | ⟨-, hu⟩
    · obtain ⟨hserves, hconnection, hlines⟩ := (hlink t ht).serves.perform hphase hjobs world
      exact (hlink t ht).of_thread hmono hconnection hserves hlines
    · exact hsame hu
  | hangUp j =>
    obtain ⟨t, ht, -, rfl⟩ := Server.step_hangUp h
    rcases Server.getElem?_set_cases hu with ⟨rfl, rfl⟩ | ⟨-, hu⟩
    · exact hquiet ht trivial
    · exact hsame hu
  | unregister j =>
    obtain ⟨t, ht, -, rfl⟩ := Server.step_unregister h
    rcases Server.getElem?_set_cases hu with ⟨rfl, rfl⟩ | ⟨-, hu⟩
    · exact hquiet ht trivial
    · exact hsame hu
  | writerEnds j =>
    obtain ⟨t, ht, rfl⟩ := Server.step_writerEnds h
    rcases Server.getElem?_set_cases hu with ⟨rfl, rfl⟩ | ⟨-, hu⟩
    · exact hquiet ht (hlink t ht).serves
    · exact hsame hu
  | startJob =>
    obtain ⟨-, rfl⟩ := Server.step_startJob h
    exact hsame hu
  | abandon =>
    obtain ⟨_, -, rfl⟩ := Server.step_abandon h
    exact hsame hu
  | install active =>
    obtain ⟨-, rfl⟩ := Server.step_install h
    exact hsame hu
  | announce =>
    obtain ⟨active, -, rfl⟩ := Server.step_announce h
    rw [List.getElem?_mapIdx] at hu
    obtain ⟨t, ht, rfl⟩ := Option.map_eq_some_iff.mp hu
    refine (hlink t ht).of_thread hmono ⟨rfl, rfl⟩ (hlink t ht).serves fun line hline => ?_
    rcases Thread.Tells.mem_put hline with hnew | hold
    · rw [List.eq_of_mem_replicate hnew]
      exact Or.inr (.job active)
    · exact Or.inl hold

/-- A miner that has just connected, and its session. -/
theorem linked_new {worker : Str} {stopped : Prop} {connectionId : UInt64} {outbound : Channel} :
    Linked difficulty worker stopped installed .new (.new connectionId outbound) where
  asked := ⟨rfl, rfl⟩
  sound := Miner.sound_init
  subscribed e1 size h := by rcases h with h | h <;> exact absurd h (by simp [Link.new, Client.new])
  delivered := Nat.zero_le _
  serves h := absurd h (by simp [Link.new])
  lines line h := absurd h List.not_mem_nil
  ended h := absurd h (by simp [Link.new, Client.new])

/-- What an event must be: its line is read back, its job is one that the poller can install,
and a miner that it stops is one that may be stopped. -/
structure Fair (fromStr : Str → Option Value) (print : Value → Str) (stopped : ℕ → Prop)
    (s : System) (event : SystemEvent) : Prop where
  carries : s.Carries fromStr print event
  installable : ∀ active, event = .pool (.install active) → Installable active
  stops : ∀ i, event = .stop i → stopped i

/-- Jobs are installed by the pool's own events. -/
theorem installable_of_poolEvent {s : System} {event : SystemEvent}
    (hfair : s.Fair fromStr print stopped event) {active : ActiveJob}
    (h : s.poolEvent print event = some (.install active)) : Installable active := by
  cases event with
  | pool event =>
    obtain rfl := Option.some.inj h
    exact hfair.installable active rfl
  | deliver i =>
    rw [poolEvent] at h
    split at h
    · exact absurd h (by simp)
    · obtain ⟨_, -, h⟩ := Option.map_eq_some_iff.mp h
      exact absurd h (by simp)
  | _ => exact absurd h (by simp [poolEvent])

/-- The pool's part of the invariant. -/
theorem Served.pool_of_step {s s' : System} {event : SystemEvent}
    (hs : s.Served difficulty workers stopped) (hfair : s.Fair fromStr print stopped event)
    (h : step fromStr print difficulty workers s event = some s') :
    s'.server.Told difficulty ∧ ∀ active ∈ s'.server.installed, active.Coherent := by
  have hserver := server_of_step h
  split at hserver
  · rw [hserver]
    exact ⟨hs.told, hs.coherent⟩
  · next event' hevent =>
    refine ⟨hs.told.of_step hserver, fun active hactive => ?_⟩
    obtain ⟨active', rfl, hinstalled⟩ | ⟨-, hinstalled⟩ := Server.installed_cases hserver
    · rw [hinstalled] at hactive
      rcases List.mem_cons.mp hactive with rfl | hold
      · exact (installable_of_poolEvent hfair hevent).coherent
      · exact hs.coherent active hold
    · rw [hinstalled] at hactive
      exact hs.coherent active hactive

/-- **What an event makes of a miner and its session**, as the threads of the miner and of
the pool see it. -/
inductive Moves (fromStr : Str → Option Value) (print : Value → Str)
    (difficulty : UInt32 → Value) (worker : Str) (s s' : System) (event : SystemEvent) (i : ℕ)
    (link : Link) (t : Thread) : Link → Thread → Prop
  /-- Another miner moves by itself. -/
  | idle (hserver : s'.server = s.server) :
    Moves fromStr print difficulty worker s s' event i link t link t
  /-- The pool does something else than to take a line of this miner. -/
  | pool {event' : Event} {u : Thread} (hevent : s.poolEvent print event = some event')
    (hline : ∀ text, event' ≠ .line i text)
    (hserver : Server.step fromStr difficulty s.server event' = some s'.server)
    (hu : s'.server.threads[i]? = some u) :
    Moves fromStr print difficulty worker s s' event i link t link u
  /-- The next request of the miner is taken. -/
  | deliver {request : Request} {text : Str} (hphase : t.phase = .waiting)
    (hrequest : link.client.said.reverse[link.delivered]? = some request)
    (hparse : Incoming.parse fromStr text = some (.request request))
    (hserver : s'.server = s.server.setThread i
      (t.resume (some request) (t.session.dispatch fromStr difficulty text))) :
    Moves fromStr print difficulty worker s s' event i link t
      { link with delivered := link.delivered + 1 }
      (t.resume (some request) (t.session.dispatch fromStr difficulty text))
  /-- The next line of the session arrives at the miner. -/
  | receive {line message : Incoming} {client : Client} (hserver : s'.server = s.server)
    (hline : t.sent.reverse[link.received]? = some line)
    (hmessage : message = line ∨ isDifficulty line = true ∧ isDifficulty message = true)
    (hreceive : link.client.receive worker message = some client) :
    Moves fromStr print difficulty worker s s' event i link t
      { link with received := link.received + 1, client := client } t
  /-- The miner moves by itself. -/
  | act {action : MinerAction} {client : Client} (hserver : s'.server = s.server)
    (hact : link.client.act worker action = some client) :
    Moves fromStr print difficulty worker s s' event i link t { link with client := client } t
  /-- The miner is stopped. -/
  | stop (hserver : s'.server = s.server) (hevent : event = .stop i) :
    Moves fromStr print difficulty worker s s' event i link t
      { link with client.phase := .ended } t

/-- **A miner and its session after an event**: the miner has just connected, or they are what
the event has made of them. -/
theorem Served.moves {s s' : System} {event : SystemEvent}
    (hs : s.Served difficulty workers stopped) (hfair : s.Fair fromStr print stopped event)
    (h : step fromStr print difficulty workers s event = some s') {i : ℕ} {link' : Link}
    {u : Thread} (hlink' : s'.links i = some link') (hu : s'.server.threads[i]? = some u) :
    (link' = .new ∧ ∃ connectionId, u = .new connectionId i) ∨
      ∃ link t, s.links i = some link ∧ s.server.threads[i]? = some t ∧
        Moves fromStr print difficulty (workers i) s s' event i link t link' u := by
  -- The pool does something else.
  have hpool : ∀ {event' : Event} {link : Link}, s.poolEvent print event = some event' →
      (∀ text, event' ≠ .line i text) →
        Server.step fromStr difficulty s.server event' = some s'.server → s.links i = some link →
          link' = link → ∃ link t, s.links i = some link ∧ s.server.threads[i]? = some t ∧
            Moves fromStr print difficulty (workers i) s s' event i link t link' u := by
    rintro event' link hevent hline hserver hlink rfl
    exact ⟨_, _, hlink, List.getElem?_eq_getElem (hs.links i _ hlink),
      .pool hevent hline hserver hu⟩
  -- A miner moves by itself.
  have hclient : ∀ {j : ℕ} {link next : Link}, s' = s.setLink j next → s.links j = some link →
      (∀ t, s.server.threads[j]? = some t → Moves fromStr print difficulty (workers j) s s' event j
        link t next t) → ∃ link t, s.links i = some link ∧ s.server.threads[i]? = some t ∧
          Moves fromStr print difficulty (workers i) s s' event i link t link' u := by
    rintro j link next rfl hlink hmoves
    rcases links_setLink hlink' with ⟨rfl, rfl⟩ | ⟨-, hold⟩
    · exact ⟨link, u, hlink, hu, hmoves u hu⟩
    · exact ⟨link', u, hold, hu, .idle rfl⟩
  cases event with
  | pool event =>
    obtain ⟨howned, server, hserver, rfl⟩ := step_pool h
    have hlink : s.links i = some link' := hlink'
    refine Or.inr (hpool rfl (fun text heq => ?_) hserver hlink rfl)
    rw [heq, owned, hlink] at howned
    exact absurd howned (by simp)
  | join =>
    obtain ⟨server, hserver, rfl⟩ := step_join h
    rcases links_setLink hlink' with ⟨rfl, rfl⟩ | ⟨-, hold⟩
    · obtain rfl := Server.step_connect hserver
      rcases Server.getElem?_concat_cases hu with hold | ⟨-, rfl⟩
      · exact absurd (List.getElem?_eq_some_iff.mp hold).1 (lt_irrefl _)
      · exact Or.inl ⟨rfl, _, rfl⟩
    · exact Or.inr (hpool rfl nofun hserver hold rfl)
  | deliver j =>
    obtain ⟨link, request, server, hlink, hrequest, hserver, rfl⟩ := step_deliver h
    have hevent : s.poolEvent print (.deliver j) =
        some (.line j (print (Incoming.request request).toValue)) := by
      rw [poolEvent, hlink]
      dsimp only
      rw [hrequest]
      rfl
    rcases links_setLink hlink' with ⟨rfl, rfl⟩ | ⟨hne, hold⟩
    · have hreads : Reads fromStr print (.request request) := by
        refine hfair.carries _ ?_
        rw [carried, hlink]
        dsimp only
        rw [hrequest]
        rfl
      obtain ⟨t, ht, hphase, ⟨hblank, -⟩ | ⟨-, rfl⟩⟩ := Server.step_line hserver
      · exact absurd (hreads.1.symm.trans hblank) (by simp)
      obtain ⟨message, hparse, hmessage⟩ := parse_of_reads hreads
      -- A miner announces no difficulties.
      obtain rfl : message = .request request := by
        rcases hmessage with hmessage | ⟨hdifficulty, -⟩
        · exact hmessage
        · exact absurd hdifficulty
            (not_isDifficulty ((hs.linked _ link t hlink ht).ownRequest hrequest))
      have hrequestOf : Server.requestOf fromStr (print (Incoming.request request).toValue) =
          some request := by rw [Server.requestOf, hparse]
      rw [hrequestOf] at hu ⊢
      rcases Server.getElem?_set_cases hu with ⟨-, rfl⟩ | ⟨hne, -⟩
      · exact Or.inr ⟨link, t, hlink, ht, .deliver hphase hrequest hparse rfl⟩
      · exact absurd rfl hne
    · exact Or.inr (hpool hevent (fun text heq => hne (Event.line.inj heq).1.symm) hserver hold rfl)
  | receive j =>
    obtain ⟨link, t, line, message, client, hlink, ht, hline, hmessage, hreceive, hs'⟩ :=
      step_receive hfair.carries h
    refine Or.inr (hclient hs' hlink fun t' ht' => ?_)
    obtain rfl := Option.some.inj (ht.symm.trans ht')
    exact .receive (hs' ▸ rfl) hline hmessage hreceive
  | act j action =>
    obtain ⟨link, client, hlink, hact, hs'⟩ := step_act h
    exact Or.inr (hclient hs' hlink fun t ht => .act (hs' ▸ rfl) hact)
  | stop j =>
    obtain ⟨link, hlink, hs'⟩ := step_stop h
    exact Or.inr (hclient hs' hlink fun t ht => .stop (hs' ▸ rfl) rfl)

/-- There are no more miners than sessions. -/
theorem Served.links_of_step {s s' : System} {event : SystemEvent}
    (hs : s.Served difficulty workers stopped) (hfair : s.Fair fromStr print stopped event)
    (h : step fromStr print difficulty workers s event = some s') (j : ℕ) (link' : Link)
    (hlink' : s'.links j = some link') : j < s'.server.threads.length := by
  have hset : ∀ {i : ℕ} {link next : Link} {server : Server},
      s' = { setLink s i next with server := server } → s.links i = some link →
        s.server.threads.length ≤ server.threads.length → j < s'.server.threads.length := by
    rintro i link next server rfl hlink hle
    rcases links_setLink hlink' with ⟨rfl, -⟩ | ⟨-, hold⟩
    · exact (hs.links _ _ hlink).trans_le hle
    · exact (hs.links _ _ hold).trans_le hle
  cases event with
  | pool event =>
    obtain ⟨-, server, hserver, rfl⟩ := step_pool h
    exact (hs.links j _ hlink').trans_le (Server.length_threads_mono hserver)
  | join =>
    obtain ⟨server, hserver, rfl⟩ := step_join h
    rcases links_setLink hlink' with ⟨rfl, -⟩ | ⟨-, hold⟩
    · obtain rfl := Server.step_connect hserver
      dsimp only
      rw [List.length_append]
      exact Nat.lt_succ_self _
    · exact (hs.links j _ hold).trans_le (Server.length_threads_mono hserver)
  | deliver i =>
    obtain ⟨link, request, server, hlink, hrequest, hserver, hs'⟩ := step_deliver h
    exact hset hs' hlink (Server.length_threads_mono hserver)
  | receive i =>
    obtain ⟨link, t, line, message, client, hlink, ht, hline, hmessage, hreceive, hs'⟩ :=
      step_receive hfair.carries h
    exact hset hs' hlink le_rfl
  | act i action =>
    obtain ⟨link, client, hlink, hact, hs'⟩ := step_act h
    exact hset hs' hlink le_rfl
  | stop i =>
    obtain ⟨link, hlink, hs'⟩ := step_stop h
    exact hset hs' hlink le_rfl

/-- **One event**, of anyone. -/
theorem Served.of_step {s s' : System} {event : SystemEvent}
    (hs : s.Served difficulty workers stopped) (hfair : s.Fair fromStr print stopped event)
    (h : step fromStr print difficulty workers s event = some s') :
    s'.Served difficulty workers stopped := by
  obtain ⟨htold, hcoherent⟩ := hs.pool_of_step hfair h
  refine ⟨htold, hcoherent, hs.links_of_step hfair h, fun i link' u hlink' hu => ?_⟩
  rcases hs.moves hfair h hlink' hu with ⟨rfl, connectionId, rfl⟩ | ⟨link, t, hlink, ht, hmoves⟩
  · exact linked_new
  have hlinked := hs.linked i link t hlink ht
  cases hmoves with
  | idle hserver =>
    rw [hserver]
    exact hlinked
  | pool _ hline hserver hu =>
    exact Linked.of_server hs.told hs.coherent (fun t ht => hs.linked i _ t hlink ht)
      (hs.links i _ hlink) hline hserver hu
  | deliver hphase hrequest hparse hserver =>
    rw [hserver]
    exact hlinked.deliver hphase hrequest hparse _
  | receive hserver hline hmessage hreceive =>
    rw [hserver]
    exact hlinked.receive (hs.told.threads i _ ht)
      (List.mem_reverse.mp (List.mem_of_getElem? hline)) hmessage hreceive
  | act hserver hact =>
    rw [hserver]
    obtain ⟨extranonce1, extranonce2Size, miner, hphase, hinstall, hstep, rfl⟩ :=
      Client.act_eq_some hact
    exact hlinked.of_miner hphase (fun job heq => absurd heq (hinstall job)) hstep _
  | stop hserver hevent =>
    rw [hserver]
    exact hlinked.stop (hfair.stops i hevent)

end System

end SoloMiner
