import SoloMiner.Miner.Client
import SoloMiner.Pool.CurrentWork

/-!
# The pool and its miners

The pool runs on one side of a connection and a miner on the other, and they have nothing
in common but the two streams of lines between them. What the miner writes arrives at the
reader of its connection line by line; what the pool puts on the channel of the connection
arrives at the miner, some time later or never; and in between the other threads of both go
on. Connections that no miner of this repository is behind may bring any lines.

A run of this system is, for the pool, a run of its threads
(`SoloMiner.System.exec_server`), so that whatever holds of all of these holds here. What
the miners add is that the lines are not arbitrary.

Turning a message into text and back is done by a library on both sides. That it reads back
what it has written is a condition on a line that is carried over
(`SoloMiner.System.Carries`), floats apart, of which the difficulty is the only one.
-/

namespace SoloMiner

open Json

/-- One miner on its connection. -/
structure Link where
  client : Client
  /-- How many of its requests have arrived at the pool. -/
  delivered : ℕ
  /-- How many lines of the pool have arrived at it. -/
  received : ℕ

/-- A miner that has just connected. -/
def Link.new : Link := ⟨.new, 0, 0⟩

/-- The pool, and the miner on each connection that has one. -/
structure System where
  server : Server
  links : ℕ → Option Link

/-- What can happen next. -/
inductive SystemEvent where
  /-- Something at the pool, or a line on a connection without a miner. -/
  | pool (event : Event)
  /-- A miner connects. -/
  | join
  /-- The next request of a miner arrives at the pool. -/
  | deliver (i : ℕ)
  /-- The next line of the pool arrives at a miner. -/
  | receive (i : ℕ)
  /-- A thread of a miner moves. -/
  | act (i : ℕ) (action : MinerAction)
  /-- A miner ends: it was waiting for too long, or its connection is gone. -/
  | stop (i : ℕ)

namespace System

/-- Before anything has happened. -/
def init : System := ⟨.init, fun _ => none⟩

/-- The system with another state of a miner. -/
def setLink (s : System) (i : ℕ) (link : Link) : System :=
  { s with links := Function.update s.links i (some link) }

/-- The event is a line on a connection that a miner is behind. -/
def owned (s : System) : Event → Bool
  | .line i _ => (s.links i).isSome
  | _ => false

section

variable (fromStr : Str → Option Value) (print : Value → Str) (difficulty : UInt32 → Value)
  (worker : ℕ → Str)

/-- One event, if it can happen. -/
def step (s : System) : SystemEvent → Option System
  | .pool event =>
    if s.owned event then none
    else (Server.step fromStr difficulty s.server event).map fun server =>
      { s with server := server }
  | .join =>
    (Server.step fromStr difficulty s.server .connect).map fun server =>
      { setLink s s.server.threads.length .new with server := server }
  | .deliver i =>
    match s.links i with
    | none => none
    | some link =>
      match link.client.said.reverse[link.delivered]? with
      | none => none
      | some request =>
        (Server.step fromStr difficulty s.server
            (.line i (print (Incoming.request request).toValue))).map fun server =>
          { setLink s i { link with delivered := link.delivered + 1 } with server := server }
  | .receive i =>
    match s.links i, s.server.threads[i]? with
    | some link, some t =>
      match t.sent.reverse[link.received]? with
      | none => none
      | some line =>
        let text := print line.toValue
        let link := { link with received := link.received + 1 }
        if isBlank text then some (s.setLink i link)
        else
          match Incoming.parse fromStr text with
          -- A line that cannot be parsed is printed and dropped.
          | none => some (s.setLink i link)
          | some message =>
            (link.client.receive (worker i) message).map fun client =>
              s.setLink i { link with client := client }
    | _, _ => none
  | .act i action =>
    match s.links i with
    | none => none
    | some link => (link.client.act (worker i) action).map fun client =>
        s.setLink i { link with client := client }
  | .stop i =>
    match s.links i with
    | none => none
    | some link => some (s.setLink i { link with client.phase := .ended })

/-- What an event is for the pool. -/
def poolEvent (s : System) : SystemEvent → Option Event
  | .pool event => some event
  | .join => some .connect
  | .deliver i =>
    match s.links i with
    | none => none
    | some link => (link.client.said.reverse[link.delivered]?).map fun request =>
        .line i (print (Incoming.request request).toValue)
  | .receive _ | .act _ _ | .stop _ => none

/-- The library reads back the line that it has written: an object with the same fields,
except that the number of a difficulty may be another one. -/
def Reads (message : Incoming) : Prop :=
  isBlank (print message.toValue) = false ∧
    ∃ found, fromStr (print message.toValue) = some (.object found) ∧ ∀ name,
      (isDifficulty message = true ∧ name = "params".toList) ∨
        found.lookup name = message.fields.lookup name

/-- The message that an event carries over, if it does. -/
def carried (s : System) : SystemEvent → Option Incoming
  | .deliver i =>
    match s.links i with
    | none => none
    | some link => (link.client.said.reverse[link.delivered]?).map Incoming.request
  | .receive i =>
    match s.links i, s.server.threads[i]? with
    | some link, some t => t.sent.reverse[link.received]?
    | _, _ => none
  | .pool _ | .join | .act _ _ | .stop _ => none

/-- **A line that is carried over is read back.** -/
def Carries (s : System) (event : SystemEvent) : Prop :=
  ∀ message, s.carried event = some message → Reads fromStr print message

end

/-! ### What an event does -/

variable {fromStr : Str → Option Value} {print : Value → Str} {difficulty : UInt32 → Value}
  {worker : ℕ → Str} {s s' : System} {i : ℕ}

theorem step_pool {event : Event}
    (h : step fromStr print difficulty worker s (.pool event) = some s') :
    s.owned event = false ∧ ∃ server, Server.step fromStr difficulty s.server event = some server ∧
      s' = { s with server := server } := by
  rw [step] at h
  split_ifs at h with howned
  obtain ⟨server, hserver, rfl⟩ := Option.map_eq_some_iff.mp h
  exact ⟨(Bool.not_eq_true _).mp howned, server, hserver, rfl⟩

theorem step_join (h : step fromStr print difficulty worker s .join = some s') :
    ∃ server, Server.step fromStr difficulty s.server .connect = some server ∧
      s' = { setLink s s.server.threads.length .new with server := server } := by
  rw [step] at h
  obtain ⟨server, hserver, rfl⟩ := Option.map_eq_some_iff.mp h
  exact ⟨server, hserver, rfl⟩

theorem step_deliver (h : step fromStr print difficulty worker s (.deliver i) = some s') :
    ∃ link request server, s.links i = some link ∧
      link.client.said.reverse[link.delivered]? = some request ∧
        Server.step fromStr difficulty s.server
          (.line i (print (Incoming.request request).toValue)) = some server ∧
            s' = { setLink s i { link with delivered := link.delivered + 1 } with
              server := server } := by
  rw [step] at h
  split at h
  · exact absurd h (by simp)
  · next link hlink =>
    split at h
    · exact absurd h (by simp)
    · next request hrequest =>
      obtain ⟨server, hserver, rfl⟩ := Option.map_eq_some_iff.mp h
      exact ⟨link, request, server, hlink, hrequest, hserver, rfl⟩

/-- A line that is read back arrives as the message that it is, or as a difficulty. -/
theorem parse_of_reads {message : Incoming} (h : Reads fromStr print message) :
    ∃ message', Incoming.parse fromStr (print message.toValue) = some message' ∧
      (message' = message ∨ isDifficulty message = true ∧ isDifficulty message' = true) := by
  obtain ⟨-, found, hread, hfields⟩ := h
  by_cases hdifficulty : isDifficulty message = true
  · cases message with
    | response r => exact absurd hdifficulty (by simp [isDifficulty])
    | request r =>
      have hother : ∀ name, name ≠ "params".toList →
          found.lookup name = r.fields.lookup name := fun name hne =>
        (hfields name).resolve_left fun h => hne h.2
      exact ⟨_, Incoming.parse_of_lookup_head (r := r) hread (hother _ (by decide))
        (hother _ (by decide)), Or.inr ⟨hdifficulty, hdifficulty⟩⟩
  · exact ⟨message, Incoming.parse_of_lookup hread fun name =>
      (hfields name).resolve_left fun h => hdifficulty h.1, Or.inl rfl⟩

/-- **A line arrives at a miner**, if it is read back: the main thread is given the message,
or a difficulty in place of a difficulty. -/
theorem step_receive (hcarries : s.Carries fromStr print (.receive i))
    (h : step fromStr print difficulty worker s (.receive i) = some s') :
    ∃ link t line message client, s.links i = some link ∧ s.server.threads[i]? = some t ∧
      t.sent.reverse[link.received]? = some line ∧
        (message = line ∨ isDifficulty line = true ∧ isDifficulty message = true) ∧
          link.client.receive (worker i) message = some client ∧
            s' = s.setLink i { link with received := link.received + 1, client := client } := by
  rw [step] at h
  split at h
  · next link t hlink ht =>
    split at h
    · exact absurd h (by simp)
    · next line hline =>
      have hreads : Reads fromStr print line := by
        refine hcarries line ?_
        rw [carried, hlink, ht]
        exact hline
      obtain ⟨message, hparse, hmessage⟩ := parse_of_reads hreads
      dsimp only at h
      rw [hreads.1, hparse] at h
      obtain ⟨client, hclient, rfl⟩ := Option.map_eq_some_iff.mp h
      exact ⟨link, t, line, message, client, hlink, ht, hline, hmessage, hclient, rfl⟩
  · exact absurd h (by simp)

theorem step_act {action : MinerAction}
    (h : step fromStr print difficulty worker s (.act i action) = some s') :
    ∃ link client, s.links i = some link ∧ link.client.act (worker i) action = some client ∧
      s' = s.setLink i { link with client := client } := by
  rw [step] at h
  split at h
  · exact absurd h (by simp)
  · next link hlink =>
    obtain ⟨client, hclient, rfl⟩ := Option.map_eq_some_iff.mp h
    exact ⟨link, client, hlink, hclient, rfl⟩

theorem step_stop (h : step fromStr print difficulty worker s (.stop i) = some s') :
    ∃ link, s.links i = some link ∧
      s' = s.setLink i { link with client.phase := .ended } := by
  rw [step] at h
  split at h
  · exact absurd h (by simp)
  · next link hlink => exact ⟨link, hlink, (Option.some.inj h).symm⟩

/-! ### The pool in a run -/

/-- **One event of the system** is one event of the pool, or none. -/
theorem server_of_step {event : SystemEvent}
    (h : step fromStr print difficulty worker s event = some s') :
    match s.poolEvent print event with
    | none => s'.server = s.server
    | some event => Server.step fromStr difficulty s.server event = some s'.server := by
  cases event with
  | pool event =>
    obtain ⟨-, server, hserver, rfl⟩ := step_pool h
    exact hserver
  | join =>
    obtain ⟨server, hserver, rfl⟩ := step_join h
    exact hserver
  | deliver i =>
    obtain ⟨link, request, server, hlink, hrequest, hserver, rfl⟩ := step_deliver h
    rw [poolEvent, hlink]
    dsimp only
    rw [hrequest]
    exact hserver
  | receive i =>
    rw [poolEvent]
    rw [step] at h
    split at h
    · split at h
      · exact absurd h (by simp)
      · dsimp only at h
        split_ifs at h
        · obtain rfl := Option.some.inj h
          rfl
        · split at h
          · obtain rfl := Option.some.inj h
            rfl
          · obtain ⟨client, -, rfl⟩ := Option.map_eq_some_iff.mp h
            rfl
    · exact absurd h (by simp)
  | act i action =>
    obtain ⟨link, client, -, -, rfl⟩ := step_act h
    rfl
  | stop i =>
    obtain ⟨link, -, rfl⟩ := step_stop h
    rfl

/-- **A run of the system is, for the pool, a run of its threads.** -/
theorem exec_server {events : List SystemEvent}
    (h : StepSystem.exec (step fromStr print difficulty worker) s events = some s') :
    ∃ events', StepSystem.exec (Server.step fromStr difficulty) s.server events' =
      some s'.server := by
  induction events generalizing s with
  | nil =>
    obtain rfl := Option.some.inj h
    exact ⟨[], rfl⟩
  | cons event events ih =>
    obtain ⟨s₁, hstep, hrest⟩ := Option.bind_eq_some_iff.mp h
    obtain ⟨later, hlater⟩ := ih hrest
    have hserver := server_of_step hstep
    split at hserver
    · rw [hserver] at hlater
      exact ⟨later, hlater⟩
    · next event' _ =>
      refine ⟨event' :: later, ?_⟩
      rw [StepSystem.exec_cons, hserver]
      exact hlater

end System

end SoloMiner
