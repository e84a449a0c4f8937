import SoloMiner.Pool.Stage

/-!
# The search space of a connection

The pool coordinates its miners by one thing alone: each connection has an extranonce1
of its own, so that no two miners build the same coinbase. It is the low half of the
connection's 64-bit id, and the ids go up by one with every connection. So two sessions
have the same one if the first is still connected when the second comes exactly a
multiple of `2 ^ 32` connections later, and
`SoloMiner.Server.distinctSpaces_iff` says that there is no other way.
-/

namespace SoloMiner

open Json

/-! ### From an id to a coinbase -/

/-- **Two ids have one extranonce1** precisely if their low halves agree. -/
theorem extranonce1_eq_iff {id id' : UInt64} {outbound outbound' : Channel} :
    (Session.new id outbound).extranonce1 = (Session.new id' outbound').extranonce1 ↔
      id.toUInt32 = id'.toUInt32 := by
  constructor
  · intro h
    have hlist : Base256.toBE 4 id.toUInt32.toNat = Base256.toBE 4 id'.toUInt32.toNat :=
      congrArg List.Vector.toList h
    have hnat := congrArg Base256.ofBE hlist
    have hlt := id.toUInt32.toNat_lt
    have hlt' := id'.toUInt32.toNat_lt
    rw [Base256.ofBE_toBE_of_lt (by omega), Base256.ofBE_toBE_of_lt (by omega)] at hnat
    exact UInt32.toNat_inj.mp hnat
  · intro h
    rw [Session.new, Session.new, h]

/-- Coinbases with different extranonce1 differ, whatever is rolled. -/
theorem Job.coinbase_ne (job : Job) {first second : ByteArr 4} (h : first ≠ second)
    (extranonce2 extranonce2' : Bytes) :
    job.coinbase first.toList extranonce2 ≠ job.coinbase second.toList extranonce2' := by
  intro heq
  rw [Job.coinbase, Job.coinbase] at heq
  simp only [List.append_assoc] at heq
  obtain ⟨-, hrest⟩ := List.append_inj heq rfl
  obtain ⟨hfirst, -⟩ := List.append_inj hrest (by rw [first.toList_length, second.toList_length])
  exact h (arr_ext hfirst)

namespace Server

variable {fromStr : Str → Option Value} {difficulty : UInt32 → Value} {s s' : Server}

/-- **No two connected miners share their search space**: their extranonce1 differ, and
so do the coinbases of every job, whatever the two extranonce2 are. -/
def DistinctSpaces (s : Server) : Prop :=
  ∀ (i j : ℕ) (t u : Thread), i ≠ j → s.threads[i]? = some t → s.threads[j]? = some u →
    t.Alive → u.Alive → t.session.extranonce1 ≠ u.session.extranonce1 ∧
      ∀ (job : Job) (extranonce2 extranonce2' : Bytes), extranonce2.length = EXTRANONCE2_SIZE →
        extranonce2'.length = EXTRANONCE2_SIZE →
          job.coinbase t.session.extranonce1.toList extranonce2 ≠
            job.coinbase u.session.extranonce1.toList extranonce2'

/-- A new connection comes at a moment when no session is connected whose id is a
multiple of `2 ^ 32` away from the id that it gets. -/
def FreshConnection (s : Server) : Event → Prop
  | .connect => ∀ (i : ℕ) (t : Thread), s.threads[i]? = some t → t.Alive →
    t.session.connectionId.toUInt32 ≠ s.pool.nextConnectionId.toUInt32
  | _ => True

/-- The half of the extranonce that a wired session has. -/
theorem Wired.extranonce1 (hs : s.Wired difficulty) {i : ℕ} {t : Thread}
    (ht : s.threads[i]? = some t) :
    t.session.extranonce1 = (Session.new t.session.connectionId i).extranonce1 :=
  (hs i t ht).extranonce1

/-- Distinct spaces, by the ids of the connections. -/
theorem Wired.distinctSpaces_iff (hs : s.Wired difficulty) :
    s.DistinctSpaces ↔ ∀ (i j : ℕ) (t u : Thread), i ≠ j → s.threads[i]? = some t →
      s.threads[j]? = some u → t.Alive → u.Alive →
        t.session.connectionId.toUInt32 ≠ u.session.connectionId.toUInt32 := by
  constructor
  · intro h i j t u hij ht hu halive halive' hid
    refine (h i j t u hij ht hu halive halive').1 ?_
    rw [hs.extranonce1 ht, hs.extranonce1 hu]
    exact extranonce1_eq_iff.mpr hid
  · intro h i j t u hij ht hu halive halive'
    have hne : t.session.extranonce1 ≠ u.session.extranonce1 := by
      rw [hs.extranonce1 ht, hs.extranonce1 hu]
      exact fun heq => h i j t u hij ht hu halive halive' (extranonce1_eq_iff.mp heq)
    exact ⟨hne, fun job extranonce2 extranonce2' _ _ => job.coinbase_ne hne _ _⟩

theorem distinctSpaces_init : init.DistinctSpaces := by
  intro i j t u _ ht
  exact absurd ht (by simp [init])

/-- **One event keeps the spaces distinct** precisely if it is no connection, or a fresh
one. -/
theorem Wired.step_distinctSpaces_iff (hs : s.Wired difficulty) (h : s.DistinctSpaces)
    {event : Event} (hstep : step fromStr difficulty s event = some s') :
    s'.DistinctSpaces ↔ s.FreshConnection event := by
  rw [(hs.of_step hstep).distinctSpaces_iff]
  rw [hs.distinctSpaces_iff] at h
  constructor
  · intro h'
    cases event with
    | connect =>
      intro i t ht halive hid
      obtain rfl := step_connect hstep
      -- The new thread runs as well, and its id is the one that was allocated.
      have hlt : i < s.threads.length := (List.getElem?_eq_some_iff.mp ht).1
      refine h' i s.threads.length t (.new s.pool.nextConnectionId s.threads.length)
        (Nat.ne_of_lt hlt) ?_ List.getElem?_concat_length halive
        (Thread.alive_of_waiting rfl) hid
      rw [List.getElem?_append_left hlt, ht]
    | _ => trivial
  · intro hfresh i j t u hij ht hu halive halive'
    rcases hs.step_thread hstep ht with ⟨t₀, ht₀, hcont⟩ | ⟨rfl, hi, rfl⟩
    · rcases hs.step_thread hstep hu with ⟨u₀, hu₀, hcont'⟩ | ⟨rfl, hj, rfl⟩
      · rw [hcont.connectionId, hcont'.connectionId]
        exact h i j t₀ u₀ hij ht₀ hu₀ (hcont.alive halive) (hcont'.alive halive')
      · rw [hcont.connectionId]
        exact hfresh i t₀ ht₀ (hcont.alive halive)
    · rcases hs.step_thread hstep hu with ⟨u₀, hu₀, hcont'⟩ | ⟨-, hj, -⟩
      · rw [hcont'.connectionId]
        exact (hfresh j u₀ hu₀ (hcont'.alive halive')).symm
      · exact absurd (hi.trans hj.symm) hij

/-- **When the spaces of a run are distinct.** No two connected miners ever share their
search space precisely if every connection of the run is fresh. -/
theorem always_distinctSpaces_iff (fromStr : Str → Option Value) (difficulty : UInt32 → Value)
    (events : List Event) :
    StepSystem.Always (step fromStr difficulty) DistinctSpaces init events ↔
      StepSystem.EachStep (step fromStr difficulty) FreshConnection init events :=
  StepSystem.always_iff_eachStep (fun _ _ _ hs hstep => Wired.of_step hs hstep)
    (fun _ _ _ hs h hstep => Wired.step_distinctSpaces_iff hs h hstep) events
    (wired_init : init.Wired difficulty) distinctSpaces_init

/-! ### After the counter's low half has wrapped -/

variable (fromStr difficulty) in
/-- A connection that comes and goes leaves a thread that has returned, and the counter
one further. -/
theorem exec_comeAndGo (s : Server) : ∃ s' gone,
    StepSystem.exec (step fromStr difficulty) s
        [.connect, .hangUp s.threads.length, .unregister s.threads.length] = some s' ∧
      s'.threads = s.threads ++ [gone] ∧
        s'.pool.nextConnectionId = s.pool.nextConnectionId + 1 := by
  have hclose : ∀ t u : Thread,
      (s.threads ++ [t]).set s.threads.length u = s.threads ++ [u] := by
    intro t u
    rw [List.set_append_right _ _ le_rfl, Nat.sub_self]
    rfl
  refine ⟨{ s with
    pool := s.pool.allocateConnectionId.2.unsubscribe s.pool.nextConnectionId
    threads := s.threads ++
      [{ Thread.new s.pool.nextConnectionId s.threads.length with phase := .returned }] },
    _, ?_, rfl, rfl⟩
  simp only [StepSystem.exec, step, setThread, Option.bind_some, List.getElem?_concat_length,
    Thread.new, hclose]
  rfl

/-- Connections that come and go, `n` of them, the first with channel `i`. -/
def churn : ℕ → ℕ → List Event
  | _, 0 => []
  | i, n + 1 => [.connect, .hangUp i, .unregister i] ++ churn (i + 1) n

variable (fromStr difficulty) in
theorem exec_churn (n : ℕ) : ∀ s : Server, ∃ s' gone,
    StepSystem.exec (step fromStr difficulty) s (churn s.threads.length n) = some s' ∧
      s'.threads = s.threads ++ gone ∧ gone.length = n ∧
        s'.pool.nextConnectionId = s.pool.nextConnectionId + UInt64.ofNat n := by
  induction n with
  | zero => exact fun s => ⟨s, [], rfl, (List.append_nil _).symm, rfl, (UInt64.add_zero _).symm⟩
  | succ n ih =>
    intro s
    obtain ⟨s₁, first, hexec, hthreads, hnext⟩ :=
      exec_comeAndGo fromStr difficulty s
    obtain ⟨s₂, gone, hexec', hthreads', hlen, hnext'⟩ := ih s₁
    refine ⟨s₂, first :: gone, ?_, ?_, ?_, ?_⟩
    · rw [hthreads, List.length_append, List.length_singleton] at hexec'
      rw [churn, StepSystem.exec_append, hexec, Option.bind_some, hexec']
    · rw [hthreads', hthreads, List.append_assoc]
      rfl
    · rw [List.length_cons, hlen]
    · rw [hnext', hnext, UInt64.ofNat_add, UInt64.add_assoc, UInt64.add_comm 1]
      rfl

variable (fromStr difficulty) in
/-- One miner stays connected while others come and go, and one more comes. -/
theorem exec_stay (n : ℕ) : ∃ s,
    StepSystem.exec (step fromStr difficulty) init (.connect :: (churn 1 n ++ [.connect])) =
        some s ∧
      s.threads[0]? = some (.new 1 0) ∧
        s.threads[n + 1]? = some (.new (2 + UInt64.ofNat n) (n + 1)) := by
  obtain ⟨s, gone, hexec, hthreads, hlen, hnext⟩ :=
    exec_churn fromStr difficulty n
      { init with pool := init.pool.allocateConnectionId.2, threads := [.new 1 0] }
  have hcount : s.threads.length = n + 1 := by
    rw [hthreads, List.length_append, hlen, Nat.add_comm]
    rfl
  refine ⟨{ s with
    pool := s.pool.allocateConnectionId.2
    threads := s.threads ++ [.new s.pool.nextConnectionId s.threads.length] }, ?_, ?_, ?_⟩
  · have hfirst : step fromStr difficulty init .connect =
        some { init with pool := init.pool.allocateConnectionId.2, threads := [.new 1 0] } := rfl
    have hchurn : StepSystem.exec (step fromStr difficulty)
        { init with pool := init.pool.allocateConnectionId.2, threads := [.new 1 0] }
        (churn 1 n) = some s := hexec
    rw [StepSystem.exec_cons, hfirst, Option.bind_some, StepSystem.exec_append, hchurn]
    rfl
  · rw [hthreads]
    rfl
  · rw [← hcount, List.getElem?_concat_length, hnext]
    rfl

/-- One miner stays connected while `2 ^ 32 - 1` others come and go. The next one gets
its extranonce1. -/
theorem not_always_distinctSpaces :
    ¬ StepSystem.Always (step (fun _ => none) fun _ => .null) DistinctSpaces init
      (.connect :: (churn 1 (2 ^ 32 - 1) ++ [.connect])) := by
  intro h
  obtain ⟨s, hexec, hfirst, hlast⟩ :=
    exec_stay (fun _ => none) (fun _ => .null) (2 ^ 32 - 1)
  refine (h.last hexec 0 _ _ _ (by omega) hfirst hlast
    (Thread.alive_of_waiting rfl) (Thread.alive_of_waiting rfl)).1 (extranonce1_eq_iff.mpr ?_)
  decide

end Server

end SoloMiner
