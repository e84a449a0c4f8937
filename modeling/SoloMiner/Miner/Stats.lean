import SoloMiner.Lib.StepSystem
import SoloMiner.Mining.Search

/-!
# The counters of the mining threads

Every mining thread records its batches in one set of counters: how many hashes there
were, and the best of them. The best hash is behind a mutex, and in front of the mutex is
a filter, which lets a hash pass that has more leading zero bits than the best one so far.

A call of `record` is a few steps, between which other threads take theirs: the count is
added, the filter is read, and if the hash passes the lock is taken, the hashes are
compared, and the zero bits of a new best hash are stored before the lock is given back.
A run is any order of such steps (`SoloMiner.Recorders.step`).

The best hash is the lowest of those that passed the filter
(`SoloMiner.Recorders.Inv`), whatever the order; but the filter is coarser than the
comparison behind it, and holds back a lower hash with as many zero bits. So what is
reported is the lowest hash recorded exactly in the runs in which a call with that hash
passes the filter, or no hash is lower than the start value
(`SoloMiner.Recorders.reports_iff`).
-/

namespace SoloMiner

open Search StepSystem

/-- Counters shared by every mining thread. -/
structure Stats where
  /-- Hashes computed. -/
  hashes : UInt64
  /-- Leading zero bits of the best hash, a filter in front of the mutex. -/
  bestZeroBits : ℕ
  /-- The best hash, behind the mutex. -/
  best : Sha256dHash
  deriving DecidableEq

namespace Stats

/-- Zeroed counters, and the highest hash. -/
def new : Stats := ⟨0, 0, ALL_ONES⟩

/-- Total hashes computed since start. -/
def totalHashes (self : Stats) : UInt64 := self.hashes

/-- The method `best`: the hash behind the mutex, and its leading zero bit count. -/
def readBest (self : Stats) : Sha256dHash × ℕ := (self.best, self.best.leadingZeroBits)

end Stats

/-! ### Calls of `record` -/

/-- Where a thread is in `record`, with the hash that it records. -/
inductive Recording where
  /-- It is not in a call. -/
  | outside
  /-- The count is added. -/
  | added (best : Sha256dHash)
  /-- The hash has passed the filter. -/
  | passed (best : Sha256dHash)
  /-- The lock is held, and the hash is the best one. -/
  | stored (best : Sha256dHash)
  deriving DecidableEq

/-- The counters, and the threads that record in them. -/
structure Recorders (τ : Type) where
  /-- The counters. -/
  stats : Stats
  /-- Who holds the mutex. -/
  holder : Option τ
  /-- Where each thread is. -/
  threads : τ → Recording

/-- A step of a thread in `record`. -/
inductive RecordAction (τ : Type) where
  /-- A call begins: `fetch_add` on the count. -/
  | add (t : τ) (hashes : UInt64) (best : Sha256dHash)
  /-- The filter is read, and the call returns or goes on. -/
  | filter (t : τ)
  /-- The lock is taken; a hash that is no lower gives it back and returns. -/
  | lock (t : τ)
  /-- The zero bits are stored, the lock is given back, and the call returns. -/
  | store (t : τ)

namespace Recorders

variable {τ : Type}

/-- No call yet. -/
def init : Recorders τ := ⟨.new, none, fun _ => .outside⟩

variable [DecidableEq τ]

/-- The thread is somewhere else. -/
def goto (self : Recorders τ) (t : τ) (r : Recording) : Recorders τ :=
  { self with threads := Function.update self.threads t r }

/-- One step of one call. -/
def step (self : Recorders τ) : RecordAction τ → Option (Recorders τ)
  | .add t hashes best =>
    match self.threads t with
    | .outside =>
      some ({ self with stats := { self.stats with hashes := self.stats.hashes + hashes } }.goto t
        (.added best))
    | _ => none
  | .filter t =>
    match self.threads t with
    | .added best =>
      if best.leadingZeroBits ≤ self.stats.bestZeroBits then some (self.goto t .outside)
      else some (self.goto t (.passed best))
    | _ => none
  | .lock t =>
    match self.threads t, self.holder with
    | .passed best, none =>
      if best.isBelow self.stats.best then
        some ({ self with stats := { self.stats with best := best }, holder := some t }.goto t
          (.stored best))
      else some (self.goto t .outside)
    | _, _ => none
  | .store t =>
    match self.threads t with
    | .stored best =>
      some ({ self with stats := { self.stats with bestZeroBits := best.leadingZeroBits },
                        holder := none }.goto t .outside)
    | _ => none

/-! ### What a run records, and what passes the filter -/

/-- What a step starts to record. -/
def callBy : RecordAction τ → Option (UInt64 × Sha256dHash)
  | .add _ hashes best => some (hashes, best)
  | _ => none

/-- The calls of a run, in the order of their counts. -/
def calls (actions : List (RecordAction τ)) : List (UInt64 × Sha256dHash) :=
  actions.filterMap callBy

/-- The hash that a step lets pass the filter. -/
def passedBy (self : Recorders τ) : RecordAction τ → List Sha256dHash
  | .filter t =>
    match self.threads t with
    | .added best => if best.leadingZeroBits ≤ self.stats.bestZeroBits then [] else [best]
    | _ => []
  | _ => []

/-- The hashes that pass the filter in a run. -/
def passed : Recorders τ → List (RecordAction τ) → List Sha256dHash
  | _, [] => []
  | s, action :: actions =>
    match step s action with
    | none => []
    | some s' => passedBy s action ++ passed s' actions

/-- The total of the counts of the calls. -/
def total (calls : List (UInt64 × Sha256dHash)) : ℕ := (calls.map fun call => call.1.toNat).sum

/-! ### What a step can do -/

/-- Where a thread goes is where it is, and nobody else moves. -/
theorem threads_goto (self : Recorders τ) (t u : τ) (r : Recording) :
    (self.goto t r).threads u = if u = t then r else self.threads u :=
  Function.update_apply self.threads t r u

/-- **What a step can do**: it starts a call, filters a hash out or lets it pass, compares
it behind the lock, or gives the lock back. -/
theorem step_cases {s s' : Recorders τ} {action : RecordAction τ} (h : step s action = some s') :
    (∃ t hashes best, action = .add t hashes best ∧ s.threads t = .outside ∧
      s' = { s with stats := { s.stats with hashes := s.stats.hashes + hashes } }.goto t
        (.added best)) ∨
    (∃ t best, action = .filter t ∧ s.threads t = .added best ∧
      (best.leadingZeroBits ≤ s.stats.bestZeroBits ∧ s' = s.goto t .outside ∨
        s.stats.bestZeroBits < best.leadingZeroBits ∧ s' = s.goto t (.passed best))) ∨
    (∃ t best, action = .lock t ∧ s.threads t = .passed best ∧
      (best.isBelow s.stats.best = true ∧
          s' = { s with stats := { s.stats with best := best }, holder := some t }.goto t
            (.stored best) ∨
        best.isBelow s.stats.best = false ∧ s' = s.goto t .outside)) ∨
    ∃ t best, action = .store t ∧ s.threads t = .stored best ∧
      s' = { s with stats := { s.stats with bestZeroBits := best.leadingZeroBits },
                    holder := none }.goto t .outside := by
  cases action with
  | add t hashes best =>
    rw [step] at h
    cases hthread : s.threads t <;> simp only [hthread, Option.some.injEq, reduceCtorEq] at h
    exact Or.inl ⟨t, hashes, best, rfl, hthread, h.symm⟩
  | filter t =>
    rw [step] at h
    cases hthread : s.threads t <;> simp only [hthread, reduceCtorEq] at h
    rename_i best
    refine Or.inr (Or.inl ⟨t, best, rfl, hthread, ?_⟩)
    split_ifs at h with hle
    · exact Or.inl ⟨hle, (Option.some.inj h).symm⟩
    · exact Or.inr ⟨not_le.mp hle, (Option.some.inj h).symm⟩
  | lock t =>
    rw [step] at h
    cases hthread : s.threads t <;> simp only [hthread, reduceCtorEq] at h
    rename_i best
    cases hholder : s.holder <;> simp only [hholder, reduceCtorEq] at h
    refine Or.inr (Or.inr (Or.inl ⟨t, best, rfl, hthread, ?_⟩))
    split_ifs at h with hbelow
    · exact Or.inl ⟨hbelow, (Option.some.inj h).symm⟩
    · exact Or.inr ⟨Bool.eq_false_iff.mpr hbelow, (Option.some.inj h).symm⟩
  | store t =>
    rw [step] at h
    cases hthread : s.threads t <;> simp only [hthread, Option.some.injEq, reduceCtorEq] at h
    rename_i best
    exact Or.inr (Or.inr (Or.inr ⟨t, best, rfl, hthread, h.symm⟩))

/-! ### The best hash is the lowest that passed the filter -/

/-- What holds after a run with so many hashes counted, these hashes recorded, and these
past the filter. -/
structure Tracks (s : Recorders τ) (counted : ℕ) (hs ps : List Sha256dHash) : Prop where
  /-- The counts were added, in 64 bits. -/
  hashes : s.stats.hashes.toNat = counted % 2 ^ 64
  /-- The best hash has passed the filter, or is the start value. -/
  attained : s.stats.best ∈ ALL_ONES :: ps
  /-- A lower hash that has passed the filter is still before the lock. -/
  lowest : ∀ h ∈ ps, s.stats.best.value ≤ h.value ∨ ∃ t, s.threads t = .passed h
  /-- Nothing passes that is not recorded. -/
  subset : ps ⊆ hs
  /-- The filter holds the zero bits of a hash that has passed it, if any. -/
  published : s.stats.bestZeroBits = 0 ∨ ∃ h ∈ ps, s.stats.bestZeroBits = h.leadingZeroBits
  added : ∀ t h, s.threads t = .added h → h ∈ hs
  waiting : ∀ t h, s.threads t = .passed h → h ∈ ps
  storing : ∀ t h, s.threads t = .stored h → h ∈ ps

variable {s s' : Recorders τ} {action : RecordAction τ} {actions : List (RecordAction τ)}
  {counted : ℕ} {hs ps : List Sha256dHash} {t : τ} {best : Sha256dHash}

omit [DecidableEq τ] in
theorem tracks_init : Tracks (init : Recorders τ) 0 [] [] where
  hashes := rfl
  attained := List.mem_singleton.mpr rfl
  lowest _ hmem := absurd hmem List.not_mem_nil
  subset := List.nil_subset []
  published := Or.inl rfl
  added _ _ hthread := Recording.noConfusion hthread
  waiting _ _ hthread := Recording.noConfusion hthread
  storing _ _ hthread := Recording.noConfusion hthread

/-- A thread may go where its hash may. -/
def Recording.May (hs ps : List Sha256dHash) : Recording → Prop
  | .outside => True
  | .added h => h ∈ hs
  | .passed h => h ∈ ps
  | .stored h => h ∈ ps

/-- **A thread moves**: what is tracked stays so if the thread did not wait before the
lock, or its hash is no lower than the best one, and goes where its hash may. -/
theorem Tracks.goto (htracks : Tracks s counted hs ps) {r : Recording}
    (hleft : ∀ h, s.threads t = .passed h → s.stats.best.value ≤ h.value)
    (hmay : Recording.May hs ps r) : Tracks (s.goto t r) counted hs ps where
  hashes := htracks.hashes
  attained := htracks.attained
  lowest h hmem := by
    rcases htracks.lowest h hmem with hle | ⟨u, hu⟩
    · exact Or.inl hle
    · by_cases heq : u = t
      · exact Or.inl (hleft h (heq ▸ hu))
      · exact Or.inr ⟨u, by rw [threads_goto, if_neg heq, hu]⟩
  subset := htracks.subset
  published := htracks.published
  added u h hu := by
    rw [threads_goto] at hu
    split_ifs at hu with heq
    · rwa [hu] at hmay
    · exact htracks.added u h hu
  waiting u h hu := by
    rw [threads_goto] at hu
    split_ifs at hu with heq
    · rwa [hu] at hmay
    · exact htracks.waiting u h hu
  storing u h hu := by
    rw [threads_goto] at hu
    split_ifs at hu with heq
    · rwa [hu] at hmay
    · exact htracks.storing u h hu

omit [DecidableEq τ] in
/-- A hash is recorded: nothing that is tracked minds a longer list, or the count. -/
theorem Tracks.count (htracks : Tracks s counted hs ps) (hashes : UInt64) (best : Sha256dHash) :
    Tracks { s with stats := { s.stats with hashes := s.stats.hashes + hashes } }
      (counted + hashes.toNat) (hs ++ [best]) ps where
  hashes := by rw [UInt64.toNat_add, htracks.hashes, Nat.mod_add_mod]
  attained := htracks.attained
  lowest := htracks.lowest
  subset h hmem := List.mem_append_left _ (htracks.subset hmem)
  published := htracks.published
  added u h hu := List.mem_append_left _ (htracks.added u h hu)
  waiting := htracks.waiting
  storing := htracks.storing

/-- A hash passes the filter, and its thread waits for the lock. -/
theorem Tracks.pass (htracks : Tracks s counted hs ps) (ht : s.threads t = .added best) :
    Tracks (s.goto t (.passed best)) counted hs (ps ++ [best]) where
  hashes := htracks.hashes
  attained := List.mem_append_left [best] htracks.attained
  lowest h hmem := by
    rcases List.mem_append.mp hmem with hmem | hmem
    · refine (htracks.lowest h hmem).imp_right fun ⟨u, hu⟩ => ⟨u, ?_⟩
      have hne : u ≠ t := fun heq => Recording.noConfusion (ht.symm.trans (heq ▸ hu))
      rw [threads_goto, if_neg hne, hu]
    · obtain rfl := List.mem_singleton.mp hmem
      exact Or.inr ⟨t, by rw [threads_goto, if_pos rfl]⟩
  subset h hmem := by
    rcases List.mem_append.mp hmem with hmem | hmem
    · exact htracks.subset hmem
    · obtain rfl := List.mem_singleton.mp hmem
      exact htracks.added t h ht
  published := htracks.published.imp_right fun ⟨h, hmem, heq⟩ =>
    ⟨h, List.mem_append_left _ hmem, heq⟩
  added u h hu := by
    rw [threads_goto] at hu
    split_ifs at hu with heq
    exact htracks.added u h hu
  waiting u h hu := by
    rw [threads_goto] at hu
    split_ifs at hu with heq
    · obtain rfl := Recording.passed.inj hu
      exact List.mem_append_right _ List.mem_cons_self
    · exact List.mem_append_left _ (htracks.waiting u h hu)
  storing u h hu := by
    rw [threads_goto] at hu
    split_ifs at hu with heq
    exact List.mem_append_left _ (htracks.storing u h hu)

omit [DecidableEq τ] in
/-- A lower hash becomes the best one. -/
theorem Tracks.improve (htracks : Tracks s counted hs ps) (hmem : best ∈ ps)
    (hbelow : best.isBelow s.stats.best = true) (holder : Option τ) :
    Tracks { s with stats := { s.stats with best := best }, holder := holder } counted hs ps where
  hashes := htracks.hashes
  attained := List.mem_cons_of_mem _ hmem
  lowest h hh := (htracks.lowest h hh).imp_left fun hle =>
    le_trans (Sha256dHash.isBelow_iff.mp hbelow).le hle
  subset := htracks.subset
  published := htracks.published
  added := htracks.added
  waiting := htracks.waiting
  storing := htracks.storing

omit [DecidableEq τ] in
/-- The zero bits of a hash that has passed the filter are stored in it. -/
theorem Tracks.publish (htracks : Tracks s counted hs ps) (hmem : best ∈ ps)
    (holder : Option τ) :
    Tracks { s with
      stats := { s.stats with bestZeroBits := best.leadingZeroBits }, holder := holder }
      counted hs ps where
  hashes := htracks.hashes
  attained := htracks.attained
  lowest := htracks.lowest
  subset := htracks.subset
  published := Or.inr ⟨best, hmem, rfl⟩
  added := htracks.added
  waiting := htracks.waiting
  storing := htracks.storing

/-- **The step lemma**: what is tracked before a step is tracked after it, together with
what the step records and lets pass. -/
theorem Tracks.after_step (htracks : Tracks s counted hs ps) (h : step s action = some s') :
    Tracks s' (counted + total (calls [action])) (hs ++ (calls [action]).map Prod.snd)
      (ps ++ passedBy s action) := by
  obtain ⟨t, hashes, best, rfl, ht, rfl⟩ | ⟨t, best, rfl, ht, hfilter⟩ |
    ⟨t, best, rfl, ht, hlock⟩ | ⟨t, best, rfl, ht, rfl⟩ := step_cases h
  · have hpassed : ps ++ passedBy s (.add t hashes best) = ps := List.append_nil ps
    rw [hpassed]
    exact (htracks.count hashes best).goto
      (fun h heq => Recording.noConfusion (ht.symm.trans heq))
      (List.mem_append_right hs List.mem_cons_self)
  · have hcalls : hs ++ (calls [RecordAction.filter t]).map Prod.snd = hs := List.append_nil hs
    rw [hcalls]
    rcases hfilter with ⟨hle, rfl⟩ | ⟨hlt, rfl⟩
    · have hpassed : passedBy s (.filter t) = [] := by simp only [passedBy, ht, if_pos hle]
      rw [hpassed, List.append_nil]
      exact htracks.goto (fun h heq => Recording.noConfusion (ht.symm.trans heq)) trivial
    · have hpassed : passedBy s (.filter t) = [best] := by
        simp only [passedBy, ht, if_neg (not_le.mpr hlt)]
      rw [hpassed]
      exact htracks.pass ht
  · have hcalls : hs ++ (calls [RecordAction.lock t]).map Prod.snd = hs := List.append_nil hs
    have hpassed : ps ++ passedBy s (.lock t) = ps := List.append_nil ps
    have hmem := htracks.waiting t best ht
    rw [hcalls, hpassed]
    rcases hlock with ⟨hbelow, rfl⟩ | ⟨habove, rfl⟩
    · refine (htracks.improve hmem hbelow (some t)).goto (fun h heq => ?_) hmem
      rw [Recording.passed.inj (ht.symm.trans heq)]
    · refine htracks.goto (fun h heq => ?_) trivial
      rw [← Recording.passed.inj (ht.symm.trans heq)]
      exact not_lt.mp (Sha256dHash.isBelow_iff.not.mp (Bool.eq_false_iff.mp habove))
  · have hcalls : hs ++ (calls [RecordAction.store t]).map Prod.snd = hs := List.append_nil hs
    have hpassed : ps ++ passedBy s (.store t) = ps := List.append_nil ps
    rw [hcalls, hpassed]
    exact (htracks.publish (htracks.storing t best ht) none).goto
      (fun h heq => Recording.noConfusion (ht.symm.trans heq)) trivial

omit [DecidableEq τ] in
theorem calls_cons (action : RecordAction τ) (actions : List (RecordAction τ)) :
    calls (action :: actions) = calls [action] ++ calls actions :=
  List.filterMap_append (l := [action])

theorem total_append (cs ds : List (UInt64 × Sha256dHash)) :
    total (cs ++ ds) = total cs + total ds := by
  simp [total]

/-- **The run lemma.** -/
theorem Tracks.after_run (htracks : Tracks s counted hs ps) (h : exec step s actions = some s') :
    Tracks s' (counted + total (calls actions)) (hs ++ (calls actions).map Prod.snd)
      (ps ++ passed s actions) := by
  induction actions generalizing s counted hs ps with
  | nil =>
    obtain rfl := Option.some.inj h
    simpa [calls, total, passed] using htracks
  | cons action actions ih =>
    obtain ⟨s₁, hstep, hrest⟩ := Option.bind_eq_some_iff.mp h
    have hrun := ih (htracks.after_step hstep) hrest
    rw [calls_cons, total_append, List.map_append, ← Nat.add_assoc, ← List.append_assoc, passed]
    simpa only [hstep, List.append_assoc] using hrun

/-! ### What is reported -/

/-- The hash is the lowest of these. -/
def IsLowest (h : Sha256dHash) (hs : List Sha256dHash) : Prop :=
  h ∈ hs ∧ ∀ h' ∈ hs, h'.isBelow h = false

/-- What the counters are meant to report of the calls. -/
structure Reports (stats : Stats) (calls : List (UInt64 × Sha256dHash)) : Prop where
  /-- The total is the sum of the counts. -/
  totalHashes : stats.totalHashes.toNat = total calls
  /-- The best hash is the lowest of those recorded and the start value. -/
  best : IsLowest stats.readBest.1 (ALL_ONES :: calls.map Prod.snd)
  /-- It is reported with its leading zero bits. -/
  zeroBits : stats.readBest.2 = stats.readBest.1.leadingZeroBits

theorem isLowest_iff {h : Sha256dHash} {hs : List Sha256dHash} :
    IsLowest h hs ↔ h ∈ hs ∧ ∀ h' ∈ hs, h.value ≤ h'.value := by
  simp only [IsLowest, Bool.eq_false_iff, Sha256dHash.isBelow_iff, not_lt, ne_eq]

/-- There is one lowest hash. -/
theorem IsLowest.unique {h h' : Sha256dHash} {hs : List Sha256dHash} (hlow : IsLowest h hs)
    (hlow' : IsLowest h' hs) : h = h' := by
  rw [isLowest_iff] at hlow hlow'
  exact Sha256dHash.value_injective
    (le_antisymm (hlow.2 h' hlow'.1) (hlow'.2 h hlow.1))

/-- The lowest of some hashes is the lowest of fewer, if it is one of them. -/
theorem IsLowest.of_subset {h : Sha256dHash} {hs ps : List Sha256dHash} (hlow : IsLowest h hs)
    (hsubset : ps ⊆ hs) (hmem : h ∈ ps) : IsLowest h ps :=
  ⟨hmem, fun h' hmem' => hlow.2 h' (hsubset hmem')⟩

omit [DecidableEq τ] in
/-- Once all calls have returned, the best hash is the lowest that passed the filter. -/
theorem Tracks.isLowest (htracks : Tracks s counted hs ps) (hidle : ∀ t, s.threads t = .outside) :
    IsLowest s.stats.best (ALL_ONES :: ps) := by
  refine isLowest_iff.mpr ⟨htracks.attained, fun h hmem => ?_⟩
  rcases List.mem_cons.mp hmem with rfl | hmem
  · exact value_le_ALL_ONES _
  · refine (htracks.lowest h hmem).resolve_right fun ⟨t, ht⟩ => ?_
    exact Recording.noConfusion ((hidle t).symm.trans ht)

/-- **What is reported is right** exactly in the runs whose counts fit 64 bits and in
which the lowest hash passes the filter, unless it is the start value. -/
theorem reports_iff (actions : List (RecordAction τ)) (s : Recorders τ)
    (h : exec step init actions = some s) (hidle : ∀ t, s.threads t = .outside) :
    Reports s.stats (calls actions) ↔ total (calls actions) < 2 ^ 64 ∧
      ∃ low, IsLowest low (ALL_ONES :: (calls actions).map Prod.snd) ∧
        low ∈ ALL_ONES :: passed init actions := by
  have htracks := tracks_init.after_run h
  rw [Nat.zero_add, List.nil_append, List.nil_append] at htracks
  have hlowest := htracks.isLowest hidle
  have hhashes : s.stats.totalHashes.toNat = total (calls actions) % 2 ^ 64 := htracks.hashes
  constructor
  · intro hreports
    refine ⟨?_, s.stats.best, hreports.best, hlowest.1⟩
    have htotal := hreports.totalHashes
    omega
  · rintro ⟨hfits, low, hlow, hpassed⟩
    refine ⟨by rw [hhashes, Nat.mod_eq_of_lt hfits], ?_, rfl⟩
    have hsubset : ALL_ONES :: passed init actions ⊆ ALL_ONES :: (calls actions).map Prod.snd :=
      List.cons_subset_cons _ htracks.subset
    have hread : s.stats.readBest.1 = low :=
      hlowest.unique (hlow.of_subset hsubset hpassed)
    rw [hread]
    exact hlow

/-- **What the filter holds back**: if it holds back a hash that is no higher than any
recorded one, the zero bits it holds are just as many, from another hash or from the
start. -/
theorem tie_of_held_back {low : Sha256dHash} (h : exec step init actions = some s)
    (hlow : ∀ h ∈ (calls actions).map Prod.snd, low.value ≤ h.value)
    (hheld : low.leadingZeroBits ≤ s.stats.bestZeroBits) :
    low.leadingZeroBits = s.stats.bestZeroBits ∧ (s.stats.bestZeroBits = 0 ∨
      ∃ h ∈ passed init actions, s.stats.bestZeroBits = h.leadingZeroBits) := by
  have htracks := tracks_init.after_run h
  rw [Nat.zero_add, List.nil_append, List.nil_append] at htracks
  refine ⟨le_antisymm hheld ?_, htracks.published⟩
  rcases htracks.published with hzero | ⟨h', hmem, heq⟩
  · rw [hzero]
    exact Nat.zero_le _
  · have hsize := Nat.size_le_size (hlow h' (htracks.subset hmem))
    rw [heq, Sha256dHash.leadingZeroBits_eq, Sha256dHash.leadingZeroBits_eq]
    omega

/-! ### Runs of two calls -/

/-- Where a run ends that can be executed. -/
theorem exec_eq_getD (h : (exec step (init : Recorders τ) actions).isSome = true) :
    exec step init actions = some ((exec step init actions).getD init) := by
  obtain ⟨s, hs⟩ := Option.isSome_iff_exists.mp h
  rw [hs]
  rfl

/-- A hash that displays as a zero byte, a given byte, and zeros. -/
def sampleHash (byte : UInt8) : Sha256dHash :=
  ⟨toArr (List.replicate 30 0 ++ [byte, 0]) rfl⟩

/-- Two threads record, and both pass the filter before either takes the lock. -/
def sampleRace : List (RecordAction Bool) :=
  [.add true 1000000 (sampleHash 0x81), .add false 500000 (sampleHash 0x80), .filter true,
    .filter false, .lock true, .store true, .lock false, .store false]

/-- In that run the lowest hash passes the filter, and is reported. -/
theorem reports_iff_sampleRace :
    ∃ s, exec step init sampleRace = some s ∧ Reports s.stats (calls sampleRace) := by
  have hexec : exec step init sampleRace = some ((exec step init sampleRace).getD init) :=
    exec_eq_getD (by decide +kernel)
  refine ⟨_, hexec, (reports_iff sampleRace _ hexec fun t => ?_).mpr
    ⟨by decide +kernel, sampleHash 0x80, ?_, by decide +kernel⟩⟩
  · cases t <;> decide +kernel
  · exact ⟨by decide +kernel, by decide +kernel⟩

/-- One thread records two hashes with eight leading zero bits, the lower one last. -/
def sampleTie : List (RecordAction Unit) :=
  [.add () 1000000 (sampleHash 0x81), .filter (), .lock (), .store (),
    .add () 1000000 (sampleHash 0x80), .filter ()]

/-- What is reported is not always the lowest hash: here the filter holds it back. -/
theorem not_always_reports :
    ¬ ∀ (actions : List (RecordAction Unit)) (s : Recorders Unit),
      exec step init actions = some s → (∀ t, s.threads t = .outside) →
        Reports s.stats (calls actions) := by
  intro hall
  have hexec : exec step init sampleTie = some ((exec step init sampleTie).getD init) :=
    exec_eq_getD (by decide +kernel)
  have hreports := hall sampleTie _ hexec fun t => by
    cases t
    decide +kernel
  have hbelow := hreports.best.2 (sampleHash 0x80) (by decide +kernel)
  exact absurd hbelow (by decide +kernel)

end Recorders

end SoloMiner
