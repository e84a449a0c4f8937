import SoloMiner.Lib.PrefixParser

/-!
# What a parser spends

A parser that takes the number of its rounds from the input can be asked for more
rounds than it could ever make. What bounds it is a potential of its state, such as
the number of tokens not read yet, and `SoloMiner.PrefixParser.Spends` says how a
parser deals with one: it never raises the potential, lowers it by at least a given
amount where it succeeds, and fails in the permitted ways only. The property is
closed under the ways parsers are put together, loops whose bound is read from the
input among them, because a round that fails ends its loop.

To bound a number of rounds they are counted, in a counter beside the state
(`SoloMiner.PrefixParser.counting`) that changes nothing else of the run
(`SoloMiner.PrefixParser.Tallies`). A round that spends at least what it adds to the
cost of the counter keeps the sum of potential and cost from growing
(`SoloMiner.PrefixParser.spends_counting`), so the cost of all rounds together is at
most the potential the parser started with.
-/

namespace SoloMiner

namespace PrefixParser

universe u

variable {ε σ α γ ω : Type u}

/-! ### Potentials -/

/-- From a good state, the parser ends in a good state, fails in the permitted ways
only, never raises the potential, and lowers it by `k` where it succeeds. -/
def Spends (V : σ → Prop) (Φ : σ → ℕ) (E : ε → Prop) (k : ℕ) (m : Parser ε σ α) : Prop :=
  ∀ s, V s → V (run m s).2 ∧
    match (run m s).1 with
    | .ok _ => Φ (run m s).2 + k ≤ Φ s
    | .error e => E e ∧ Φ (run m s).2 ≤ Φ s

section Rules

variable {V : σ → Prop} {Φ : σ → ℕ} {E : ε → Prop} {k l : ℕ}

/-- However the parser ends, it has not raised the potential. -/
theorem Spends.le {m : Parser ε σ α} (h : Spends V Φ E k m) {s : σ} (hs : V s) :
    Φ (run m s).2 ≤ Φ s := by
  obtain ⟨-, hout⟩ := h s hs
  cases hr : (run m s).1 with
  | ok a =>
    rw [hr] at hout
    exact le_trans (Nat.le_add_right _ _) hout
  | error e =>
    rw [hr] at hout
    exact hout.2

/-- A failure is one of the permitted ones. -/
theorem Spends.error {m : Parser ε σ α} (h : Spends V Φ E k m) {s : σ} (hs : V s) {e : ε}
    (he : (run m s).1 = .error e) : E e := by
  obtain ⟨-, hout⟩ := h s hs
  rw [he] at hout
  exact hout.1

theorem Spends.mono {m : Parser ε σ α} (h : Spends V Φ E k m) (hl : l ≤ k) :
    Spends V Φ E l m := by
  intro s hs
  obtain ⟨hvalid, hout⟩ := h s hs
  refine ⟨hvalid, ?_⟩
  cases hr : (run m s).1 with
  | ok a =>
    rw [hr] at hout
    exact le_trans (Nat.add_le_add_left hl _) hout
  | error e =>
    rw [hr] at hout
    exact hout

theorem spends_pure (a : α) : Spends V Φ E 0 (pure a) := fun _ hs => ⟨hs, le_rfl⟩

/-- **Sequencing** spends what both halves spend. -/
theorem spends_bind {m : Parser ε σ α} {f : α → Parser ε σ γ} (hm : Spends V Φ E k m)
    (hf : ∀ a, Spends V Φ E l (f a)) : Spends V Φ E (k + l) (m >>= f) := by
  intro s hs
  obtain ⟨hvalid, hout⟩ := hm s hs
  rw [run_bind]
  cases hrun : run m s with
  | mk r s₁ =>
    rw [hrun] at hvalid hout
    cases r with
    | error e => exact ⟨hvalid, hout⟩
    | ok a =>
      have hfirst : Φ s₁ + k ≤ Φ s := hout
      obtain ⟨hvalid₂, hout₂⟩ := hf a s₁ hvalid
      refine ⟨hvalid₂, ?_⟩
      cases hr : (run (f a) s₁).1 with
      | ok b =>
        rw [hr] at hout₂
        have hsecond : Φ (run (f a) s₁).2 + l ≤ Φ s₁ := hout₂
        show Φ (run (f a) s₁).2 + (k + l) ≤ Φ s
        omega
      | error e =>
        rw [hr] at hout₂
        exact ⟨hout₂.1, le_trans hout₂.2 (le_trans (Nat.le_add_right _ _) hfirst)⟩

/-- A counted loop whose rounds do not raise the potential does not. -/
theorem spends_times {m : Parser ε σ α} (hm : Spends V Φ E 0 m) (n : ℕ) :
    Spends V Φ E 0 (times m n) := by
  induction n with
  | zero => exact spends_pure []
  | succ n ih => exact spends_bind hm fun a => spends_bind ih fun as => spends_pure (a :: as)

/-- A loop over a list whose rounds do not raise the potential does not. -/
theorem spends_mapM {m : γ → Parser ε σ α} (hm : ∀ x, Spends V Φ E 0 (m x)) (xs : List γ) :
    Spends V Φ E 0 (xs.mapM m) := by
  induction xs with
  | nil =>
    rw [List.mapM_nil]
    exact spends_pure []
  | cons x xs ih =>
    rw [List.mapM_cons]
    exact spends_bind (hm x) fun a => spends_bind ih fun as => spends_pure (a :: as)

end Rules

/-! ### Counters -/

/-- The parser beside a counter that it leaves alone. -/
def lift (m : Parser ε σ α) : Parser ε (σ × ω) α :=
  fun s => ((run m s.1).1, ((run m s.1).2, s.2))

/-- A round: the counter is moved once the round is through. -/
def counting (tick : ω → ω) (m : Parser ε (σ × ω) α) : Parser ε (σ × ω) α := do
  let a ← m
  modify fun s => (s.1, tick s.2)
  pure a

@[simp] theorem run_lift (m : Parser ε σ α) (s : σ × ω) :
    run (lift m) s = ((run m s.1).1, ((run m s.1).2, s.2)) := rfl

/-- The parser with counters runs as the one without them, and only counts beside it. -/
def Tallies (m' : Parser ε (σ × ω) α) (m : Parser ε σ α) : Prop :=
  ∀ s w, ∃ w', run m' (s, w) = ((run m s).1, ((run m s).2, w'))

theorem tallies_lift (m : Parser ε σ α) : Tallies (lift m : Parser ε (σ × ω) α) m :=
  fun _ w => ⟨w, rfl⟩

theorem tallies_pure (a : α) : Tallies (pure a : Parser ε (σ × ω) α) (pure a) :=
  fun _ w => ⟨w, rfl⟩

theorem tallies_bind {m' : Parser ε (σ × ω) α} {m : Parser ε σ α}
    {f' : α → Parser ε (σ × ω) γ} {f : α → Parser ε σ γ} (hm : Tallies m' m)
    (hf : ∀ a, Tallies (f' a) (f a)) : Tallies (m' >>= f') (m >>= f) := by
  intro s w
  obtain ⟨w₁, hrun⟩ := hm s w
  rw [run_bind, run_bind, hrun]
  cases hm₁ : run m s with
  | mk r s₁ =>
    cases r with
    | ok a => exact hf a s₁ w₁
    | error e => exact ⟨w₁, rfl⟩

theorem tallies_counting {m' : Parser ε (σ × ω) α} {m : Parser ε σ α} (tick : ω → ω)
    (hm : Tallies m' m) : Tallies (counting tick m') m := by
  intro s w
  obtain ⟨w₁, hrun⟩ := hm s w
  rw [counting, run_bind, hrun]
  cases hr : (run m s).1 with
  | ok a => exact ⟨tick w₁, rfl⟩
  | error e => exact ⟨w₁, rfl⟩

theorem tallies_times {m' : Parser ε (σ × ω) α} {m : Parser ε σ α} (hm : Tallies m' m) (n : ℕ) :
    Tallies (times m' n) (times m n) := by
  induction n with
  | zero => exact tallies_pure []
  | succ n ih => exact tallies_bind hm fun a => tallies_bind ih fun as => tallies_pure (a :: as)

theorem tallies_mapM {m' : γ → Parser ε (σ × ω) α} {m : γ → Parser ε σ α}
    (hm : ∀ x, Tallies (m' x) (m x)) (xs : List γ) : Tallies (xs.mapM m') (xs.mapM m) := by
  induction xs with
  | nil =>
    rw [List.mapM_nil, List.mapM_nil]
    exact tallies_pure []
  | cons x xs ih =>
    rw [List.mapM_cons, List.mapM_cons]
    exact tallies_bind (hm x) fun a => tallies_bind ih fun as => tallies_pure (a :: as)

/-! ### Paying for the rounds -/

variable {V : σ → Prop} {Φ : σ → ℕ} {E : ε → Prop} {k l : ℕ} {cost : ω → ℕ}

/-- The potential of a state together with the cost of what was counted. -/
def withCost (Φ : σ → ℕ) (cost : ω → ℕ) (s : σ × ω) : ℕ := Φ s.1 + cost s.2

/-- What does not count spends as it did. -/
theorem spends_lift {m : Parser ε σ α} (hm : Spends V Φ E k m) :
    Spends (fun s => V s.1) (withCost Φ cost) E k (lift m : Parser ε (σ × ω) α) := by
  rintro ⟨s, w⟩ hs
  obtain ⟨hvalid, hout⟩ := hm s hs
  refine ⟨hvalid, ?_⟩
  simp only [run_lift, withCost]
  cases hr : (run m s).1 with
  | ok a =>
    rw [hr] at hout
    have hle : Φ (run m s).2 + k ≤ Φ s := hout
    show Φ (run m s).2 + cost w + k ≤ Φ s + cost w
    omega
  | error e =>
    rw [hr] at hout
    exact ⟨hout.1, Nat.add_le_add_right hout.2 _⟩

/-- **A round pays for being counted** out of what it spends. -/
theorem spends_counting {m : Parser ε (σ × ω) α} {tick : ω → ω}
    (hm : Spends (fun s => V s.1) (withCost Φ cost) E (k + l) m)
    (htick : ∀ w, cost (tick w) ≤ cost w + l) :
    Spends (fun s => V s.1) (withCost Φ cost) E k (counting tick m) := by
  rintro ⟨s, w⟩ hs
  obtain ⟨hvalid, hout⟩ := hm (s, w) hs
  rw [counting, run_bind]
  cases hrun : run m (s, w) with
  | mk r s₁ =>
    rw [hrun] at hvalid hout
    cases r with
    | error e => exact ⟨hvalid, hout⟩
    | ok a =>
      refine ⟨hvalid, ?_⟩
      have hle : Φ s₁.1 + cost s₁.2 + (k + l) ≤ Φ s + cost w := hout
      have hcost := htick s₁.2
      show Φ s₁.1 + cost (tick s₁.2) + k ≤ Φ s + cost w
      omega

end PrefixParser

end SoloMiner
