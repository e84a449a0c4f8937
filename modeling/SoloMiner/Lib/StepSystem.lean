import Mathlib.Tactic.Common

/-!
# Runs of a step function

A system of interleaved parties is a partial function `step : σ → α → Option σ`:
from a state, an action leads to one next state or is not enabled. A run is a list
of actions, and the order of the list is the interleaving.

* `SoloMiner.StepSystem.exec` takes a run to its last state, so that a particular
  run can be computed;
* `SoloMiner.StepSystem.Always` says that a predicate holds in every state of a
  run, and `SoloMiner.StepSystem.EachStep` that a condition on the state and the
  action holds at every step of it.

`SoloMiner.StepSystem.always_of_eachStep` is the rule for a property that holds
along the runs whose steps meet a condition: an invariant stronger than the
property that every such step keeps. Where one step keeps the property exactly if
it meets the condition, the runs that have the property throughout are exactly
those that meet it throughout (`SoloMiner.StepSystem.always_iff_eachStep`).

A condition may also speak of what has happened before. `SoloMiner.StepSystem.noting` puts a
history beside the state, and `SoloMiner.StepSystem.always_noting_iff` says that the runs are
the same.
-/

namespace SoloMiner

namespace StepSystem

variable {σ α : Type*} (step : σ → α → Option σ)

/-- The state a run ends in, if every action of it is enabled in turn. -/
def exec : σ → List α → Option σ
  | s, [] => some s
  | s, a :: as => (step s a).bind fun s' => exec s' as

/-- The predicate holds in every state the run goes through, as far as its
actions are enabled. -/
def Always (P : σ → Prop) : σ → List α → Prop
  | s, [] => P s
  | s, a :: as => P s ∧ ∀ s', step s a = some s' → Always P s' as

/-- Every step the run takes meets the condition, which speaks of the state before
the step and of its action. -/
def EachStep (C : σ → α → Prop) : σ → List α → Prop
  | _, [] => True
  | s, a :: as => ∀ s', step s a = some s' → C s a ∧ EachStep C s' as

variable {step}

@[simp] theorem exec_nil (s : σ) : exec step s [] = some s := rfl

theorem exec_cons (s : σ) (a : α) (as : List α) :
    exec step s (a :: as) = (step s a).bind fun s' => exec step s' as := rfl

theorem exec_append (s : σ) (as bs : List α) :
    exec step s (as ++ bs) = (exec step s as).bind fun s' => exec step s' bs := by
  induction as generalizing s with
  | nil => rfl
  | cons a as ih =>
    rw [List.cons_append, exec_cons, exec_cons, Option.bind_assoc]
    exact congrArg (Option.bind (step s a)) (funext fun s' => ih s')

/-- What always holds along a run holds where it starts. -/
theorem Always.head {P : σ → Prop} {s : σ} {as : List α} (h : Always step P s as) : P s := by
  cases as with
  | nil => exact h
  | cons a as => exact h.1

/-- What always holds along a run holds where it ends. -/
theorem Always.last {P : σ → Prop} {s s' : σ} {as : List α} (h : Always step P s as)
    (hexec : exec step s as = some s') : P s' := by
  induction as generalizing s with
  | nil =>
    obtain rfl : s = s' := Option.some.inj hexec
    exact h
  | cons a as ih =>
    obtain ⟨s₁, hs₁, hrest⟩ := Option.bind_eq_some_iff.mp hexec
    exact ih (h.2 s₁ hs₁) hrest

theorem Always.mono {P Q : σ → Prop} (hPQ : ∀ s, P s → Q s) {s : σ} {as : List α}
    (h : Always step P s as) : Always step Q s as := by
  induction as generalizing s with
  | nil => exact hPQ s h
  | cons a as ih => exact ⟨hPQ s h.1, fun s' hs' => ih (h.2 s' hs')⟩

theorem EachStep.mono {C D : σ → α → Prop} (hCD : ∀ s a, C s a → D s a) {s : σ} {as : List α}
    (h : EachStep step C s as) : EachStep step D s as := by
  induction as generalizing s with
  | nil => exact trivial
  | cons a as ih => exact fun s' hs' => ⟨hCD s a (h s' hs').1, ih (h s' hs').2⟩

theorem EachStep.and {C D : σ → α → Prop} {s : σ} {as : List α} (hC : EachStep step C s as)
    (hD : EachStep step D s as) : EachStep step (fun s a => C s a ∧ D s a) s as := by
  induction as generalizing s with
  | nil => exact trivial
  | cons a as ih =>
    intro s' hs'
    obtain ⟨hCa, hCas⟩ := hC s' hs'
    obtain ⟨hDa, hDas⟩ := hD s' hs'
    exact ⟨⟨hCa, hDa⟩, ih hCas hDas⟩

/-- A condition is met along a run that starts with a step that meets it. -/
theorem EachStep.cons {C : σ → α → Prop} {s s' : σ} {a : α} {as : List α}
    (hstep : step s a = some s') (hC : C s a) (h : EachStep step C s' as) :
    EachStep step C s (a :: as) := by
  intro s₁ hs₁
  obtain rfl := Option.some.inj (hstep.symm.trans hs₁)
  exact ⟨hC, h⟩

/-- Whether a condition is met along a run can be computed if it can be at each step. -/
instance decidableEachStep {C : σ → α → Prop} [∀ s a, Decidable (C s a)] :
    (s : σ) → (as : List α) → Decidable (EachStep step C s as)
  | _, [] => isTrue trivial
  | s, a :: as =>
    match hstep : step s a with
    | none => isTrue fun s' hs' => absurd (hstep.symm.trans hs') (by simp)
    | some s' =>
      have : Decidable (EachStep step C s' as) := decidableEachStep s' as
      decidable_of_iff (C s a ∧ EachStep step C s' as)
        ⟨fun h => .cons hstep h.1 h.2, fun h => h s' hstep⟩

/-- A condition on the actions alone is met along a run whose actions all meet it. -/
theorem eachStep_of_forall_mem {C : α → Prop} {s : σ} {as : List α} (h : ∀ a ∈ as, C a) :
    EachStep step (fun _ a => C a) s as := by
  induction as generalizing s with
  | nil => exact trivial
  | cons a as ih =>
    obtain ⟨ha, has⟩ := List.forall_mem_cons.mp h
    exact fun s' _ => ⟨ha, ih has⟩

/-- A condition is met along a run if it is in every state that the run comes to. -/
theorem eachStep_of_exec {C : σ → α → Prop} {s : σ} {as : List α}
    (h : ∀ k a s', as[k]? = some a → exec step s (as.take k) = some s' → C s' a) :
    EachStep step C s as := by
  induction as generalizing s with
  | nil => exact trivial
  | cons a as ih =>
    refine fun s₁ hs₁ => ⟨h 0 a s rfl rfl, ih fun k b s' hk hexec => h (k + 1) b s' hk ?_⟩
    rw [List.take_succ_cons, exec_cons, hs₁]
    exact hexec

/-- **The invariant rule**: what every step that meets the condition keeps holds
along every run whose steps all meet it. -/
theorem always_of_eachStep {I : σ → Prop} {C : σ → α → Prop}
    (hstep : ∀ s a s', I s → C s a → step s a = some s' → I s') {s : σ} {as : List α}
    (hs : I s) (h : EachStep step C s as) : Always step I s as := by
  induction as generalizing s with
  | nil => exact hs
  | cons a as ih =>
    refine ⟨hs, fun s' hs' => ?_⟩
    obtain ⟨hC, hrest⟩ := h s' hs'
    exact ih (hstep s a s' hs hC hs') hrest

/-- What every step keeps holds along every run. -/
theorem always_of_step {I : σ → Prop} (hstep : ∀ s a s', I s → step s a = some s' → I s') {s : σ}
    (hs : I s) (as : List α) : Always step I s as := by
  induction as generalizing s with
  | nil => exact hs
  | cons a as ih => exact ⟨hs, fun s' hs' => ih (hstep s a s' hs hs')⟩

/-- **The exact rule**: if, under an invariant of all runs, a step keeps the
property precisely when it meets the condition, then the property holds along a
run precisely when every step of it does. -/
theorem always_iff_eachStep {I P : σ → Prop} {C : σ → α → Prop}
    (hI : ∀ s a s', I s → step s a = some s' → I s')
    (hP : ∀ s a s', I s → P s → step s a = some s' → (P s' ↔ C s a)) {s : σ} (as : List α)
    (hIs : I s) (hPs : P s) : Always step P s as ↔ EachStep step C s as := by
  induction as generalizing s with
  | nil => exact iff_of_true hPs trivial
  | cons a as ih =>
    refine ⟨fun h s' hs' => ?_, fun h => ⟨hPs, fun s' hs' => ?_⟩⟩
    · have hrest := h.2 s' hs'
      exact ⟨(hP s a s' hIs hPs hs').mp hrest.head,
        (ih (hI s a s' hIs hs') hrest.head).mp hrest⟩
    · obtain ⟨hC, hrest⟩ := h s' hs'
      exact (ih (hI s a s' hIs hs') ((hP s a s' hIs hPs hs').mpr hC)).mpr hrest

/-! ### Histories -/

/-- The system with a history beside its state, in which each action is noted. -/
def noting {η : Type*} (step : σ → α → Option σ) (note : σ → η → α → η) :
    σ × η → α → Option (σ × η)
  | (s, history), a => (step s a).map fun s' => (s', note s history a)

theorem noting_eq_some {η : Type*} {note : σ → η → α → η} {k k' : σ × η} {a : α} :
    noting step note k a = some k' ↔ step k.1 a = some k'.1 ∧ k'.2 = note k.1 k.2 a := by
  obtain ⟨s', history'⟩ := k'
  rw [noting, Option.map_eq_some_iff]
  constructor
  · rintro ⟨s₁, hs₁, heq⟩
    obtain ⟨rfl, rfl⟩ := Prod.mk.inj heq
    exact ⟨hs₁, rfl⟩
  · rintro ⟨hs', rfl⟩
    exact ⟨s', hs', rfl⟩

/-- **A history changes nothing** about what always holds of the states. -/
theorem always_noting_iff {η : Type*} (note : σ → η → α → η) {P : σ → Prop} {s : σ} (history : η)
    {as : List α} :
    Always (noting step note) (fun k => P k.1) (s, history) as ↔ Always step P s as := by
  induction as generalizing s history with
  | nil => exact Iff.rfl
  | cons a as ih =>
    refine and_congr_right fun _ => ⟨fun h s' hs' => ?_, fun h k' hk' => ?_⟩
    · exact (ih _).mp (h (s', note s history a) (noting_eq_some.mpr ⟨hs', rfl⟩))
    · obtain ⟨hs', -⟩ := noting_eq_some.mp hk'
      exact (ih _).mpr (h k'.1 hs')

end StepSystem

end SoloMiner
