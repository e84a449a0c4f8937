import SoloMiner.Lib.Prog

/-!
# Protocols

What a program may do next often depends on what it was answered before. A *protocol*
(`SoloMiner.Protocol`) is an observer who says so: it has a state of its own, which moves on
with every operation and its answer, and it tells in each state which operations are in
order.

A program keeps to a protocol if every operation it comes to is in order, whatever the
answers are (`SoloMiner.Prog.KeepsTo`). This is shown one sequence at a time
(`SoloMiner.Prog.KeepsTo.bind`), and what it gives is a fact about every point of every run
(`SoloMiner.Prog.KeepsTo.may_of_runs`).
-/

namespace SoloMiner

universe u v w

/-- An observer of a program: which operations are in order, and what it remembers. -/
structure Protocol (σ : Type u) (Op : Type v) (Ans : Op → Type w) where
  may : σ → Op → Prop
  next : σ → (o : Op) → Ans o → σ

variable {σ : Type u} {Op : Type v} {Ans : Op → Type w} {α β ε : Type w}

namespace Protocol

variable (P : Protocol σ Op Ans)

/-- What the observer remembers after a trace. -/
def after (s : σ) (trace : Prog.Trace Ans) : σ :=
  trace.foldl (fun s event => P.next s event.1 event.2) s

@[simp] theorem after_nil (s : σ) : P.after s [] = s := rfl

@[simp] theorem after_cons (s : σ) (event : Sigma Ans) (trace : Prog.Trace Ans) :
    P.after s (event :: trace) = P.after (P.next s event.1 event.2) trace := rfl

@[simp] theorem after_append (s : σ) (first rest : Prog.Trace Ans) :
    P.after s (first ++ rest) = P.after (P.after s first) rest := List.foldl_append

/-- The observer who remembers everything. -/
def history (may : Prog.Trace Ans → Op → Prop) : Protocol (Prog.Trace Ans) Op Ans where
  may := may
  next before o answer := before ++ [⟨o, answer⟩]

@[simp] theorem after_history (may : Prog.Trace Ans → Op → Prop) (before trace : Prog.Trace Ans) :
    (history may).after before trace = before ++ trace := by
  induction trace generalizing before with
  | nil => exact (List.append_nil before).symm
  | cons event trace ih =>
    rw [after_cons, ih]
    exact List.append_assoc before [event] trace

end Protocol

namespace Prog

/-- **The program keeps to the protocol** from a state of the observer on: every operation
is in order, and what is returned fits what the observer remembers then. -/
def KeepsTo (P : Protocol σ Op Ans) (Q : σ → α → Prop) : σ → Prog Op Ans α → Prop
  | s, ret a => Q s a
  | _, panic => True
  | s, op o next => P.may s o ∧ ∀ answer, (next answer).KeepsTo P Q (P.next s o answer)

namespace KeepsTo

variable {P : Protocol σ Op Ans} {Q : σ → α → Prop} {R : σ → β → Prop} {s : σ}

/-- The rule of sequences: the second program goes on where the observer stands. -/
theorem bind {p : Prog Op Ans α} {f : α → Prog Op Ans β} (hp : p.KeepsTo P Q s)
    (hf : ∀ s a, Q s a → (f a).KeepsTo P R s) : (p >>= f).KeepsTo P R s := by
  induction p generalizing s with
  | ret a => exact hf s a hp
  | panic => exact trivial
  | op o next ih => exact ⟨hp.1, fun answer => ih answer (hp.2 answer)⟩

/-- The rule of operations: one that is in order, and the rest for every answer. -/
theorem perform {Ans : Op → Type w} {P : Protocol σ Op Ans} {s : σ} {o : Op}
    {f : Ans o → Prog Op Ans β} (ho : P.may s o)
    (hf : ∀ answer, (f answer).KeepsTo P R (P.next s o answer)) :
    (Prog.perform o >>= f).KeepsTo P R s :=
  ⟨ho, hf⟩

/-- The rule of attempts: an error is returned at once. -/
theorem attempt {Q : σ → Except ε β → Prop} {x : Checked ε α}
    {f : α → Prog Op Ans (Except ε β)} (hok : ∀ a, x = .ok a → (f a).KeepsTo P Q s)
    (herr : ∀ e, x = .err e → Q s (.error e)) : (Prog.attempt x f).KeepsTo P Q s := by
  rcases x with (e | _) | a
  · exact herr e rfl
  · exact trivial
  · exact hok a rfl

/-- **At every point of a run** the next operation is in order. -/
theorem may_of_runs {p : Prog Op Ans α} (hp : p.KeepsTo P Q s) {before after : Trace Ans}
    {o : Op} {answer : Ans o} {result : Option α}
    (h : Runs p (before ++ ⟨o, answer⟩ :: after) result) : P.may (P.after s before) o := by
  induction before generalizing p s with
  | nil =>
    cases h with
    | op => exact hp.1
  | cons event before ih =>
    cases h with
    | op h => exact ih (hp.2 _) h

/-- **What a run returns** fits what the observer remembers at its end. -/
theorem of_runs {p : Prog Op Ans α} (hp : p.KeepsTo P Q s) {trace : Trace Ans} {a : α}
    (h : Runs p trace (some a)) : Q (P.after s trace) a := by
  induction trace generalizing p s with
  | nil =>
    cases h with
    | ret => exact hp
  | cons event trace ih =>
    cases h with
    | op h => exact ih (hp.2 _) h

end KeepsTo

end Prog

end SoloMiner
