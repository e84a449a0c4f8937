import SoloMiner.Lib.Checked

/-!
# Programs that ask their environment

Code that talks to a node, a clock or a shared state runs up to its next question and
goes on with whatever answer it gets. A `SoloMiner.Prog` is such a program: it returns,
it panics, or it performs an operation and continues with the answer. Nothing is said
about where the answers come from, so what holds for every run of a program holds
whatever its environment does in between.

* `SoloMiner.Prog.Runs` is a complete run: the operations with their answers, in order,
  and what the program returns, or nothing if it panics;
* `SoloMiner.Prog.Reaches` says that some answers bring the program to an operation,
  whether or not that one is ever answered;
* `SoloMiner.Prog.Only`, `SoloMiner.Prog.Returns` and `SoloMiner.Prog.Safe` bound what a
  program does at all: its operations are among some, what it returns is among some, and
  it never panics;
* `SoloMiner.Prog.Under` bounds what it does if its environment keeps to some answers, and
  `SoloMiner.Prog.Ensures` says, too, that it does not panic and what it returns;
* `SoloMiner.Prog.Emits` says what its operations come to, if that does not depend on the
  answers.

Each way of building a program has one lemma for runs and one for what is reached.
-/

namespace SoloMiner

universe u v w

/-- A program whose operations are answered by its environment. -/
inductive Prog (Op : Type u) (Ans : Op → Type v) (α : Type w) where
  /-- The program returns. -/
  | ret (a : α)
  /-- The program panics. -/
  | panic
  /-- The program performs an operation and goes on with the answer. -/
  | op (o : Op) (next : Ans o → Prog Op Ans α)

namespace Prog

variable {Op : Type u} {Ans : Op → Type v} {α β ε : Type w}

/-- One program after another. -/
protected def bind : Prog Op Ans α → (α → Prog Op Ans β) → Prog Op Ans β
  | ret a, f => f a
  | panic, _ => panic
  | op o next, f => op o fun answer => (next answer).bind f

instance : Monad (Prog Op Ans) where
  pure := ret
  bind := Prog.bind

/-- The program that performs one operation and returns its answer. -/
def perform {Ans : Op → Type w} (o : Op) : Prog Op Ans (Ans o) := op o ret

/-- The `?` operator on a step that asks nothing: an error is returned, a panic is a
panic, and a value is passed on. -/
def attempt (x : Checked ε α) (f : α → Prog Op Ans (Except ε β)) : Prog Op Ans (Except ε β) :=
  match x with
  | .ok a => f a
  | .error (.error e) => ret (.error e)
  | .error .panic => panic

/-- The operations of a run with their answers, in order. -/
abbrev Trace (Ans : Op → Type v) : Type (max u v) := List (Sigma Ans)

/-- **A run of a program**: its trace, and what it returns, or nothing if it panics. -/
inductive Runs : Prog Op Ans α → Trace Ans → Option α → Prop
  | ret (a : α) : Runs (ret a) [] (some a)
  | panic : Runs panic [] none
  | op {o : Op} {next : Ans o → Prog Op Ans α} {answer : Ans o} {trace : Trace Ans}
    {result : Option α} (h : Runs (next answer) trace result) :
    Runs (op o next) (⟨o, answer⟩ :: trace) result

/-- Some answers bring the program to the operation. -/
def Reaches (o : Op) : Prog Op Ans α → Prop
  | ret _ => False
  | panic => False
  | op o' next => o' = o ∨ ∃ answer, (next answer).Reaches o

/-! ### Runs -/

theorem runs_pure_iff {a : α} {trace : Trace Ans} {result : Option α} :
    Runs (pure a : Prog Op Ans α) trace result ↔ trace = [] ∧ result = some a := by
  constructor
  · rintro ⟨⟩
    exact ⟨rfl, rfl⟩
  · rintro ⟨rfl, rfl⟩
    exact .ret a

theorem runs_ret_iff {a : α} {trace : Trace Ans} {result : Option α} :
    Runs (ret a : Prog Op Ans α) trace result ↔ trace = [] ∧ result = some a :=
  runs_pure_iff

theorem runs_panic_iff {trace : Trace Ans} {result : Option α} :
    Runs (panic : Prog Op Ans α) trace result ↔ trace = [] ∧ result = none := by
  constructor
  · rintro ⟨⟩
    exact ⟨rfl, rfl⟩
  · rintro ⟨rfl, rfl⟩
    exact .panic

theorem runs_op_iff {o : Op} {next : Ans o → Prog Op Ans α} {trace : Trace Ans}
    {result : Option α} :
    Runs (op o next) trace result ↔
      ∃ answer rest, trace = ⟨o, answer⟩ :: rest ∧ Runs (next answer) rest result := by
  constructor
  · rintro ⟨⟩
    exact ⟨_, _, rfl, ‹_›⟩
  · rintro ⟨answer, rest, rfl, h⟩
    exact .op h

/-- **A sequence runs** as its first program and then, with what that returned, as its
second one, unless the first one panics. -/
theorem runs_bind_iff {p : Prog Op Ans α} {f : α → Prog Op Ans β} {trace : Trace Ans}
    {result : Option β} :
    Runs (p >>= f) trace result ↔
      (∃ first rest a, trace = first ++ rest ∧ Runs p first (some a) ∧ Runs (f a) rest result) ∨
        (result = none ∧ Runs p trace none) := by
  induction p generalizing trace with
  | ret a =>
    constructor
    · exact fun h => Or.inl ⟨[], trace, a, rfl, .ret a, h⟩
    · rintro (⟨first, rest, b, rfl, hfirst, hrest⟩ | ⟨-, hpanic⟩)
      · obtain ⟨rfl, hab⟩ := runs_ret_iff.mp hfirst
        obtain rfl : b = a := Option.some.inj hab
        exact hrest
      · exact absurd (runs_ret_iff.mp hpanic).2 (by simp)
  | panic =>
    constructor
    · intro h
      obtain ⟨rfl, rfl⟩ := runs_panic_iff.mp h
      exact Or.inr ⟨rfl, .panic⟩
    · rintro (⟨first, rest, b, rfl, hfirst, hrest⟩ | ⟨rfl, hpanic⟩)
      · exact absurd (runs_panic_iff.mp hfirst).2 (by simp)
      · obtain ⟨rfl, -⟩ := runs_panic_iff.mp hpanic
        exact .panic
  | op o next ih =>
    constructor
    · intro h
      obtain ⟨answer, trace', rfl, h'⟩ := runs_op_iff.mp h
      rcases (ih answer).mp h' with ⟨first, rest, a, rfl, hfirst, hrest⟩ | ⟨hresult, hpanic⟩
      · exact Or.inl ⟨_ :: first, rest, a, rfl, .op hfirst, hrest⟩
      · exact Or.inr ⟨hresult, .op hpanic⟩
    · rintro (⟨first, rest, a, rfl, hfirst, hrest⟩ | ⟨hresult, hpanic⟩)
      · obtain ⟨answer, first', rfl, hfirst'⟩ := runs_op_iff.mp hfirst
        exact .op ((ih answer).mpr (Or.inl ⟨first', rest, a, rfl, hfirst', hrest⟩))
      · obtain ⟨answer, trace', rfl, hpanic'⟩ := runs_op_iff.mp hpanic
        exact .op ((ih answer).mpr (Or.inr ⟨hresult, hpanic'⟩))

theorem Runs.bind {p : Prog Op Ans α} {f : α → Prog Op Ans β} {first rest : Trace Ans} {a : α}
    {result : Option β} (hp : Runs p first (some a)) (hf : Runs (f a) rest result) :
    Runs (p >>= f) (first ++ rest) result :=
  runs_bind_iff.mpr (Or.inl ⟨first, rest, a, rfl, hp, hf⟩)

/-- What is done with the value at the end does not change the run. -/
theorem runs_bind_pure_iff {p : Prog Op Ans α} {g : α → β} {trace : Trace Ans}
    {result : Option β} :
    Runs (do let a ← p; pure (g a)) trace result ↔ ∃ r, Runs p trace r ∧ result = r.map g := by
  constructor
  · intro h
    rcases runs_bind_iff.mp h with ⟨first, rest, a, rfl, hfirst, hrest⟩ | ⟨rfl, hpanic⟩
    · obtain ⟨rfl, rfl⟩ := runs_pure_iff.mp hrest
      exact ⟨some a, by rwa [List.append_nil], rfl⟩
    · exact ⟨none, hpanic, rfl⟩
  · rintro ⟨_ | a, hrun, rfl⟩
    · exact runs_bind_iff.mpr (Or.inr ⟨rfl, hrun⟩)
    · exact runs_bind_iff.mpr
        (Or.inl ⟨trace, [], a, (List.append_nil _).symm, hrun, .ret _⟩)

/-- After one operation the rest runs with its answer. -/
theorem runs_perform_bind_iff {Ans : Op → Type w} {o : Op} {f : Ans o → Prog Op Ans β}
    {trace : Trace Ans} {result : Option β} :
    Runs (perform o >>= f) trace result ↔
      ∃ answer rest, trace = ⟨o, answer⟩ :: rest ∧ Runs (f answer) rest result :=
  runs_op_iff

/-- **An attempt runs** as its continuation, or ends at once. -/
theorem runs_attempt_iff {x : Checked ε α} {f : α → Prog Op Ans (Except ε β)}
    {trace : Trace Ans} {result : Option (Except ε β)} :
    Runs (attempt x f) trace result ↔
      (∃ a, x = .ok a ∧ Runs (f a) trace result) ∨
        (∃ e, x = .err e ∧ trace = [] ∧ result = some (.error e)) ∨
          (x = .panic ∧ trace = [] ∧ result = none) := by
  rcases x with (e | _) | a
  · simp [attempt, runs_ret_iff, Checked.err, Checked.panic]
  · simp [attempt, runs_panic_iff, Checked.err, Checked.panic]
  · simp [attempt, Checked.err, Checked.panic]

theorem Runs.attempt {x : Checked ε α} {f : α → Prog Op Ans (Except ε β)} {a : α}
    {trace : Trace Ans} {result : Option (Except ε β)} (hx : x = .ok a)
    (hf : Runs (f a) trace result) : Runs (Prog.attempt x f) trace result :=
  runs_attempt_iff.mpr (Or.inl ⟨a, hx, hf⟩)

/-! ### What is reached -/

/-- **A sequence reaches** what its first program does, and what the second one does
after a run of the first. -/
theorem reaches_bind_iff {p : Prog Op Ans α} {f : α → Prog Op Ans β} {o : Op} :
    (p >>= f).Reaches o ↔ p.Reaches o ∨ ∃ trace a, Runs p trace (some a) ∧ (f a).Reaches o := by
  induction p with
  | ret a =>
    constructor
    · exact fun h => Or.inr ⟨[], a, .ret a, h⟩
    · rintro (h | ⟨trace, b, hrun, h⟩)
      · exact absurd h id
      · obtain ⟨-, hab⟩ := runs_ret_iff.mp hrun
        obtain rfl : b = a := Option.some.inj hab
        exact h
  | panic =>
    constructor
    · exact fun h => absurd h id
    · rintro (h | ⟨trace, b, hrun, -⟩)
      · exact absurd h id
      · exact absurd (runs_panic_iff.mp hrun).2 (by simp)
  | op o' next ih =>
    constructor
    · rintro (rfl | ⟨answer, h⟩)
      · exact Or.inl (Or.inl rfl)
      · rcases (ih answer).mp h with h | ⟨trace, a, hrun, h⟩
        · exact Or.inl (Or.inr ⟨answer, h⟩)
        · exact Or.inr ⟨_ :: trace, a, .op hrun, h⟩
    · rintro ((rfl | ⟨answer, h⟩) | ⟨trace, a, hrun, h⟩)
      · exact Or.inl rfl
      · exact Or.inr ⟨answer, (ih answer).mpr (Or.inl h)⟩
      · obtain ⟨answer, trace', -, hrun'⟩ := runs_op_iff.mp hrun
        exact Or.inr ⟨answer, (ih answer).mpr (Or.inr ⟨trace', a, hrun', h⟩)⟩

theorem reaches_perform_bind_iff {Ans : Op → Type w} {o o' : Op} {f : Ans o' → Prog Op Ans β} :
    (perform o' >>= f).Reaches o ↔ o' = o ∨ ∃ answer, (f answer).Reaches o := Iff.rfl

theorem reaches_attempt_iff {x : Checked ε α} {f : α → Prog Op Ans (Except ε β)} {o : Op} :
    (attempt x f).Reaches o ↔ ∃ a, x = .ok a ∧ (f a).Reaches o := by
  rcases x with (e | _) | a
  · simp [attempt, Reaches]
  · simp [attempt, Reaches]
  · simp [attempt]

/-! ### What a program never does -/

/-- Every operation of the program, on every answer, is one of those. -/
def Only (P : Op → Prop) : Prog Op Ans α → Prop
  | ret _ => True
  | panic => True
  | op o next => P o ∧ ∀ answer, (next answer).Only P

/-- What the program returns, on whatever answers, is one of those. -/
def Returns (Q : α → Prop) : Prog Op Ans α → Prop
  | ret a => Q a
  | panic => True
  | op _ next => ∀ answer, (next answer).Returns Q

/-- The program never panics. -/
def Safe : Prog Op Ans α → Prop
  | ret _ => True
  | panic => False
  | op _ next => ∀ answer, (next answer).Safe

theorem Only.mono {P Q : Op → Prop} (hPQ : ∀ o, P o → Q o) {p : Prog Op Ans α} (hp : p.Only P) :
    p.Only Q := by
  induction p with
  | ret a => exact trivial
  | panic => exact trivial
  | op o next ih => exact ⟨hPQ o hp.1, fun answer => ih answer (hp.2 answer)⟩

theorem Only.bind {P : Op → Prop} {p : Prog Op Ans α} {f : α → Prog Op Ans β} (hp : p.Only P)
    (hf : ∀ a, (f a).Only P) : (p >>= f).Only P := by
  induction p with
  | ret a => exact hf a
  | panic => exact trivial
  | op o next ih => exact ⟨hp.1, fun answer => ih answer (hp.2 answer)⟩

theorem Only.attempt {P : Op → Prop} {x : Checked ε α} {f : α → Prog Op Ans (Except ε β)}
    (hf : ∀ a, (f a).Only P) : (Prog.attempt x f).Only P := by
  rcases x with (e | _) | a
  · exact trivial
  · exact trivial
  · exact hf a

/-- The operations of a run are among those of the program. -/
theorem Only.of_runs {P : Op → Prop} {p : Prog Op Ans α} {trace : Trace Ans}
    {result : Option α} (hp : p.Only P) (h : Runs p trace result) : ∀ event ∈ trace, P event.1 := by
  induction h with
  | ret a => exact fun event hevent => absurd hevent List.not_mem_nil
  | panic => exact fun event hevent => absurd hevent List.not_mem_nil
  | op _ ih =>
    intro event hevent
    rcases List.mem_cons.mp hevent with rfl | hevent
    · exact hp.1
    · exact ih (hp.2 _) event hevent

/-- What is reached is among the operations of the program. -/
theorem Only.of_reaches {P : Op → Prop} {p : Prog Op Ans α} {o : Op} (hp : p.Only P)
    (h : p.Reaches o) : P o := by
  induction p with
  | ret a => exact absurd h id
  | panic => exact absurd h id
  | op o' next ih =>
    rcases h with rfl | ⟨answer, h⟩
    · exact hp.1
    · exact ih answer (hp.2 answer) h

/-- What every run stays clear of is not among the operations. -/
theorem only_of_reaches {P : Op → Prop} {p : Prog Op Ans α} (h : ∀ o, p.Reaches o → P o) :
    p.Only P := by
  induction p with
  | ret a => exact trivial
  | panic => exact trivial
  | op o next ih =>
    exact ⟨h o (Or.inl rfl), fun answer => ih answer fun o' h' => h o' (Or.inr ⟨answer, h'⟩)⟩

/-- Every operation of the program, on the answers that are allowed, is one of those. -/
def Under (allowed : (o : Op) → Ans o → Prop) (P : Op → Prop) : Prog Op Ans α → Prop
  | ret _ => True
  | panic => True
  | op o next => P o ∧ ∀ answer, allowed o answer → (next answer).Under allowed P

/-- On any answers, and so on those that are allowed. -/
theorem Only.under {P : Op → Prop} {p : Prog Op Ans α} (hp : p.Only P)
    (allowed : (o : Op) → Ans o → Prop) : p.Under allowed P := by
  induction p with
  | ret a => exact trivial
  | panic => exact trivial
  | op o next ih => exact ⟨hp.1, fun answer _ => ih answer (hp.2 answer)⟩

theorem Under.bind {allowed : (o : Op) → Ans o → Prop} {P : Op → Prop} {p : Prog Op Ans α}
    {f : α → Prog Op Ans β} (hp : p.Under allowed P) (hf : ∀ a, (f a).Under allowed P) :
    (p >>= f).Under allowed P := by
  induction p with
  | ret a => exact hf a
  | panic => exact trivial
  | op o next ih => exact ⟨hp.1, fun answer h => ih answer (hp.2 answer h)⟩

/-- **What a program does and returns**, on the answers that are allowed: every operation is
one of those, it does not panic, and it returns one of those. -/
def Ensures (allowed : (o : Op) → Ans o → Prop) (P : Op → Prop) (Q : α → Prop) :
    Prog Op Ans α → Prop
  | ret a => Q a
  | panic => False
  | op o next => P o ∧ ∀ answer, allowed o answer → (next answer).Ensures allowed P Q

theorem Ensures.mono {allowed : (o : Op) → Ans o → Prop} {P P' : Op → Prop} {Q Q' : α → Prop}
    (hP : ∀ o, P o → P' o) (hQ : ∀ a, Q a → Q' a) {p : Prog Op Ans α}
    (hp : p.Ensures allowed P Q) : p.Ensures allowed P' Q' := by
  induction p with
  | ret a => exact hQ a hp
  | panic => exact absurd hp id
  | op o next ih => exact ⟨hP o hp.1, fun answer h => ih answer (hp.2 answer h)⟩

/-- The rule of sequences: what the first program returns is what the second is given. -/
theorem Ensures.bind {allowed : (o : Op) → Ans o → Prop} {P : Op → Prop} {Q : α → Prop}
    {R : β → Prop} {p : Prog Op Ans α} {f : α → Prog Op Ans β} (hp : p.Ensures allowed P Q)
    (hf : ∀ a, Q a → (f a).Ensures allowed P R) : (p >>= f).Ensures allowed P R := by
  induction p with
  | ret a => exact hf a hp
  | panic => exact absurd hp id
  | op o next ih => exact ⟨hp.1, fun answer h => ih answer (hp.2 answer h)⟩

/-- What is known of all runs of a program is ensured on any answers. -/
theorem ensures_of_runs {P : Op → Prop} {Q : α → Prop} {p : Prog Op Ans α} (hp : p.Only P)
    (h : ∀ trace result, Runs p trace result → ∃ a, result = some a ∧ Q a)
    (allowed : (o : Op) → Ans o → Prop) : p.Ensures allowed P Q := by
  induction p with
  | ret a =>
    obtain ⟨a', ha, hQ⟩ := h _ _ (.ret a)
    exact Option.some.inj ha ▸ hQ
  | panic =>
    obtain ⟨a, ha, -⟩ := h _ _ .panic
    exact absurd ha (by simp)
  | op o next ih =>
    exact ⟨hp.1, fun answer _ => ih answer (hp.2 answer) fun trace result hrun =>
      h _ _ (.op hrun)⟩

/-- **What a program emits**: whatever it is answered, its operations come to that list,
unless it panics on the way. -/
def Emits {γ : Type*} (out : Op → List γ) : Prog Op Ans α → List γ → Prop
  | ret _, said => said = []
  | panic, _ => True
  | op o next, said => ∃ rest, said = out o ++ rest ∧ ∀ answer, (next answer).Emits out rest

/-- The rule of sequences: the second program emits the same whatever it is given. -/
theorem Emits.bind {γ : Type*} {out : Op → List γ} {p : Prog Op Ans α} {f : α → Prog Op Ans β}
    {first second : List γ} (hp : p.Emits out first) (hf : ∀ a, (f a).Emits out second) :
    (p >>= f).Emits out (first ++ second) := by
  induction p generalizing first with
  | ret a =>
    obtain rfl : first = [] := hp
    exact hf a
  | panic => exact trivial
  | op o next ih =>
    obtain ⟨rest, rfl, hnext⟩ := hp
    refine ⟨rest ++ second, List.append_assoc _ _ _, fun answer => ?_⟩
    exact ih answer (hnext answer)

/-- A program whose operations come to nothing emits nothing. -/
theorem Only.emits_nil {γ : Type*} {out : Op → List γ} {p : Prog Op Ans α}
    (hp : p.Only fun o => out o = []) : p.Emits out [] := by
  induction p with
  | ret a => exact rfl
  | panic => exact trivial
  | op o next ih =>
    refine ⟨[], ?_, fun answer => ih answer (hp.2 answer)⟩
    rw [hp.1, List.append_nil]

theorem returns_true (p : Prog Op Ans α) : p.Returns fun _ => True := by
  induction p with
  | ret a => exact trivial
  | panic => exact trivial
  | op o next ih => exact fun answer => ih answer

theorem Returns.bind {Q : α → Prop} {R : β → Prop} {p : Prog Op Ans α} {f : α → Prog Op Ans β}
    (hp : p.Returns Q) (hf : ∀ a, Q a → (f a).Returns R) : (p >>= f).Returns R := by
  induction p with
  | ret a => exact hf a hp
  | panic => exact trivial
  | op o next ih => exact fun answer => ih answer (hp answer)

theorem Safe.bind {p : Prog Op Ans α} {f : α → Prog Op Ans β} (hp : p.Safe)
    (hf : ∀ a, (f a).Safe) : (p >>= f).Safe := by
  induction p with
  | ret a => exact hf a
  | panic => exact absurd hp id
  | op o next ih => exact fun answer => ih answer (hp answer)

/-- A program that never panics returns. -/
theorem Safe.of_runs {p : Prog Op Ans α} {trace : Trace Ans} {result : Option α} (hp : p.Safe)
    (h : Runs p trace result) : ∃ a, result = some a := by
  induction h with
  | ret a => exact ⟨a, rfl⟩
  | panic => exact absurd hp id
  | op _ ih => exact ih (hp _)

/-- A sequence whose first program never panics runs as both. -/
theorem Safe.runs_bind {p : Prog Op Ans α} {f : α → Prog Op Ans β} {trace : Trace Ans}
    {result : Option β} (hp : p.Safe) (h : Runs (p >>= f) trace result) :
    ∃ first rest a, trace = first ++ rest ∧ Runs p first (some a) ∧ Runs (f a) rest result := by
  rcases runs_bind_iff.mp h with hboth | ⟨-, hpanic⟩
  · exact hboth
  · obtain ⟨a, ha⟩ := hp.of_runs hpanic
    exact absurd ha (by simp)

end Prog

end SoloMiner
