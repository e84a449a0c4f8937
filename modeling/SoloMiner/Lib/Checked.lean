import Mathlib.Tactic.Common

/-!
# Results that may also be a panic

A function of the source that returns a `Result` can end in three ways: with a
value, with an error, or by panicking – an index out of range, a slice that cuts a
character in two, an explicit `panic!`. `SoloMiner.Checked` keeps the three apart, so
that a claim that some input cannot crash a function is a statement about its value.

A panic is not an error that a caller could handle: turning one error type into
another leaves it alone (`SoloMiner.Checked.mapErr`).
-/

namespace SoloMiner

universe u

/-- What can end a computation early. -/
inductive Fault (ε : Type u) where
  /-- An error, returned to the caller. -/
  | error (e : ε)
  /-- A panic, which unwinds the thread. -/
  | panic
  deriving DecidableEq

/-- The outcome of a function that returns a `Result` and may panic. -/
abbrev Checked (ε α : Type u) : Type u := Except (Fault ε) α

namespace Checked

variable {ε ε' α β : Type u}

/-- Returning an error. -/
def err (e : ε) : Checked ε α := .error (.error e)

/-- Panicking. -/
def panic : Checked ε α := .error .panic

/-- `Option::ok_or`. -/
def okOr (e : ε) : Option α → Checked ε α
  | some a => .ok a
  | none => err e

/-- `Option::expect`. -/
def expect : Option α → Checked ε α
  | some a => .ok a
  | none => panic

/-- `Result::ok`: an error is dropped, a panic is not. -/
def dropErr : Checked ε α → Checked ε' (Option α)
  | .ok a => .ok (some a)
  | .error (.error _) => .ok none
  | .error .panic => panic

/-- `Result::map_err`. -/
def mapErr (f : ε → ε') : Checked ε α → Checked ε' α
  | .ok a => .ok a
  | .error (.error e) => err (f e)
  | .error .panic => panic

@[simp] theorem mapErr_ok (f : ε → ε') (a : α) : mapErr f (.ok a : Checked ε α) = .ok a := rfl

@[simp] theorem mapErr_panic (f : ε → ε') : mapErr f (panic : Checked ε α) = panic := rfl

@[simp] theorem mapErr_eq_ok {f : ε → ε'} {x : Checked ε α} {a : α} :
    mapErr f x = .ok a ↔ x = .ok a := by
  rcases x with (e | _) | b
  · simp [mapErr, err]
  · simp [mapErr, panic]
  · simp [mapErr]

@[simp] theorem mapErr_eq_panic {f : ε → ε'} {x : Checked ε α} :
    mapErr f x = panic ↔ x = panic := by
  rcases x with (e | _) | b
  · simp [mapErr, err, panic]
  · simp [mapErr, panic]
  · simp [mapErr, panic]

@[simp] theorem okOr_some (e : ε) (a : α) : okOr e (some a) = .ok a := rfl

@[simp] theorem okOr_none (e : ε) : okOr e (none : Option α) = err e := rfl

theorem okOr_eq_ok {e : ε} {o : Option α} {a : α} : okOr e o = .ok a ↔ o = some a := by
  cases o <;> simp [okOr, err]

@[simp] theorem expect_some (a : α) : (expect (some a) : Checked ε α) = .ok a := rfl

theorem expect_eq_ok {o : Option α} {a : α} : (expect o : Checked ε α) = .ok a ↔ o = some a := by
  cases o <;> simp [expect, panic]

theorem okOr_eq_err {e e' : ε} {o : Option α} : okOr e o = err e' ↔ o = none ∧ e = e' := by
  cases o <;> simp [okOr, err]

theorem okOr_ne_panic {e : ε} {o : Option α} : okOr e o ≠ panic := by
  cases o <;> simp [okOr, err, panic]

@[simp] theorem ok_ne_panic {a : α} : (.ok a : Checked ε α) ≠ panic := by simp [panic]

@[simp] theorem err_ne_panic {e : ε} : (err e : Checked ε α) ≠ panic := by simp [err, panic]

/-- A sequence returns a value precisely when both of its halves do. -/
theorem bind_eq_ok {x : Checked ε α} {f : α → Checked ε β} {b : β} :
    x >>= f = .ok b ↔ ∃ a, x = .ok a ∧ f a = .ok b := by
  cases x with
  | error e => simp [bind, Except.bind]
  | ok a => simp [bind, Except.bind]

/-- **A sequence panics** precisely when its first half does, or returns a value on
which the second does. -/
theorem bind_eq_panic {x : Checked ε α} {f : α → Checked ε β} :
    x >>= f = panic ↔ x = panic ∨ ∃ a, x = .ok a ∧ f a = panic := by
  rcases x with (e | _) | a
  · simp [bind, Except.bind, panic]
  · simp [bind, Except.bind, panic]
  · simp [bind, Except.bind, panic]

/-- A sequence returns an error precisely when its first half does, or returns a value on
which the second does. -/
theorem bind_eq_err {x : Checked ε α} {f : α → Checked ε β} {e : ε} :
    x >>= f = err e ↔ x = err e ∨ ∃ a, x = .ok a ∧ f a = err e := by
  rcases x with (e' | _) | a
  · simp [bind, Except.bind, err]
  · simp [bind, Except.bind, err]
  · simp [bind, Except.bind, err]

/-- A value that is worked on is returned when there is one. -/
theorem map_eq_ok {f : α → β} {x : Checked ε α} {b : β} :
    x.map f = .ok b ↔ ∃ a, x = .ok a ∧ f a = b := by
  cases x with
  | error e => simp [Except.map]
  | ok a => simp [Except.map]

/-- Work on the value leaves an error as it is. -/
theorem map_eq_err {f : α → β} {x : Checked ε α} {e : ε} : x.map f = err e ↔ x = err e := by
  cases x with
  | error e' => simp [Except.map, err]
  | ok a => simp [Except.map, err]

/-- Work on the value leaves a panic as it is. -/
theorem map_eq_panic {f : α → β} {x : Checked ε α} : x.map f = panic ↔ x = panic := by
  cases x with
  | error e => simp [Except.map, panic]
  | ok a => simp [Except.map, panic]

@[simp] theorem ok_bind (a : α) (f : α → Checked ε β) : (.ok a : Checked ε α) >>= f = f a := rfl

@[simp] theorem err_bind (e : ε) (f : α → Checked ε β) : (err e : Checked ε α) >>= f = err e := rfl

@[simp] theorem panic_bind (f : α → Checked ε β) : (panic : Checked ε α) >>= f = panic := rfl

end Checked

end SoloMiner
