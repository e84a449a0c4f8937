import Mathlib.Data.List.Infix
import Mathlib.Tactic.Common

/-!
# Parsers that consume a prefix

A parser walks a cursor over a buffer of tokens: it succeeds with a value and a
cursor further on, or fails with an error and leaves the cursor where it got to.
What such a parser accepts is described by a *format*, a relation between the
tokens consumed and the value read, and `SoloMiner.PrefixParser.Matches` says that
the parser and the format agree: the parser reads `a` and moves on precisely when
some prefix of the rest stands in the format with `a`, and it moves by the length
of that prefix.

Both directions matter. From left to right, nothing is accepted outside the
format; from right to left, everything in the format is read back, whatever comes
after it.

`Matches` is closed under the ways parsers are put together, each of which acts on
formats: sequencing (`SoloMiner.PrefixParser.matches_bind`), a counted loop
(`SoloMiner.PrefixParser.matches_times`) and a loop over a list
(`SoloMiner.PrefixParser.matches_mapM`).
-/

namespace SoloMiner

namespace PrefixParser

universe u

variable {ε σ α γ : Type u} {β : Type*}

/-! ### Parsers, cursors and formats -/

/-- A parser over the states `σ`. A failure keeps the state it happened in. -/
abbrev Parser (ε σ α : Type u) : Type u := ExceptT ε (StateM σ) α

/-- What the parser answers in a state, and the state after it. -/
def run (m : Parser ε σ α) (s : σ) : Except ε α × σ := m s

/-- How a state stands for a place in a buffer: the tokens not read yet, and the
state a number of tokens further on. -/
structure Cursor (σ : Type u) (β : Type*) where
  /-- The states that stand for a place in their buffer. -/
  Valid : σ → Prop
  /-- The tokens from the cursor on. -/
  rest : σ → List β
  /-- The cursor moved forward. -/
  skip : σ → ℕ → σ
  skip_zero : ∀ s, skip s 0 = s
  skip_skip : ∀ s m n, skip (skip s m) n = skip s (m + n)
  valid_skip : ∀ {s n}, Valid s → n ≤ (rest s).length → Valid (skip s n)
  rest_skip : ∀ {s n}, Valid s → n ≤ (rest s).length → rest (skip s n) = (rest s).drop n

/-- A format: which tokens stand for which value. -/
abbrev Format (β α : Type*) := List β → α → Prop

/-- The parser reads a value precisely when a prefix of the rest stands for it, and
then moves past that prefix. -/
def Matches (c : Cursor σ β) (m : Parser ε σ α) (F : Format β α) : Prop :=
  ∀ s, c.Valid s → ∀ a s', run m s = (.ok a, s') ↔
    ∃ w, F w a ∧ w <+: c.rest s ∧ s' = c.skip s w.length

/-! ### Running a composed parser -/

@[simp] theorem run_pure (a : α) (s : σ) : run (pure a : Parser ε σ α) s = (.ok a, s) := rfl

@[simp] theorem run_throw (e : ε) (s : σ) :
    run (throw e : Parser ε σ α) s = (.error e, s) := rfl

@[simp] theorem run_get (s : σ) : run (get : Parser ε σ σ) s = (.ok s, s) := rfl

@[simp] theorem run_set (s s' : σ) :
    run (set s' : Parser ε σ PUnit) s = (.ok PUnit.unit, s') := rfl

/-- A sequence runs its second half where the first one left off. -/
theorem run_bind (m : Parser ε σ α) (k : α → Parser ε σ γ) (s : σ) :
    run (m >>= k) s =
      match run m s with
      | (.ok a, s₁) => run (k a) s₁
      | (.error e, s₁) => (.error e, s₁) := by
  show (m >>= k) s = _
  cases hm : run m s with
  | mk r s₁ =>
    have hm' : m s = (r, s₁) := hm
    cases r <;> simp only [bind, ExceptT.bind, ExceptT.mk, StateT.bind, ExceptT.bindCont, hm'] <;>
      rfl

/-- A sequence succeeds precisely when both halves do, one after the other. -/
theorem run_bind_ok {m : Parser ε σ α} {k : α → Parser ε σ γ} {s s' : σ} {b : γ} :
    run (m >>= k) s = (.ok b, s') ↔
      ∃ a s₁, run m s = (.ok a, s₁) ∧ run (k a) s₁ = (.ok b, s') := by
  rw [run_bind]
  constructor
  · intro h
    cases hm : run m s with
    | mk r s₁ =>
      rw [hm] at h
      cases r with
      | ok a => exact ⟨a, s₁, rfl, h⟩
      | error e => exact absurd (congrArg Prod.fst h) (by simp)
  · rintro ⟨a, s₁, hm, hk⟩
    rw [hm]
    exact hk

/-! ### The rules -/

variable {c : Cursor σ β}

/-- The tokens of a two-part format are those of its parts. -/
def Format.seq (F : Format β α) (G : α → Format β γ) : Format β γ :=
  fun w b => ∃ u v a, w = u ++ v ∧ F u a ∧ G a v b

theorem matches_pure (a : α) :
    Matches c (pure a : Parser ε σ α) fun w b => w = [] ∧ b = a := by
  intro s _ b s'
  rw [run_pure, Prod.mk.injEq]
  constructor
  · rintro ⟨hab, rfl⟩
    exact ⟨[], ⟨rfl, (Except.ok.inj hab).symm⟩, List.nil_prefix, (c.skip_zero s).symm⟩
  · rintro ⟨w, ⟨rfl, rfl⟩, -, rfl⟩
    exact ⟨rfl, (c.skip_zero s).symm⟩

/-- **Sequencing, on what was read**: a parser for the first part, then one for the
second that may depend on the value, and need only be right on a value of the first
format. -/
theorem matches_bind_of {m : Parser ε σ α} {F : Format β α} {k : α → Parser ε σ γ}
    {G : α → Format β γ} (hm : Matches c m F) (hk : ∀ w a, F w a → Matches c (k a) (G a)) :
    Matches c (m >>= k) (F.seq G) := by
  intro s hs b s'
  rw [run_bind_ok]
  constructor
  · rintro ⟨a, s₁, hm', hk'⟩
    obtain ⟨u, hF, hu, rfl⟩ := (hm s hs a s₁).mp hm'
    have hs₁ : c.Valid (c.skip s u.length) := c.valid_skip hs hu.length_le
    obtain ⟨v, hG, hv, rfl⟩ := (hk u a hF _ hs₁ b s').mp hk'
    rw [c.rest_skip hs hu.length_le] at hv
    refine ⟨u ++ v, ⟨u, v, a, rfl, hF, hG⟩, ?_, by rw [c.skip_skip, List.length_append]⟩
    obtain ⟨t, ht⟩ := hu
    rw [← ht, List.drop_left] at hv
    rw [← ht]
    exact List.prefix_append_right_inj u |>.mpr hv
  · rintro ⟨w, ⟨u, v, a, rfl, hF, hG⟩, hw, rfl⟩
    have hu : u <+: c.rest s := (List.prefix_append u v).trans hw
    have hs₁ : c.Valid (c.skip s u.length) := c.valid_skip hs hu.length_le
    refine ⟨a, c.skip s u.length, (hm s hs a _).mpr ⟨u, hF, hu, rfl⟩, ?_⟩
    refine (hk u a hF _ hs₁ b _).mpr ⟨v, hG, ?_, by rw [c.skip_skip, List.length_append]⟩
    rw [c.rest_skip hs hu.length_le]
    obtain ⟨t, ht⟩ := hw
    rw [← ht, List.append_assoc, List.drop_left]
    exact List.prefix_append v t

/-- **Sequencing**: a parser for the first part, then one for the second that may
depend on what was read. -/
theorem matches_bind {m : Parser ε σ α} {F : Format β α} {k : α → Parser ε σ γ}
    {G : α → Format β γ} (hm : Matches c m F) (hk : ∀ a, Matches c (k a) (G a)) :
    Matches c (m >>= k) (F.seq G) :=
  matches_bind_of hm fun _ a _ => hk a

/-- Two descriptions of one format serve the same parser. -/
theorem Matches.congr {m : Parser ε σ α} {F G : Format β α} (h : Matches c m F)
    (hFG : ∀ w a, F w a ↔ G w a) : Matches c m G := by
  intro s hs a s'
  simp only [h s hs a s', hFG]

/-- **A format that a parser reads is unambiguous**: of two words of the format in
front of one buffer, neither is longer than the other, and they stand for one value. -/
theorem Matches.unique {m : Parser ε σ α} {F : Format β α} (h : Matches c m F) {s : σ}
    (hs : c.Valid s) {w w' : List β} {a a' : α} (hw : F w a) (hpre : w <+: c.rest s)
    (hw' : F w' a') (hpre' : w' <+: c.rest s) : w.length = w'.length ∧ a = a' := by
  have hrun := (h s hs a _).mpr ⟨w, hw, hpre, rfl⟩
  have hrun' := (h s hs a' _).mpr ⟨w', hw', hpre', rfl⟩
  rw [hrun, Prod.mk.injEq, Except.ok.injEq] at hrun'
  obtain ⟨ha, hskip⟩ := hrun'
  have hlen := congrArg (fun s => (c.rest s).length) hskip
  simp only [c.rest_skip hs hpre.length_le, c.rest_skip hs hpre'.length_le,
    List.length_drop] at hlen
  have hle := hpre.length_le
  have hle' := hpre'.length_le
  exact ⟨by omega, ha⟩

/-! ### Counted loops -/

/-- `for _ in 0..n`: the parser run `n` times, its values collected. -/
def times (m : Parser ε σ α) : ℕ → Parser ε σ (List α)
  | 0 => pure []
  | n + 1 => do
    let a ← m
    let as ← times m n
    pure (a :: as)

/-- The format of a list: the items' tokens one after another. -/
inductive Format.Many (F : Format β α) : Format β (List α)
  | nil : Many F [] []
  | cons {u v : List β} {a : α} {as : List α} : F u a → Many F v as → Many F (u ++ v) (a :: as)

/-- **A counted loop** reads a list of that length. -/
theorem matches_times {m : Parser ε σ α} {F : Format β α} (hm : Matches c m F) (n : ℕ) :
    Matches c (times m n) fun w as => F.Many w as ∧ as.length = n := by
  induction n with
  | zero =>
    refine (matches_pure []).congr fun w as => ⟨?_, ?_⟩
    · rintro ⟨rfl, rfl⟩
      exact ⟨.nil, rfl⟩
    · rintro ⟨hmany, hlen⟩
      obtain rfl := List.length_eq_zero_iff.mp hlen
      cases hmany
      exact ⟨rfl, rfl⟩
  | succ n ih =>
    refine (matches_bind hm fun a => matches_bind ih fun as =>
      matches_pure (a :: as)).congr fun w as => ⟨?_, ?_⟩
    · rintro ⟨u, v, a, rfl, hF, v', w', as', rfl, ⟨hmany, hlen⟩, rfl, rfl⟩
      rw [List.append_nil]
      exact ⟨.cons hF hmany, by rw [List.length_cons, hlen]⟩
    · rintro ⟨hmany, hlen⟩
      cases hmany with
      | nil => exact absurd hlen (by simp)
      | @cons u v a as hF hmany =>
        exact ⟨u, v, a, rfl, hF, v, [], as, (List.append_nil v).symm,
          ⟨hmany, by simpa using hlen⟩, rfl, rfl⟩

/-! ### Loops over a list -/

/-- The format a loop over a list reads: one part for each item. -/
inductive Format.Each (F : γ → Format β α) : List γ → Format β (List α)
  | nil : Each F [] [] []
  | cons {x : γ} {xs : List γ} {u v : List β} {a : α} {as : List α} :
    F x u a → Each F xs v as → Each F (x :: xs) (u ++ v) (a :: as)

/-- **A loop over a list** reads one part for each item, in order. -/
theorem matches_mapM {m : γ → Parser ε σ α} {F : γ → Format β α} {xs : List γ}
    (hm : ∀ x ∈ xs, Matches c (m x) (F x)) : Matches c (xs.mapM m) (Format.Each F xs) := by
  induction xs with
  | nil =>
    rw [List.mapM_nil]
    refine (matches_pure []).congr fun w as => ⟨?_, ?_⟩
    · rintro ⟨rfl, rfl⟩
      exact .nil
    · intro h
      cases h
      exact ⟨rfl, rfl⟩
  | cons x xs ih =>
    rw [List.mapM_cons]
    have htail := ih fun y hy => hm y (List.mem_cons_of_mem x hy)
    refine (matches_bind (hm x List.mem_cons_self) fun a => matches_bind htail fun as =>
      matches_pure (a :: as)).congr fun w as => ⟨?_, ?_⟩
    · rintro ⟨u, v, a, rfl, hF, v', w', as', rfl, heach, rfl, rfl⟩
      rw [List.append_nil]
      exact .cons hF heach
    · intro h
      cases h with
      | @cons _ _ u v a as hF heach =>
        exact ⟨u, v, a, rfl, hF, v, [], as, (List.append_nil v).symm, heach, rfl, rfl⟩

/-! ### Formats given by an encoder -/

/-- A list in an encoder's format is the encodings of its items, run together. -/
theorem many_iff_flatMap {F : Format β α} {enc : α → List β} {ok : α → Prop}
    (hF : ∀ w a, F w a ↔ ok a ∧ w = enc a) (w : List β) (as : List α) :
    F.Many w as ↔ (∀ a ∈ as, ok a) ∧ w = as.flatMap enc := by
  constructor
  · intro h
    induction h with
    | nil => exact ⟨by simp, rfl⟩
    | @cons u v a as hu _ ih =>
      obtain ⟨hok, rfl⟩ := (hF u a).mp hu
      obtain ⟨hoks, rfl⟩ := ih
      exact ⟨List.forall_mem_cons.mpr ⟨hok, hoks⟩, rfl⟩
  · induction as generalizing w with
    | nil =>
      rintro ⟨-, rfl⟩
      exact .nil
    | cons a as ih =>
      rintro ⟨hoks, rfl⟩
      obtain ⟨hok, hoks⟩ := List.forall_mem_cons.mp hoks
      exact .cons ((hF _ a).mpr ⟨hok, rfl⟩) (ih _ ⟨hoks, rfl⟩)

end PrefixParser

end SoloMiner
