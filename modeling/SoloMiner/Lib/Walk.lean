import Mathlib.Data.Set.Card
import Mathlib.Logic.Relation

/-!
# Walks

A relation `Edge` says which nodes may come behind a node, and a partial function `next`
chooses one of them wherever there are any (`SoloMiner.Walk.IsChoice`). A walk starts at
a node and goes where `next` says, up to a node that has none behind it
(`SoloMiner.Walk.Visits`).

On a finite relation without cycles every walk ends, and no node is met twice
(`SoloMiner.Walk.exists_visits`, `SoloMiner.Walk.Visits.nodup`). It meets all the nodes
that can be reached if no node on the way has two behind it
(`SoloMiner.Walk.Visits.mem_of_reaches`). Otherwise it leaves some out, unless the choice
happens to be the right one at every fork: two choices whose walks leave nothing out are
the same wherever they go (`SoloMiner.Walk.Visits.next_eq`).
-/

namespace SoloMiner

namespace Walk

open Relation

variable {α : Type*} {Edge : α → α → Prop} {next next' : α → Option α} {a b c x y : α}
  {nodes nodes' : List α} {last : α}

/-- The relation has no cycle. -/
def Acyclic (Edge : α → α → Prop) : Prop := ∀ x, ¬ TransGen Edge x x

/-- Where every edge leads to a node of higher rank there is no cycle. -/
theorem acyclic_of_rank (rank : α → ℕ) (h : ∀ x y, Edge x y → rank x < rank y) : Acyclic Edge := by
  have hlt : ∀ x y, TransGen Edge x y → rank x < rank y := by
    intro x y hxy
    induction hxy with
    | single hedge => exact h x _ hedge
    | tail _ hedge ih => exact ih.trans (h _ _ hedge)
  exact fun x hx => lt_irrefl _ (hlt x x hx)

/-- There is a path of `n` edges from one node to the other. -/
inductive ReachesIn (Edge : α → α → Prop) : ℕ → α → α → Prop
  | refl (a : α) : ReachesIn Edge 0 a a
  | head {n : ℕ} {a b c : α} : Edge a b → ReachesIn Edge n b c → ReachesIn Edge (n + 1) a c

/-- No node that can be reached has two others behind it. -/
def Unforked (Edge : α → α → Prop) (a : α) : Prop :=
  ∀ x, ReflTransGen Edge a x → ∀ y z, Edge x y → Edge x z → y = z

theorem Unforked.of_edge (h : Unforked Edge a) (hedge : Edge a b) : Unforked Edge b :=
  fun x hx => h x (ReflTransGen.head hedge hx)

/-- What can be reached is where the path starts, or at the end of an edge. -/
theorem reaches_subset {nodes : Set α} (hnodes : ∀ x y, Edge x y → y ∈ nodes) :
    {x | ReflTransGen Edge a x} ⊆ insert a nodes := by
  intro x hx
  rcases ReflTransGen.cases_tail hx with rfl | ⟨y, -, hedge⟩
  · exact Set.mem_insert _ _
  · exact Set.mem_insert_of_mem _ (hnodes y x hedge)

/-- The walk from a node meets these nodes behind it, in this order, and then ends. -/
inductive Visits (next : α → Option α) : α → List α → α → Prop
  | last {a : α} : next a = none → Visits next a [] a
  | step {a b last : α} {nodes : List α} :
    next a = some b → Visits next b nodes last → Visits next a (b :: nodes) last

/-- The walk as a loop that counts its steps. The first argument bounds the turns. -/
def follow (next : α → Option α) : ℕ → α → ℕ → Option (α × ℕ)
  | 0, _, _ => none
  | fuel + 1, current, steps =>
    match next current with
    | none => some (current, steps)
    | some b => follow next fuel b (steps + 1)

/-- **The loop ends where the walk does**, and has counted the nodes, when it may take a
turn for each node and one more. -/
theorem Visits.follow (h : Visits next a nodes last) {fuel : ℕ} (hfuel : nodes.length < fuel)
    (steps : ℕ) : follow next fuel a steps = some (last, steps + nodes.length) := by
  induction h generalizing fuel steps with
  | last hnone =>
    obtain ⟨fuel, rfl⟩ := Nat.exists_eq_succ_of_ne_zero (Nat.ne_zero_of_lt hfuel)
    rw [Walk.follow, hnone]
    rfl
  | step hsome _ ih =>
    obtain ⟨fuel, rfl⟩ := Nat.exists_eq_succ_of_ne_zero (Nat.ne_zero_of_lt hfuel)
    rw [Walk.follow, hsome]
    dsimp only
    rw [ih (Nat.lt_of_succ_lt_succ hfuel), List.length_cons, Nat.add_assoc, Nat.add_comm 1]

/-- Nothing comes behind the last node. -/
theorem Visits.next_last (h : Visits next a nodes last) : next last = none := by
  induction h with
  | last hnone => exact hnone
  | step _ _ ih => exact ih

/-- The function chooses one of the nodes behind a node, if there are any. -/
structure IsChoice (Edge : α → α → Prop) (next : α → Option α) : Prop where
  edge : ∀ x y, next x = some y → Edge x y
  none : ∀ x y, next x = none → ¬ Edge x y

/-! ### Where a walk goes -/

section Choice

variable (hchoice : IsChoice Edge next)
include hchoice

/-- The walk leads along edges. -/
theorem Visits.reachesIn (h : Visits next a nodes last) : ReachesIn Edge nodes.length a last := by
  induction h with
  | last => exact .refl _
  | step hsome _ ih => exact .head (hchoice.edge _ _ hsome) ih

theorem Visits.transGen (h : Visits next a nodes last) (hx : x ∈ nodes) : TransGen Edge a x := by
  induction h with
  | last => exact absurd hx List.not_mem_nil
  | step hsome _ ih =>
    have hedge := hchoice.edge _ _ hsome
    rcases List.mem_cons.mp hx with rfl | hx
    · exact .single hedge
    · exact .head hedge (ih hx)

/-- Every node that is met can be reached. -/
theorem Visits.reaches (h : Visits next a nodes last) (hx : x ∈ a :: nodes) :
    ReflTransGen Edge a x := by
  rcases List.mem_cons.mp hx with rfl | hx
  · exact .refl
  · exact (h.transGen hchoice hx).to_reflTransGen

/-- **No node is met twice.** -/
theorem Visits.nodup (hacyclic : Acyclic Edge) (h : Visits next a nodes last) :
    (a :: nodes).Nodup := by
  induction h with
  | last => exact List.nodup_singleton _
  | @step a b last nodes hsome hvisits ih =>
    refine List.nodup_cons.mpr ⟨fun ha => ?_, ih⟩
    exact hacyclic a ((Visits.step hsome hvisits).transGen hchoice ha)

/-- **Every walk ends.** The nodes that are still ahead become fewer with each step. -/
theorem exists_visits (hacyclic : Acyclic Edge) {present : Finset α}
    (hpresent : ∀ x y, Edge x y → y ∈ present) (a : α) :
    ∃ nodes last, Visits next a nodes last := by
  classical
  induction hn : (present.filter (TransGen Edge a)).card using Nat.strong_induction_on
    generalizing a with
  | _ n ih =>
    cases hnext : next a with
    | none => exact ⟨[], a, .last hnext⟩
    | some b =>
      have hedge := hchoice.edge _ _ hnext
      have hsub : present.filter (TransGen Edge b) ⊆ present.filter (TransGen Edge a) := by
        intro x hx
        rw [Finset.mem_filter] at hx ⊢
        exact ⟨hx.1, .head hedge hx.2⟩
      have hb : b ∈ present.filter (TransGen Edge a) :=
        Finset.mem_filter.mpr ⟨hpresent a b hedge, .single hedge⟩
      have hnot : b ∉ present.filter (TransGen Edge b) := fun hmem =>
        hacyclic b (Finset.mem_filter.mp hmem).2
      have hlt : (present.filter (TransGen Edge b)).card < n :=
        hn ▸ Finset.card_lt_card (Finset.ssubset_iff_of_subset hsub |>.mpr ⟨b, hb, hnot⟩)
      obtain ⟨nodes, last, hvisits⟩ := ih _ hlt b rfl
      exact ⟨b :: nodes, last, .step hnext hvisits⟩

/-! ### What a walk leaves out -/

/-- **Without a fork the walk meets whatever can be reached.** -/
theorem Visits.mem_of_reaches (h : Visits next a nodes last) (hunforked : Unforked Edge a)
    (hx : ReflTransGen Edge a x) : x ∈ a :: nodes := by
  induction h with
  | last hnone =>
    rcases ReflTransGen.cases_head hx with rfl | ⟨y, hedge, -⟩
    · exact List.mem_cons_self
    · exact absurd hedge (hchoice.none _ y hnone)
  | @step a b last nodes hsome _ ih =>
    rcases ReflTransGen.cases_head hx with rfl | ⟨y, hedge, hrest⟩
    · exact List.mem_cons_self
    · have hb := hchoice.edge _ _ hsome
      obtain rfl := hunforked a .refl b y hb hedge
      exact List.mem_cons_of_mem _ (ih (hunforked.of_edge hb) hrest)

/-- Nor is there a longer way then. -/
theorem Visits.le_length (h : Visits next a nodes last) (hunforked : Unforked Edge a) {n : ℕ}
    (hx : ReachesIn Edge n a x) : n ≤ nodes.length := by
  induction h generalizing n with
  | last hnone =>
    cases hx with
    | refl => exact le_rfl
    | head hedge => exact absurd hedge (hchoice.none _ _ hnone)
  | @step a b last nodes hsome _ ih =>
    cases hx with
    | refl => exact Nat.zero_le _
    | head hedge hrest =>
      have hb := hchoice.edge _ _ hsome
      obtain rfl := hunforked a .refl _ _ hb hedge
      exact Nat.succ_le_succ (ih (hunforked.of_edge hb) hrest)

/-- A node behind another one, and not the chosen one, is met after the chosen one. -/
theorem Visits.transGen_next (hacyclic : Acyclic Edge) (h : Visits next a nodes last)
    (hx : x ∈ a :: nodes) (hy : y ∈ a :: nodes) (hedge : Edge x y) (hb : next x = some b)
    (hne : y ≠ b) : TransGen Edge b y := by
  induction h with
  | last =>
    obtain rfl := List.mem_singleton.mp hx
    obtain rfl := List.mem_singleton.mp hy
    exact absurd (.single hedge) (hacyclic _)
  | @step a c last nodes hsome hvisits ih =>
    have hwalk := Visits.step hsome hvisits
    rcases List.mem_cons.mp hy with rfl | hbehind
    · -- The first node is behind none of those that are met.
      exact absurd (TransGen.tail' (hwalk.reaches hchoice hx) hedge) (hacyclic _)
    · rcases List.mem_cons.mp hx with rfl | hx
      · obtain rfl := Option.some.inj (hsome.symm.trans hb)
        rcases List.mem_cons.mp hbehind with rfl | hlater
        · exact absurd rfl hne
        · exact hvisits.transGen hchoice hlater
      · exact ih hx hbehind

/-- **Two walks that leave nothing out make the same choices.** -/
theorem Visits.next_eq (hacyclic : Acyclic Edge) (hchoice' : IsChoice Edge next')
    {last' : α} (h : Visits next a nodes last) (h' : Visits next' a nodes' last')
    (hall : ∀ x, ReflTransGen Edge a x → x ∈ a :: nodes)
    (hall' : ∀ x, ReflTransGen Edge a x → x ∈ a :: nodes') (hx : ReflTransGen Edge a x)
    (hb : next x = some b) (hc : next' x = some c) : b = c := by
  by_contra hne
  have hedge := hchoice.edge _ _ hb
  have hedge' := hchoice'.edge _ _ hc
  have hbc : TransGen Edge b c :=
    h.transGen_next hchoice hacyclic (hall x hx) (hall c (hx.tail hedge')) hedge' hb (Ne.symm hne)
  have hcb : TransGen Edge c b :=
    h'.transGen_next hchoice' hacyclic (hall' x hx) (hall' b (hx.tail hedge)) hedge hc hne
  exact hacyclic b (hbc.trans hcb)

/-- **The walk is as long as there are nodes to reach precisely if it meets them all.** -/
theorem Visits.length_eq_ncard_iff (hacyclic : Acyclic Edge) (h : Visits next a nodes last)
    {present : Set α} (hfinite : present.Finite) (hpresent : ∀ x y, Edge x y → y ∈ present) :
    (a :: nodes).length = {x | ReflTransGen Edge a x}.ncard ↔
      ∀ x, ReflTransGen Edge a x → x ∈ a :: nodes := by
  classical
  have hncard : ((a :: nodes).toFinset : Set α).ncard = (a :: nodes).length := by
    rw [Set.ncard_coe_finset, List.toFinset_card_of_nodup (h.nodup hchoice hacyclic)]
  have hsub : ((a :: nodes).toFinset : Set α) ⊆ {x | ReflTransGen Edge a x} := fun x hx =>
    h.reaches hchoice (List.mem_toFinset.mp hx)
  constructor
  · intro hlen x hx
    have heq : ((a :: nodes).toFinset : Set α) = {x | ReflTransGen Edge a x} :=
      Set.eq_of_subset_of_ncard_le hsub (by rw [hncard, hlen])
        ((hfinite.insert a).subset (reaches_subset hpresent))
    have hmem : x ∈ ((a :: nodes).toFinset : Set α) := heq ▸ hx
    exact List.mem_toFinset.mp hmem
  · intro hall
    rw [← hncard]
    exact congrArg Set.ncard (hsub.antisymm fun x hx => List.mem_toFinset.mpr (hall x hx))

end Choice

end Walk

end SoloMiner
