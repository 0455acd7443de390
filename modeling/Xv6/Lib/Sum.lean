import Mathlib.Algebra.BigOperators.Group.Finset.Basic
import Mathlib.Algebra.Order.BigOperators.Group.Finset
import Mathlib.Algebra.Order.Group.Multiset
import Mathlib.Data.Fintype.BigOperators

/-! Totals over a finite set of parties when one party changes, and the values in the slots of a
table as a multiset. -/

namespace Xv6.Lib
open Function Finset

variable {ι : Type} [DecidableEq ι]

theorem sum_change_on {M : Type} [AddCommMonoid M] {s : Finset ι} {f g : ι → M} {i : ι} (member : i ∈ s)
    (others : ∀ j ∈ s, j ≠ i → f j = g j) : (∑ j ∈ s, f j) + g i = (∑ j ∈ s, g j) + f i := by
  have split : ∀ h : ι → M, ∑ j ∈ s, h j = h i + ∑ j ∈ s.erase i, h j := fun h => (add_sum_erase _ _ member).symm
  have rest : ∑ j ∈ s.erase i, f j = ∑ j ∈ s.erase i, g j :=
    sum_congr rfl fun j here => others j (mem_of_mem_erase here) (ne_of_mem_erase here)
  rw [split f, split g, rest, add_right_comm, add_assoc, add_comm]

variable [Fintype ι]

theorem sum_change {f g : ι → Nat} (i : ι) (others : ∀ j, j ≠ i → f j = g j) :
    (∑ j, f j) + g i = (∑ j, g j) + f i :=
  sum_change_on (mem_univ i) fun j _ => others j

theorem sum_update {α : Type} (table : ι → α) (i : ι) (entry : α) (f : α → Nat) :
    (∑ j, f (update table i entry j)) + f (table i) = (∑ j, f (table j)) + f entry := by
  have total := sum_change (f := fun j => f (update table i entry j)) (g := fun j => f (table j)) i
    fun j apart => by rw [update_of_ne apart]
  simpa only [update_self] using total

omit [DecidableEq ι] in
theorem le_sum (f : ι → Nat) (i : ι) : f i ≤ ∑ j, f j :=
  single_le_sum (fun _ _ => Nat.zero_le _) (mem_univ i)

end Xv6.Lib

namespace Xv6.Lib
open Function Option Finset Multiset

variable {α β : Type} {n : Nat} {f f' : Nat → Option α} {g : α → β} {i j : Nat} {a b : α}

/-- What `g` makes of the slots below `n` that are filled. -/
@[irreducible] def gathered (n : Nat) (f : Nat → Option α) (g : α → β) : Multiset β :=
  ∑ i ∈ range n, (f i).elim 0 fun a => {g a}

theorem gathered_congr (same : ∀ i < n, f' i = f i) : gathered n f' g = gathered n f g := by
  unfold gathered
  refine Finset.sum_congr rfl fun i member => ?_
  rw [same i (Finset.mem_range.mp member)]

theorem gathered_empty (none : ∀ i < n, f i = none) : gathered n f g = 0 := by
  unfold gathered
  refine Finset.sum_eq_zero fun i member => ?_
  rw [none i (Finset.mem_range.mp member)]
  rfl

theorem gathered_zero (f : Nat → Option α) (g : α → β) : gathered 0 f g = 0 := gathered_empty fun _ none => absurd none (Nat.not_lt_zero _)

theorem gathered_succ (n : Nat) (f : Nat → Option α) (g : α → β) :
    gathered (n + 1) f g = gathered n f g + (f n).elim 0 fun a => {g a} := by
  unfold gathered
  exact sum_range_succ ..

theorem gathered_split (p : Nat → Prop) [DecidablePred p] : gathered n f g =
    gathered n (fun i => if p i then none else f i) g + gathered n (fun i => if p i then f i else none) g := by
  induction n with
  | zero => rw [gathered_zero, gathered_zero, gathered_zero, add_zero]
  | succ n ih =>
    rw [gathered_succ, gathered_succ, gathered_succ, ih]
    by_cases here : p n
    · rw [if_pos here, if_pos here, elim_none, add_zero, add_assoc]
    · rw [if_neg here, if_neg here, elim_none, add_zero, add_right_comm]

theorem gathered_change (inside : i < n) (others : ∀ j < n, j ≠ i → f' j = f j) :
    gathered n f' g + (f i).elim 0 (fun a => {g a}) = gathered n f g + (f' i).elim 0 fun a => {g a} := by
  unfold gathered
  apply sum_change_on (mem_range.mpr inside)
  intro j member apart
  rw [others j (Finset.mem_range.mp member) apart]

theorem gathered_fill (inside : i < n) (before : f i = none) (after : f' i = some a)
    (others : ∀ j < n, j ≠ i → f' j = f j) : gathered n f' g = gathered n f g + {g a} := by
  have change := gathered_change (g := g) inside others
  rw [before, after] at change
  simpa using change

theorem gathered_single (inside : i < n) (here : f i = some a) (others : ∀ j < n, j ≠ i → f j = none) :
    gathered n f g = {g a} := by
  rw [gathered_fill (f := fun _ => none) inside rfl here others, gathered_empty fun _ _ => rfl, zero_add]

theorem gathered_clear (inside : i < n) (before : f i = some a) (after : f' i = none)
    (others : ∀ j < n, j ≠ i → f' j = f j) : gathered n f' g + {g a} = gathered n f g := by
  have change := gathered_change (g := g) inside others
  rw [before, after] at change
  simpa using change

theorem mem_gathered {x : β} : x ∈ gathered n f g ↔ ∃ i < n, ∃ a, f i = some a ∧ g a = x := by
  unfold gathered
  rw [mem_sum]
  constructor
  · rintro ⟨i, member, here⟩
    refine ⟨i, Finset.mem_range.mp member, ?_⟩
    cases slot : f i with
    | none =>
      rw [slot] at here
      exact absurd here (notMem_zero _)
    | some a =>
      rw [slot] at here
      exact ⟨a, rfl, (Multiset.mem_singleton.mp here).symm⟩
  · rintro ⟨i, inside, a, slot, rfl⟩
    refine ⟨i, Finset.mem_range.mpr inside, ?_⟩
    rw [slot]
    exact Multiset.mem_singleton_self _

theorem gathered_injective (nodup : (gathered n f g).Nodup) (first : i < n) (second : j < n) (slotI : f i = some a)
    (slotJ : f j = some b) (same : g a = g b) : i = j := by
  by_contra apart
  have cleared : gathered n (update f i none) g + {g a} = gathered n f g :=
    gathered_clear first slotI (update_self ..) fun k _ other => update_of_ne other ..
  rw [← cleared, nodup_add] at nodup
  have there : g b ∈ gathered n (update f i none) g := by
    rw [mem_gathered]
    exact ⟨j, second, b, by rw [update_of_ne (Ne.symm apart)]; exact slotJ, rfl⟩
  exact Multiset.disjoint_left.mp nodup.2.2 there (by rw [← same]; exact Multiset.mem_singleton_self _)

theorem gathered_nodup (injective : ∀ i < n, ∀ j < n, ∀ a b, f i = some a → f j = some b → g a = g b → i = j) :
    (gathered n f g).Nodup := by
  induction n with
  | zero =>
    rw [gathered_zero]
    exact nodup_zero
  | succ n ih =>
    have rest := ih fun i first j second => injective i (Nat.lt_succ_of_lt first) j (Nat.lt_succ_of_lt second)
    rw [gathered_succ]
    cases slot : f n with
    | none =>
      rw [elim_none, add_zero]
      exact rest
    | some a =>
      rw [elim_some, nodup_add]
      refine ⟨rest, nodup_singleton _, disjoint_left.mpr fun there here => ?_⟩
      obtain ⟨i, below, b, other, rfl⟩ := mem_gathered.mp there
      have same := injective i (Nat.lt_succ_of_lt below) n (Nat.lt_succ_self n) b a other slot (Multiset.mem_singleton.mp here)
      omega

theorem card_gathered (n : Nat) (f : Nat → Option α) (g : α → β) :
    (gathered n f g).card = ((Finset.range n).filter fun i => (f i).isSome = true).card := by
  induction n with
  | zero => rw [gathered_zero, Multiset.card_zero, Finset.range_zero, Finset.filter_empty, Finset.card_empty]
  | succ n ih =>
    rw [gathered_succ, card_add, ih, range_add_one, filter_insert]
    cases f n with
    | none => rfl
    | some a =>
      rw [isSome_some, if_pos rfl, card_insert_of_notMem (by simp)]
      rfl

end Xv6.Lib
