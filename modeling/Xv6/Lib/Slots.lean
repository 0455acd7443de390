import Mathlib.Data.List.Basic
import Mathlib.Data.List.Count

/-! A list in which some places are vacant: putting an element into the first of them, or at
the end, and making a place vacant again. -/

namespace Xv6.Lib.Slots
open List

variable {α : Type} (free : α → Bool)

def place (l : List α) (a : α) : List α :=
  match l.findIdx? free with
  | some i => l.set i a
  | none => l ++ [a]

variable {free} {l : List α} {a b : α}

theorem place_none (full : l.findIdx? free = none) : place free l a = l ++ [a] := by
  rw [place, full]

theorem place_some {i : Nat} (found : l.findIdx? free = some i) : place free l a = l.set i a := by
  rw [place, found]

theorem findIdx?_some {i : Nat} (found : l.findIdx? free = some i) : ∃ h : i < l.length, free l[i] = true := by
  obtain ⟨h, holds, -⟩ := List.findIdx?_eq_some_iff_getElem.mp found
  exact ⟨h, holds⟩

theorem place_cons (taken : free b = false) : place free (b :: l) a = b :: place free l a := by
  cases found : l.findIdx? free with
  | none => rw [place_none found, place_none (by simp [List.findIdx?_cons, taken, found]), cons_append]
  | some i => rw [place_some found, place_some (i := i + 1) (by simp [List.findIdx?_cons, taken, found]), set_cons_succ]

theorem mem_of_mem_place (member : b ∈ place free l a) : b = a ∨ b ∈ l := by
  cases found : l.findIdx? free with
  | none =>
    rw [place_none found] at member
    obtain before | last := mem_append.mp member
    · exact .inr before
    · exact .inl (mem_singleton.mp last)
  | some i =>
    rw [place_some found] at member
    exact (mem_or_eq_of_mem_set member).symm

theorem mem_place_of_mem (member : b ∈ l) (taken : free b = false) : b ∈ place free l a := by
  cases found : l.findIdx? free with
  | none =>
    rw [place_none found]
    exact mem_append_left _ member
  | some i =>
    obtain ⟨h, vacant⟩ := findIdx?_some found
    rw [place_some found]
    obtain ⟨j, bound, rfl⟩ := getElem_of_mem member
    have apart : i ≠ j := by
      rintro rfl
      rw [vacant] at taken
      cases taken
    refine mem_iff_getElem.mpr ⟨j, by rw [length_set]; exact bound, ?_⟩
    rw [getElem_set_of_ne apart]

theorem countP_place {p : α → Bool} (taken : ∀ b, free b = true → p b = false) :
    (place free l a).countP p = l.countP p + if p a then 1 else 0 := by
  cases found : l.findIdx? free with
  | none => rw [place_none found, countP_append, countP_singleton]
  | some i =>
    obtain ⟨h, vacant⟩ := findIdx?_some found
    rw [place_some found, countP_set h, taken _ vacant]
    simp

theorem countP_vacate {p : α → Bool} {i : Nat} (h : i < l.length) (vacant : p a = false) :
    (l.set i a).countP p + (if p l[i] then 1 else 0) = l.countP p := by
  rw [countP_set h, vacant]
  by_cases here : p l[i] = true
  · have positive : 0 < l.countP p := countP_pos_iff.mpr ⟨l[i], getElem_mem h, here⟩
    simp only [here, if_true, Bool.false_eq_true, if_false]
    omega
  · simp [here]

theorem find?_range (p : Nat → Bool) (n : Nat) : (List.range n).find? p = (List.range n).findIdx? p := by
  ext i
  rw [List.find?_eq_some_iff_getElem, List.findIdx?_eq_some_iff_getElem]
  simp only [getElem_range, length_range]
  constructor
  · rintro ⟨holds, j, bound, rfl, first⟩
    exact ⟨bound, holds, fun l before => by simpa using first l before⟩
  · rintro ⟨bound, holds, first⟩
    exact ⟨holds, i, bound, rfl, fun l before => by simpa using first l before⟩

end Xv6.Lib.Slots
