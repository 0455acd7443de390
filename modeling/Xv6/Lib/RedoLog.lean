import Mathlib.Data.List.Nodup
import Mathlib.Data.List.Basic
import Mathlib.Logic.Function.Basic

/-! A redo log over an address space: a list `heads` of addresses whose new contents are in `saved`.
`redo` is what the addresses will hold, and a partial copy does not change that. -/

namespace Xv6.Lib.RedoLog

variable {α β : Type} [DecidableEq α]

/-- The contents after a list of updates, the last one of an address winning. -/
def apply (updates : List (α × β)) (contents : α → β) : α → β :=
  updates.foldl (fun now u => Function.update now u.1 u.2) contents

theorem apply_append (first second : List (α × β)) (contents : α → β) :
    apply (first ++ second) contents = apply second (apply first contents) :=
  List.foldl_append

theorem apply_snoc (updates : List (α × β)) (u : α × β) (contents : α → β) :
    apply (updates ++ [u]) contents = Function.update (apply updates contents) u.1 u.2 := by
  rw [apply_append]
  rfl

/-- What recovery makes of `home`. -/
def redo (heads : List α) (saved : Nat → β) (home : α → β) (a : α) : β :=
  if a ∈ heads then saved (heads.idxOf a) else home a

@[simp] theorem redo_nil (saved : Nat → β) (home : α → β) : redo [] saved home = home := rfl

variable {heads : List α}

theorem redo_of_mem (distinct : heads.Nodup) (saved : Nat → β) (home : α → β) {t : Nat}
    (bound : t < heads.length) : redo heads saved home heads[t] = saved t := by
  rw [redo, if_pos (List.getElem_mem bound), distinct.idxOf_getElem t bound]

variable {a : α}

theorem redo_of_notMem (saved : Nat → β) (home : α → β) (outside : a ∉ heads) :
    redo heads saved home a = home a :=
  if_neg outside

/-- Copying one logged content to its place changes nothing. -/
theorem redo_install (saved : Nat → β) (home : α → β) {t : Nat}
    (bound : t < heads.length) :
    redo heads saved (Function.update home heads[t] (saved t)) = redo heads saved home := by
  funext a
  by_cases logged : a ∈ heads
  · rw [redo, redo, if_pos logged, if_pos logged]
  · have apart : a ≠ heads[t] := fun same => logged (same ▸ List.getElem_mem bound)
    rw [redo_of_notMem _ _ logged, redo_of_notMem _ _ logged, Function.update_of_ne apart]

variable {saved : Nat → β} {home : α → β}

theorem redo_installed
    (installed : ∀ t (bound : t < heads.length), home heads[t] = saved t) : redo heads saved home = home := by
  funext a
  by_cases logged : a ∈ heads
  · have bound := List.idxOf_lt_length_iff.mpr logged
    have here := installed (heads.idxOf a) bound
    rw [List.getElem_idxOf] at here
    rw [redo, if_pos logged, here]
  · exact redo_of_notMem _ _ logged

theorem redo_saved {goal : α → β}
    (saves : ∀ t (bound : t < heads.length), saved t = goal heads[t])
    (others : a ∉ heads → home a = goal a) : redo heads saved home a = goal a := by
  by_cases logged : a ∈ heads
  · have bound := List.idxOf_lt_length_iff.mpr logged
    rw [redo, if_pos logged, saves _ bound, List.getElem_idxOf]
  · rw [redo_of_notMem _ _ logged, others logged]

theorem redo_congr {saved' : Nat → β} {home' : α → β}
    (saves : ∀ t, t < heads.length → saved t = saved' t) (homes : home a = home' a) :
    redo heads saved home a = redo heads saved' home' a := by
  unfold redo
  split
  next logged => exact saves _ (List.idxOf_lt_length_iff.mpr logged)
  next => exact homes

end Xv6.Lib.RedoLog
