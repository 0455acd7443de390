import Mathlib.Logic.Function.Basic
import Mathlib.Data.BitVec

/-! `memmove` of `string.c` and `memmove` of `ulib.c`. Pointers wrap at 2^32, so that the end of
a range may be the null pointer. -/

namespace Xv6
open Function

abbrev Memory := BitVec 32 → UInt8

def copyUp (m : Memory) (d s : BitVec 32) : Nat → Memory
  | 0 => m
  | n + 1 => copyUp (Function.update m d (m s)) (d + 1) (s + 1) n

def copyDown (m : Memory) (d s : BitVec 32) : Nat → Memory
  | 0 => m
  | n + 1 => copyDown (Function.update m (d - 1) (m (s - 1))) (d - 1) (s - 1) n

namespace Kernel

def memmove (m : Memory) (dst src n : BitVec 32) : Memory × BitVec 32 :=
  if src < dst ∧ src + n > dst then
    (copyDown m (dst + n) (src + n) n.toNat, dst)
  else
    (copyUp m dst src n.toNat, dst)

end Kernel

namespace User

-- n is an int
def memmove (m : Memory) (dst src n : BitVec 32) : Memory × BitVec 32 :=
  (copyUp m dst src n.toInt.toNat, dst)

end User

def moved (m : Memory) (dst src : BitVec 32) (n : Nat) : Memory := fun a =>
  if (a - dst).toNat < n then m (src + (a - dst)) else m a

section Copies

variable {m : Memory} {d s : BitVec 32} {n : Nat}

theorem copyUp_outside {a : BitVec 32} (outside : n ≤ (a - d).toNat) : copyUp m d s n a = m a := by
  induction n generalizing m d s with
  | zero => rfl
  | succ n ih =>
    have apart : a ≠ d := by
      rintro rfl
      simp at outside
    rw [copyUp, ih (by bv_omega), update_of_ne apart]

theorem copyUp_add (i j : Nat) :
    copyUp m d s (i + j) = copyUp (copyUp m d s i) (d + .ofNat 32 i) (s + .ofNat 32 i) j := by
  induction i generalizing m d s with
  | zero => simp [copyUp]
  | succ i ih =>
    have next : ∀ p : BitVec 32, p + 1 + .ofNat 32 i = p + .ofNat 32 (i + 1) := by
      intro p
      bv_omega
    rw [Nat.succ_add, copyUp, ih, copyUp, next, next]

theorem copyUp_eq (small : n < 2 ^ 32) (ahead : d = s ∨ n ≤ (d - s).toNat) : copyUp m d s n = moved m d s n := by
  induction n generalizing m d s with
  | zero => rfl
  | succ n ih =>
    rw [copyUp, ih (by omega) (by bv_omega)]
    funext a
    unfold moved
    by_cases first : a = d
    · subst first
      rw [if_neg (by bv_omega), update_self, if_pos (by simp), BitVec.sub_self, BitVec.add_zero]
    · have same : (a - (d + 1)).toNat < n ↔ (a - d).toNat < n + 1 := by bv_omega
      have source : s + 1 + (a - (d + 1)) = s + (a - d) := by bv_omega
      rw [update_of_ne first, source]
      split
      next inside =>
        rw [if_pos (same.mp inside)]
        rcases ahead with rfl | far
        · rw [update_eq_self]
        · rw [update_of_ne (by bv_omega)]
      next outside => rw [if_neg (mt same.mpr outside)]

theorem copyDown_eq (small : n < 2 ^ 32) (ahead : d = s ∨ n ≤ (s - d).toNat) :
    copyDown m (d + .ofNat 32 n) (s + .ofNat 32 n) n = moved m d s n := by
  induction n generalizing m with
  | zero => rfl
  | succ n ih =>
    have last : ∀ p : BitVec 32, p + .ofNat 32 (n + 1) - 1 = p + .ofNat 32 n := by
      intro p
      bv_omega
    rw [copyDown, last, last, ih (by omega) (by bv_omega)]
    funext a
    unfold moved
    by_cases first : a = d + .ofNat 32 n
    · subst first
      have offset : d + .ofNat 32 n - d = .ofNat 32 n := by bv_omega
      rw [offset, if_neg (by bv_omega), update_self, if_pos (by bv_omega)]
    · have same : (a - d).toNat < n ↔ (a - d).toNat < n + 1 := by bv_omega
      rw [update_of_ne first]
      split
      next inside =>
        rw [if_pos (same.mp inside)]
        rcases ahead with rfl | far
        · rw [update_eq_self]
        · rw [update_of_ne (by bv_omega)]
      next outside => rw [if_neg (mt same.mpr outside)]

theorem copyUp_overlap (small : n < 2 ^ 32) (apart : d ≠ s) (overlap : (d - s).toNat < n) :
    copyUp m d s n (d + (d - s)) = m s := by
  obtain ⟨rest, split⟩ := Nat.exists_eq_add_of_lt overlap
  have offset : BitVec.ofNat 32 (d - s).toNat = d - s := by rw [BitVec.ofNat_toNat, BitVec.setWidth_eq]
  have source : s + (d - s) = d := by bv_omega
  rw [split, Nat.add_assoc, copyUp_add, copyUp, offset, source, copyUp_outside (by bv_omega), update_self,
    copyUp_eq (by omega) (.inr le_rfl), moved, if_pos (by bv_omega), BitVec.sub_self, BitVec.add_zero]

end Copies

section Ranges

variable {dst src n : BitVec 32}

theorem Kernel.memmove_eq (reads : src.toNat + n.toNat ≤ 2 ^ 32) (writes : dst.toNat + n.toNat ≤ 2 ^ 32) (m : Memory) :
    Kernel.memmove m dst src n = (moved m dst src n.toNat, dst) := by
  have whole : BitVec.ofNat 32 n.toNat = n := by rw [BitVec.ofNat_toNat, BitVec.setWidth_eq]
  unfold Kernel.memmove
  split
  next overlap =>
    have copied := copyDown_eq n.isLt (m := m) (d := dst) (s := src) (by bv_omega)
    rw [whole] at copied
    rw [copied]
  next clear => rw [copyUp_eq n.isLt (by bv_omega)]

theorem User.memmove_nonneg (nonneg : 0 ≤ n.toInt) (m : Memory) :
    User.memmove m dst src n = (copyUp m dst src n.toNat, dst) := by
  have count : n.toInt.toNat = n.toNat := by
    rw [BitVec.toInt_eq_toNat_cond] at nonneg ⊢
    split at nonneg <;> omega
  rw [User.memmove, count]

theorem User.memmove_eq (reads : src.toNat + n.toNat ≤ 2 ^ 32) (nonneg : 0 ≤ n.toInt)
    (clear : ¬ (src < dst ∧ dst.toNat < src.toNat + n.toNat)) (m : Memory) :
    User.memmove m dst src n = (moved m dst src n.toNat, dst) := by
  rw [User.memmove_nonneg nonneg, copyUp_eq n.isLt (by bv_omega)]

/-- The kernel's `memmove` is right on all ranges, the user library's on those where the
destination does not start inside the source. -/
theorem memmove_right_iff (reads : src.toNat + n.toNat ≤ 2 ^ 32) (writes : dst.toNat + n.toNat ≤ 2 ^ 32) :
    (∀ m, Kernel.memmove m dst src n = (moved m dst src n.toNat, dst)) ∧
    (0 ≤ n.toInt → ((∀ m, User.memmove m dst src n = (moved m dst src n.toNat, dst) ∧
      User.memmove m dst src n = Kernel.memmove m dst src n) ↔ ¬ (src < dst ∧ dst.toNat < src.toNat + n.toNat))) := by
  refine ⟨Kernel.memmove_eq reads writes, fun nonneg => ⟨?_, fun clear m => ?_⟩⟩
  · rintro right ⟨below, inside⟩
    have first := (right (update 0 src 1)).1
    rw [User.memmove_nonneg nonneg, Prod.mk.injEq] at first
    have bytes := congrFun first.1 (dst + (dst - src))
    have offset : dst + (dst - src) - dst = dst - src := by bv_omega
    have source : src + (dst - src) = dst := by bv_omega
    rw [copyUp_overlap n.isLt (by bv_omega) (by bv_omega), update_self, moved, offset, if_pos (by bv_omega), source,
      update_of_ne (by bv_omega)] at bytes
    cases bytes
  · have moved := User.memmove_eq reads nonneg clear m
    exact ⟨moved, moved.trans (Kernel.memmove_eq reads writes m).symm⟩

/-- A line is moved to the front of a buffer. -/
theorem memmove_right_down :
    User.memmove (fun a => if a = 0x1010 then 97 else 0) 0x1000 0x1010 100 =
      Kernel.memmove (fun a => if a = 0x1010 then 97 else 0) 0x1000 0x1010 100 :=
  (((memmove_right_iff (by decide) (by decide)).2 (by decide)).mpr (by decide) _).2

theorem memmove_wrong_up :
    let m : Memory := fun a => if a = 0x1000 then 97 else 98
    (User.memmove m 0x1001 0x1000 2).1 0x1002 = 97 ∧ (Kernel.memmove m 0x1001 0x1000 2).1 0x1002 = 98 ∧
      moved m 0x1001 0x1000 2 0x1002 = 98 := by
  decide

end Ranges

end Xv6
