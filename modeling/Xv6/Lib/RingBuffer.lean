import Mathlib.Data.BitVec
import Mathlib.Logic.Function.Basic
import Mathlib.Data.List.Basic
import Mathlib.Data.Int.ModEq

/-! A circular buffer addressed by two counters that wrap at the machine word. They stay in step
with the slots exactly when the capacity divides the number of words. -/

namespace Xv6.Lib
open Nat List BitVec Fin

structure RingBuffer (cap width : Nat) (α : Type*) where
  data : Fin cap → α
  nread : BitVec width
  nwrite : BitVec width

variable {cap width : Nat} [NeZero cap] {α : Type*}

def RingBuffer.slot (counter : BitVec width) : Fin cap := Fin.ofNat cap counter.toNat

def RingBuffer.count (ring : RingBuffer cap width α) : Nat := (ring.nwrite - ring.nread).toNat

def RingBuffer.buffered (ring : RingBuffer cap width α) : List α :=
  (List.range ring.count).map fun k => ring.data (slot (ring.nread + BitVec.ofNat width k))

def RingBuffer.push (ring : RingBuffer cap width α) (value : α) : RingBuffer cap width α :=
  { ring with
    data := Function.update ring.data (slot ring.nwrite) value
    nwrite := ring.nwrite + 1 }

def RingBuffer.front (ring : RingBuffer cap width α) : α := ring.data (slot ring.nread)

def RingBuffer.pop (ring : RingBuffer cap width α) : RingBuffer cap width α :=
  { ring with nread := ring.nread + 1 }

def RingBuffer.unpush (ring : RingBuffer cap width α) : RingBuffer cap width α :=
  { ring with nwrite := ring.nwrite - 1 }

/-- `pushed` is everything ever stored and `popped` how much of it was taken out. -/
structure RingBuffer.Holds (ring : RingBuffer cap width α) (pushed : List α) (popped : Nat) : Prop where
  ordered : popped ≤ pushed.length
  bounded : pushed.length ≤ popped + cap
  nread : ring.nread = BitVec.ofNat width popped
  nwrite : ring.nwrite = BitVec.ofNat width pushed.length
  data : ∀ k, popped ≤ k → (below : k < pushed.length) → ring.data (Fin.ofNat cap k) = pushed[k]

omit [NeZero cap] in
theorem RingBuffer.ofNat_eq_iff_of_window (small : cap < 2 ^ width) {a b : Nat} (low : a ≤ b) (high : b ≤ a + cap) :
    BitVec.ofNat width a = BitVec.ofNat width b ↔ a = b := by
  constructor
  · intro same
    have values := congrArg BitVec.toNat same
    simp only [BitVec.toNat_ofNat] at values
    have gap : (b - a) % 2 ^ width = 0 := by
      have := (modEq_iff_dvd' low).mp values
      exact mod_eq_zero_of_dvd this
    rw [mod_eq_of_lt (by omega)] at gap
    omega
  · rintro rfl
    rfl

omit [NeZero cap] in
theorem RingBuffer.toNat_sub_of_window (small : cap < 2 ^ width) {a b : Nat} (low : a ≤ b) (high : b ≤ a + cap) :
    (BitVec.ofNat width b - BitVec.ofNat width a).toNat = b - a := by
  have split : b = (b - a) + a := by omega
  have moved : BitVec.ofNat width b - BitVec.ofNat width a = BitVec.ofNat width (b - a) := by
    conv_lhs => rw [split]
    rw [ofNat_add, add_sub_cancel]
  rw [moved, toNat_ofNat]
  exact mod_eq_of_lt (by omega)

theorem RingBuffer.slot_ofNat (divides : cap ∣ 2 ^ width) (k : Nat) :
    slot (BitVec.ofNat width k) = Fin.ofNat cap k := by
  apply Fin.ext
  simp only [slot, Fin.val_ofNat, BitVec.toNat_ofNat]
  exact mod_mod_of_dvd k divides

theorem RingBuffer.slot_eq_iff_of_window {a b : Nat} (low : a ≤ b) (high : b < a + cap) :
    Fin.ofNat cap a = Fin.ofNat cap b ↔ a = b := by
  constructor
  · intro same
    have values : a % cap = b % cap := congrArg val same
    have gap := mod_eq_zero_of_dvd ((modEq_iff_dvd' low).mp values)
    rw [mod_eq_of_lt (by omega)] at gap
    omega
  · rintro rfl
    rfl

namespace RingBuffer.Holds

variable {ring : RingBuffer cap width α} {pushed : List α} {popped : Nat}

theorem start (data : Fin cap → α) : (RingBuffer.mk data (0 : BitVec width) 0).Holds [] 0 where
  ordered := le_rfl
  bounded := zero_le _
  nread := rfl
  nwrite := rfl
  data := fun _ _ below => absurd below (not_lt_zero _)

section

variable (holds : ring.Holds pushed popped)
include holds

theorem full_iff (small : cap < 2 ^ width) :
    ring.nwrite = ring.nread + BitVec.ofNat width cap ↔ pushed.length = popped + cap := by
  rw [holds.nread, holds.nwrite, ← BitVec.ofNat_add]
  exact ofNat_eq_iff_of_window small holds.bounded (by have := holds.ordered; omega)

theorem empty_iff (small : cap < 2 ^ width) :
    ring.nread = ring.nwrite ↔ pushed.length = popped := by
  rw [holds.nread, holds.nwrite, ofNat_eq_iff_of_window small holds.ordered holds.bounded]
  exact eq_comm

theorem count_eq (small : cap < 2 ^ width) :
    ring.count = pushed.length - popped := by
  rw [RingBuffer.count, holds.nread, holds.nwrite]
  exact toNat_sub_of_window small holds.ordered holds.bounded

theorem push (divides : cap ∣ 2 ^ width)
    (room : pushed.length < popped + cap) (value : α) :
    (ring.push value).Holds (pushed ++ [value]) popped where
  ordered := by simpa using Nat.le_succ_of_le holds.ordered
  bounded := by simpa using succ_le_of_lt room
  nread := holds.nread
  nwrite := by simp [RingBuffer.push, holds.nwrite, ofNat_add]
  data := by
    intro k low below
    simp only [RingBuffer.push, holds.nwrite, slot_ofNat divides]
    by_cases last : k = pushed.length
    · subst last
      simp
    · have inside : k < pushed.length := by simp only [List.length_append, List.length_singleton] at below; omega
      have apart : Fin.ofNat cap k ≠ Fin.ofNat cap pushed.length := by
        rw [ne_eq, slot_eq_iff_of_window (by omega) (by omega)]
        exact last
      rw [Function.update_of_ne apart, holds.data k low inside, getElem_append_left inside]

theorem front_eq (divides : cap ∣ 2 ^ width)
    (nonempty : popped < pushed.length) : ring.front = pushed[popped] := by
  rw [RingBuffer.front, holds.nread, slot_ofNat divides]
  exact holds.data popped le_rfl nonempty

theorem pop (nonempty : popped < pushed.length) :
    ring.pop.Holds pushed (popped + 1) where
  ordered := nonempty
  bounded := by have := holds.bounded; omega
  nread := by simp [RingBuffer.pop, holds.nread, ofNat_add]
  nwrite := holds.nwrite
  data := fun k low below => holds.data k (by omega) below

theorem nwrite_sub_one (nonempty : popped < pushed.length) :
    ring.nwrite - 1 = BitVec.ofNat width (pushed.length - 1) := by
  have split : pushed.length = (pushed.length - 1) + 1 := by omega
  rw [holds.nwrite]
  conv_lhs => rw [split]
  rw [ofNat_add]
  exact add_sub_cancel _ _

theorem back_eq (divides : cap ∣ 2 ^ width)
    (nonempty : popped < pushed.length) :
    ring.data (slot (ring.nwrite - 1)) = pushed[pushed.length - 1] := by
  rw [holds.nwrite_sub_one nonempty, slot_ofNat divides]
  exact holds.data _ (by omega) (by omega)

theorem unpush (nonempty : popped < pushed.length) :
    ring.unpush.Holds pushed.dropLast popped where
  ordered := by rw [List.length_dropLast]; omega
  bounded := by rw [length_dropLast]; have := holds.bounded; omega
  nread := holds.nread
  nwrite := by rw [length_dropLast]; exact holds.nwrite_sub_one nonempty
  data := fun k low below => by
    rw [length_dropLast] at below
    rw [getElem_dropLast]
    exact holds.data k low (by omega)

theorem buffered_eq (divides : cap ∣ 2 ^ width) (small : cap < 2 ^ width) :
    ring.buffered = pushed.drop popped := by
  apply List.ext_getElem
  · simp [RingBuffer.buffered, holds.count_eq small]
  · intro k left right
    have inside : popped + k < pushed.length := by simp only [length_drop] at right; omega
    simp only [RingBuffer.buffered, getElem_map, getElem_range, getElem_drop]
    rw [holds.nread, ← ofNat_add, slot_ofNat divides]
    exact holds.data _ (le_add_right _ _) inside

end

end RingBuffer.Holds

end Xv6.Lib
