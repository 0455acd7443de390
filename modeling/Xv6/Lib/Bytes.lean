import Mathlib.Data.Nat.Bitwise
import Mathlib.Logic.Function.Basic
import Mathlib.Tactic.IntervalCases
import Mathlib.Tactic.Ring

/-! Fixed-size byte arrays, with little-endian words and with bits in them, the lowest bit of a byte
first. A read outside of the array is zero and a write outside is lost. -/

namespace Xv6.Lib

def Bytes (size : Nat) : Type := Fin size → UInt8

namespace Bytes

variable {size : Nat}

def zero : Bytes size := fun _ => 0

def get (bytes : Bytes size) (off : Nat) : UInt8 := if h : off < size then bytes ⟨off, h⟩ else 0

def put (bytes : Bytes size) (off : Nat) (value : UInt8) : Bytes size :=
  fun i => if i.val = off then value else bytes i

theorem get_put (bytes : Bytes size) (off place : Nat) (value : UInt8) :
    (bytes.put off value).get place = if place = off ∧ place < size then value else bytes.get place := by
  unfold get put
  split
  next bound =>
    by_cases same : place = off
    · simp [same, same ▸ bound]
    · simp [same]
  next out => simp [out]

theorem get_put_self (bytes : Bytes size) {off : Nat} (value : UInt8) (bound : off < size) :
    (bytes.put off value).get off = value := by
  rw [get_put, if_pos ⟨rfl, bound⟩]

theorem get_put_of_ne (bytes : Bytes size) {off place : Nat} (value : UInt8) (apart : place ≠ off) :
    (bytes.put off value).get place = bytes.get place := by
  rw [get_put, if_neg fun both => apart both.1]

/-- The little-endian number in the `width` bytes from `off` on. -/
def word (bytes : Bytes size) (off : Nat) : Nat → Nat
  | 0 => 0
  | width + 1 => (bytes.get off).toNat + 256 * bytes.word (off + 1) width

def setWord (bytes : Bytes size) (off : Nat) : Nat → Nat → Bytes size
  | 0, _ => bytes
  | width + 1, value => (bytes.put off (UInt8.ofNat value)).setWord (off + 1) width (value / 256)

theorem get_setWord_of_outside (bytes : Bytes size) (off width value place : Nat)
    (outside : place < off ∨ off + width ≤ place) : (bytes.setWord off width value).get place = bytes.get place := by
  induction width generalizing bytes off value with
  | zero => rfl
  | succ width ih =>
    rw [setWord, ih _ _ _ (by omega), get_put_of_ne _ _ (by omega)]

theorem word_congr {first second : Bytes size} (off width : Nat)
    (same : ∀ place, off ≤ place → place < off + width → first.get place = second.get place) :
    first.word off width = second.word off width := by
  induction width generalizing off with
  | zero => rfl
  | succ width ih =>
    rw [word, word, same off (by omega) (by omega), ih (off + 1) fun place low high => same place (by omega) (by omega)]

theorem word_setWord_of_apart {bytes : Bytes size} {off width value place wide : Nat}
    (apart : place + wide ≤ off ∨ off + width ≤ place) :
    (bytes.setWord off width value).word place wide = bytes.word place wide :=
  word_congr place wide fun there low high => get_setWord_of_outside _ _ _ _ _ (by omega)

theorem word_setWord (bytes : Bytes size) (off width value : Nat) (bound : off + width ≤ size)
    (fits : value < 256 ^ width) : (bytes.setWord off width value).word off width = value := by
  induction width generalizing bytes off value with
  | zero =>
    rw [pow_zero] at fits
    rw [word]
    omega
  | succ width ih =>
    have high : value / 256 < 256 ^ width := Nat.div_lt_of_lt_mul (by rwa [pow_succ, mul_comm] at fits)
    have low : ((bytes.setWord off (width + 1) value).get off).toNat = value % 256 := by
      rw [setWord, get_setWord_of_outside _ _ _ _ _ (by omega), get_put_self _ _ (by omega)]
      simp
    have rest : (bytes.setWord off (width + 1) value).word (off + 1) width = value / 256 := by
      rw [setWord, ih _ _ _ (by omega) high]
    rw [word, low, rest]
    omega

theorem word_lt (bytes : Bytes size) (off width : Nat) : bytes.word off width < 256 ^ width := by
  induction width generalizing off with
  | zero => simp [word]
  | succ width ih =>
    have low := (bytes.get off).toNat_lt
    have high := ih (off + 1)
    rw [word, pow_succ]
    omega

/-- The words of `values`, `width` bytes each, from `off` on. -/
def setWords (bytes : Bytes size) (off width : Nat) : List Nat → Bytes size
  | [] => bytes
  | value :: values => (bytes.setWord off width value).setWords (off + width) width values

theorem word_setWords_of_apart (bytes : Bytes size) (off width : Nat) (values : List Nat) (place wide : Nat)
    (apart : place + wide ≤ off ∨ off + width * values.length ≤ place) :
    (bytes.setWords off width values).word place wide = bytes.word place wide := by
  induction values generalizing bytes off with
  | nil => rfl
  | cons value values ih =>
    rw [List.length_cons, Nat.mul_succ] at apart
    rw [setWords, ih _ _ (by omega), word_setWord_of_apart (by omega)]

theorem word_setWords (bytes : Bytes size) (off width : Nat) (values : List Nat)
    (bound : off + width * values.length ≤ size) (fits : ∀ value ∈ values, value < 256 ^ width)
    (i : Nat) (inside : i < values.length) :
    (bytes.setWords off width values).word (off + width * i) width = values[i] := by
  induction values generalizing bytes off i with
  | nil => cases inside
  | cons value values ih =>
    rw [List.length_cons, Nat.mul_succ] at bound
    cases i with
    | zero =>
      rw [setWords, Nat.mul_zero, Nat.add_zero, word_setWords_of_apart _ _ _ _ _ _ (.inl (Nat.le_refl _))]
      exact word_setWord _ _ _ _ (by omega) (fits value List.mem_cons_self)
    | succ i =>
      rw [setWords, Nat.mul_succ, Nat.add_comm (width * i), ← Nat.add_assoc, List.getElem_cons_succ]
      exact ih _ _ (by omega) (fun other member => fits other (List.mem_cons_of_mem value member)) i
        (Nat.lt_of_succ_lt_succ inside)

def slice (bytes : Bytes size) (off count : Nat) : List UInt8 :=
  (List.range count).map fun i => bytes.get (off + i)

def blit (bytes : Bytes size) (off : Nat) (source : List UInt8) : Bytes size :=
  fun i => if off ≤ i.val ∧ i.val < off + source.length then source.getD (i.val - off) 0 else bytes i

theorem get_blit (bytes : Bytes size) (off : Nat) (source : List UInt8) {place : Nat} (bound : place < size) :
    (bytes.blit off source).get place =
      if off ≤ place ∧ place < off + source.length then source.getD (place - off) 0 else bytes.get place := by
  simp only [get, blit, bound, dif_pos]

theorem get_zero (off : Nat) : (zero : Bytes size).get off = 0 := by
  unfold get zero
  split <;> rfl

theorem word_zero (off width : Nat) : (zero : Bytes size).word off width = 0 := by
  induction width generalizing off with
  | zero => rfl
  | succ width ih =>
    rw [word, ih, get_zero]
    rfl

end Bytes

end Xv6.Lib

namespace Xv6.Lib.Bytes

variable {size : Nat}

def mask (i : Nat) : UInt8 := 1 <<< UInt8.ofNat (i % 8)

def bit (bytes : Bytes size) (i : Nat) : Bool := bytes.get (i / 8) &&& mask i != 0

def setBit (bytes : Bytes size) (i : Nat) : Bytes size :=
  bytes.put (i / 8) (bytes.get (i / 8) ||| mask i)

def clearBit (bytes : Bytes size) (i : Nat) : Bytes size :=
  bytes.put (i / 8) (bytes.get (i / 8) &&& ~~~ mask i)

theorem mask_toNat (i : Nat) : (mask i).toNat = 2 ^ (i % 8) := by
  have small : i % 8 < 8 := Nat.mod_lt _ (by decide)
  unfold mask
  interval_cases i % 8 <;> rfl

theorem testBit_not_mask (i j : Nat) (small : j < 8) :
    (~~~ mask i).toNat.testBit j = decide (j ≠ i % 8) := by
  have low : i % 8 < 8 := Nat.mod_lt _ (by decide)
  unfold mask
  interval_cases i % 8 <;> interval_cases j <;> decide

theorem bit_eq (bytes : Bytes size) (i : Nat) :
    bytes.bit i = (bytes.get (i / 8)).toNat.testBit (i % 8) := by
  have zero : (bytes.get (i / 8) &&& mask i = 0) ↔ (bytes.get (i / 8)).toNat.testBit (i % 8) = false := by
    rw [← UInt8.toNat_inj, UInt8.toNat_and, mask_toNat, Nat.and_two_pow]
    cases (bytes.get (i / 8)).toNat.testBit (i % 8) <;> simp
  unfold bit
  cases taken : (bytes.get (i / 8)).toNat.testBit (i % 8) with
  | false => simpa using zero.mpr taken
  | true => simpa [taken] using zero

theorem bit_put (bytes : Bytes size) {byte : Nat} (value : UInt8) (bound : byte < size) (j : Nat) :
    (bytes.put byte value).bit j = if j / 8 = byte then value.toNat.testBit (j % 8) else bytes.bit j := by
  rw [bit_eq, bit_eq]
  split
  next same => rw [same, get_put_self _ _ bound]
  next apart => rw [get_put_of_ne _ _ apart]

theorem bit_setBit (bytes : Bytes size) {i : Nat} (bound : i / 8 < size) (j : Nat) :
    (bytes.setBit i).bit j = (bytes.bit j || decide (j = i)) := by
  rw [setBit, bit_put _ _ bound]
  split
  next same =>
    have here : (j = i) ↔ i % 8 = j % 8 := by omega
    rw [UInt8.toNat_or, Nat.testBit_or, mask_toNat, Nat.testBit_two_pow, bit_eq, same]
    simp only [here]
  next apart =>
    have other : ¬ j = i := fun same => apart (by rw [same])
    rw [decide_eq_false other, Bool.or_false]

theorem bit_clearBit (bytes : Bytes size) {i : Nat} (bound : i / 8 < size) (j : Nat) :
    (bytes.clearBit i).bit j = (bytes.bit j && decide (j ≠ i)) := by
  rw [clearBit, bit_put _ _ bound]
  split
  next same =>
    have here : (j ≠ i) ↔ j % 8 ≠ i % 8 := by omega
    rw [UInt8.toNat_and, Nat.testBit_and, testBit_not_mask _ _ (Nat.mod_lt _ (by decide)), bit_eq, same]
    simp only [here]
  next apart =>
    have other : j ≠ i := fun same => apart (by rw [same])
    rw [decide_eq_true other, Bool.and_true]

end Xv6.Lib.Bytes
