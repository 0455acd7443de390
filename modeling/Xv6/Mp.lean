import Mathlib.Logic.Function.Basic
import Mathlib.Algebra.BigOperators.Group.List.Basic
import Mathlib.Data.UInt
import Xv6.Param

/-! The scan of the MP configuration table in `mp.c`. Memory is seen at physical addresses; what
`mpsearch` finds is given. -/

namespace Xv6.Mp

def MPPROC : UInt8 := 0
def MPBUS : UInt8 := 1
def MPIOAPIC : UInt8 := 2
def MPIOINTR : UInt8 := 3
def MPLINTR : UInt8 := 4

structure Floating where
  physaddr : Nat
  imcrp : UInt8
  deriving DecidableEq

structure State where
  -- the locals of mpinit
  p : Nat
  ismp : Bool
  apicid : Nat → UInt8
  ncpu : Nat
  ioapicid : UInt8
  lapic : List UInt8

section Table

variable (mem : Nat → UInt8)

def sum (addr len : Nat) : UInt8 := ((List.range len).map fun i => mem (addr + i)).sum

-- the fields of struct mpconf, which has 44 bytes
def signature (conf : Nat) : List UInt8 := (List.range 4).map fun i => mem (conf + i)
def length (conf : Nat) : Nat := (mem (conf + 4)).toNat + 256 * (mem (conf + 5)).toNat
def version (conf : Nat) : UInt8 := mem (conf + 6)
def lapicaddr (conf : Nat) : List UInt8 := (List.range 4).map fun i => mem (conf + 36 + i)

def mpconfig (found : Option Floating) : Option (Floating × Nat) :=
  match found with
  | none => none
  | some mp =>
    if mp.physaddr = 0 then none
    -- "PCMP"
    else if signature mem mp.physaddr ≠ [80, 67, 77, 80] then none
    else if version mem mp.physaddr ≠ 1 ∧ version mem mp.physaddr ≠ 4 then none
    else if sum mem mp.physaddr (length mem mp.physaddr) ≠ 0 then none
    else some (mp, mp.physaddr)

/-- One turn of the loop in `mpinit`. -/
def entry (s : State) : State :=
  if mem s.p = MPPROC then
    if s.ncpu < NCPU then
      { s with apicid := Function.update s.apicid s.ncpu (mem (s.p + 1)), ncpu := s.ncpu + 1, p := s.p + 20 }
    else { s with p := s.p + 20 }
  else if mem s.p = MPIOAPIC then { s with ioapicid := mem (s.p + 1), p := s.p + 8 }
  else if mem s.p = MPBUS ∨ mem s.p = MPIOINTR ∨ mem s.p = MPLINTR then { s with p := s.p + 8 }
  -- this break leaves the switch, not the loop
  else { s with ismp := false }

/-- The loop up to `e`, unless it has more than `fuel` turns. -/
def scan (e : Nat) : Nat → State → Option State
  | 0, s => if s.p < e then none else some s
  | fuel + 1, s => if s.p < e then scan e fuel (entry mem s) else some s

def enter (conf : Nat) (s : State) : State := { s with p := conf + 44, ismp := true, lapic := lapicaddr mem conf }

inductive Outcome where
  | panic (message : String)
  | returned (s : State) (imcr : Bool)

def mpinit (fuel : Nat) (found : Option Floating) (s : State) : Option Outcome :=
  match mpconfig mem found with
  | none => some (.panic "Expect to run on an SMP")
  | some (mp, conf) =>
    (scan mem (conf + length mem conf) fuel (enter mem conf s)).map fun t =>
      if t.ismp then .returned t (mp.imcrp != 0) else .panic "Didn't find a suitable machine"

def Known (type : UInt8) : Prop :=
  type = MPPROC ∨ type = MPIOAPIC ∨ type = MPBUS ∨ type = MPIOINTR ∨ type = MPLINTR

def size (type : UInt8) : Nat := if type = MPPROC then 20 else 8

/-- Entries of known types follow one another from `p` to the end of the table. -/
inductive Listed (e : Nat) : Nat → Prop
  | done {p : Nat} : e ≤ p → Listed e p
  | entry {p : Nat} : p < e → Known (mem p) → Listed e (p + size (mem p)) → Listed e p

end Table

section Scan

variable {mem : Nat → UInt8} {e : Nat} {s t : State}

theorem entry_known (known : Known (mem s.p)) : (entry mem s).p = s.p + size (mem s.p) := by
  unfold entry size
  split
  next => split <;> rfl
  next other =>
    split
    · rfl
    · next plain => rw [if_pos ((known.resolve_left other).resolve_left plain)]

theorem entry_unknown (unknown : ¬ Known (mem s.p)) : (entry mem s).p = s.p := by
  unfold Known at unknown
  simp only [not_or] at unknown
  obtain ⟨proc, ioapic, bus, iointr, lintr⟩ := unknown
  rw [entry, if_neg proc, if_neg ioapic, if_neg (by rintro (here | here | here) <;> contradiction)]

theorem entry_ncpu (few : s.ncpu ≤ NCPU) : (entry mem s).ncpu ≤ NCPU := by
  unfold entry
  split
  · split
    · assumption
    · exact few
  · split
    · exact few
    · split <;> exact few

theorem scan_ncpu {fuel : Nat} (few : s.ncpu ≤ NCPU) (ended : scan mem e fuel s = some t) : t.ncpu ≤ NCPU := by
  induction fuel generalizing s with
  | zero =>
    rw [scan] at ended
    split at ended <;> cases ended
    exact few
  | succ fuel ih =>
    rw [scan] at ended
    split at ended
    · exact ih (entry_ncpu few) ended
    · cases ended
      exact few

theorem scan_of_listed {p : Nat} (listed : Listed mem e p) (here : s.p = p) : ∃ fuel, (scan mem e fuel s).isSome := by
  induction listed generalizing s with
  | done past => exact ⟨0, by rw [scan, if_neg (by omega)]; rfl⟩
  | entry inside known _ ih =>
    subst here
    obtain ⟨fuel, ended⟩ := ih (entry_known known)
    exact ⟨fuel + 1, by rw [scan, if_pos inside]; exact ended⟩

theorem listed_of_scan {fuel : Nat} (ended : (scan mem e fuel s).isSome) : Listed mem e s.p := by
  induction fuel generalizing s with
  | zero =>
    rw [scan] at ended
    split at ended
    · cases ended
    · next past => exact .done (Nat.not_lt.mp past)
  | succ fuel ih =>
    rw [scan] at ended
    split at ended
    · next inside =>
      have rest := ih ended
      by_cases known : Known (mem s.p)
      · exact .entry inside known (entry_known known ▸ rest)
      · exact entry_unknown known ▸ rest
    · next past => exact .done (Nat.not_lt.mp past)

end Scan

/-- The scan of an accepted table ends if and only if all its entries are of known types. -/
theorem mpinit_ends_iff {mem : Nat → UInt8} {found : Option Floating} {mp : Floating} {conf : Nat} {s : State}
    (accepted : mpconfig mem found = some (mp, conf)) (few : s.ncpu ≤ NCPU) :
    ((∃ fuel, (mpinit mem fuel found s).isSome) ↔ Listed mem (conf + length mem conf) (conf + 44)) ∧
      ∀ fuel t imcr, mpinit mem fuel found s = some (.returned t imcr) → t.ncpu ≤ NCPU := by
  have started : ∀ fuel, mpinit mem fuel found s = _ := fun fuel => by
    rw [mpinit, accepted]
  refine ⟨⟨?_, fun listed => ?_⟩, ?_⟩
  · rintro ⟨fuel, ended⟩
    rw [started, Option.isSome_map] at ended
    exact listed_of_scan ended
  · obtain ⟨fuel, ended⟩ := scan_of_listed listed (s := enter mem conf s) rfl
    exact ⟨fuel, by rw [started, Option.isSome_map]; exact ended⟩
  · intro fuel t imcr ended
    rw [started, Option.map_eq_some_iff] at ended
    obtain ⟨u, scanned, same⟩ := ended
    split at same <;> cases same
    exact scan_ncpu (s := enter mem conf s) few scanned

def table (checksum type : UInt8) (a : Nat) : UInt8 :=
  ([80, 67, 77, 80, 52, 0, 4, checksum] ++ List.replicate 36 0 ++ [type]).getD (a - 1024) 0

def reset : State := ⟨0, false, fun _ => 0, 0, 0, []⟩

theorem mpinit_ends_ioapic : ∃ fuel, (mpinit (table 150 MPIOAPIC) fuel (some ⟨1024, 0⟩) reset).isSome := by
  have accepted : mpconfig (table 150 MPIOAPIC) (some ⟨1024, 0⟩) = some (⟨1024, 0⟩, 1024) := by decide +kernel
  exact (mpinit_ends_iff accepted (by decide)).1.mpr (.entry (by decide +kernel) (.inr (.inl rfl)) (.done (by decide +kernel)))

/-- The scan stays at an entry of the type 9. -/
theorem mpinit_hangs : mpconfig (table 143 9) (some ⟨1024, 0⟩) = some (⟨1024, 0⟩, 1024) ∧
    ∀ fuel, mpinit (table 143 9) fuel (some ⟨1024, 0⟩) reset = none := by
  have accepted : mpconfig (table 143 9) (some ⟨1024, 0⟩) = some (⟨1024, 0⟩, 1024) := by decide +kernel
  refine ⟨accepted, fun fuel => ?_⟩
  rw [mpinit, accepted, Option.map_eq_none_iff, Option.eq_none_iff_forall_ne_some]
  intro t ended
  cases listed_of_scan (Option.isSome_iff_exists.mpr ⟨t, ended⟩) with
  | done past => exact absurd past (by decide +kernel)
  | entry _ known _ => exact absurd known (by unfold Known; decide +kernel)

end Xv6.Mp
