import Xv6.Param
import Xv6.Vm.Model

/-! How the kernel fetches the arguments of a system call (`syscall.c`, `sys_exec`); to read outside
of the process is a fault. -/

namespace Xv6.Vm.Arguments

/-- The kernel reads at an address that is not one of the process. -/
structure Fault where
  addr : Nat

structure User where
  sz : Nat
  esp : Nat
  byte : Nat → UInt8

variable (p : User)

def load (addr : Nat) : Except Fault UInt8 := if addr < p.sz then pure (p.byte addr) else throw ⟨addr⟩

-- *(int*)addr
def loadInt (addr : Nat) : Except Fault Nat := do
  let b0 ← load p addr
  let b1 ← load p (addr + 1)
  let b2 ← load p (addr + 2)
  let b3 ← load p (addr + 3)
  return b0.toNat + 2 ^ 8 * b1.toNat + 2 ^ 16 * b2.toNat + 2 ^ 24 * b3.toNat

def fetchint (addr : Nat) : Except Fault (Option Nat) :=
  if addr ≥ p.sz ∨ (addr + 4) % 2 ^ 32 > p.sz then return none
  else do return some (← loadInt p addr)

/-- The loop of `fetchstr`, for at most `left` bytes; the place of the zero. -/
def scan : Nat → Nat → Except Fault (Option Nat)
  | 0, _ => return none
  | left + 1, s =>
    if s < p.sz then do
      if (← load p s) = 0 then return some s else scan left (s + 1)
    else return none

/-- The string at `addr` and its length. -/
def fetchstr (addr : Nat) : Except Fault (Option (Nat × Nat)) :=
  if addr ≥ p.sz then return none
  else do return (← scan p (p.sz - addr + 1) addr).map fun s => (addr, s - addr)

def argint (n : Nat) : Except Fault (Option Nat) := fetchint p ((p.esp + 4 + 4 * n) % 2 ^ 32)

def argptr (n : Nat) (size : Int) : Except Fault (Option Nat) := do
  match ← argint p n with
  | none => return none
  | some i =>
    if size < 0 ∨ i ≥ p.sz ∨ (i + size.toNat) % 2 ^ 32 > p.sz then return none else return some i

def argstr (n : Nat) : Except Fault (Option (Nat × Nat)) := do
  match ← argint p n with
  | none => return none
  | some addr => fetchstr p addr

/-- The loop of `sys_exec` with `left` places left in `argv`. -/
def fetchArgv (uargv : Nat) : Nat → Nat → Except Fault (Option (List Nat))
  | 0, _ => return none
  | left + 1, i => do
    match ← fetchint p ((uargv + 4 * i) % 2 ^ 32) with
    | none => return none
    | some uarg =>
      if uarg = 0 then return some []
      else do
        match ← fetchstr p uarg with
        | none => return none
        | some (arg, _) => return (← fetchArgv uargv left (i + 1)).map (arg :: ·)

def sysExec : Except Fault (Option (Nat × List Nat)) := do
  match ← argstr p 0 with
  | none => return none
  | some (path, _) => do
    match ← argint p 1 with
    | none => return none
    | some uargv => return (← fetchArgv p uargv MAXARG 0).map fun argv => (path, argv)

def word (addr : Nat) : Nat :=
  (p.byte addr).toNat + 2 ^ 8 * (p.byte (addr + 1)).toNat + 2 ^ 16 * (p.byte (addr + 2)).toNat +
    2 ^ 24 * (p.byte (addr + 3)).toNat

/-- The string at `addr` has `len` bytes and ends inside of the process. -/
def StringAt (addr len : Nat) : Prop := addr + len < p.sz ∧ p.byte (addr + len) = 0 ∧ ∀ i < len, p.byte (addr + i) ≠ 0

variable {p}

theorem ok_bind {α β : Type} (a : α) (next : α → Except Fault β) : (Except.ok a >>= next) = next a := rfl

theorem loadInt_eq {addr : Nat} (inside : addr + 4 ≤ p.sz) : loadInt p addr = .ok (word p addr) := by
  have reads : ∀ i < 4, load p (addr + i) = .ok (p.byte (addr + i)) := fun i small => if_pos (by omega)
  have first : load p addr = .ok (p.byte addr) := reads 0 (by decide)
  unfold loadInt
  rw [first, reads 1 (by decide), reads 2 (by decide), reads 3 (by decide)]
  rfl

section Confined
variable (small : p.sz ≤ KERNBASE)
include small

theorem fetchint_eq (addr : Nat) :
    fetchint p addr = .ok (if addr + 4 ≤ p.sz then some (word p addr) else none) := by
  unfold KERNBASE at small
  by_cases inside : addr + 4 ≤ p.sz
  · rw [fetchint, if_neg (by omega), if_pos inside, loadInt_eq inside]
    rfl
  · rw [fetchint, if_pos (by omega), if_neg inside]
    rfl

omit small in
theorem scan_spec (left s : Nat) (enough : p.sz < left + s) : ∃ r, scan p left s = .ok r ∧
    (∀ e, r = some e → ∃ len, e = s + len ∧ StringAt p s len) ∧ (r = none → ∀ a, s ≤ a → a < p.sz → p.byte a ≠ 0) := by
  induction left generalizing s with
  | zero => exact ⟨none, rfl, nofun, fun _ a low high => by omega⟩
  | succ left ih =>
    unfold scan
    by_cases inside : s < p.sz
    · have reads : load p s = .ok (p.byte s) := if_pos inside
      rw [if_pos inside, reads]
      simp only [ok_bind]
      by_cases zero : p.byte s = 0
      · rw [if_pos zero]
        refine ⟨some s, rfl, fun e same => ⟨0, (Option.some.inj same).symm, inside, zero, ?_⟩, nofun⟩
        exact fun i below => absurd below (Nat.not_lt_zero i)
      · rw [if_neg zero]
        obtain ⟨r, found, ends, none⟩ := ih (s + 1) (by omega)
        refine ⟨r, found, fun e same => ?_, fun missing a low high => ?_⟩
        · obtain ⟨len, place, below, last, others⟩ := ends e same
          refine ⟨len + 1, by omega, by omega, by rw [← last]; congr 1; omega, fun i before => ?_⟩
          cases i with
          | zero => exact zero
          | succ i =>
            have := others i (by omega)
            rwa [Nat.add_right_comm, Nat.add_assoc] at this
        · by_cases here : a = s
          · rw [here]
            exact zero
          · exact none missing a (by omega) high
    · rw [if_neg inside]
      exact ⟨none, rfl, nofun, fun _ a low high => by omega⟩

omit small in
theorem StringAt.unique {addr len len' : Nat} (first : StringAt p addr len) (second : StringAt p addr len') : len = len' := by
  obtain ⟨-, zero, before⟩ := first
  obtain ⟨-, zero', before'⟩ := second
  rcases Nat.lt_trichotomy len len' with less | same | more
  · exact absurd zero (before' len less)
  · exact same
  · exact absurd zero' (before len' more)

omit small in
theorem fetchstr_spec (addr : Nat) : ∃ r, fetchstr p addr = .ok r ∧
    (∀ q len, r = some (q, len) ↔ q = addr ∧ StringAt p addr len) ∧
    (r.isSome ↔ ∃ a, addr ≤ a ∧ a < p.sz ∧ p.byte a = 0) := by
  unfold fetchstr
  by_cases outside : addr ≥ p.sz
  · rw [if_pos outside]
    refine ⟨none, rfl, fun q len => iff_of_false nofun ?_, iff_of_false nofun ?_⟩
    · rintro ⟨-, inside, -⟩
      omega
    · rintro ⟨a, low, high, -⟩
      omega
  · rw [if_neg outside]
    obtain ⟨r, found, ends, none⟩ := scan_spec (p := p) (p.sz - addr + 1) addr (by omega)
    rw [found]
    refine ⟨r.map fun s => (addr, s - addr), rfl, ?_⟩
    cases r with
    | none =>
      have zeros := none rfl
      refine ⟨fun q len => iff_of_false nofun ?_, iff_of_false nofun ?_⟩
      · rintro ⟨-, inside, last, -⟩
        exact zeros _ (Nat.le_add_right ..) inside last
      · rintro ⟨a, low, high, zero⟩
        exact zeros a low high zero
    | some e =>
      obtain ⟨len, rfl, string⟩ := ends e rfl
      refine ⟨fun q len' => ?_, iff_of_true rfl ⟨addr + len, Nat.le_add_right .., string.1, string.2.1⟩⟩
      rw [Option.map_some, Nat.add_sub_cancel_left, Option.some.injEq, Prod.mk.injEq]
      constructor
      · rintro ⟨rfl, rfl⟩
        exact ⟨rfl, string⟩
      · rintro ⟨rfl, other⟩
        exact ⟨rfl, string.unique other⟩

theorem fetchArgv_spec (uargv left i : Nat) : ∃ r, fetchArgv p uargv left i = .ok r ∧
    ∀ argv, r = some argv → argv.length < left ∧ ∀ q ∈ argv, ∃ len, StringAt p q len := by
  induction left generalizing i with
  | zero => exact ⟨none, rfl, nofun⟩
  | succ left ih =>
    unfold fetchArgv
    rw [fetchint_eq small]
    generalize (uargv + 4 * i) % 2 ^ 32 = addr
    by_cases inside : addr + 4 ≤ p.sz
    · rw [if_pos inside]
      simp only [ok_bind]
      by_cases null : word p addr = 0
      · rw [if_pos null]
        refine ⟨some [], rfl, fun argv same => ?_⟩
        cases same
        exact ⟨Nat.succ_pos left, nofun⟩
      · obtain ⟨fetched, fetch, strings, -⟩ := fetchstr_spec (p := p) (word p addr)
        simp only [if_neg null, fetch, ok_bind]
        cases fetched with
        | none => exact ⟨none, rfl, nofun⟩
        | some string =>
          obtain ⟨q, len⟩ := string
          obtain ⟨rfl, here⟩ := (strings q len).mp rfl
          obtain ⟨r, rest, all⟩ := ih (i + 1)
          refine ⟨r.map (word p addr :: ·), ?_, fun argv same => ?_⟩
          · simp only [rest, ok_bind]
            rfl
          · obtain ⟨more, found, rfl⟩ := Option.map_eq_some_iff.mp same
            obtain ⟨short, ends⟩ := all more found
            refine ⟨Nat.succ_lt_succ short, fun q member => ?_⟩
            rcases List.mem_cons.mp member with rfl | later
            · exact ⟨len, here⟩
            · exact ends q later
    · rw [if_neg inside]
      exact ⟨none, rfl, nofun⟩

theorem argptr_spec (n : Nat) {size : Int} (range : size < 2 ^ 31) : ∃ r, argptr p n size = .ok r ∧
    ∀ q, r = some q → argint p n = .ok (some q) ∧ 0 ≤ size ∧ q < p.sz ∧ q + size ≤ p.sz := by
  unfold KERNBASE at small
  have fetched := fetchint_eq small ((p.esp + 4 + 4 * n) % 2 ^ 32)
  unfold argptr argint
  rw [fetched]
  split
  · generalize word p _ = i
    simp only [ok_bind]
    by_cases refused : size < 0 ∨ i ≥ p.sz ∨ (i + size.toNat) % 2 ^ 32 > p.sz
    · rw [if_pos refused]
      exact ⟨none, rfl, nofun⟩
    · rw [if_neg refused]
      refine ⟨some i, rfl, fun q same => ?_⟩
      obtain rfl := Option.some.inj same
      exact ⟨rfl, by omega, by omega, by omega⟩
  · exact ⟨none, rfl, nofun⟩

theorem argstr_spec (n : Nat) : ∃ r, argstr p n = .ok r ∧
    (∀ q len, r = some (q, len) ↔ argint p n = .ok (some q) ∧ StringAt p q len) ∧
    (r.isSome ↔ ∃ q, argint p n = .ok (some q) ∧ ∃ a, q ≤ a ∧ a < p.sz ∧ p.byte a = 0) := by
  unfold argstr argint
  rw [fetchint_eq small]
  split
  · generalize word p _ = addr
    obtain ⟨r, found, strings, some⟩ := fetchstr_spec (p := p) addr
    refine ⟨r, found, fun q len => ?_, ?_⟩
    · rw [strings]
      constructor
      · rintro ⟨rfl, string⟩
        exact ⟨rfl, string⟩
      · rintro ⟨same, string⟩
        cases same
        exact ⟨rfl, string⟩
    · rw [some]
      constructor
      · exact fun zero => ⟨addr, rfl, zero⟩
      · rintro ⟨q, same, zero⟩
        cases same
        exact zero
  · refine ⟨none, rfl, fun q len => iff_of_false nofun ?_, iff_of_false nofun ?_⟩
    · rintro ⟨wrong, -⟩
      cases wrong
    · rintro ⟨q, wrong, -⟩
      cases wrong

theorem sysExec_spec : ∃ r, sysExec p = .ok r ∧ ∀ path argv, r = some (path, argv) →
    (∃ len, StringAt p path len) ∧ argv.length < MAXARG ∧ ∀ q ∈ argv, ∃ len, StringAt p q len := by
  obtain ⟨fetched, found, strings, -⟩ := argstr_spec small 0
  unfold sysExec
  rw [found]
  cases fetched with
  | none => exact ⟨none, rfl, nofun⟩
  | some string =>
    obtain ⟨q, len⟩ := string
    have here := ((strings q len).mp rfl).2
    unfold argint
    rw [fetchint_eq small]
    split
    · generalize word p _ = uargv
      obtain ⟨r, rest, all⟩ := fetchArgv_spec small uargv MAXARG 0
      refine ⟨r.map fun argv => (q, argv), ?_, fun path argv same => ?_⟩
      · simp only [ok_bind, rest]
        rfl
      · obtain ⟨argv', listed, pair⟩ := Option.map_eq_some_iff.mp same
        cases pair
        exact ⟨⟨len, here⟩, all argv listed⟩
    · exact ⟨none, rfl, nofun⟩

/-- Whatever the user passes, the kernel reads only inside of the process, and what it accepts
lies inside. -/
theorem user_pointers_confined :
    (∀ n, argint p n = .ok (if (p.esp + 4 + 4 * n) % 2 ^ 32 + 4 ≤ p.sz then some (word p ((p.esp + 4 + 4 * n) % 2 ^ 32)) else none)) ∧
    (∀ n (size : Int), -2 ^ 31 ≤ size → size < 2 ^ 31 → ∃ r, argptr p n size = .ok r ∧
      ∀ q, r = some q → argint p n = .ok (some q) ∧ 0 ≤ size ∧ q < p.sz ∧ q + size ≤ p.sz) ∧
    (∀ n, ∃ r, argstr p n = .ok r ∧
      (∀ q len, r = some (q, len) ↔ argint p n = .ok (some q) ∧ StringAt p q len) ∧
      (r.isSome ↔ ∃ q, argint p n = .ok (some q) ∧ ∃ a, q ≤ a ∧ a < p.sz ∧ p.byte a = 0)) ∧
    ∃ r, sysExec p = .ok r ∧ ∀ path argv, r = some (path, argv) →
      (∃ len, StringAt p path len) ∧ argv.length < MAXARG ∧ ∀ q ∈ argv, ∃ len, StringAt p q len :=
  ⟨fun _ => fetchint_eq small _, fun n _ _ range => argptr_spec small n range, argstr_spec small, sysExec_spec small⟩

end Confined

/-- A process of one page of zeros that calls with the stack pointer at its last word. -/
theorem user_pointers_confined_topOfStack : argint ⟨4096, 4092, fun _ => 0⟩ 0 = .ok none := by
  rw [(user_pointers_confined (by decide : (User.mk 4096 4092 fun _ => 0).sz ≤ KERNBASE)).1 0]
  rfl

end Xv6.Vm.Arguments
