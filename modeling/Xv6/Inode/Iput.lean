import Xv6.Lib.Sum
import Xv6.Lib.Transition

/-! The steps of `iput` on one inode of the cache. It reads `ip->ref` in one critical section and
decrements it in another: two last references can each see the other one, and then neither frees the
inode. -/

namespace Xv6.Inode.Iput
open Lib Lib.Transition Function Option Transition Finset

inductive Pc where
  | idle
  -- between `acquiresleep(&ip->lock)` and the test in `iput`
  | iputLocked
  -- found the inode without links and its own reference the only one
  | iputFree
  | iputRelease
  -- before `ip->ref--`
  | iputDrop
  -- after `ilock(ip)` in a system call
  | locked
  deriving DecidableEq, Repr

structure Proc where
  pc : Pc
  -- how many of the references in `ip->ref` are this process's
  held : Nat

structure State (ι : Type) where
  ref : Nat
  lock : Option ι
  valid : Bool
  nlink : Nat
  -- the inode's `dinode`: type non-zero, and its link count
  allocated : Bool
  diskNlink : Nat
  procs : ι → Proc

inductive Label (ι : Type) where
  -- a path lookup that found a directory entry for the inode
  | iget (i : ι)
  -- `i` duplicates a reference for `j`, as `fork` does for the child
  | idup (i j : ι)
  | ilock (i : ι)
  -- `ip->nlink--; iupdate(ip)` in `sys_unlink`
  | unlink (i : ι)
  | iunlock (i : ι)
  | iput (i : ι)
  | test (i : ι)
  | free (i : ι)
  | release (i : ι)
  | drop (i : ι)
  deriving DecidableEq

variable {ι : Type} [DecidableEq ι]

def State.setPc (s : State ι) (i : ι) (pc : Pc) : ι → Proc :=
  update s.procs i { s.procs i with pc := pc }

def State.gain (s : State ι) (i : ι) : ι → Proc :=
  update s.procs i { s.procs i with held := (s.procs i).held + 1 }

def step (s : State ι) : Label ι → Option (State ι)
  | .iget i =>
    if (s.procs i).pc = .idle ∧ s.allocated = true ∧ 0 < s.diskNlink then
      some { s with
        ref := s.ref + 1, valid := if s.ref = 0 then false else s.valid, procs := s.gain i }
    else none
  | .idup i j =>
    if (s.procs i).pc = .idle ∧ 0 < (s.procs i).held then
      some { s with ref := s.ref + 1, procs := s.gain j }
    else none
  | .ilock i =>
    if (s.procs i).pc = .idle ∧ 0 < (s.procs i).held ∧ s.lock = none ∧
        (s.valid = true ∨ s.allocated = true) then
      some { s with
        lock := some i, valid := true, nlink := if s.valid then s.nlink else s.diskNlink
        procs := s.setPc i .locked }
    else none
  | .unlink i =>
    if (s.procs i).pc = .locked ∧ 0 < s.nlink then
      some { s with nlink := s.nlink - 1, diskNlink := s.nlink - 1 }
    else none
  | .iunlock i =>
    if (s.procs i).pc = .locked then some { s with lock := none, procs := s.setPc i .idle } else none
  | .iput i =>
    if (s.procs i).pc = .idle ∧ 0 < (s.procs i).held ∧ s.lock = none then
      some { s with lock := some i, procs := s.setPc i .iputLocked }
    else none
  | .test i =>
    if (s.procs i).pc = .iputLocked then
      some { s with
        procs := s.setPc i (if s.valid = true ∧ s.nlink = 0 ∧ s.ref = 1 then .iputFree else .iputRelease) }
    else none
  | .free i =>
    if (s.procs i).pc = .iputFree then
      some { s with allocated := false, valid := false, procs := s.setPc i .iputRelease }
    else none
  | .release i =>
    if (s.procs i).pc = .iputRelease then
      some { s with lock := none, procs := s.setPc i .iputDrop }
    else none
  | .drop i =>
    if (s.procs i).pc = .iputDrop then
      some { s with
        ref := s.ref - 1
        procs := update s.procs i { pc := .idle, held := (s.procs i).held - 1 } }
    else none

theorem setPc_pc (s : State ι) (i j : ι) (pc : Pc) : (s.setPc i pc j).pc = if j = i then pc else (s.procs j).pc := by
  by_cases same : j = i
  · subst same
    simp [State.setPc]
  · simp [State.setPc, same]

theorem setPc_held (s : State ι) (i j : ι) (pc : Pc) : (s.setPc i pc j).held = (s.procs j).held := by
  by_cases same : j = i
  · subst same
    simp [State.setPc]
  · simp [State.setPc, same]

theorem gain_pc (s : State ι) (i j : ι) : (s.gain i j).pc = (s.procs j).pc := by
  by_cases same : j = i
  · subst same
    simp [State.gain]
  · simp [State.gain, same]

theorem held_le_gain (s : State ι) (i j : ι) : (s.procs j).held ≤ (s.gain i j).held := by
  by_cases same : j = i
  · subst same
    simp [State.gain]
  · simp [State.gain, same]

-- an inode on disk that nothing names
def Orphan (s : State ι) : Prop := s.allocated = true ∧ s.diskNlink = 0

variable [Fintype ι]

/-- No call is under way, and an inode that has lost its last link is in use and has been read. -/
structure Initial (s : State ι) : Prop where
  idle : ∀ i, (s.procs i).pc = .idle
  count : s.ref = ∑ i, (s.procs i).held
  lock : s.lock = none
  valid : s.valid = true → s.allocated = true ∧ s.nlink = s.diskNlink
  orphan : Orphan s → s.valid = true ∧ 0 < s.ref

-- the reference that the process has already decided about and will drop
def Pc.spent : Pc → Nat
  | .iputRelease | .iputDrop => 1
  | _ => 0

def spent (s : State ι) : Nat := ∑ i, (s.procs i).pc.spent

/-- `iput` does not read `ip->ref` while all other references belong to processes between their test
and `ip->ref--`. -/
def Timely (s : State ι) (l : Label ι) : Prop :=
  ∀ i, l = .test i → (s.procs i).pc = .iputLocked → s.valid = true → s.nlink = 0 → s.ref = spent s + 1 →
    spent s = 0

instance (s : State ι) (l : Label ι) : Decidable (Timely s l) := inferInstanceAs (Decidable (∀ _, _))

def Pc.locking : Pc → Bool
  | .iputLocked | .iputFree | .iputRelease | .locked => true
  | _ => false

structure Inv (s : State ι) : Prop where
  count : s.ref = ∑ i, (s.procs i).held
  holds : ∀ i, (s.procs i).pc ≠ .idle → 0 < (s.procs i).held
  locking : ∀ i, (s.procs i).pc.locking = true → s.lock = some i
  valid : s.valid = true → s.allocated = true ∧ s.nlink = s.diskNlink
  locked : ∀ i, (s.procs i).pc = .locked → s.valid = true

omit [DecidableEq ι] in
theorem Initial.inv {s : State ι} (start : Initial s) : Inv s where
  count := start.count
  holds := fun i busy => absurd (start.idle i) busy
  locking := fun i here => by simp [start.idle i, Pc.locking] at here
  valid := start.valid
  locked := fun i here => by simp [start.idle i] at here

section Moves
variable {s t : State ι}

theorem sum_spent_setPc (i : ι) (pc : Pc) :
    (∑ j, (s.setPc i pc j).pc.spent) + (s.procs i).pc.spent = spent s + pc.spent :=
  sum_update s.procs i { s.procs i with pc := pc } fun p => p.pc.spent

theorem sum_spent_gain (i : ι) : ∑ j, (s.gain i j).pc.spent = spent s := by
  have total := sum_update s.procs i { s.procs i with held := (s.procs i).held + 1 } fun p => p.pc.spent
  exact Nat.add_right_cancel total

theorem sum_held_gain (inv : Inv s) (i : ι) : ∑ j, (s.gain i j).held = s.ref + 1 := by
  have total := sum_update s.procs i { s.procs i with held := (s.procs i).held + 1 } fun p => p.held
  simp only [← inv.count] at total
  change (∑ j, (s.gain i j).held) + _ = _ at total
  omega

variable {i : ι} {pc : Pc}

theorem Inv.move (inv : Inv s) (procs : t.procs = s.setPc i pc) (ref : t.ref = s.ref)
    (free : s.lock = none ∨ s.lock = some i) (held : pc ≠ .idle → 0 < (s.procs i).held)
    (mine : pc.locking = true → t.lock = some i)
    (valid : t.valid = true → t.allocated = true ∧ t.nlink = t.diskNlink)
    (locked : pc = .locked → t.valid = true) : Inv t := by
  have alone : ∀ j, j ≠ i → (s.procs j).pc.locking = false := by
    intro j apart
    by_contra here
    have owner := inv.locking j (by simpa using here)
    rcases free with none | own
    · simp [none] at owner
    · rw [own, some.injEq] at owner
      exact apart owner.symm
  refine ⟨?_, ?_, ?_, valid, ?_⟩
  · simp only [ref, procs, setPc_held]
    exact inv.count
  · intro j busy
    rw [procs, setPc_pc] at busy
    rw [procs, setPc_held]
    by_cases same : j = i
    · subst same
      rw [if_pos rfl] at busy
      exact held busy
    · rw [if_neg same] at busy
      exact inv.holds j busy
  · intro j here
    rw [procs, setPc_pc] at here
    by_cases same : j = i
    · subst same
      rw [if_pos rfl] at here
      exact mine here
    · rw [if_neg same, alone j same] at here
      cases here
  · intro j here
    rw [procs, setPc_pc] at here
    by_cases same : j = i
    · rw [if_pos same] at here
      exact locked here
    · rw [if_neg same] at here
      have quiet := alone j same
      rw [here] at quiet
      cases quiet

theorem Inv.gain (inv : Inv s) (procs : t.procs = s.gain i) (ref : t.ref = s.ref + 1)
    (lock : t.lock = s.lock) (valid : t.valid = true → t.allocated = true ∧ t.nlink = t.diskNlink)
    (locked : ∀ j, (s.procs j).pc = .locked → t.valid = true) : Inv t := by
  refine ⟨?_, ?_, ?_, valid, ?_⟩
  · rw [ref, procs, sum_held_gain inv]
  · intro j busy
    rw [procs, gain_pc] at busy
    rw [procs]
    exact lt_of_lt_of_le (inv.holds j busy) (held_le_gain s i j)
  · intro j here
    rw [procs, gain_pc] at here
    rw [lock]
    exact inv.locking j here
  · intro j here
    rw [procs, gain_pc] at here
    exact locked j here

omit [DecidableEq ι] in
theorem Inv.held_pos (inv : Inv s) (here : (s.procs i).pc = pc) (busy : pc ≠ .idle) :
    0 < (s.procs i).held := inv.holds i (by rw [here]; exact busy)

omit [DecidableEq ι] in
theorem Inv.ref_pos (inv : Inv s) (held : 0 < (s.procs i).held) : 0 < s.ref := by
  rw [inv.count]
  exact lt_of_lt_of_le held (le_sum (fun j => (s.procs j).held) i)

variable {l : Label ι}

theorem Inv.preserved (inv : Inv s) (taken : step s l = some t) : Inv t := by
  cases l with
  | iget i =>
    obtain ⟨⟨idle, allocated, linked⟩, rfl⟩ := of_guard taken
    refine inv.gain rfl rfl rfl ?_ ?_
    · by_cases unused : s.ref = 0
      · simp [unused]
      · simpa [unused] using inv.valid
    · intro j here
      have used := inv.ref_pos (inv.held_pos here (by decide))
      rw [if_neg (by omega)]
      exact inv.locked j here
  | idup i j =>
    obtain ⟨-, rfl⟩ := of_guard taken
    exact inv.gain rfl rfl rfl inv.valid inv.locked
  | ilock i =>
    obtain ⟨⟨idle, held, free, known⟩, rfl⟩ := of_guard taken
    refine inv.move rfl rfl (.inl free) (fun _ => held) (fun _ => rfl) (fun _ => ?_) (fun _ => rfl)
    by_cases valid : s.valid = true
    · simpa [valid] using inv.valid valid
    · simpa [valid] using known
  | unlink i =>
    obtain ⟨-, rfl⟩ := of_guard taken
    exact ⟨inv.count, inv.holds, inv.locking, fun valid => ⟨(inv.valid valid).1, rfl⟩, inv.locked⟩
  | iunlock i =>
    obtain ⟨here, rfl⟩ := of_guard taken
    exact inv.move rfl rfl (.inr (inv.locking i (by rw [here]; rfl))) (fun busy => absurd rfl busy)
      (fun own => by cases own) inv.valid (fun own => by cases own)
  | iput i =>
    obtain ⟨⟨idle, held, free⟩, rfl⟩ := of_guard taken
    exact inv.move rfl rfl (.inl free) (fun _ => held) (fun _ => rfl) inv.valid (fun own => by cases own)
  | test i =>
    obtain ⟨here, rfl⟩ := of_guard taken
    have own := inv.locking i (by rw [here]; rfl)
    refine inv.move rfl rfl (.inr own) (fun _ => inv.held_pos here (by decide)) (fun _ => own) inv.valid ?_
    intro same
    split at same <;> cases same
  | free i =>
    obtain ⟨here, rfl⟩ := of_guard taken
    have own := inv.locking i (by rw [here]; rfl)
    exact inv.move rfl rfl (.inr own) (fun _ => inv.held_pos here (by decide)) (fun _ => own)
      (fun valid => by cases valid) (fun own => by cases own)
  | release i =>
    obtain ⟨here, rfl⟩ := of_guard taken
    have own := inv.locking i (by rw [here]; rfl)
    exact inv.move rfl rfl (.inr own) (fun _ => inv.held_pos here (by decide)) (fun own => by cases own)
      inv.valid (fun own => by cases own)
  | drop i =>
    obtain ⟨here, rfl⟩ := of_guard taken
    have held := inv.held_pos here (by decide)
    have total := sum_update s.procs i { pc := .idle, held := (s.procs i).held - 1 } fun p => p.held
    rw [← inv.count] at total
    simp only at total
    refine ⟨?_, ?_, ?_, inv.valid, ?_⟩
    · simp only
      omega
    · intro j busy
      by_cases same : j = i
      · subst same
        simp at busy
      · simp only [update_of_ne same] at busy ⊢
        exact inv.holds j busy
    · intro j locking
      by_cases same : j = i
      · subst same
        simp [Pc.locking] at locking
      · simp only [update_of_ne same] at locking
        exact inv.locking j locking
    · intro j locked
      by_cases same : j = i
      · subst same
        simp at locked
      · simp only [update_of_ne same] at locked
        exact inv.locked j locked

omit [DecidableEq ι] in
theorem Inv.spent_le_held (inv : Inv s) (j : ι) : (s.procs j).pc.spent ≤ (s.procs j).held := by
  by_cases idle : (s.procs j).pc = .idle
  · simp [idle, Pc.spent]
  · have held := inv.holds j idle
    have small : (s.procs j).pc.spent ≤ 1 := by cases (s.procs j).pc <;> decide
    omega

omit [DecidableEq ι] in
theorem Inv.spent_lt (inv : Inv s) (live : (s.procs i).pc.spent = 0) (held : 0 < (s.procs i).held) :
    spent s < s.ref := by
  rw [inv.count]
  exact sum_lt_sum (fun j _ => inv.spent_le_held j) ⟨i, mem_univ i, by rw [live]; exact held⟩

-- some reference to an unlinked inode is still to be decided about
def Attended (s : State ι) : Prop := Orphan s → s.valid = true ∧ spent s < s.ref

omit [DecidableEq ι] in
theorem Initial.attended (start : Initial s) : Attended s := by
  intro orphan
  obtain ⟨valid, used⟩ := start.orphan orphan
  have none : spent s = 0 := sum_eq_zero fun i _ => by rw [start.idle i]; rfl
  exact ⟨valid, by omega⟩

theorem spent_setPc_eq (procs : t.procs = s.setPc i pc)
    (same : pc.spent = (s.procs i).pc.spent) : spent t = spent s := by
  have total := sum_spent_setPc (s := s) i pc
  simp only [spent, procs] at total ⊢
  omega

theorem spent_setPc_succ (procs : t.procs = s.setPc i .iputRelease)
    (live : (s.procs i).pc.spent = 0) : spent t = spent s + 1 := by
  have total := sum_spent_setPc (s := s) i .iputRelease
  rw [live] at total
  simp only [spent, procs] at total ⊢
  exact total

theorem spent_drop {n : Nat} (procs : t.procs = update s.procs i { pc := .idle, held := n })
    (here : (s.procs i).pc = .iputDrop) : spent t + 1 = spent s := by
  have total := sum_update s.procs i { pc := .idle, held := n } fun p => p.pc.spent
  rw [here] at total
  simp only [spent, procs] at total ⊢
  exact total

theorem Inv.attended_step (inv : Inv s) (attended : Attended s) (timely : Timely s l)
    (taken : step s l = some t) : Attended t := by
  cases l with
  | iget i =>
    obtain ⟨⟨-, -, linked⟩, rfl⟩ := of_guard taken
    exact fun orphan => absurd orphan.2 (Nat.ne_of_gt linked)
  | idup i j =>
    obtain ⟨-, rfl⟩ := of_guard taken
    intro orphan
    obtain ⟨valid, less⟩ := attended orphan
    refine ⟨valid, ?_⟩
    change ∑ k, (s.gain j k).pc.spent < s.ref + 1
    rw [sum_spent_gain]
    omega
  | ilock i =>
    obtain ⟨⟨idle, -⟩, rfl⟩ := of_guard taken
    intro orphan
    refine ⟨rfl, ?_⟩
    rw [spent_setPc_eq rfl (by rw [idle]; rfl)]
    exact (attended orphan).2
  | unlink i =>
    obtain ⟨⟨here, -⟩, rfl⟩ := of_guard taken
    exact fun _ => ⟨inv.locked i here, inv.spent_lt (by rw [here]; rfl) (inv.held_pos here (by decide))⟩
  | iunlock i =>
    obtain ⟨here, rfl⟩ := of_guard taken
    intro orphan
    rw [spent_setPc_eq rfl (by rw [here]; rfl)]
    exact attended orphan
  | iput i =>
    obtain ⟨⟨idle, -⟩, rfl⟩ := of_guard taken
    intro orphan
    rw [spent_setPc_eq rfl (by rw [idle]; rfl)]
    exact attended orphan
  | test i =>
    obtain ⟨here, rfl⟩ := of_guard taken
    intro orphan
    obtain ⟨valid, less⟩ := attended orphan
    have nlink : s.nlink = 0 := (inv.valid valid).2.trans orphan.2
    refine ⟨valid, ?_⟩
    by_cases last : s.ref = 1
    · rw [spent_setPc_eq rfl (by rw [here, if_pos ⟨valid, nlink, last⟩]; rfl)]
      exact less
    · -- the reference is given up without freeing: another undecided one must be left
      have notLast : ¬(s.valid = true ∧ s.nlink = 0 ∧ s.ref = 1) := fun all => last all.2.2
      have more : s.ref ≠ spent s + 1 := fun same => last (by rw [same, timely i rfl here valid nlink same])
      rw [spent_setPc_succ (s := s) (i := i) (by simp only [if_neg notLast]) (by rw [here]; rfl)]
      change spent s + 1 < s.ref
      omega
  | free i =>
    obtain ⟨-, rfl⟩ := of_guard taken
    exact fun orphan => absurd orphan.1 (by simp)
  | release i =>
    obtain ⟨here, rfl⟩ := of_guard taken
    intro orphan
    rw [spent_setPc_eq rfl (by rw [here]; rfl)]
    exact attended orphan
  | drop i =>
    obtain ⟨here, rfl⟩ := of_guard taken
    intro orphan
    obtain ⟨valid, less⟩ := attended orphan
    have fewer := spent_drop (t := { s with
      ref := s.ref - 1
      procs := update s.procs i { pc := .idle, held := (s.procs i).held - 1 } }) rfl here
    refine ⟨valid, ?_⟩
    simp only at less ⊢
    omega

-- every reference is given up, nobody has freed the inode
def Lost (s : State ι) : Prop := Orphan s ∧ s.ref = spent s

theorem Inv.lost_of_late (inv : Inv s) (late : ¬Timely s l) (taken : step s l = some t) :
    Lost t := by
  simp only [Timely, not_forall] at late
  obtain ⟨i, rfl, here, valid, nlink, all, others⟩ := late
  obtain ⟨-, rfl⟩ := of_guard taken
  have notLast : ¬(s.valid = true ∧ s.nlink = 0 ∧ s.ref = 1) := fun each => others (by omega)
  obtain ⟨allocated, same⟩ := inv.valid valid
  refine ⟨⟨allocated, same.symm.trans nlink⟩, ?_⟩
  rw [spent_setPc_succ (s := s) (i := i) (by simp only [if_neg notLast]) (by rw [here]; rfl)]
  exact all

omit [DecidableEq ι] in
theorem Inv.held_of_lost (inv : Inv s) (lost : Lost s) (i : ι) : (s.procs i).held = (s.procs i).pc.spent := by
  have equal : ∑ j, (s.procs j).pc.spent = ∑ j, (s.procs j).held := by
    rw [← inv.count]
    exact lost.2.symm
  exact ((sum_eq_sum_iff_of_le fun j _ => inv.spent_le_held j).mp equal i (mem_univ i)).symm

theorem Inv.lost_step (inv : Inv s) (lost : Lost s) (taken : step s l = some t) : Lost t := by
  have decided := inv.held_of_lost lost
  have gone : ∀ i pc, (s.procs i).pc = pc → pc.spent = 0 → pc ≠ .idle → False := by
    intro i pc here live busy
    have held := inv.held_pos here busy
    rw [decided i, here, live] at held
    cases held
  have unheld : ∀ i, (s.procs i).pc = .idle → ¬0 < (s.procs i).held := by
    intro i idle
    rw [decided i, idle]
    decide
  cases l with
  | iget i =>
    simp only [Iput.step, ite_none_right_eq_some] at taken
    exact absurd lost.1.2 (Nat.ne_of_gt taken.1.2.2)
  | idup i j =>
    simp only [Iput.step, ite_none_right_eq_some] at taken
    exact absurd taken.1.2 (unheld i taken.1.1)
  | ilock i =>
    simp only [Iput.step, ite_none_right_eq_some] at taken
    exact absurd taken.1.2.1 (unheld i taken.1.1)
  | unlink i =>
    simp only [Iput.step, ite_none_right_eq_some] at taken
    exact (gone i _ taken.1.1 rfl (by decide)).elim
  | iunlock i =>
    simp only [Iput.step, ite_none_right_eq_some] at taken
    exact (gone i _ taken.1 rfl (by decide)).elim
  | iput i =>
    simp only [Iput.step, ite_none_right_eq_some] at taken
    exact absurd taken.1.2.1 (unheld i taken.1.1)
  | test i =>
    simp only [Iput.step, ite_none_right_eq_some] at taken
    exact (gone i _ taken.1 rfl (by decide)).elim
  | free i =>
    simp only [Iput.step, ite_none_right_eq_some] at taken
    exact (gone i _ taken.1 rfl (by decide)).elim
  | release i =>
    obtain ⟨here, rfl⟩ := of_guard taken
    refine ⟨lost.1, ?_⟩
    rw [spent_setPc_eq rfl (by rw [here]; rfl)]
    exact lost.2
  | drop i =>
    obtain ⟨here, rfl⟩ := of_guard taken
    have fewer := spent_drop (t := { s with
      ref := s.ref - 1
      procs := update s.procs i { pc := .idle, held := (s.procs i).held - 1 } }) rfl here
    have all := lost.2
    refine ⟨lost.1, ?_⟩
    simp only at all ⊢
    omega

/-- A run in which no `iput` reads `ip->ref` too early never leaves an unlinked inode
allocated without a reference. Any other run that comes to rest does. -/
theorem unlinked_inode_freed_iff {ls : List (Label ι)} (start : Initial s) (reached : run step s ls = some t) :
    (Along step Timely s ls → t.ref = 0 → ¬Orphan t) ∧
      (¬Along step Timely s ls → (∀ i, (t.procs i).pc = .idle) → t.ref = 0 ∧ Orphan t) := by
  constructor
  · intro along unused orphan
    have both : Inv t ∧ Attended t := run_invariant_along step (fun u => Inv u ∧ Attended u)
      (fun _ _ _ here timely taken => ⟨here.1.preserved taken, here.1.attended_step here.2 timely taken⟩)
      ⟨start.inv, start.attended⟩ along reached
    have less := (both.2 orphan).2
    omega
  · intro late rest
    simp only [Along, not_forall] at late
    obtain ⟨before, l, after, rfl, u, there, untimely⟩ := late
    rw [run_append, there] at reached
    simp only [bind_some, run_cons] at reached
    cases taken : step u l with
    | none => simp [taken] at reached
    | some v =>
      rw [taken, bind_some] at reached
      have inv : Inv u := run_invariant step Inv (fun _ _ _ here taken => here.preserved taken) start.inv there
      have lost : Inv t ∧ Lost t := run_invariant step (fun u => Inv u ∧ Lost u)
        (fun _ _ _ here taken => ⟨here.1.preserved taken, here.1.lost_step here.2 taken⟩)
        ⟨inv.preserved taken, inv.lost_of_late untimely taken⟩ reached
      have none : spent t = 0 := sum_eq_zero fun i _ => by rw [rest i]; rfl
      exact ⟨lost.2.2.trans none, lost.2.1⟩

end Moves

-- one process has the file open, and there is one link to it
def openFile : State (Fin 2) where
  ref := 1
  lock := none
  valid := true
  nlink := 1
  allocated := true
  diskNlink := 1
  procs := fun i => { pc := .idle, held := if i = 0 then 1 else 0 }

theorem openFile_initial : Initial openFile where
  idle := fun _ => rfl
  count := by decide
  lock := rfl
  valid := fun _ => ⟨rfl, rfl⟩
  orphan := fun orphan => absurd orphan.2 (by decide)

-- the second process removes the link; then the first closes the file
def unlinkThenClose : List (Label (Fin 2)) :=
  [.iget 1, .ilock 1, .unlink 1, .iunlock 1, .iput 1, .test 1, .release 1, .drop 1,
    .iput 0, .test 0, .free 0, .release 0, .drop 0]

theorem unlinked_inode_freed_iff_unlinkThenClose : Along step Timely openFile unlinkThenClose ∧
    ∃ t, run step openFile unlinkThenClose = some t ∧ t.nlink = 0 ∧ t.ref = 0 ∧ ¬Orphan t := by
  have timely : Along step Timely openFile unlinkThenClose := by decide +kernel
  have outcome : (run step openFile unlinkThenClose).any (fun t => t.nlink = 0 ∧ t.ref = 0) = true := by decide +kernel
  obtain ⟨t, reached, after⟩ := (any_eq_true _ _).mp outcome
  obtain ⟨unlinked, unused⟩ := of_decide_eq_true after
  exact ⟨timely, t, reached, unlinked, unused, (unlinked_inode_freed_iff openFile_initial reached).1 timely unused⟩

-- the two calls of `iput` overlap
def unlinkWhileClosing : List (Label (Fin 2)) :=
  [.iget 1, .ilock 1, .unlink 1, .iunlock 1, .iput 0, .test 0, .release 0, .iput 1, .test 1, .release 1,
    .drop 0, .drop 1]

theorem unlinkWhileClosing_leaks :
    Initial openFile ∧ ∃ t, run step openFile unlinkWhileClosing = some t ∧ t.ref = 0 ∧ Orphan t :=
  ⟨openFile_initial, _, rfl, rfl, rfl, rfl⟩

end Xv6.Inode.Iput
