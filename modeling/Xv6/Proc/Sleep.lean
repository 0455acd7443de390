import Mathlib.Logic.Function.Basic

/-! The part of `struct proc` that `sleep`, `wakeup` and `kill` work on, with the point `pc` of the
kernel code that the process is at. -/

namespace Xv6

inductive ProcState where
  | unused | embryo | sleeping | runnable | running | zombie
  deriving DecidableEq, Repr

structure Proc (Chan Pc : Type) where
  state : ProcState
  chan : Option Chan
  killed : Bool
  pc : Pc

namespace Proc

variable {ι Chan Pc : Type}

/-- `p` is asleep on `chan`, the test of the loop in `wakeup1`. -/
def SleepsOn (p : Proc Chan Pc) (chan : Chan) : Prop := p.state = .sleeping ∧ p.chan = some chan

instance [DecidableEq Chan] (p : Proc Chan Pc) (chan : Chan) : Decidable (p.SleepsOn chan) :=
  inferInstanceAs (Decidable (_ ∧ _))

section Wakeup
variable [DecidableEq Chan] (ptable : ι → Proc Chan Pc) (chan other : Chan) (j : ι)

def wakeup1 : ι → Proc Chan Pc :=
  fun i => if (ptable i).SleepsOn chan then { ptable i with state := .runnable } else ptable i

def wakeup : ι → Proc Chan Pc := wakeup1 ptable chan

@[simp] theorem wakeup_pc : (wakeup ptable chan j).pc = (ptable j).pc := by
  unfold wakeup wakeup1
  split <;> rfl

@[simp] theorem wakeup_killed : (wakeup ptable chan j).killed = (ptable j).killed := by
  unfold wakeup wakeup1
  split <;> rfl

@[simp] theorem wakeup_sleepsOn :
    (wakeup ptable chan j).SleepsOn other ↔ (ptable j).SleepsOn other ∧ other ≠ chan := by
  unfold wakeup wakeup1
  split
  next asleep =>
    simp only [SleepsOn] at asleep ⊢
    simp only [reduceCtorEq, false_and, asleep.2, Option.some.injEq, false_iff, not_and, not_not]
    exact fun both => both.2.symm
  next awake =>
    refine ⟨fun here => ⟨here, ?_⟩, fun both => both.1⟩
    rintro rfl
    exact awake here

end Wakeup

section Update
variable [DecidableEq ι] (ptable : ι → Proc Chan Pc) (i j : ι) (chan other : Chan) (pc : Pc)

def kill : ι → Proc Chan Pc :=
  Function.update ptable i
    { ptable i with
      killed := true
      state := if (ptable i).state = .sleeping then .runnable else (ptable i).state }

/-- `sleep` up to the context switch; the caller goes on at `pc`. -/
def sleep : ι → Proc Chan Pc :=
  Function.update ptable i { ptable i with state := .sleeping, chan := some chan, pc := pc }

/-- The scheduler runs a process; one that slept clears its channel first. -/
def schedule : ι → Proc Chan Pc :=
  Function.update ptable i { ptable i with state := .running, chan := none }

def yield : ι → Proc Chan Pc :=
  Function.update ptable i { ptable i with state := .runnable }

def jump : ι → Proc Chan Pc :=
  Function.update ptable i { ptable i with pc := pc }

@[simp] theorem kill_pc : (kill ptable i j).pc = (ptable j).pc := by
  rcases eq_or_ne j i with rfl | apart
  · simp [kill]
  · simp [kill, apart]

theorem sleepsOn_of_kill (asleep : (kill ptable i j).SleepsOn chan) : (ptable j).SleepsOn chan := by
  rcases eq_or_ne j i with rfl | apart
  · simp only [kill, Function.update_self, SleepsOn] at asleep
    split at asleep
    · cases asleep.1
    · exact asleep
  · simpa [kill, apart] using asleep

@[simp] theorem sleep_self_sleepsOn : (sleep ptable i chan pc i).SleepsOn other ↔ chan = other := by
  simp [sleep, SleepsOn]

@[simp] theorem sleep_self_pc : (sleep ptable i chan pc i).pc = pc := by simp [sleep]

@[simp] theorem sleep_killed : (sleep ptable i chan pc j).killed = (ptable j).killed := by
  rcases eq_or_ne j i with rfl | apart
  · simp [sleep]
  · simp [sleep, apart]

variable {ptable i j chan pc} in
theorem sleep_of_ne (apart : j ≠ i) : sleep ptable i chan pc j = ptable j := by simp [sleep, apart]

@[simp] theorem schedule_pc : (schedule ptable i j).pc = (ptable j).pc := by
  rcases eq_or_ne j i with rfl | apart
  · simp [schedule]
  · simp [schedule, apart]

@[simp] theorem schedule_killed : (schedule ptable i j).killed = (ptable j).killed := by
  rcases eq_or_ne j i with rfl | apart
  · simp [schedule]
  · simp [schedule, apart]

theorem sleepsOn_of_schedule (asleep : (schedule ptable i j).SleepsOn chan) : (ptable j).SleepsOn chan := by
  rcases eq_or_ne j i with rfl | apart
  · simp [schedule, SleepsOn] at asleep
  · simpa [schedule, apart] using asleep

@[simp] theorem yield_pc : (yield ptable i j).pc = (ptable j).pc := by
  rcases eq_or_ne j i with rfl | apart
  · simp [yield]
  · simp [yield, apart]

@[simp] theorem yield_killed : (yield ptable i j).killed = (ptable j).killed := by
  rcases eq_or_ne j i with rfl | apart
  · simp [yield]
  · simp [yield, apart]

theorem sleepsOn_of_yield (asleep : (yield ptable i j).SleepsOn chan) : (ptable j).SleepsOn chan := by
  rcases eq_or_ne j i with rfl | apart
  · simp [yield, SleepsOn] at asleep
  · simpa [yield, apart] using asleep

@[simp] theorem jump_self_pc : (jump ptable i pc i).pc = pc := by simp [jump]

@[simp] theorem jump_killed : (jump ptable i pc j).killed = (ptable j).killed := by
  rcases eq_or_ne j i with rfl | apart
  · simp [jump]
  · simp [jump, apart]

variable {ptable i j pc} in
theorem jump_of_ne (apart : j ≠ i) : jump ptable i pc j = ptable j := by simp [jump, apart]

@[simp] theorem jump_sleepsOn : (jump ptable i pc j).SleepsOn chan ↔ (ptable j).SleepsOn chan := by
  rcases eq_or_ne j i with rfl | apart
  · simp [jump, SleepsOn]
  · rw [jump_of_ne apart]

end Update

end Proc

end Xv6
