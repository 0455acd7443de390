import Mathlib.Algebra.Order.Group.Nat
import Xv6.Lib.Transition
import Xv6.Proc.Sleep

/-! The timer interrupt of `trap.c` and `sys_sleep`. A step is a section under `tickslock`. `elapsed`
counts the interrupts; like the list of returns it is never read by the code. -/

namespace Xv6.Clock
open Lib.Transition Proc

inductive Pc where
  | user
  -- in the loop of `sys_sleep`, with `elapsed` as it was when `ticks0` was read
  | waiting (n ticks0 : BitVec 32) (start : Nat)

structure Return where
  n : BitVec 32
  start : Nat
  finish : Nat
  ret : Int
  deriving DecidableEq

structure State (ι : Type) where
  ticks : BitVec 32
  procs : ι → Proc Unit Pc
  elapsed : Nat
  returned : List Return

inductive Label (ι : Type) where
  | timer
  | sysSleep (i : ι) (n : BitVec 32)
  -- `sleep` returns with `tickslock`
  | wake (i : ι)
  | schedule (i : ι)
  | yield (i : ι)
  | kill (i : ι)

variable {ι : Type} [DecidableEq ι]

def State.leave (s : State ι) (i : ι) (n : BitVec 32) (start : Nat) (ret : Int) : State ι :=
  { s with procs := jump s.procs i .user, returned := ⟨n, start, s.elapsed, ret⟩ :: s.returned }

/-- `sys_sleep` from the test of its loop on. The `int` that it was given is compared as a `uint`. -/
def sleepLoop (s : State ι) (i : ι) (n ticks0 : BitVec 32) (start : Nat) : State ι :=
  if s.ticks - ticks0 < n then
    if (s.procs i).killed then s.leave i n start (-1)
    else { s with procs := sleep s.procs i () (.waiting n ticks0 start) }
  else s.leave i n start 0

def step (s : State ι) : Label ι → Option (State ι)
  | .timer => some { s with ticks := s.ticks + 1, procs := wakeup s.procs (), elapsed := s.elapsed + 1 }
  | .sysSleep i n =>
    match (s.procs i).pc with
    | .user => if (s.procs i).state = .running then some (sleepLoop s i n s.ticks s.elapsed) else none
    | .waiting .. => none
  | .wake i =>
    match (s.procs i).pc with
    | .user => none
    | .waiting n ticks0 start => if (s.procs i).state = .running then some (sleepLoop s i n ticks0 start) else none
  | .schedule i => if (s.procs i).state = .runnable then some { s with procs := schedule s.procs i } else none
  | .yield i => if (s.procs i).state = .running then some { s with procs := yield s.procs i } else none
  | .kill i => some { s with procs := kill s.procs i }

structure Initial (s : State ι) : Prop where
  ticks : s.ticks = BitVec.ofNat 32 s.elapsed
  user : ∀ i, (s.procs i).pc = .user ∧ ¬ (s.procs i).SleepsOn ()
  returned : s.returned = []

/-- A process sleeps only in the loop, and before its time. -/
def Ok (s : State ι) (p : Proc Unit Pc) : Prop :=
  match p.pc with
  | .user => ¬ p.SleepsOn ()
  | .waiting n ticks0 start => ticks0 = BitVec.ofNat 32 start ∧ start ≤ s.elapsed ∧
    (p.SleepsOn () → (s.elapsed - start) % 2 ^ 32 < n.toNat)

structure Inv (s : State ι) : Prop where
  ticks : s.ticks = BitVec.ofNat 32 s.elapsed
  procs : ∀ i, Ok s (s.procs i)
  returned : ∀ r ∈ s.returned, r.ret = 0 → r.start + r.n.toNat ≤ r.finish

variable {s t : State ι} {i : ι} {n : BitVec 32} {start : Nat}

omit [DecidableEq ι] in
theorem Inv.early_iff (inv : Inv s) (order : start ≤ s.elapsed) :
    s.ticks - BitVec.ofNat 32 start < n ↔ (s.elapsed - start) % 2 ^ 32 < n.toNat := by
  rw [inv.ticks, BitVec.lt_def, BitVec.toNat_sub, BitVec.toNat_ofNat, BitVec.toNat_ofNat]
  omega

omit [DecidableEq ι] in
theorem Inv.still (inv : Inv s) {procs : ι → Proc Unit Pc} (pc : ∀ j, (procs j).pc = (s.procs j).pc)
    (asleep : ∀ j, (procs j).SleepsOn () → (s.procs j).SleepsOn ()) : Inv { s with procs := procs } := by
  refine ⟨inv.ticks, fun j => ?_, inv.returned⟩
  have ok := inv.procs j
  unfold Ok at ok ⊢
  rw [pc]
  split at ok
  · exact fun here => ok (asleep j here)
  · exact ⟨ok.1, ok.2.1, fun here => ok.2.2 (asleep j here)⟩

theorem Inv.sleepLoop (inv : Inv s) (running : (s.procs i).state = .running) (order : start ≤ s.elapsed) :
    Inv (sleepLoop s i n (BitVec.ofNat 32 start) start) := by
  have set : ∀ q, Ok s q → ∀ j, Ok s (Function.update s.procs i q j) := by
    intro q ok j
    rw [Function.update_apply]
    split
    · exact ok
    · exact inv.procs j
  have left : ∀ ret, (ret = 0 → start + n.toNat ≤ s.elapsed) → Inv (s.leave i n start ret) := by
    intro ret late
    refine ⟨inv.ticks, set _ fun here => ?_, fun r member => ?_⟩
    · cases running.symm.trans here.1
    · rcases List.mem_cons.mp member with rfl | old
      · exact late
      · exact inv.returned r old
  unfold Clock.sleepLoop
  split
  next early =>
    split
    · exact left (-1) fun wrong => absurd wrong (by decide)
    · exact ⟨inv.ticks, set _ ⟨rfl, order, fun _ => (inv.early_iff order).mp early⟩, inv.returned⟩
  next late =>
    have past := mt (inv.early_iff order).mpr late
    exact left 0 fun _ => by omega

theorem Inv.step (inv : Inv s) {l : Label ι} (taken : step s l = some t) : Inv t := by
  cases l with
  | timer =>
    cases taken
    refine ⟨?_, fun i => ?_, inv.returned⟩
    · simp only [inv.ticks, BitVec.ofNat_add]
      rfl
    · have ok := inv.procs i
      have awake : ¬ (wakeup s.procs () i).SleepsOn () := fun here => ((wakeup_sleepsOn ..).mp here).2 rfl
      unfold Ok at ok ⊢
      rw [wakeup_pc]
      split at ok
      · exact awake
      · exact ⟨ok.1, Nat.le_succ_of_le ok.2.1, fun here => absurd here awake⟩
  | sysSleep i n =>
    simp only [Clock.step] at taken
    split at taken
    next =>
      obtain ⟨running, rfl⟩ := of_guard taken
      rw [inv.ticks]
      exact inv.sleepLoop running (Nat.le_refl _)
    next => cases taken
  | wake i =>
    simp only [Clock.step] at taken
    split at taken
    next => cases taken
    next here =>
      have ok := inv.procs i
      rw [Ok, here] at ok
      obtain ⟨running, rfl⟩ := of_guard taken
      rw [ok.1]
      exact inv.sleepLoop running ok.2.1
  | schedule i =>
    obtain ⟨-, rfl⟩ := of_guard taken
    exact inv.still (schedule_pc _ _) fun j => sleepsOn_of_schedule _ _ _ _
  | yield i =>
    obtain ⟨-, rfl⟩ := of_guard taken
    exact inv.still (yield_pc _ _) fun j => sleepsOn_of_yield _ _ _ _
  | kill i =>
    cases taken
    exact inv.still (kill_pc _ _) fun j => sleepsOn_of_kill _ _ _ _

/-- A call of `sleep(n)` that succeeds has lasted `n` ticks, and nobody is asleep whose time is over. -/
theorem sleep_lasts (initial : Initial s) {ls : List (Label ι)} (reached : run Clock.step s ls = some t) :
    (∀ r ∈ t.returned, r.ret = 0 → r.start + r.n.toNat ≤ r.finish) ∧
    ∀ i, (t.procs i).SleepsOn () → ∃ n ticks0 start, (t.procs i).pc = .waiting n ticks0 start ∧ start ≤ t.elapsed ∧
      (t.elapsed - start) % 2 ^ 32 < n.toNat := by
  have booted : Inv s := by
    refine ⟨initial.ticks, fun i => ?_, ?_⟩
    · rw [Ok, (initial.user i).1]
      exact (initial.user i).2
    · rw [initial.returned]
      exact fun r none => absurd none List.not_mem_nil
  have inv := run_invariant Clock.step Inv (fun _ _ _ inv taken => inv.step taken) booted reached
  refine ⟨inv.returned, fun i asleep => ?_⟩
  have ok := inv.procs i
  unfold Ok at ok
  split at ok
  next => exact absurd asleep ok
  next n ticks0 start here => exact ⟨n, ticks0, start, here, ok.2.1, ok.2.2 asleep⟩

def idle : State Unit := ⟨0, fun _ => ⟨.running, none, false, .user⟩, 0, []⟩

def twoTicks : List (Label Unit) := [.sysSleep () 2, .timer, .schedule (), .wake (), .timer, .schedule (), .wake ()]

theorem sleep_lasts_twoTicks : ∃ t, run Clock.step idle twoTicks = some t ∧ t.returned = [⟨2, 0, 2, 0⟩] ∧
    ∀ r ∈ t.returned, r.ret = 0 → r.start + r.n.toNat ≤ r.finish := by
  have returned : (run Clock.step idle twoTicks).map State.returned = some [⟨2, 0, 2, 0⟩] := by decide +kernel
  obtain ⟨t, reached, what⟩ := Option.map_eq_some_iff.mp returned
  have initial : Initial idle := ⟨rfl, fun _ => ⟨rfl, by simp [idle, SleepsOn]⟩, rfl⟩
  exact ⟨t, reached, what, (sleep_lasts initial reached).1⟩

end Xv6.Clock
