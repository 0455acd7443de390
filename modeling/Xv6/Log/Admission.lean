import Xv6.Log.Log
import Xv6.Lib.Sum
import Xv6.Lib.Transition
import Xv6.Proc.Sleep
import Mathlib.Algebra.BigOperators.Ring.Finset

/-! The log's admission control: `begin_op`, `log_write` and `end_op` of any number of
processes, one section under `log.lock` a step, and a commit as a step of its own.
`log_write` makes its tests before it takes the lock, so they are a step too. -/

namespace Xv6.Log.Admission
open Lib Lib.Transition Proc

inductive Pc where
  | user
  -- at the loop of `begin_op`, on entry or after `sleep`
  | begin
  | inOp
  -- in `log_write(b)` past the tests, before `acquire(&log.lock)`
  | logging (b : Nat)
  | commit
  -- after `commit()`, before `log.committing = 0`
  | finish
  deriving DecidableEq, Repr

structure State (ι : Type) where
  log : Log
  procs : ι → Proc Unit Pc
  -- the distinct block numbers that the process's operation has passed to `log_write`
  passed : ι → Finset Nat
  panic : Option String

inductive Label (ι : Type) where
  | schedule (i : ι)
  | begin_op (i : ι)
  | admission (i : ι)
  | log_write (i : ι) (b : Nat)
  | record (i : ι)
  | end_op (i : ι)
  | commit (i : ι)
  | finish (i : ι)

variable {ι : Type}

def Pc.inside : Pc → Bool
  | .inOp | .logging _ => true
  | _ => false

/-- In `commit` or just behind it. -/
def Pc.committing : Pc → Bool
  | .commit | .finish => true
  | _ => false

def step [DecidableEq ι] (s : State ι) : Label ι → Option (State ι)
  | .schedule i =>
    if (s.procs i).state = .runnable then some { s with procs := schedule s.procs i } else none
  | .begin_op i =>
    if s.panic = none ∧ (s.procs i).state = .running ∧ (s.procs i).pc = .user then
      some { s with procs := jump s.procs i .begin }
    else none
  | .admission i =>
    if s.panic = none ∧ (s.procs i).state = .running ∧ (s.procs i).pc = .begin then
      if s.log.beginWaits then some { s with procs := sleep s.procs i () .begin }
      else some { s with
        log := s.log.enter, procs := jump s.procs i .inOp, passed := Function.update s.passed i ∅ }
    else none
  | .log_write i b =>
    if s.panic = none ∧ (s.procs i).state = .running ∧ (s.procs i).pc = .inOp then
      if s.log.tooBig then some { s with panic := some "too big a transaction" }
      else if s.log.outstanding < 1 then some { s with panic := some "log_write outside of trans" }
      else some { s with
        procs := jump s.procs i (.logging b)
        passed := Function.update s.passed i (insert b (s.passed i)) }
    else none
  | .record i =>
    match (s.procs i).pc with
    | .logging b =>
      if s.panic = none ∧ (s.procs i).state = .running then
        some { s with log := s.log.record b, procs := jump s.procs i .inOp }
      else none
    | _ => none
  | .end_op i =>
    if s.panic = none ∧ (s.procs i).state = .running ∧ (s.procs i).pc = .inOp then
      if s.log.committing then some { s with log := s.log.leave, panic := some "log.committing" }
      else if s.log.leave.outstanding = 0 then
        some { s with log := { s.log.leave with committing := true }, procs := jump s.procs i .commit }
      else some { s with log := s.log.leave, procs := jump (wakeup s.procs ()) i .user }
    else none
  | .commit i =>
    if s.panic = none ∧ (s.procs i).state = .running ∧ (s.procs i).pc = .commit then
      some { s with log := { s.log with block := [] }, procs := jump s.procs i .finish }
    else none
  | .finish i =>
    if s.panic = none ∧ (s.procs i).state = .running ∧ (s.procs i).pc = .finish then
      some { s with
        log := { s.log with committing := false }, procs := jump (wakeup s.procs ()) i .user }
    else none

/-- After `initlog`, whatever the size of the log. -/
structure Started (s : State ι) : Prop where
  outstanding : s.log.outstanding = 0
  committing : s.log.committing = false
  block : s.log.block = []
  user : ∀ i, (s.procs i).pc = .user
  awake : ∀ i, (s.procs i).state ≠ .sleeping
  panic : s.panic = none

variable [Fintype ι]

structure Steady (s : State ι) : Prop where
  distinct : s.log.block.Nodup
  counted : s.log.outstanding = ∑ i, (s.procs i).pc.inside.toNat
  committer : s.log.committing.toNat = ∑ i, (s.procs i).pc.committing.toNat
  quiet : s.log.committing = true → s.log.outstanding = 0
  installed : ∀ i, (s.procs i).pc = .finish → s.log.block = []
  empty : s.log.outstanding = 0 → s.log.committing = false → s.log.block = []
  waits : ∀ i, (s.procs i).SleepsOn () → s.log.beginWaits = true
  panic : s.panic ≠ some "log.committing"

variable {s t : State ι} {i : ι}

theorem Started.steady (start : Started s) : Steady s := by
  have outside : ∀ i, (s.procs i).pc.inside = false := fun i => by rw [start.user i]; rfl
  constructor
  · rw [start.block]
    exact List.nodup_nil
  · simp [start.outstanding, outside]
  · simp [start.committing, start.user, Pc.committing]
  · intro running
    rw [start.committing] at running
    cases running
  · exact fun _ _ => start.block
  · exact fun _ _ => start.block
  · exact fun i asleep => absurd asleep.1 (start.awake i)
  · rw [start.panic]
    exact Option.some_ne_none _ |>.symm

namespace Steady

theorem outstanding_pos (steady : Steady s) (here : (s.procs i).pc.inside = true) : 0 < s.log.outstanding := by
  have one := le_sum (fun j => (s.procs j).pc.inside.toNat) i
  rw [here, ← steady.counted] at one
  exact one

theorem committing_of (steady : Steady s) (here : (s.procs i).pc.committing = true) : s.log.committing = true := by
  have one := le_sum (fun j => (s.procs j).pc.committing.toNat) i
  rw [here, ← steady.committer] at one
  cases running : s.log.committing with
  | true => rfl
  | false => rw [running] at one; cases one

theorem nobody_inside (steady : Steady s) (none : s.log.outstanding = 0) (j : ι) : (s.procs j).pc.inside = false := by
  cases here : (s.procs j).pc.inside with
  | false => rfl
  | true => have := steady.outstanding_pos here; omega

theorem not_committing (steady : Steady s) (here : (s.procs i).pc.inside = true) : s.log.committing = false := by
  cases running : s.log.committing with
  | false => rfl
  | true => have := steady.outstanding_pos here; have := steady.quiet running; omega

theorem attended (steady : Steady s) (asleep : (s.procs i).SleepsOn ()) :
    ∃ j, (s.procs j).pc.inside = true ∨ (s.procs j).pc.committing = true := by
  by_contra nobody
  push Not at nobody
  have alone : s.log.outstanding = 0 := by
    rw [steady.counted]
    exact Finset.sum_eq_zero fun j _ => by rw [Bool.eq_false_iff.mpr (nobody j).1]; rfl
  have idle : s.log.committing.toNat = 0 := by
    rw [steady.committer]
    exact Finset.sum_eq_zero fun j _ => by rw [Bool.eq_false_iff.mpr (nobody j).2]; rfl
  have idle : s.log.committing = false := by
    cases running : s.log.committing with
    | false => rfl
    | true => rw [running] at idle; cases idle
  have waits := steady.waits i asleep
  rw [Log.beginWaits, idle, alone, Log.n, steady.empty alone idle] at waits
  exact absurd waits (by decide)

theorem not_finish (steady : Steady s) (here : (s.procs i).pc.inside = true) (j : ι) : (s.procs j).pc ≠ .finish := by
  intro finish
  have still := steady.committing_of (i := j) (by rw [finish]; rfl)
  exact absurd ((steady.not_committing here).symm.trans still) Bool.false_ne_true

omit [Fintype ι] in
theorem nobody_waits (j : ι) : ¬ (wakeup s.procs () j).SleepsOn () := by
  simp only [wakeup_sleepsOn, ne_eq, not_true_eq_false, and_false, not_false_eq_true]

variable [DecidableEq ι]

theorem move (steady : Steady s) (i : ι) (others : ∀ j, j ≠ i → (t.procs j).pc = (s.procs j).pc)
    (distinct : t.log.block.Nodup)
    (counted : t.log.outstanding + (s.procs i).pc.inside.toNat = s.log.outstanding + (t.procs i).pc.inside.toNat)
    (committer : t.log.committing.toNat + (s.procs i).pc.committing.toNat =
      s.log.committing.toNat + (t.procs i).pc.committing.toNat)
    (quiet : t.log.committing = true → t.log.outstanding = 0)
    (installed : ∀ j, (t.procs j).pc = .finish → t.log.block = [])
    (empty : t.log.outstanding = 0 → t.log.committing = false → t.log.block = [])
    (waits : ∀ j, (t.procs j).SleepsOn () → t.log.beginWaits = true) (panic : t.panic ≠ some "log.committing") : Steady t where
  distinct := distinct
  counted := by
    have total := sum_change (f := fun j => (t.procs j).pc.inside.toNat)
      (g := fun j => (s.procs j).pc.inside.toNat) i fun j apart => by rw [others j apart]
    have before := steady.counted
    omega
  committer := by
    have total := sum_change (f := fun j => (t.procs j).pc.committing.toNat)
      (g := fun j => (s.procs j).pc.committing.toNat) i fun j apart => by rw [others j apart]
    have before := steady.committer
    omega
  quiet := quiet
  installed := installed
  empty := empty
  waits := waits
  panic := panic

theorem still (steady : Steady s) (i : ι) (others : ∀ j, j ≠ i → (t.procs j).pc = (s.procs j).pc) (log : t.log = s.log)
    (inside : (t.procs i).pc.inside = (s.procs i).pc.inside) (committing : (t.procs i).pc.committing = (s.procs i).pc.committing)
    (here : (t.procs i).pc = .finish → (s.procs i).pc = .finish)
    (waits : ∀ j, (t.procs j).SleepsOn () → s.log.beginWaits = true) (panic : t.panic ≠ some "log.committing") : Steady t := by
  refine steady.move i others (by rw [log]; exact steady.distinct) (by rw [log, inside]) (by rw [log, committing])
    (by rw [log]; exact steady.quiet) (fun j finish => ?_) (by rw [log]; exact steady.empty)
    (by rw [log]; exact waits) panic
  rw [log]
  by_cases same : j = i
  · subst same
    exact steady.installed j (here finish)
  · rw [others j same] at finish
    exact steady.installed j finish

theorem jump {before pc : Pc} {log : Log} {procs : ι → Proc Unit Pc} {passed : ι → Finset Nat} (steady : Steady s)
    (here : (s.procs i).pc = before) (same : ∀ j, (procs j).pc = (s.procs j).pc) (distinct : log.block.Nodup)
    (counted : log.outstanding + before.inside.toNat = s.log.outstanding + pc.inside.toNat)
    (committer : log.committing.toNat + before.committing.toNat = s.log.committing.toNat + pc.committing.toNat)
    (quiet : log.committing = true → log.outstanding = 0) (installs : pc = .finish → log.block = [])
    (installed : ∀ j, (s.procs j).pc = .finish → log.block = [])
    (empty : log.outstanding = 0 → log.committing = false → log.block = [])
    (waits : ∀ j, (procs j).SleepsOn () → log.beginWaits = true) :
    Steady { s with log := log, procs := Proc.jump procs i pc, passed := passed } := by
  refine steady.move i (fun j apart => ?_) distinct ?_ ?_ quiet (fun j finish => ?_) empty (fun j asleep => ?_) steady.panic
  · simp only [jump_of_ne apart, same]
  · simp only [jump_self_pc, here, counted]
  · simp only [jump_self_pc, here, committer]
  · by_cases here : j = i
    · simp only [here, jump_self_pc] at finish
      exact installs finish
    · simp only [jump_of_ne here, same] at finish
      exact installed j finish
  · simp only [jump_sleepsOn] at asleep
    exact waits j asleep

theorem beginWaits_record {log : Log} (b : Nat) (waits : log.beginWaits = true) : (log.record b).beginWaits = true := by
  have longer : log.n ≤ (log.record b).n := by
    unfold Log.n Log.record
    split
    · exact Nat.le_refl _
    · rw [List.length_append]
      exact Nat.le_add_right ..
  unfold Log.beginWaits at waits ⊢
  rw [Log.record_committing, Log.record_outstanding]
  rw [Bool.or_eq_true, decide_eq_true_iff] at waits ⊢
  exact waits.imp_right fun full => Nat.lt_of_lt_of_le full (Nat.add_le_add_right longer _)

theorem step_admission (steady : Steady s) (taken : step s (.admission i) = some t) : Steady t := by
  obtain ⟨⟨calm, -, here⟩, taken⟩ := Option.ite_none_right_eq_some.mp taken
  split at taken
  next waits =>
    cases taken
    refine steady.still i (fun j apart => by simp only [sleep_of_ne apart]) rfl ?_ ?_ ?_ (fun _ _ => waits) steady.panic
    all_goals simp only [sleep_self_pc, here]
    exact id
  next free =>
    cases taken
    have idle : s.log.committing = false := (Bool.or_eq_false_iff.mp (Bool.eq_false_iff.mpr free)).1
    exact steady.jump here (fun _ => rfl) steady.distinct rfl rfl
      (fun running => absurd (idle.symm.trans running) Bool.false_ne_true) (fun wrong => nomatch wrong) steady.installed
      (fun none => absurd none (Nat.succ_ne_zero _)) fun j asleep => absurd (steady.waits j asleep) free

theorem step_log_write {b : Nat} (steady : Steady s) (taken : step s (.log_write i b) = some t) : Steady t := by
  obtain ⟨⟨calm, -, here⟩, taken⟩ := Option.ite_none_right_eq_some.mp taken
  split at taken
  · cases taken
    exact { steady with panic := by simp }
  split at taken
  · cases taken
    exact { steady with panic := by simp }
  · cases taken
    exact steady.jump here (fun _ => rfl) steady.distinct rfl rfl steady.quiet (fun wrong => nomatch wrong) steady.installed
      steady.empty steady.waits

theorem step_record (steady : Steady s) (taken : step s (.record i) = some t) : Steady t := by
  simp only [step] at taken
  split at taken
  next b here =>
    obtain ⟨⟨calm, -⟩, rfl⟩ := Transition.of_guard taken
    have inside : (s.procs i).pc.inside = true := by rw [here]; rfl
    have busy := steady.outstanding_pos inside
    refine steady.jump here (fun _ => rfl) (Log.nodup_record _ _ steady.distinct) ?_ ?_ ?_ (fun wrong => nomatch wrong)
      (fun j finish => absurd finish (steady.not_finish inside j)) (fun none => ?_)
      fun j asleep => beginWaits_record b (steady.waits j asleep)
    · rw [Log.record_outstanding]
      rfl
    · rw [Log.record_committing]
      rfl
    · rw [Log.record_committing, Log.record_outstanding]
      exact steady.quiet
    · rw [Log.record_outstanding] at none
      omega
  next => cases taken

theorem step_end_op (steady : Steady s) (taken : step s (.end_op i) = some t) : Steady t := by
  obtain ⟨⟨calm, -, here⟩, taken⟩ := Option.ite_none_right_eq_some.mp taken
  have inside : (s.procs i).pc.inside = true := by rw [here]; rfl
  have busy := steady.outstanding_pos inside
  have running := steady.not_committing inside
  have installed : ∀ j, (s.procs j).pc = .finish → s.log.block = [] := fun j finish =>
    absurd finish (steady.not_finish inside j)
  have fewer : s.log.leave.outstanding + 1 = s.log.outstanding := Nat.sub_add_cancel busy
  rw [running, if_neg Bool.false_ne_true] at taken
  split at taken
  next last =>
    cases taken
    refine steady.jump here (fun _ => rfl) steady.distinct fewer ?_ (fun _ => last) (fun wrong => nomatch wrong) installed
      (fun _ idle => nomatch idle) fun _ _ => rfl
    rw [running]
    rfl
  next more =>
    cases taken
    exact steady.jump here (fun _ => wakeup_pc ..) steady.distinct fewer rfl
      (fun still => absurd (running.symm.trans still) Bool.false_ne_true) (fun wrong => nomatch wrong) installed
      (fun none _ => absurd none more) fun j asleep => absurd asleep (nobody_waits j)

theorem step_commit (steady : Steady s) (taken : step s (.commit i) = some t) : Steady t := by
  obtain ⟨⟨calm, -, here⟩, rfl⟩ := Transition.of_guard taken
  have running := steady.committing_of (i := i) (by rw [here]; rfl)
  exact steady.jump here (fun _ => rfl) List.nodup_nil rfl rfl steady.quiet (fun _ => rfl) (fun _ _ => rfl) (fun _ _ => rfl)
    fun _ _ => Bool.or_eq_true_iff.mpr (.inl running)

theorem step_finish (steady : Steady s) (taken : step s (.finish i) = some t) : Steady t := by
  obtain ⟨⟨calm, -, here⟩, rfl⟩ := Transition.of_guard taken
  have running := steady.committing_of (i := i) (by rw [here]; rfl)
  have installed := steady.installed i here
  refine steady.jump here (fun _ => wakeup_pc ..) steady.distinct rfl ?_ (fun still => nomatch still) (fun _ => installed)
    (fun _ _ => installed) (fun _ _ => installed) fun j asleep => absurd asleep (nobody_waits j)
  rw [running]
  rfl

theorem preserved {l : Label ι} (steady : Steady s) (taken : step s l = some t) : Steady t := by
  cases l with
  | schedule i =>
    obtain ⟨-, rfl⟩ := Transition.of_guard taken
    refine steady.still i (fun j _ => by simp only [schedule_pc]) rfl (by simp only [schedule_pc]) (by simp only [schedule_pc])
      (by simp only [schedule_pc]; exact id) (fun j asleep => ?_) steady.panic
    exact steady.waits j (sleepsOn_of_schedule _ _ _ _ asleep)
  | begin_op i =>
    obtain ⟨⟨calm, -, here⟩, rfl⟩ := Transition.of_guard taken
    exact steady.jump here (fun _ => rfl) steady.distinct rfl rfl steady.quiet (fun wrong => nomatch wrong) steady.installed
      steady.empty steady.waits
  | admission i => exact steady.step_admission taken
  | log_write i b => exact steady.step_log_write taken
  | record i => exact steady.step_record taken
  | end_op i => exact steady.step_end_op taken
  | commit i => exact steady.step_commit taken
  | finish i => exact steady.step_finish taken

end Steady

variable [DecidableEq ι] {ls : List (Label ι)}

theorem admission_phases (start : Started s) (reached : run step s ls = some t) :
    (t.log.committing = true → t.log.outstanding = 0 ∧ ∀ i, (t.procs i).pc.inside = false) ∧
    t.panic ≠ some "log.committing" ∧ t.log.block.Nodup ∧
    (t.log.outstanding = 0 → t.log.committing = false → t.log.n = 0) ∧
    ∀ i, (t.procs i).SleepsOn () →
      (t.log.committing = true ∨ t.log.n + (t.log.outstanding + 1) * MAXOPBLOCKS > LOGSIZE) ∧
      ∃ j, (t.procs j).pc.inside = true ∨ (t.procs j).pc.committing = true := by
  have steady := run_invariant step Steady (fun _ _ _ steady taken => steady.preserved taken) start.steady reached
  refine ⟨fun running => ?_, steady.panic, steady.distinct, fun alone idle => ?_, fun i asleep => ⟨?_, steady.attended asleep⟩⟩
  · exact ⟨steady.quiet running, steady.nobody_inside (steady.quiet running)⟩
  · rw [Log.n, steady.empty alone idle]
    rfl
  · have waits := steady.waits i asleep
    rwa [Log.beginWaits, Bool.or_eq_true, decide_eq_true_iff] at waits

def booted : State (Fin 3) where
  log := { start := 2, size := LOGSIZE, outstanding := 0, committing := false, block := [] }
  procs := fun _ => { state := .runnable, chan := none, killed := false, pc := .user }
  passed := fun _ => ∅
  panic := none

def enter (i : Fin 3) : List (Label (Fin 3)) := [.schedule i, .begin_op i, .admission i]

def logBlocks (i : Fin 3) (first count : Nat) : List (Label (Fin 3)) :=
  (List.range count).flatMap fun k => [.log_write i (first + k), .record i]

def secondWaits : List (Label (Fin 3)) :=
  enter 0 ++ logBlocks 0 60 12 ++ enter 1 ++ [.schedule 2, .begin_op 2, .admission 2]

theorem booted_started : Started booted := by
  constructor <;> first | rfl | exact fun _ => rfl | decide

theorem admission_phases_secondWaits : ∃ t, run step booted secondWaits = some t ∧ (t.procs 2).SleepsOn () ∧
    ∃ j, (t.procs j).pc.inside = true ∨ (t.procs j).pc.committing = true := by
  have outcome : (run step booted secondWaits).any (fun t => (t.procs 2).SleepsOn ()) = true := by decide +kernel
  obtain ⟨t, reached, asleep⟩ := (Option.any_eq_true _ _).mp outcome
  have asleep := of_decide_eq_true asleep
  exact ⟨t, reached, asleep, ((admission_phases booted_started reached).2.2.2.2 2 asleep).2⟩

end Xv6.Log.Admission
