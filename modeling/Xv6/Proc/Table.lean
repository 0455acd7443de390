import Mathlib.Data.Fin.Basic
import Mathlib.Data.List.FinRange
import Xv6.Lib.Transition
import Xv6.Param
import Xv6.Proc.Sleep

/-! The process table of `proc.c` and the critical sections of `fork`, `exit`, `wait`, `kill`,
`sleep` and `wakeup`, each one a step of the process that makes the call. -/

namespace Xv6.Ptable
open Lib Lib.Transition Function

instance : NeZero NPROC := ⟨by decide⟩

/-- The address of a `struct proc`, which `wait` sleeps on, or any other one. -/
inductive Chan where
  | proc (i : Fin NPROC)
  | other (n : Nat)
  deriving DecidableEq, Repr

/-- Where a process is in the calls that `step` models. -/
inductive Pc where
  | user
  -- in `allocproc`, with the slot taken and `ptable.lock` released
  | forkStack (np : Fin NPROC)
  -- before `copyuvm`
  | forkCopy (np : Fin NPROC)
  -- after `np->parent = curproc`
  | forkReady (np : Fin NPROC)
  -- in the `sleep` of `wait`
  | wait
  deriving DecidableEq, Repr

structure Slot where
  state : ProcState
  pid : BitVec 32
  parent : Option (Fin NPROC)
  chan : Option Chan
  killed : Bool
  pc : Pc
  -- the number of the process among all those that `fork` has returned
  id : Nat
  deriving Repr

inductive Event where
  | forked (child creator : Nat)
  | exited (id : Nat)
  | waited (child parent : Nat)
  deriving DecidableEq, Repr

structure State where
  proc : Fin NPROC → Slot
  nextpid : BitVec 32
  births : Nat
  -- what has happened, the latest first
  history : List Event

def initproc : Fin NPROC := 0

def boot : State where
  proc := Function.update (fun _ => ⟨.unused, 0, none, none, false, .user, 0⟩) initproc
    ⟨.runnable, 1, none, none, false, .user, 0⟩
  nextpid := 2
  births := 1
  history := []

inductive Label where
  -- `fork` up to the end of the critical section of `allocproc`
  | fork (p : Fin NPROC)
  -- `kalloc` of the kernel stack
  | forkStack (p : Fin NPROC) (ok : Bool)
  -- `copyuvm`
  | forkCopy (p : Fin NPROC) (ok : Bool)
  | forkDone (p : Fin NPROC)
  | exit (p : Fin NPROC)
  | wait (p : Fin NPROC)
  | kill (p : Fin NPROC) (pid : BitVec 32)
  | sleep (p : Fin NPROC) (chan : Nat)
  -- by a process or an interrupt handler
  | wakeup (chan : Nat)
  | yield (p : Fin NPROC)
  -- the scheduler of some CPU
  | schedule (p : Fin NPROC)

section Functions

variable (table : Fin NPROC → Slot)

def wakeup1 (chan : Option Chan) : Fin NPROC → Slot :=
  fun i => if (table i).state = .sleeping ∧ (table i).chan = chan then { table i with state := .runnable } else table i

def abandon (p : Fin NPROC) (table : Fin NPROC → Slot) (i : Fin NPROC) : Fin NPROC → Slot :=
  if (table i).parent = some p then
    let table := Function.update table i { table i with parent := some initproc }
    if (table i).state = .zombie then wakeup1 table (some (.proc initproc)) else table
  else table

def exit (p : Fin NPROC) : Fin NPROC → Slot :=
  let woken := wakeup1 table ((table p).parent.map .proc)
  let passed := (List.finRange NPROC).foldl (abandon p) woken
  Function.update passed p { passed p with state := .zombie }

def unused : Option (Fin NPROC) := (List.finRange NPROC).find? fun i => (table i).state = .unused

def zombie (p : Fin NPROC) : Option (Fin NPROC) :=
  (List.finRange NPROC).find? fun i => (table i).parent = some p ∧ (table i).state = .zombie

def havekids (p : Fin NPROC) : Bool := (List.finRange NPROC).any fun i => (table i).parent = some p

def target (pid : BitVec 32) : Option (Fin NPROC) := (List.finRange NPROC).find? fun i => (table i).pid = pid

end Functions

namespace State

variable (s : State)

def set (i : Fin NPROC) (slot : Slot) : State := { s with proc := Function.update s.proc i slot }

def goto (p : Fin NPROC) (pc : Pc) : State := s.set p { s.proc p with pc := pc }

@[simp] theorem set_self (i : Fin NPROC) (slot : Slot) : (s.set i slot).proc i = slot := update_self ..

theorem set_of_ne {i j : Fin NPROC} (slot : Slot) (apart : j ≠ i) : (s.set i slot).proc j = s.proc j :=
  update_of_ne apart ..

@[simp] theorem goto_self (p : Fin NPROC) (pc : Pc) : (s.goto p pc).proc p = { s.proc p with pc := pc } :=
  update_self ..

theorem goto_of_ne {p j : Fin NPROC} (pc : Pc) (apart : j ≠ p) : (s.goto p pc).proc j = s.proc j :=
  update_of_ne apart ..

def At (p : Fin NPROC) (pc : Pc) : Prop := (s.proc p).state = .running ∧ (s.proc p).pc = pc

instance (p : Fin NPROC) (pc : Pc) : Decidable (s.At p pc) := inferInstanceAs (Decidable (_ ∧ _))

def giveUp (p np : Fin NPROC) : State :=
  (s.set np { s.proc np with state := .unused }).goto p .user

end State

def scan (s : State) (p : Fin NPROC) : State :=
  match zombie s.proc p with
  | some i =>
    let freed := { s.proc i with pid := 0, parent := none, killed := false, state := .unused }
    { (s.set i freed).goto p .user with history := .waited (s.proc i).id (s.proc p).id :: s.history }
  | none =>
    if havekids s.proc p = false ∨ (s.proc p).killed = true then s.goto p .user
    else s.set p { s.proc p with state := .sleeping, chan := some (.proc p), pc := .wait }

def step (s : State) : Label → Option State
  | .fork p =>
    if s.At p .user then
      match unused s.proc with
      | none => some s
      | some np =>
        some { (s.set np { s.proc np with state := .embryo, pid := s.nextpid }).goto p (.forkStack np)
          with nextpid := s.nextpid + 1 }
    else none
  | .forkStack p ok =>
    match (s.proc p).state, (s.proc p).pc with
    | .running, .forkStack np => some (if ok then s.goto p (.forkCopy np) else s.giveUp p np)
    | _, _ => none
  | .forkCopy p ok =>
    match (s.proc p).state, (s.proc p).pc with
    | .running, .forkCopy np =>
      some (if ok then (s.set np { s.proc np with parent := some p }).goto p (.forkReady np) else s.giveUp p np)
    | _, _ => none
  | .forkDone p =>
    match (s.proc p).state, (s.proc p).pc with
    | .running, .forkReady np =>
      some { (s.set np { s.proc np with state := .runnable, pc := .user, id := s.births }).goto p .user with
        births := s.births + 1
        history := .forked s.births (s.proc p).id :: s.history }
    | _, _ => none
  | .exit p =>
    -- `panic("init exiting")` otherwise
    if s.At p .user ∧ p ≠ initproc then
      some { s with proc := exit s.proc p, history := .exited (s.proc p).id :: s.history }
    else none
  | .wait p => if s.At p .user ∨ s.At p .wait then some (scan s p) else none
  | .kill p pid =>
    if s.At p .user then
      match target s.proc pid with
      | some i =>
        some (s.set i { s.proc i with
          killed := true
          state := if (s.proc i).state = .sleeping then .runnable else (s.proc i).state })
      | none => some s
    else none
  | .sleep p chan =>
    if s.At p .user then some (s.set p { s.proc p with state := .sleeping, chan := some (.other chan) }) else none
  | .wakeup chan => some { s with proc := wakeup1 s.proc (some (.other chan)) }
  | .yield p =>
    if (s.proc p).state = .running then some (s.set p { s.proc p with state := .runnable }) else none
  | .schedule p =>
    if (s.proc p).state = .runnable then some (s.set p { s.proc p with state := .running, chan := none }) else none

section Exit

variable {table : Fin NPROC → Slot} {p : Fin NPROC}

def Leaves (table : Fin NPROC → Slot) (p : Fin NPROC) (l : List (Fin NPROC)) : Prop :=
  ∃ i ∈ l, (table i).parent = some p ∧ (table i).state = .zombie

instance (l : List (Fin NPROC)) : Decidable (Leaves table p l) := inferInstanceAs (Decidable (∃ i ∈ l, _))

theorem abandon_slot (i j : Fin NPROC) :
    abandon p table i j = { table j with
      parent := if (table j).parent = some p ∧ j = i then some initproc else (table j).parent
      state := if (table j).state = .sleeping ∧ (table j).chan = some (.proc initproc) ∧ Leaves table p [i] then .runnable
        else (table j).state } := by
  have only : Leaves table p [i] ↔ (table i).parent = some p ∧ (table i).state = .zombie := by simp [Leaves]
  unfold abandon
  split
  next child =>
    by_cases here : j = i
    · subst here
      by_cases done : (table j).state = .zombie
      · simp [wakeup1, done, child]
      · simp [done, child, only]
    · by_cases done : (table i).state = .zombie
      · simp only [update_self, done, if_true, wakeup1, update_of_ne here, only, child, here, and_true,
          and_false, if_false]
        split <;> rfl
      · simp [done, here, only]
  next other =>
    have kept : ¬ ((table j).parent = some p ∧ j = i) := fun both => other (both.2 ▸ both.1)
    simp [kept, only, other]

theorem leaves_abandon (apart : p ≠ initproc) (i : Fin NPROC) (l : List (Fin NPROC)) :
    Leaves table p (i :: l) ↔ Leaves table p [i] ∨ Leaves (abandon p table i) p l := by
  have state : ∀ k, (abandon p table i k).state = .zombie ↔ (table k).state = .zombie := by
    intro k
    rw [abandon_slot]
    dsimp only
    split
    next asleep => simp [asleep.1]
    next => exact Iff.rfl
  have parent : ∀ k, (abandon p table i k).parent = some p ↔ (table k).parent = some p ∧ k ≠ i := by
    intro k
    rw [abandon_slot]
    dsimp only
    split
    next both => simp [both.2, Ne.symm apart]
    next other => exact ⟨fun child => ⟨child, fun here => other ⟨child, here⟩⟩, fun both => both.1⟩
  simp only [Leaves, state, parent, List.mem_cons, List.not_mem_nil, or_false]
  constructor
  · rintro ⟨k, here | member, child, done⟩
    · exact .inl ⟨k, here, child, done⟩
    · by_cases here : k = i
      · exact .inl ⟨k, here, child, done⟩
      · exact .inr ⟨k, member, ⟨child, here⟩, done⟩
  · rintro (⟨k, here, child, done⟩ | ⟨k, member, ⟨child, -⟩, done⟩)
    · exact ⟨k, .inl here, child, done⟩
    · exact ⟨k, .inr member, child, done⟩

theorem foldl_abandon_slot (apart : p ≠ initproc) (l : List (Fin NPROC)) (j : Fin NPROC) :
    l.foldl (abandon p) table j = { table j with
      parent := if (table j).parent = some p ∧ j ∈ l then some initproc else (table j).parent
      state := if (table j).state = .sleeping ∧ (table j).chan = some (.proc initproc) ∧ Leaves table p l then .runnable
        else (table j).state } := by
  induction l generalizing table with
  | nil => simp [Leaves]
  | cons i l ih =>
    rw [List.foldl_cons, ih, abandon_slot]
    have split : Leaves table p (i :: l) ↔ _ := leaves_abandon apart i l
    simp only [split, List.mem_cons]
    congr 1
    · by_cases asleep : (table j).state = .sleeping ∧ (table j).chan = some (.proc initproc)
      · by_cases first : Leaves table p [i] <;> simp [asleep, first]
      · have never : ∀ rest : Prop, ¬ ((table j).state = .sleeping ∧ (table j).chan = some (.proc initproc) ∧ rest) :=
          fun _ all => asleep ⟨all.1, all.2.1⟩
        simp only [never, if_false]
    · by_cases child : (table j).parent = some p
      · by_cases here : j = i
        · subst here
          simp [child]
        · simp [child, here]
      · simp [child]

theorem exit_slot (apart : p ≠ initproc) (j : Fin NPROC) :
    exit table p j = { table j with
      parent := if (table j).parent = some p then some initproc else (table j).parent
      state := if j = p then .zombie
        else if (table j).state = .sleeping ∧ ((table j).chan = (table p).parent.map .proc ∨
          ((table j).chan = some (.proc initproc) ∧ Leaves table p (List.finRange NPROC))) then .runnable
        else (table j).state } := by
  have leaves : Leaves (wakeup1 table ((table p).parent.map .proc)) p (List.finRange NPROC) ↔
      Leaves table p (List.finRange NPROC) := by
    refine exists_congr fun k => and_congr_right fun _ => ?_
    unfold wakeup1
    split
    next asleep => simp [asleep.1]
    next => exact Iff.rfl
  have passed : (List.finRange NPROC).foldl (abandon p) (wakeup1 table ((table p).parent.map .proc)) j =
      { table j with
        parent := if (table j).parent = some p then some initproc else (table j).parent
        state := if (table j).state = .sleeping ∧ ((table j).chan = (table p).parent.map .proc ∨
          ((table j).chan = some (.proc initproc) ∧ Leaves table p (List.finRange NPROC))) then .runnable
        else (table j).state } := by
    rw [foldl_abandon_slot apart]
    simp only [leaves]
    by_cases woken : (table j).state = .sleeping ∧ (table j).chan = (table p).parent.map .proc
    · simp [wakeup1, woken]
    · simp only [wakeup1, if_neg woken, List.mem_finRange, and_true]
      congr 2
      rw [eq_iff_iff]
      exact ⟨fun all => ⟨all.1, .inr all.2⟩, fun all => ⟨all.1, all.2.resolve_left fun same => woken ⟨all.1, same⟩⟩⟩
  unfold exit
  by_cases here : j = p
  · subst here
    simp only [update_self, passed, if_true]
  · simp only [update_of_ne here, passed, if_neg here]

end Exit

end Xv6.Ptable
