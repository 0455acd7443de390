import Mathlib.Data.List.Basic
import Mathlib.Logic.Function.Basic
import Xv6.Lib.Transition

/-! `pushcli` and `popcli` of `spinlock.c`, the spin-locks built on them, and the switch between
threads and schedulers. The code from one instruction that reads or sets the interrupt flag to the
next is one step. `base` and the list of closed sections are never read by the code. -/

namespace Xv6.Cli
open Lib

structure Cpu (ι : Type) where
  ncli : Int
  intena : Bool
  -- `FL_IF` in `%eflags`
  flag : Bool
  -- the process whose kernel thread runs here, if it is not the scheduler
  current : Option ι

section Cpu
variable {ι κ : Type}

/-- `pushcli` after it has read `eflags`. -/
def Cpu.pushcli (cpu : Cpu ι) (eflags : Bool) : Cpu ι :=
  { cpu with flag := false, intena := if cpu.ncli = 0 then eflags else cpu.intena, ncli := cpu.ncli + 1 }

def Cpu.popcli (cpu : Cpu ι) : Except String (Cpu ι) :=
  if cpu.flag then .error "popcli - interruptible"
  else if cpu.ncli - 1 < 0 then .error "popcli"
  else .ok { cpu with ncli := cpu.ncli - 1, flag := if cpu.ncli - 1 = 0 ∧ cpu.intena then true else cpu.flag }

/-- `holding` of a lock that the CPU `locked` has, on the CPU `c`. -/
def Cpu.holding [DecidableEq κ] (cpu : Cpu ι) (locked : Option κ) (c : κ) : Except String (Cpu ι × Bool) := do
  let cpu ← (cpu.pushcli cpu.flag).popcli
  return (cpu, locked = some c)

end Cpu

inductive Pc (L : Type) where
  | run
  -- in `pushcli` with `eflags` read, on its own or for `acquire`
  | pushing (eflags : Bool) (lock : Option L)
  -- at the `xchg` in `acquire`
  | spinning (lock : L)
  -- switched away in `sched` with its `intena`, or not yet run
  | parked (intena : Option Bool)
  deriving DecidableEq

structure Thread (L : Type) where
  pc : Pc L
  -- its calls of `pushcli` that are not matched yet
  pushes : Nat
  held : List L
  -- the interrupt flag and the code to go back to, for each trap it is in
  traps : List (Bool × Pc L)
  -- whether interrupts were enabled before its outermost `pushcli`, once it has called one
  base : Option Bool

def Thread.count {L : Type} (thread : Thread L) : Nat :=
  thread.pushes + thread.held.length + match thread.pc with | .spinning _ => 1 | _ => 0

inductive Tid (κ ι : Type) where
  | scheduler (c : κ)
  | proc (i : ι)
  deriving DecidableEq

/-- A thread has given back all it took: the flag before and after. -/
structure Closed (κ ι : Type) where
  thread : Tid κ ι
  before : Bool
  after : Bool
  deriving DecidableEq

structure State (κ ι L : Type) where
  cpu : κ → Cpu ι
  thread : Tid κ ι → Thread L
  -- the CPU that a lock is locked by
  locks : L → Option κ
  panicked : Option String
  closed : List (Closed κ ι)

inductive Call (L : Type) where
  | pushcli
  | popcli
  | acquire (l : L)
  | release (l : L)
  | sched

def yield {L : Type} (ptable : L) : List (Call L) := [.acquire ptable, .sched, .release ptable]

inductive Label (κ ι L : Type) where
  -- the thread on the CPU makes a call
  | call (c : κ) (call : Call L)
  -- `pushcli` goes on with `cli`
  | cli (c : κ)
  -- the `xchg` in `acquire` succeeds
  | xchg (c : κ)
  -- an interrupt, with interrupts off in the handler, or a trap that leaves them on
  | trap (c : κ) (interrupt : Bool)
  | iret (c : κ)
  -- the scheduler enables interrupts, or switches to a process
  | sti (c : κ)
  | swtch (c : κ) (i : ι)

section Step
variable {κ ι L : Type} [DecidableEq κ] [DecidableEq ι] [DecidableEq L] (s : State κ ι L)

namespace State

def tid (c : κ) : Tid κ ι :=
  match (s.cpu c).current with
  | none => .scheduler c
  | some i => .proc i

def setCpu (c : κ) (cpu : Cpu ι) : State κ ι L := { s with cpu := Function.update s.cpu c cpu }

def setThread (x : Tid κ ι) (thread : Thread L) : State κ ι L :=
  { s with thread := Function.update s.thread x thread }

end State

/-- The thread on `c` has matched a `pushcli`, and is `thread` now. -/
def close (c : κ) (cpu : Cpu ι) (thread : Thread L) : State κ ι L :=
  let t := (s.setCpu c cpu).setThread (s.tid c) thread
  match thread.base with
  | some before => if thread.count = 0 then { t with closed := s.closed ++ [⟨s.tid c, before, cpu.flag⟩] } else t
  | none => t

/-- The rest of `pushcli`, and the test in `acquire`. -/
def cli (c : κ) (eflags : Bool) (lock : Option L) : Except String (State κ ι L) :=
  let thread := s.thread (s.tid c)
  let base := if thread.count = 0 then some eflags else thread.base
  let cpu := (s.cpu c).pushcli eflags
  match lock with
  | none => .ok ((s.setCpu c cpu).setThread (s.tid c) { thread with pc := .run, pushes := thread.pushes + 1, base := base })
  | some l => do
    let (cpu, held) ← cpu.holding (s.locks l) c
    if held then throw "acquire"
    else return (s.setCpu c cpu).setThread (s.tid c) { thread with pc := .spinning l, base := base }

def popcli (c : κ) : Except String (State κ ι L) := do
  let thread := s.thread (s.tid c)
  let cpu ← (s.cpu c).popcli
  return close s c cpu { thread with pushes := thread.pushes - 1 }

def release (c : κ) (l : L) : Except String (State κ ι L) := do
  let thread := s.thread (s.tid c)
  let (cpu, held) ← (s.cpu c).holding (s.locks l) c
  if ¬ held then throw "release"
  else do
    let cpu ← cpu.popcli
    return close { s with locks := Function.update s.locks l none } c cpu { thread with held := thread.held.erase l }

def sched (ptable : L) (c : κ) (i : ι) : Except String (State κ ι L) := do
  let thread := s.thread (.proc i)
  let (cpu, held) ← (s.cpu c).holding (s.locks ptable) c
  if ¬ held then throw "sched ptable.lock"
  else if cpu.ncli ≠ 1 then throw "sched locks"
  else if cpu.flag then throw "sched interruptible"
  else return (s.setCpu c { cpu with current := none }).setThread (.proc i) { thread with pc := .parked (some cpu.intena) }

/-- A call of the thread on `c`; calls of `popcli` and `release` match earlier ones. -/
def call (ptable : L) (c : κ) : Call L → Option (Except String (State κ ι L))
  | .pushcli => some (.ok (s.setThread (s.tid c) { s.thread (s.tid c) with pc := .pushing (s.cpu c).flag none }))
  | .acquire l => some (.ok (s.setThread (s.tid c) { s.thread (s.tid c) with pc := .pushing (s.cpu c).flag (some l) }))
  | .popcli => if 0 < (s.thread (s.tid c)).pushes then some (popcli s c) else none
  | .release l => if l ∈ (s.thread (s.tid c)).held then some (release s c l) else none
  | .sched => (s.cpu c).current.map (sched s ptable c)

/-- `none` if the step is not possible, an error if it panics. -/
def perform (ptable : L) : Label κ ι L → Option (Except String (State κ ι L))
  | .call c made => if (s.thread (s.tid c)).pc = .run then call s ptable c made else none
  | .cli c =>
    match (s.thread (s.tid c)).pc with
    | .pushing eflags lock => some (cli s c eflags lock)
    | _ => none
  | .xchg c =>
    match (s.thread (s.tid c)).pc with
    | .spinning l =>
      if s.locks l = none then
        let thread := s.thread (s.tid c)
        some (.ok ({ s with locks := Function.update s.locks l (some c) }.setThread (s.tid c)
          { thread with pc := .run, held := l :: thread.held }))
      else none
    | _ => none
  | .trap c interrupt =>
    if (s.cpu c).flag then
      let thread := s.thread (s.tid c)
      some (.ok ((s.setCpu c { s.cpu c with flag := !interrupt }).setThread (s.tid c)
        { thread with pc := .run, traps := ((s.cpu c).flag, thread.pc) :: thread.traps }))
    else none
  | .iret c =>
    let thread := s.thread (s.tid c)
    match thread.traps with
    | (flag, pc) :: traps =>
      -- the handler has matched its calls
      if thread.pc = .run ∧ thread.count = 0 then
        some (.ok ((s.setCpu c { s.cpu c with flag := flag }).setThread (s.tid c) { thread with pc := pc, traps := traps }))
      else none
    | [] => none
  | .sti c =>
    let thread := s.thread (.scheduler c)
    if (s.cpu c).current = none ∧ thread.pc = .run ∧ thread.count = 0 ∧ thread.traps = [] then
      some (.ok (s.setCpu c { s.cpu c with flag := true }))
    else none
  | .swtch c i =>
    let thread := s.thread (.scheduler c)
    if (s.cpu c).current = none ∧ thread.pc = .run ∧ thread.held = [ptable] ∧ thread.pushes = 0 ∧ thread.traps = [] then
      match (s.thread (.proc i)).pc with
      | .parked intena =>
        let cpu := { s.cpu c with current := some i, intena := intena.getD (s.cpu c).intena }
        some (.ok ((s.setCpu c cpu).setThread (.proc i) { s.thread (.proc i) with pc := .run }))
      | _ => none
    else none

def step (ptable : L) (l : Label κ ι L) : Option (State κ ι L) :=
  if s.panicked.isSome then none
  else match perform s ptable l with
    | none => none
    | some (.ok t) => some t
    | some (.error message) => some { s with panicked := some message }

end Step

/-- Every CPU is about to enter `scheduler`; a process will start in `forkret`. -/
structure Initial {κ ι L : Type} (ptable : L) (s : State κ ι L) : Prop where
  cpu : ∀ c, (s.cpu c).ncli = 0 ∧ (s.cpu c).current = none
  scheduler : ∀ c, s.thread (.scheduler c) = ⟨.run, 0, [], [], none⟩
  proc : ∀ i, s.thread (.proc i) = ⟨.parked none, 0, [ptable], [(true, .run)], none⟩
  locks : ∀ l, s.locks l = none
  panicked : s.panicked = none
  closed : s.closed = []

end Xv6.Cli
