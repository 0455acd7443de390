import Xv6.Lib.Transition
import Xv6.Proc.Sleep

/-! Any number of CPUs in `scheduler`, and the processes they switch to. A process changes its state
under `ptable.lock` on its own stack; the lock then passes to the scheduler of its CPU. -/

namespace Xv6.Sched
open Lib Lib.Transition

/-- Whose stack a CPU is on, and where it is in `scheduler`. -/
inductive Mode (ι : Type) where
  -- before `acquire(&ptable.lock)`
  | idle
  -- in an interrupt handler that holds `ptable.lock` for a `wakeup`
  | handler
  -- in the loop over the table
  | scanning
  -- after `c->proc = p; switchuvm(p)`
  | picked (p : ι)
  -- after `p->state = RUNNING`
  | marked (p : ι)
  | running (p : ι)
  -- back from `swtch`
  | returned (p : ι)
  deriving DecidableEq

inductive Pc where
  -- its context is saved
  | parked
  -- after the `swtch` in `sched`, or in `forkret`
  | resumed
  -- in a critical section of `ptable.lock`
  | locked
  | free
  -- its state is changed and it is in `sched`
  | leaving
  deriving DecidableEq

structure Proc (ι : Type) where
  state : ProcState
  chan : Nat
  -- the process has a kernel stack and a page directory
  kstack : Bool
  -- the stack whose frame `p->context` points to
  context : ι
  -- where the code on the stack of this process is
  pc : Pc

structure Cpu (ι : Type) where
  mode : Mode ι
  proc : Option ι

structure State (κ ι : Type) where
  -- the CPU that holds `ptable.lock`
  lock : Option κ
  cpu : κ → Cpu ι
  proc : ι → Proc ι

inductive Label (κ ι : Type) where
  -- `acquire` by a scheduler, an interrupt handler or a process
  | schedAcquire (c : κ)
  | handlerAcquire (c : κ)
  | acquire (c : κ)
  -- in `scheduler`
  | pick (c : κ) (p : ι)
  | mark (c : κ)
  | swtch (c : κ)
  | back (c : κ)
  | schedRelease (c : κ)
  -- in a critical section
  | wakeup1 (c : κ) (chan : Nat)
  | kill (c : κ) (p : ι)
  | alloc (c : κ) (p : ι)
  | stack (c : κ) (p : ι)
  | ready (c : κ) (p : ι)
  -- `wait` frees the stack and the page directory of a zombie; whose child it is does not matter here
  | reap (c : κ) (p : ι)
  | yield (c : κ)
  | sleep (c : κ) (chan : Nat)
  | exit (c : κ)
  | sched (c : κ)
  -- `sleep` after `sched`: `p->chan = 0`, still with the lock
  | tidy (c : κ)
  -- `yield` after `sched`, and `forkret`
  | forkret (c : κ)
  | release (c : κ)
  -- `fork` fails; it does not take the lock
  | giveUp (c : κ) (p : ι)

section Step

variable {κ ι : Type} [DecidableEq κ] [DecidableEq ι] (s : State κ ι)

namespace State

def setCpu (c : κ) (cpu : Cpu ι) : State κ ι := { s with cpu := Function.update s.cpu c cpu }

def setProc (p : ι) (proc : Proc ι) : State κ ι := { s with proc := Function.update s.proc p proc }

def goto (c : κ) (mode : Mode ι) : State κ ι := s.setCpu c { s.cpu c with mode := mode }

end State

/-- The code of a process goes from `pc` to `pc'` on CPU `c`, which then holds `ptable.lock` or not.
-/
def move (c : κ) (pc pc' : Pc) (lock : Option κ) : Option (State κ ι) :=
  match (s.cpu c).mode with
  | .running p => if (s.proc p).pc = pc then some { s.setProc p { s.proc p with pc := pc' } with lock := lock } else none
  | _ => none

/-- A state change of `myproc()` before `sched()`. -/
def leave (c : κ) (state : ProcState) (chan : Proc ι → Nat) : Option (State κ ι) :=
  match (s.cpu c).mode, (s.cpu c).proc with
  | .running p, some q =>
    if (s.proc p).pc = .locked then
      let t := s.setProc q { s.proc q with state := state, chan := chan (s.proc q) }
      some (t.setProc p { t.proc p with pc := .leaving })
    else none
  | _, _ => none

/-- The process on CPU `c` changes process `p` of the table. -/
def change (c : κ) (pc : Pc) (p : ι) (before : Proc ι → Bool) (after : Proc ι → Proc ι) : Option (State κ ι) :=
  match (s.cpu c).mode with
  | .running q => if (s.proc q).pc = pc ∧ before (s.proc p) then some (s.setProc p (after (s.proc p))) else none
  | _ => none

def wakes (chan : Nat) (proc : Proc ι) : Proc ι :=
  if proc.state = .sleeping ∧ proc.chan = chan then { proc with state := .runnable } else proc

def step : Label κ ι → Option (State κ ι)
  | .schedAcquire c =>
    if (s.cpu c).mode = .idle ∧ s.lock = none then some { s.goto c .scanning with lock := some c } else none
  | .handlerAcquire c =>
    if (s.cpu c).mode = .idle ∧ s.lock = none then some { s.goto c .handler with lock := some c } else none
  | .acquire c => if s.lock = none then move s c .free .locked (some c) else none
  | .pick c p =>
    if (s.cpu c).mode = .scanning ∧ (s.proc p).state = .runnable then some (s.setCpu c ⟨.picked p, some p⟩) else none
  | .mark c =>
    match (s.cpu c).mode with
    | .picked p => some ((s.setProc p { s.proc p with state := .running }).goto c (.marked p))
    | _ => none
  | .swtch c =>
    match (s.cpu c).mode with
    | .marked p =>
      let q := (s.proc p).context
      some ((s.setProc q { s.proc q with pc := .resumed }).goto c (.running q))
    | _ => none
  | .back c =>
    match (s.cpu c).mode with
    | .returned _ => some (s.setCpu c ⟨.scanning, none⟩)
    | _ => none
  | .schedRelease c =>
    match (s.cpu c).mode with
    | .scanning | .handler => some { s.goto c .idle with lock := none }
    | _ => none
  | .wakeup1 c chan =>
    match (s.cpu c).mode with
    | .handler => some { s with proc := fun p => wakes chan (s.proc p) }
    | .running q => if (s.proc q).pc = .locked then some { s with proc := fun p => wakes chan (s.proc p) } else none
    | _ => none
  | .kill c p => change s c .locked p (·.state = .sleeping) fun proc => { proc with state := .runnable }
  | .alloc c p => change s c .locked p (·.state = .unused) fun proc => { proc with state := .embryo }
  | .stack c p =>
    change s c .free p (·.state = .embryo) fun proc => { proc with kstack := true, context := p, pc := .parked }
  | .ready c p =>
    change s c .locked p (fun proc => proc.state = .embryo && proc.kstack) fun proc => { proc with state := .runnable }
  | .giveUp c p =>
    change s c .free p (·.state = .embryo) fun proc => { proc with kstack := false, state := .unused }
  | .reap c p =>
    change s c .locked p (·.state = .zombie) fun proc => { proc with kstack := false, state := .unused }
  | .yield c => leave s c .runnable (·.chan)
  | .sleep c chan => leave s c .sleeping fun _ => chan
  | .exit c => leave s c .zombie (·.chan)
  | .sched c =>
    match (s.cpu c).mode, (s.cpu c).proc with
    | .running p, some q =>
      if (s.proc p).pc = .leaving then
        let t := s.setProc p { s.proc p with pc := .parked }
        some ((t.setProc q { t.proc q with context := p }).goto c (.returned q))
      else none
    | _, _ => none
  | .tidy c =>
    match (s.cpu c).mode with
    | .running p =>
      if (s.proc p).pc = .resumed then some (s.setProc p { s.proc p with chan := 0, pc := .locked }) else none
    | _ => none
  | .forkret c => move s c .resumed .free none
  | .release c => move s c .locked .free none

/-- Every CPU enters `scheduler`, and no process has run. -/
structure Initial : Prop where
  lock : s.lock = none
  idle : ∀ c, s.cpu c = ⟨.idle, none⟩
  state : ∀ p, (s.proc p).state ≠ .running
  kstack : ∀ p, (s.proc p).state ≠ .unused → (s.proc p).kstack = true
  context : ∀ p, (s.proc p).kstack = true → (s.proc p).context = p

end Step

end Xv6.Sched
