import Xv6.Lib.RingBuffer
import Xv6.Lib.Transition
import Xv6.Proc.Sleep
import Mathlib.Data.Fintype.Basic

/-! `pipe.c` as a transition system over any finite set of processes. The atomic steps are the
stretches of code between two operations on `p->lock` or `ptable.lock`. The history lists what
the calls did; it is never read by the code. -/

namespace Xv6
open Lib

def PIPESIZE : Nat := 512

instance : NeZero PIPESIZE := ⟨by decide⟩

structure Pipe extends RingBuffer PIPESIZE 32 UInt8 where
  readopen : Bool
  writeopen : Bool

namespace Pipe
open Proc

def full (p : Pipe) : Bool := p.nwrite = p.nread + BitVec.ofNat 32 PIPESIZE

def empty (p : Pipe) : Bool := p.nread = p.nwrite

-- p->data[p->nwrite++ % PIPESIZE] = b
def put (p : Pipe) (b : UInt8) : Pipe := { p with toRingBuffer := p.push b }

-- p->nread++
def take (p : Pipe) : Pipe := { p with toRingBuffer := p.pop }

def writeLoop : Pipe → List UInt8 → Pipe × List UInt8
  | p, [] => (p, [])
  | p, b :: rest => if p.full then (p, b :: rest) else writeLoop (p.put b) rest

def readLoop : Pipe → Nat → Pipe × List UInt8
  | p, 0 => (p, [])
  | p, n + 1 =>
    if p.empty then (p, [])
    else
      let later := readLoop p.take n
      (later.1, p.front :: later.2)

inductive Chan where
  | nread | nwrite
  deriving DecidableEq, Repr

-- one call of `pipewrite`, told apart from the others by `id`
structure Call where
  id : Nat
  addr : List UInt8
  deriving DecidableEq, Repr

inductive Pc where
  | user
  -- at `acquire(&p->lock)`, on entry or when `sleep` returns, with `rest` to store
  | writeEnter (call : Call) (rest : List UInt8)
  -- found the pipe full, about to call `wakeup(&p->nread)`
  | writeFull (call : Call) (rest : List UInt8)
  -- about to call `sleep(&p->nwrite, &p->lock)`
  | writeSleep (call : Call) (rest : List UInt8)
  -- stored everything, about to call `wakeup(&p->nread)`
  | writeDone
  -- at `acquire(&p->lock)`, on entry or when `sleep` returns
  | readEnter (n : Nat)
  -- about to call `sleep(&p->nread, &p->lock)`
  | readSleep (n : Nat)
  -- copied the bytes out, about to call `wakeup(&p->nwrite)`
  | readDone
  | closeEnter (writable : Bool)
  -- cleared the flag of its end, about to wake up the other one
  | closeWake (writable : Bool)
  -- about to release `p->lock` and return
  | release
  deriving DecidableEq, Repr

inductive Event where
  | stored (id : Nat) (b : UInt8)
  -- `pipewrite` returns `ret`
  | wrote (call : Call) (ret : Int)
  -- `piperead` of `n` bytes returns with `bytes`, leaving `p`
  | fetched (n : Nat) (bytes : List UInt8) (p : Pipe)
  -- `piperead` returns -1
  | refused (n : Nat)

structure State (ι : Type) where
  pipe : Pipe
  -- the holder of `p->lock`
  lock : Option ι
  procs : ι → Proc Chan Pc
  -- a file-table entry with a positive count refers to the read end
  readRef : Bool
  writeRef : Bool
  calls : Nat
  history : List Event

inductive Label (ι : Type) where
  | schedule (i : ι)
  | yield (i : ι)
  | kill (i : ι)
  | pipewrite (i : ι) (addr : List UInt8)
  | piperead (i : ι) (n : Nat)
  | pipeclose (i : ι) (writable : Bool)
  -- the process goes on to its next operation on a lock
  | go (i : ι)

-- the process is inside a call that holds a reference to the given end
def Pc.uses : Pc → Bool → Bool
  | .writeEnter _ _, w => w
  | .writeFull _ _, w => w
  | .writeSleep _ _, w => w
  | .writeDone, w => w
  | .readEnter _, w => !w
  | .readSleep _, w => !w
  | .readDone, w => !w
  | _, _ => false

variable {ι : Type} [DecidableEq ι]

def storedBy (call : Call) (rest left : List UInt8) : List Event :=
  (rest.take (rest.length - left.length)).map (.stored call.id)

/-- `pipewrite` from `acquire(&p->lock)` to its next operation on a lock. -/
def writeSection (s : State ι) (i : ι) (call : Call) (rest : List UInt8) : State ι :=
  let (p, left) := writeLoop s.pipe rest
  let history := s.history ++ storedBy call rest left
  match left with
  | [] =>
    { s with
      pipe := p, lock := some i, procs := jump s.procs i .writeDone
      history := history ++ [.wrote call call.addr.length] }
  | _ :: _ =>
    if !p.readopen || (s.procs i).killed then
      { s with pipe := p, procs := jump s.procs i .user, history := history ++ [.wrote call (-1)] }
    else
      { s with pipe := p, lock := some i, procs := jump s.procs i (.writeFull call left), history := history }

/-- `piperead` from `acquire(&p->lock)` to its next operation on a lock. -/
def readSection (s : State ι) (i : ι) (n : Nat) : State ι :=
  if s.pipe.empty && s.pipe.writeopen then
    if (s.procs i).killed then
      { s with procs := jump s.procs i .user, history := s.history ++ [.refused n] }
    else { s with lock := some i, procs := jump s.procs i (.readSleep n) }
  else
    let (p, bytes) := readLoop s.pipe n
    { s with
      pipe := p, lock := some i, procs := jump s.procs i .readDone
      history := s.history ++ [.fetched n bytes p] }

def closeSection (s : State ι) (i : ι) (writable : Bool) : State ι :=
  { s with
    pipe := if writable then { s.pipe with writeopen := false } else { s.pipe with readopen := false }
    lock := some i, procs := jump s.procs i (.closeWake writable) }

def go (s : State ι) (i : ι) : Option (State ι) :=
  match (s.procs i).pc with
  | .user => none
  | .writeEnter call rest => if s.lock = none then some (writeSection s i call rest) else none
  | .writeFull call rest =>
    some { s with procs := jump (wakeup s.procs .nread) i (.writeSleep call rest) }
  | .writeSleep call rest =>
    some { s with lock := none, procs := sleep s.procs i .nwrite (.writeEnter call rest) }
  | .writeDone => some { s with procs := jump (wakeup s.procs .nread) i .release }
  | .readEnter n => if s.lock = none then some (readSection s i n) else none
  | .readSleep n => some { s with lock := none, procs := sleep s.procs i .nread (.readEnter n) }
  | .readDone => some { s with procs := jump (wakeup s.procs .nwrite) i .release }
  | .closeEnter w => if s.lock = none then some (closeSection s i w) else none
  | .closeWake w =>
    some { s with procs := jump (wakeup s.procs (if w then .nread else .nwrite)) i .release }
  | .release => some { s with lock := none, procs := jump s.procs i .user }

/-- An end is closed with its last reference, so that no process is inside a call on it. -/
def step [Fintype ι] (s : State ι) : Label ι → Option (State ι)
  | .schedule i =>
    if (s.procs i).state = .runnable then some { s with procs := schedule s.procs i } else none
  | .yield i =>
    if (s.procs i).state = .running ∧ s.lock ≠ some i then some { s with procs := yield s.procs i } else none
  | .kill i => some { s with procs := kill s.procs i }
  | .pipewrite i addr =>
    if (s.procs i).state = .running ∧ (s.procs i).pc = .user ∧ s.writeRef = true then
      some { s with procs := jump s.procs i (.writeEnter ⟨s.calls, addr⟩ addr), calls := s.calls + 1 }
    else none
  | .piperead i n =>
    if (s.procs i).state = .running ∧ (s.procs i).pc = .user ∧ s.readRef = true then
      some { s with procs := jump s.procs i (.readEnter n) }
    else none
  | .pipeclose i true =>
    if (s.procs i).state = .running ∧ (s.procs i).pc = .user ∧ s.writeRef = true ∧
        ∀ j, (s.procs j).pc.uses true = false then
      some { s with procs := jump s.procs i (.closeEnter true), writeRef := false }
    else none
  | .pipeclose i false =>
    if (s.procs i).state = .running ∧ (s.procs i).pc = .user ∧ s.readRef = true ∧
        ∀ j, (s.procs j).pc.uses false = false then
      some { s with procs := jump s.procs i (.closeEnter false), readRef := false }
    else none
  | .go i => if (s.procs i).state = .running then go s i else none

/-- After `pipealloc`, with nobody inside a call. The page keeps whatever it held. -/
structure Initial (s : State ι) : Prop where
  nread : s.pipe.nread = 0
  nwrite : s.pipe.nwrite = 0
  readopen : s.pipe.readopen = true
  writeopen : s.pipe.writeopen = true
  readRef : s.readRef = true
  writeRef : s.writeRef = true
  lock : s.lock = none
  user : ∀ i, (s.procs i).pc = .user
  awake : ∀ i, (s.procs i).state ≠ .sleeping
  history : s.history = []

end Pipe

end Xv6
