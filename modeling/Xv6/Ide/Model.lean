import Xv6.Bio.Cache
import Xv6.Lib.LinkedQueue
import Xv6.Lib.Transition
import Xv6.Proc.Sleep

/-! `ide.c` and the drive behind it as a transition system over any set of processes, and
the `iderw` of `memide.c`. The atomic steps are the stretches of code under `idelock`. The lists of
requests and the snapshots in them are never read by the code. -/

namespace Xv6.Ide
open Lib Proc

def SECTOR_SIZE : Nat := 512

def sectorPerBlock : Nat := BSIZE / SECTOR_SIZE

inductive Stop where
  | panic (message : String)
  -- a loop that waits for the drive or for the end of the queue does not end
  | spins
  deriving DecidableEq, Repr

/-- What `idestart` puts into the drive's registers, with the data of a write. -/
structure Command (β : Type) where
  sectors : Nat
  lba0 : Nat
  lba1 : Nat
  lba2 : Nat
  drive : Nat
  write : Option β

/-- The drive and the sector that the registers select. -/
def Command.addr {β : Type} (c : Command β) : Addr :=
  ((c.drive >>> 4) &&& 1, c.lba0 + 2 ^ 8 * c.lba1 + 2 ^ 16 * c.lba2 + 2 ^ 24 * (c.drive &&& 0x0f))

/-- What the command makes of the disk. -/
def Command.perform {β : Type} (c : Command β) (disk : Addr → β) : Addr → β :=
  match c.write with
  | some data => Function.update disk c.addr data
  | none => disk

structure Device (β : Type) where
  -- the command the drive is busy with
  busy : Option (Command β)
  -- it has finished a command and waits for the kernel to take notice
  interrupt : Bool
  -- `IDE_DF` or `IDE_ERR` in the status register
  error : Bool
  data : β

structure Completion (ι β : Type) where
  buffer : Fin NBUF
  request : Buf ι β
  before : Addr → β
  after : Addr → β

structure Return (ι β : Type) where
  proc : ι
  buffer : Fin NBUF
  request : Buf ι β
  result : Buf ι β
  disk : Addr → β
  completions : List (Completion ι β)

inductive Pc (ι β : Type) where
  | user
  -- in `iderw` past its checks, at `acquire(&idelock)`
  | enter (k : Fin NBUF) (request : Buf ι β)
  -- at the test of the waiting loop
  | wait (k : Fin NBUF) (request : Buf ι β)

structure State (ι β : Type) where
  buf : Fin NBUF → Buf ι β
  -- `idequeue` and the `qnext` of the buffers
  queue : LinkedQueue (Fin NBUF)
  havedisk1 : Bool
  device : Device β
  disk : Addr → β
  procs : ι → Proc (Fin NBUF) (Pc ι β)
  requests : List (Fin NBUF)
  started : List (Fin NBUF)
  completed : List (Fin NBUF)
  completions : List (Completion ι β)
  returned : List (Return ι β)

variable {ι β : Type}

def idewait (device : Device β) (checkerr : Bool) : Except Stop Int :=
  if device.busy.isSome then throw .spins
  else if checkerr && device.error then pure (-1)
  else pure 0

def command (b : Buf ι β) : Command β :=
  let sector := b.addr.2 * sectorPerBlock
  { sectors := sectorPerBlock
    lba0 := sector &&& 0xff
    lba1 := (sector >>> 8) &&& 0xff
    lba2 := (sector >>> 16) &&& 0xff
    drive := 0xe0 ||| ((b.addr.1 &&& 1) <<< 4) ||| ((sector >>> 24) &&& 0x0f)
    write := if b.dirty then some b.data else none }

def idestart (s : State ι β) : Option (Fin NBUF) → Except Stop (State ι β)
  | none => throw (.panic "idestart")
  | some k => do
    if (s.buf k).addr.2 ≥ FSSIZE then throw (.panic "incorrect blockno")
    if sectorPerBlock > 7 then throw (.panic "idestart")
    let _ ← idewait s.device false
    return { s with
      device := { s.device with busy := some (command (s.buf k)) }
      started := s.started ++ [k] }

def finished (b : Buf ι β) (device : Device β) : Except Stop (Buf ι β) :=
  if b.dirty then return { b with valid := true, dirty := false }
  else do
    let status ← idewait device true
    return { b with valid := true, dirty := false, data := if status ≥ 0 then device.data else b.data }

def ideintr (s : State ι β) : Except Stop (State ι β) :=
  match s.queue.head with
  | none => return { s with device := { s.device with interrupt := false } }
  | some k => do
    let b ← finished (s.buf k) s.device
    let s := { s with
      queue := { s.queue with head := s.queue.next k }
      buf := Function.update s.buf k b
      device := { s.device with interrupt := false }
      procs := wakeup s.procs k
      completed := s.completed ++ [k] }
    if s.queue.head = none then return s else idestart s s.queue.head

def iderwCheck [DecidableEq ι] (s : State ι β) (i : ι) (k : Fin NBUF) : Except Stop Unit := do
  if (s.buf k).owner ≠ some i then throw (.panic "iderw: buf not locked")
  if (s.buf k).valid ∧ ¬ (s.buf k).dirty then throw (.panic "iderw: nothing to do")
  if (s.buf k).addr.1 ≠ 0 ∧ ¬ s.havedisk1 then throw (.panic "iderw: ide disk 1 not present")

/-- Append the buffer to the queue and start the drive if it is the first one. -/
def enqueue (s : State ι β) (k : Fin NBUF) : Except Stop (State ι β) :=
  -- a queue without repetition ends within this many links
  match s.queue.append (NBUF + 1) k with
  | none => throw .spins
  | some queue =>
    let s := { s with queue := queue, requests := s.requests ++ [k] }
    if s.queue.head = some k then idestart s (some k) else return s

section Step
variable [DecidableEq ι]

/-- The waiting loop of `iderw` up to its return or to `sleep`. -/
def iderwWait (s : State ι β) (i : ι) (k : Fin NBUF) (request : Buf ι β) : State ι β :=
  if (s.buf k).valid ∧ ¬ (s.buf k).dirty then
    { s with
      procs := jump s.procs i .user
      returned := s.returned ++ [⟨i, k, request, s.buf k, s.disk, s.completions⟩] }
  else { s with procs := sleep s.procs i k (.wait k request) }

def go (s : State ι β) (i : ι) : Option (State ι β) :=
  match (s.procs i).pc with
  | .user => none
  | .enter k request => (enqueue s k).toOption.map fun s => iderwWait s i k request
  | .wait k request => some (iderwWait s i k request)

/-- The drive has written the sector or read it, unless there was an error. -/
def finish (s : State ι β) (c : Command β) (error : Bool) : State ι β :=
  let disk := if error then s.disk else c.perform s.disk
  let data := if error ∨ c.write.isSome then s.device.data else s.disk c.addr
  { s with
    device := ⟨none, true, error, data⟩
    disk := disk
    completions := s.completions ++ s.queue.head.toList.map fun k => ⟨k, s.buf k, s.disk, disk⟩ }

inductive Label (ι β : Type) where
  | schedule (i : ι)
  | yield (i : ι)
  | kill (i : ι)
  | acquiresleep (i : ι) (k : Fin NBUF)
  | releasesleep (i : ι) (k : Fin NBUF)
  -- `bget` reuses a buffer, or the holder of its lock changes it
  | change (i : ι) (k : Fin NBUF) (valid dirty : Bool) (addr : Addr) (data : β)
  | iderw (i : ι) (k : Fin NBUF)
  -- the process gets `idelock`
  | go (i : ι)
  | finish (error : Bool)
  | ideintr

/-- A step is not taken where the code panics. On an empty queue there may be an interrupt at any
time. -/
def step (s : State ι β) : Label ι β → Option (State ι β)
  | .schedule i =>
    if (s.procs i).state = .runnable then some { s with procs := schedule s.procs i } else none
  | .yield i =>
    if (s.procs i).state = .running then some { s with procs := yield s.procs i } else none
  | .kill i => some { s with procs := kill s.procs i }
  | .acquiresleep i k =>
    match (s.procs i).pc, (s.procs i).state, (s.buf k).owner with
    | .user, .running, none => some { s with buf := Function.update s.buf k { s.buf k with owner := some i } }
    | _, _, _ => none
  | .releasesleep i k =>
    match (s.procs i).pc, (s.procs i).state with
    | .user, .running =>
      if (s.buf k).owner = some i then
        some { s with buf := Function.update s.buf k { s.buf k with owner := none } }
      else none
    | _, _ => none
  | .change i k valid dirty addr data =>
    match (s.procs i).pc, (s.procs i).state with
    | .user, .running =>
      if (s.buf k).owner = none ∨ (s.buf k).owner = some i then
        some { s with
          buf := Function.update s.buf k { s.buf k with valid := valid, dirty := dirty, addr := addr, data := data } }
      else none
    | _, _ => none
  | .iderw i k =>
    match (s.procs i).pc, (s.procs i).state with
    | .user, .running =>
      (iderwCheck s i k).toOption.map fun _ => { s with procs := jump s.procs i (.enter k (s.buf k)) }
    | _, _ => none
  | .go i => if (s.procs i).state = .running then go s i else none
  | .finish error => s.device.busy.map fun c => finish s c error
  | .ideintr => if s.queue.head = none ∨ s.device.interrupt then (ideintr s).toOption else none

end Step

structure Initial (s : State ι β) : Prop where
  head : s.queue.head = none
  busy : s.device.busy = none
  interrupt : s.device.interrupt = false
  user : ∀ i, (s.procs i).pc = .user
  awake : ∀ i k, ¬ (s.procs i).SleepsOn k
  requests : s.requests = []
  started : s.started = []
  completed : s.completed = []
  completions : s.completions = []
  returned : s.returned = []

end Xv6.Ide

namespace Xv6.Memide

/-- `iderw` of the disk in memory, which holds `disksize` blocks. -/
def iderw {ι β : Type} [DecidableEq ι] (disksize : Nat) (i : ι) (disk : Addr → β) (b : Buf ι β) :
    Except String ((Addr → β) × Buf ι β) := do
  if b.owner ≠ some i then throw "iderw: buf not locked"
  if b.valid ∧ ¬ b.dirty then throw "iderw: nothing to do"
  if b.addr.1 ≠ 1 then throw "iderw: request not for disk 1"
  if b.addr.2 ≥ disksize then throw "iderw: block out of range"
  if b.dirty then
    return (Function.update disk b.addr b.data, { b with dirty := false, valid := true })
  else
    return (disk, { b with data := disk b.addr, valid := true })

end Xv6.Memide
