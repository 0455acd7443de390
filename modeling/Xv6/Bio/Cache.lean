import Xv6.Lib.Sum
import Xv6.Param

/-! The buffer cache of `bio.c`, one critical section a function. Which buffer a miss of `bget`
recycles is left open. `changed` is not a field of `struct buf`: it marks a buffer whose holder has
modified the data and has not yet passed it to `log_write` or `bwrite`. -/

namespace Xv6

instance : NeZero NBUF := ⟨by decide⟩

abbrev Addr := Nat × Nat

structure Buf (ι β : Type) where
  valid : Bool
  dirty : Bool
  addr : Addr
  refcnt : Nat
  -- `lock.pid` while `lock.locked`
  owner : Option ι
  data : β
  changed : Bool

/-- Where a process is in a call of `bread` or `brelse`. -/
inductive Call where
  | idle
  | waiting (k : Fin NBUF)
  | dropping (k : Fin NBUF)
  deriving DecidableEq, Repr

structure Cache (ι β : Type) where
  buf : Fin NBUF → Buf ι β
  call : ι → Call

def iderw {ι β : Type} (disk : Addr → β) (b : Buf ι β) : (Addr → β) × Buf ι β :=
  if b.dirty then (Function.update disk b.addr b.data, { b with dirty := false, valid := true })
  else (disk, { b with data := disk b.addr, valid := true })

namespace Cache

variable {ι β : Type}

def zero [Inhabited β] : Cache ι β where
  buf := fun _ => { valid := false, dirty := false, addr := (0, 0), refcnt := 0, owner := none,
                    data := default, changed := false }
  call := fun _ => .idle

def set (c : Cache ι β) (k : Fin NBUF) (b : Buf ι β) : Cache ι β :=
  { c with buf := Function.update c.buf k b }

def modify (c : Cache ι β) (k : Fin NBUF) (data : β) : Cache ι β :=
  c.set k { c.buf k with data := data, changed := true }

def pin (c : Cache ι β) (k : Fin NBUF) : Cache ι β :=
  c.set k { c.buf k with dirty := true, changed := false }

variable [DecidableEq ι]

def goto (c : Cache ι β) (i : ι) (call : Call) : Cache ι β :=
  { c with call := Function.update c.call i call }

/-- The block is cached in `k`, or nowhere and `k` is recycled. -/
def bget (c : Cache ι β) (i : ι) (a : Addr) (k : Fin NBUF) : Option (Cache ι β) :=
  if c.call i = .idle then
    if (c.buf k).addr = a then
      some ((c.set k { c.buf k with refcnt := (c.buf k).refcnt + 1 }).goto i (.waiting k))
    else if (∀ j, (c.buf j).addr ≠ a) ∧ (c.buf k).refcnt = 0 ∧ (c.buf k).dirty = false then
      some ((c.set k { c.buf k with addr := a, valid := false, dirty := false, refcnt := 1 }).goto i (.waiting k))
    else none
  else none

/-- The rest of `bread`: take the lock and have the device fill the buffer. -/
def acquiresleep (c : Cache ι β) (disk : Addr → β) (i : ι) : Option ((Addr → β) × Cache ι β) :=
  match c.call i with
  | .waiting k =>
    if (c.buf k).owner = none then
      let b := { c.buf k with owner := some i }
      if b.valid then some (disk, (c.set k b).goto i .idle)
      else if b.addr.2 < FSSIZE then
        some ((iderw disk b).1, (c.set k (iderw disk b).2).goto i .idle)
      else none
    else none
  | _ => none

def bwrite (c : Cache ι β) (disk : Addr → β) (i : ι) (k : Fin NBUF) (data : β) :
    Option ((Addr → β) × Cache ι β) :=
  if c.call i = .idle ∧ (c.buf k).owner = some i ∧ (c.buf k).addr.2 < FSSIZE then
    let b := { c.buf k with data := data, dirty := true, changed := false }
    some ((iderw disk b).1, c.set k (iderw disk b).2)
  else none

def releasesleep (c : Cache ι β) (i : ι) (k : Fin NBUF) : Option (Cache ι β) :=
  if c.call i = .idle ∧ (c.buf k).owner = some i then
    some ((c.set k { c.buf k with owner := none }).goto i (.dropping k))
  else none

def drop (c : Cache ι β) (i : ι) : Option (Cache ι β) :=
  match c.call i with
  | .dropping k => some ((c.set k { c.buf k with refcnt := (c.buf k).refcnt - 1 }).goto i .idle)
  | _ => none

end Cache

end Xv6
