import Mathlib.Data.List.Basic
import Xv6.Fs.Layout

/-! The state of the file system as one process finds it, with the blocks that the buffer cache shows,
and `fs.c` up to `writei`. -/

namespace Xv6.Fs

inductive Event where
  | beginOp
  | endOp
  | iput
  | logWrite (b : Nat)
  deriving DecidableEq, Repr

/-- Whether the process is in an operation after the event, if it may happen. -/
def Event.next : Bool → Event → Option Bool
  | false, .beginOp => some true
  | true, .endOp => some false
  | true, .iput | true, .logWrite _ => some true
  | _, _ => none

def opAfter (op : Bool) : List Event → Option Bool
  | [] => some op
  | e :: earlier => (opAfter op earlier).bind fun now => e.next now

/-- The trace grew by events that may happen, which took the process from `op` to `op'`. -/
def Traced (op op' : Bool) (before after : List Event) : Prop :=
  ∃ new, after = new ++ before ∧ opAfter op new = some op'

variable {op op' op'' : Bool} {x y z : List Event}

theorem Traced.refl (op : Bool) (x : List Event) : Traced op op x x := ⟨[], rfl, rfl⟩

theorem opAfter_append (new old : List Event) : opAfter op (new ++ old) = (opAfter op old).bind (opAfter · new) := by
  induction new with
  | nil => exact (Option.bind_fun_some _).symm
  | cons e new ih =>
    rw [List.cons_append, opAfter, ih]
    cases opAfter op old <;> rfl

theorem Traced.trans (first : Traced op op' x y) (second : Traced op' op'' y z) : Traced op op'' x z := by
  obtain ⟨old, rfl, before⟩ := first
  obtain ⟨new, rfl, after⟩ := second
  refine ⟨new ++ old, (List.append_assoc ..).symm, ?_⟩
  rw [opAfter_append, before]
  exact after

theorem Traced.event {e : Event} (may : e.next op = some op') : Traced op op' x (e :: x) :=
  ⟨[e], rfl, may⟩

theorem Traced.of_eq (same : y = x) : Traced op op x y := same ▸ .refl op x

theorem Traced.logWrite {b : Nat} (x : List Event) : Traced true true x (.logWrite b :: x) := .event rfl

end Xv6.Fs

namespace Xv6.Fs
open Lib

instance : NeZero NINODE := ⟨by decide⟩

/-- `struct inode`; `lock` says whether the sleep-lock is held. -/
structure Inode extends Dinode where
  inum : Nat
  ref : Nat
  lock : Bool
  valid : Bool

inductive FileType where
  | none
  | pipe
  | inode
  deriving DecidableEq, Repr

structure File where
  type : FileType
  ref : Nat
  readable : Bool
  writable : Bool
  -- the page of the pipe
  pipe : Nat
  ip : Fin NINODE
  off : Nat

structure Pipe where
  readopen : Bool
  writeopen : Bool
  deriving DecidableEq, Repr

inductive PageEvent where
  | kalloc (page : Nat)
  | kfree (page : Nat)
  deriving DecidableEq, Repr

structure Pipes where
  -- the pipes, by the page they are in
  pipe : Nat → Option Pipe
  -- the latest event first
  events : List PageEvent

structure Proc where
  ofile : Fin NOFILE → Option (Fin NFILE)
  cwd : Option (Fin NINODE)

structure State where
  sb : Superblock
  disk : Nat → Block
  icache : Fin NINODE → Inode
  ftable : Fin NFILE → File
  procs : Fin NPROC → Proc
  pipes : Pipes
  -- `log.outstanding`
  outstanding : Nat
  -- the latest event first
  trace : List Event
  -- what the coming reads of the console will return
  tty : List (Option (List UInt8))
  -- how the coming calls of `piperead` and `pipewrite` end
  peer : List (Option (List UInt8))

/-- Why a call does not return; `fault` is undefined behaviour, `deadlock` is `acquiresleep` on a lock that the process
holds. -/
inductive Stop where
  | panic (message : String)
  | fault
  | deadlock
  deriving DecidableEq, Repr

abbrev FsM (α : Type) : Type := StateT State (Except Stop) α

variable {α : Type}

def panic (message : String) : FsM α := throw (.panic message)

def getInode (k : Fin NINODE) : FsM Inode := do return (← get).icache k

def setInode (k : Fin NINODE) (ip : Inode) : FsM Unit :=
  modify fun s => { s with icache := Function.update s.icache k ip }

def bread (b : Nat) : FsM Block := do return (← get).disk b

def beginOp : FsM Unit :=
  modify fun s => { s with outstanding := s.outstanding + 1, trace := .beginOp :: s.trace }

def endOp : FsM Unit :=
  modify fun s => { s with outstanding := s.outstanding - 1, trace := .endOp :: s.trace }

def logWrite (b : Nat) (data : Block) : FsM Unit := do
  if (← get).outstanding < 1 then
    panic "log_write outside of trans"
  else
    modify fun s => { s with disk := Function.update s.disk b data, trace := .logWrite b :: s.trace }

def acquiresleep (k : Fin NINODE) : FsM Unit := do
  let ip ← getInode k
  if ip.lock then
    throw .deadlock
  else
    setInode k { ip with lock := true }

def releasesleep (k : Fin NINODE) : FsM Unit := do
  let ip ← getInode k
  setInode k { ip with lock := false }

end Xv6.Fs

namespace Xv6.Fs
open Lib

def bzero (b : Nat) : FsM Unit := logWrite b Bytes.zero

/-- The inner loop of `balloc`: the first clear bit of those for `b, …, b + count - 1`. -/
@[irreducible] def clearBit (sb : Superblock) (block : Block) (b count : Nat) : Option Nat :=
  (List.range count).find? fun bi => decide (b + bi < sb.size) && !block.bit bi

def ballocFrom (b : Nat) : Nat → FsM Nat
  | 0 => panic "balloc: out of blocks"
  | count + 1 => do
    let sb := (← get).sb
    let bp ← bread (sb.bblock b)
    match clearBit sb bp b BPB with
    | some bi => do
      logWrite (sb.bblock b) (bp.setBit bi)
      bzero (b + bi)
      return b + bi
    -- `b` is an `int`, and its overflow is undefined.
    | none => if 2 ^ 31 ≤ b + BPB then throw .fault else ballocFrom (b + BPB) count

def balloc : FsM Nat := do
  let sb := (← get).sb
  ballocFrom 0 ((sb.size + (BPB - 1)) / BPB)

def bfree (b : Nat) : FsM Unit := do
  let sb := (← get).sb
  let bp ← bread (sb.bblock b)
  if bp.bit (b % BPB) then
    logWrite (sb.bblock b) (bp.clearBit (b % BPB))
  else
    panic "freeing free block"

def iget (inum : Nat) : FsM (Fin NINODE) := do
  let s ← get
  match (List.finRange NINODE).find? fun k => decide (0 < (s.icache k).ref) && decide ((s.icache k).inum = inum) with
  | some k => do
    setInode k { s.icache k with ref := (s.icache k).ref + 1 }
    return k
  | none =>
    match (List.finRange NINODE).find? fun k => decide ((s.icache k).ref = 0) with
    | some k => do
      setInode k { s.icache k with inum := inum, ref := 1, valid := false }
      return k
    | none => panic "iget: no inodes"

def iallocFrom (type inum : Nat) : Nat → FsM (Fin NINODE)
  | 0 => panic "ialloc: no inodes"
  | count + 1 => do
    let sb := (← get).sb
    let bp ← bread (sb.iblock inum)
    if (Dinode.read bp (inum % IPB)).type = 0 then do
      logWrite (sb.iblock inum) (Dinode.write bp (inum % IPB) { Dinode.free with type := type })
      iget inum
    else iallocFrom type (inum + 1) count

def ialloc (type : Nat) : FsM (Fin NINODE) := do
  let sb := (← get).sb
  iallocFrom type 1 (sb.ninodes - 1)

def iupdate (k : Fin NINODE) : FsM Unit := do
  let sb := (← get).sb
  let ip ← getInode k
  let bp ← bread (sb.iblock ip.inum)
  logWrite (sb.iblock ip.inum) (Dinode.write bp (ip.inum % IPB) ip.toDinode)

def idup (k : Fin NINODE) : FsM (Fin NINODE) := do
  let ip ← getInode k
  setInode k { ip with ref := ip.ref + 1 }
  return k

def ilock (k : Fin NINODE) : FsM Unit := do
  let ip ← getInode k
  if ip.ref < 1 then
    panic "ilock"
  else do
    acquiresleep k
    let ip ← getInode k
    if ip.valid = false then do
      let sb := (← get).sb
      let bp ← bread (sb.iblock ip.inum)
      let dip := Dinode.read bp (ip.inum % IPB)
      setInode k { ip with toDinode := dip, valid := true }
      if dip.type = 0 then
        panic "ilock: no type"
      else
        return ()
    else
      return ()

def iunlock (k : Fin NINODE) : FsM Unit := do
  let ip ← getInode k
  if ip.lock = false ∨ ip.ref < 1 then
    panic "iunlock"
  else
    releasesleep k

def bmapIndirect (k : Fin NINODE) : FsM Nat := do
  let ip ← getInode k
  if ip.addr NDIRECT = 0 then do
    let addr ← balloc
    setInode k { ip with toDinode := ip.setAddr NDIRECT addr }
    return addr
  else
    return ip.addr NDIRECT

def bmap (k : Fin NINODE) (bn : Nat) : FsM Nat := do
  let ip ← getInode k
  if bn < NDIRECT then
    if ip.addr bn = 0 then do
      let addr ← balloc
      setInode k { ip with toDinode := ip.setAddr bn addr }
      return addr
    else
      return ip.addr bn
  else if bn - NDIRECT < NINDIRECT then do
    let addr ← bmapIndirect k
    let bp ← bread addr
    let entry := bp.word (4 * (bn - NDIRECT)) 4
    if entry = 0 then do
      let fresh ← balloc
      logWrite addr (bp.setWord (4 * (bn - NDIRECT)) 4 fresh)
      return fresh
    else
      return entry
  else
    panic "bmap: out of range"

def itruncDirect (k : Fin NINODE) : FsM Unit :=
  (List.range NDIRECT).forM fun i => do
    let ip ← getInode k
    if ip.addr i = 0 then
      return ()
    else do
      bfree (ip.addr i)
      setInode k { ip with toDinode := ip.setAddr i 0 }

def itruncIndirect (k : Fin NINODE) : FsM Unit := do
  let ip ← getInode k
  if ip.addr NDIRECT = 0 then
    return ()
  else do
    let bp ← bread (ip.addr NDIRECT)
    (List.range NINDIRECT).forM fun j =>
      if bp.word (4 * j) 4 = 0 then return () else bfree (bp.word (4 * j) 4)
    bfree (ip.addr NDIRECT)
    setInode k { ip with toDinode := ip.setAddr NDIRECT 0 }

def itrunc (k : Fin NINODE) : FsM Unit := do
  itruncDirect k
  itruncIndirect k
  let ip ← getInode k
  setInode k { ip with size := 0 }
  iupdate k

def iputFree (k : Fin NINODE) : FsM Unit := do
  let ip ← getInode k
  if ip.valid ∧ ip.nlink = 0 ∧ ip.ref = 1 then do
    itrunc k
    let ip ← getInode k
    setInode k { ip with type := 0 }
    iupdate k
    let ip ← getInode k
    setInode k { ip with valid := false }
  else
    return ()

def iput (k : Fin NINODE) : FsM Unit := do
  modify fun s => { s with trace := .iput :: s.trace }
  acquiresleep k
  iputFree k
  releasesleep k
  let ip ← getInode k
  setInode k { ip with ref := ip.ref - 1 }

def iunlockput (k : Fin NINODE) : FsM Unit := do
  iunlock k
  iput k

def CONSOLE : Nat := 1

/-- A `short` as C compares it. -/
def short (n : Nat) : Int := if n < 2 ^ 15 then n else n - 2 ^ 16

/-- The test on `ip->major`; only the console has device functions. -/
def noDevice (major : Nat) : Prop := short major < 0 ∨ short major ≥ NDEV ∨ major ≠ CONSOLE

instance (major : Nat) : Decidable (noDevice major) := inferInstanceAs (Decidable (_ ∨ _ ∨ _))

def consoleread (k : Fin NINODE) (n : Nat) : FsM (Option (List UInt8)) := do
  let s ← get
  iunlock k
  modify fun s => { s with tty := s.tty.tail }
  ilock k
  return (s.tty.headD none).map (·.take n)

def consolewrite (k : Fin NINODE) (src : List UInt8) : FsM (Option Nat) := do
  iunlock k
  ilock k
  return some src.length

/-- The loop of `readi`; `n` iterations are enough. -/
def readiLoop (k : Fin NINODE) : Nat → Nat → Nat → FsM (List UInt8)
  | 0, _, _ => pure []
  | fuel + 1, off, n =>
    if n = 0 then
      pure []
    else do
      let bp ← bread (← bmap k (off / BSIZE))
      let m := min n (BSIZE - off % BSIZE)
      let rest ← readiLoop k fuel (off + m) (n - m)
      return bp.slice (off % BSIZE) m ++ rest

/-- `none` is the result `-1`; the bytes are those copied to `dst`. -/
def readi (k : Fin NINODE) (off n : Nat) : FsM (Option (List UInt8)) := do
  let ip ← getInode k
  if ip.type = T_DEV then
    if noDevice ip.major then
      return none
    else
      consoleread k n
  else if off > ip.size ∨ (off + n) % 2 ^ 32 < off then
    return none
  else do
    let n := if off + n > ip.size then ip.size - off else n
    return some (← readiLoop k n off n)

def writeiLoop (k : Fin NINODE) : Nat → Nat → List UInt8 → FsM Unit
  | 0, _, _ => pure ()
  | fuel + 1, off, src =>
    if src.length = 0 then
      pure ()
    else do
      let b ← bmap k (off / BSIZE)
      let bp ← bread b
      let m := min src.length (BSIZE - off % BSIZE)
      logWrite b (bp.blit (off % BSIZE) (src.take m))
      writeiLoop k fuel (off + m) (src.drop m)

/-- The end of `writei`, with `off` where its loop left it. -/
def growSize (k : Fin NINODE) (off n : Nat) : FsM Unit := do
  let ip ← getInode k
  if n > 0 ∧ off > ip.size then do
    setInode k { ip with size := off }
    iupdate k
  else
    return ()

def writei (k : Fin NINODE) (src : List UInt8) (off : Nat) : FsM (Option Nat) := do
  let ip ← getInode k
  if ip.type = T_DEV then
    if noDevice ip.major then
      return none
    else
      consolewrite k src
  else if off > ip.size ∨ (off + src.length) % 2 ^ 32 < off then
    return none
  else if off + src.length > MAXFILE * BSIZE then
    return none
  else do
    writeiLoop k src.length off src
    growSize k (off + src.length) src.length
    return some src.length

end Xv6.Fs
