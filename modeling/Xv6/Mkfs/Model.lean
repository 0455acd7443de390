import Xv6.Fs.Directory

/-! `mkfs.c`: the program that writes the first file system image. The host is little-endian, and
its reads and writes do not fail on their own. -/

namespace Xv6.Mkfs
open Lib Fs

def NINODES : Nat := 200

def nbitmap : Nat := FSSIZE / (BSIZE * 8) + 1
def ninodeblocks : Nat := NINODES / IPB + 1
def nlog : Nat := LOGSIZE
def nmeta : Nat := 2 + nlog + ninodeblocks + nbitmap
def nblocks : Nat := FSSIZE - nmeta

def sb : Superblock where
  size := FSSIZE
  nblocks := nblocks
  ninodes := NINODES
  nlog := nlog
  logstart := 2
  inodestart := 2 + nlog
  bmapstart := 2 + nlog + ninodeblocks

inductive Exit where
  -- `exit(1)` after `perror`
  | perror (message : String)
  | assert (condition : String)
  deriving DecidableEq, Repr

structure State where
  image : Nat → Block
  -- the length of the image file
  sectors : Nat
  freeinode : Nat
  freeblock : Nat

abbrev MkM (α : Type) : Type := StateT State (Except Exit) α

def assert (holds : Prop) [Decidable holds] (condition : String) : MkM Unit :=
  if holds then pure () else throw (.assert condition)

/-- A write past the end makes the file longer. -/
def wsect (sec : Nat) (buf : Block) : MkM Unit :=
  modify fun s => { s with image := Function.update s.image sec buf, sectors := max s.sectors (sec + 1) }

def rsect (sec : Nat) : MkM Block := do
  let s ← get
  if sec < s.sectors then
    return s.image sec
  else
    throw (.perror "read")

def winode (inum : Nat) (ip : Dinode) : MkM Unit := do
  let bn := sb.iblock inum
  let buf ← rsect bn
  wsect bn (Dinode.write buf (inum % IPB) ip)

def rinode (inum : Nat) : MkM Dinode := do
  let buf ← rsect (sb.iblock inum)
  return Dinode.read buf (inum % IPB)

def ialloc (type : Nat) : MkM Nat := do
  let s ← get
  set { s with freeinode := s.freeinode + 1 }
  winode s.freeinode { Dinode.free with type := type, nlink := 1 }
  return s.freeinode

def bitmap (used : Nat) : Block := (List.range used).foldl (fun buf i => buf.setBit i) Bytes.zero

def balloc (used : Nat) : MkM Unit := do
  assert (used < BSIZE * 8) "used < BSIZE*8"
  wsect sb.bmapstart (bitmap used)

def takeBlock : MkM Nat := do
  let s ← get
  set { s with freeblock := s.freeblock + 1 }
  return s.freeblock

def withIndirect (din : Dinode) : MkM Dinode := do
  if din.addr NDIRECT = 0 then do
    let b ← takeBlock
    return din.setAddr NDIRECT b
  else
    return din

/-- The inode and `x` when `iappend` has found the block `fbn` of the file. -/
def blockFor (din : Dinode) (fbn : Nat) : MkM (Dinode × Nat) := do
  if fbn < NDIRECT then
    if din.addr fbn = 0 then do
      let b ← takeBlock
      return (din.setAddr fbn b, b)
    else
      return (din, din.addr fbn)
  else do
    let din ← withIndirect din
    let indirect ← rsect (din.addr NDIRECT)
    let entry := indirect.word (4 * (fbn - NDIRECT)) 4
    if entry = 0 then do
      let b ← takeBlock
      wsect (din.addr NDIRECT) (indirect.setWord (4 * (fbn - NDIRECT)) 4 b)
      return (din, b)
    else
      return (din, entry)

/-- One turn of the loop of `iappend`, for the `n1` bytes of `chunk`. -/
def appendChunk (din : Dinode) (off : Nat) (chunk : List UInt8) : MkM Dinode := do
  let fbn := off / BSIZE
  let (din, x) ← blockFor din fbn
  let buf ← rsect x
  wsect x (buf.blit (off - fbn * BSIZE) chunk)
  return din

/-- The loop of `iappend`; `p.length` turns are enough. -/
def iappendLoop : Nat → Dinode → Nat → List UInt8 → MkM (Dinode × Nat)
  | 0, din, off, _ => return (din, off)
  | fuel + 1, din, off, p =>
    if p.length = 0 then
      return (din, off)
    else do
      let fbn := off / BSIZE
      assert (fbn < MAXFILE) "fbn < MAXFILE"
      let n1 := min p.length ((fbn + 1) * BSIZE - off)
      let din ← appendChunk din off (p.take n1)
      iappendLoop fuel din (off + n1) (p.drop n1)

def iappend (inum : Nat) (p : List UInt8) : MkM Unit := do
  let din ← rinode inum
  let (din, off) ← iappendLoop p.length din din.size p
  winode inum { din with size := off }

/-- The argument that names it, and what `read` returns until its end. -/
structure HostFile where
  name : Path
  reads : List (List UInt8)
  sizes : ∀ bytes ∈ reads, 0 < bytes.length ∧ bytes.length ≤ BSIZE

def underscore : UInt8 := 95

/-- The name in the file system, without the leading `_`. -/
def HostFile.fsName (file : HostFile) : List UInt8 :=
  if file.name.bytes.head? = some underscore then file.name.bytes.tail else file.name.bytes

def HostFile.content (file : HostFile) : List UInt8 := file.reads.flatten

/-- `de` for the name, as `bzero` and `strncpy` leave it. -/
def dirent (inum : Nat) (name : List UInt8) : List UInt8 := Dirent.encode ⟨inum, strncpy name DIRSIZ⟩

def addFile (file : HostFile) : MkM Unit := do
  assert (slash ∉ file.name.bytes) "index(argv[i], '/') == 0"
  let inum ← ialloc T_FILE
  iappend ROOTINO (dirent inum file.fsName)
  file.reads.forM fun bytes => iappend inum bytes

def sbBlock : Block :=
  Bytes.zero.setWords 0 4 [sb.size, sb.nblocks, sb.ninodes, sb.nlog, sb.logstart, sb.inodestart, sb.bmapstart]

@[irreducible] def wzeroes (count : Nat) : MkM Unit := (List.range count).forM fun i => wsect i Bytes.zero

/-- `main` up to the first inode. -/
def format : MkM Unit := do
  modify fun s => { s with freeblock := nmeta }
  wzeroes FSSIZE
  wsect 1 sbBlock

def makeRoot : MkM Unit := do
  let rootino ← ialloc T_DIR
  assert (rootino = ROOTINO) "rootino == ROOTINO"
  iappend rootino (dirent rootino dot)
  iappend rootino (dirent rootino dotdot)

def finish : MkM Unit := do
  let din ← rinode ROOTINO
  winode ROOTINO { din with size := (din.size / BSIZE + 1) * BSIZE }
  let s ← get
  balloc s.freeblock

def main (files : List HostFile) : MkM Unit := do
  format
  makeRoot
  files.forM addFile
  finish

def started : State := ⟨fun _ => Bytes.zero, 0, 1, 0⟩

end Xv6.Mkfs
