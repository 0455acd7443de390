import Xv6.Elf
import Xv6.Fs.Directory

/-! `file.c` and `sysfile.c`, and what `fork`, `exit` and `exec` do to the file system, with the
arguments already fetched. -/

namespace Xv6.Fs
open Lib
open Function (update)

def getFile (f : Fin NFILE) : FsM File := do return (← get).ftable f

def setFile (f : Fin NFILE) (file : File) : FsM Unit :=
  modify fun s => { s with ftable := update s.ftable f file }

def getProc (p : Fin NPROC) : FsM Proc := do return (← get).procs p

def setProc (p : Fin NPROC) (proc : Proc) : FsM Unit :=
  modify fun s => { s with procs := update s.procs p proc }

def filealloc : FsM (Option (Fin NFILE)) := do
  let s ← get
  match (List.finRange NFILE).find? fun f => decide ((s.ftable f).ref = 0) with
  | some f => do
    setFile f { s.ftable f with ref := 1 }
    return some f
  | none => return none

def filedup (f : Fin NFILE) : FsM Unit := do
  let file ← getFile f
  if file.ref < 1 then
    panic "filedup"
  else
    setFile f { file with ref := file.ref + 1 }

def setPipe (page : Nat) (pipe : Pipe) : FsM Unit :=
  modify fun s => { s with pipes := { s.pipes with pipe := update s.pipes.pipe page (some pipe) } }

def kallocPipe (page : Nat) : FsM Unit :=
  modify fun s => { s with pipes :=
    ⟨update s.pipes.pipe page (some ⟨true, true⟩), .kalloc page :: s.pipes.events⟩ }

def kfreePipe (page : Nat) : FsM Unit :=
  modify fun s => { s with pipes := ⟨update s.pipes.pipe page none, .kfree page :: s.pipes.events⟩ }

def Pipe.close (pipe : Pipe) (writable : Bool) : Pipe :=
  if writable then { pipe with writeopen := false } else { pipe with readopen := false }

def pipeclose (page : Nat) (writable : Bool) : FsM Unit := do
  match (← get).pipes.pipe page with
  | none => throw .fault
  | some pipe =>
    if (pipe.close writable).readopen = false ∧ (pipe.close writable).writeopen = false then
      kfreePipe page
    else
      setPipe page (pipe.close writable)

/-- What becomes of the bytes is a matter of the pipe alone. -/
def piperead (page n : Nat) : FsM (Option (List UInt8)) := do
  let s ← get
  match s.pipes.pipe page with
  | none => throw .fault
  | some _ => do
    modify fun s => { s with peer := s.peer.tail }
    return (s.peer.headD none).map (·.take n)

def pipewrite (page : Nat) (src : List UInt8) : FsM (Option Nat) := do
  let s ← get
  match s.pipes.pipe page with
  | none => throw .fault
  | some _ => do
    modify fun s => { s with peer := s.peer.tail }
    return (s.peer.headD none).map fun _ => src.length

def fileclose (f : Fin NFILE) : FsM Unit := do
  let file ← getFile f
  if file.ref < 1 then
    panic "fileclose"
  else if file.ref - 1 > 0 then
    setFile f { file with ref := file.ref - 1 }
  else do
    setFile f { file with ref := 0, type := .none }
    match file.type with
    | .pipe => pipeclose file.pipe file.writable
    | .inode => do
      beginOp
      iput file.ip
      endOp
    | .none => pure ()

structure Stat where
  type : Nat
  ino : Nat
  nlink : Nat
  size : Nat
  deriving DecidableEq, Repr

def stati (k : Fin NINODE) : FsM Stat := do
  let ip ← getInode k
  return ⟨ip.type, ip.inum, ip.nlink, ip.size⟩

def filestat (f : Fin NFILE) : FsM (Option Stat) := do
  let file ← getFile f
  match file.type with
  | .inode => do
    ilock file.ip
    let st ← stati file.ip
    iunlock file.ip
    return some st
  | _ => return none

def fileread (f : Fin NFILE) (n : Nat) : FsM (Option (List UInt8)) := do
  let file ← getFile f
  if file.readable = false then
    return none
  else
    match file.type with
    | .inode => do
      ilock file.ip
      let bytes ← readi file.ip file.off n
      setFile f { file with off := (file.off + (bytes.getD []).length) % 2 ^ 32 }
      iunlock file.ip
      return bytes
    | .pipe => piperead file.pipe n
    | .none => panic "fileread"

/-- The bytes that `filewrite` hands to `writei` at a time. -/
def filewriteMax : Nat := ((MAXOPBLOCKS - 1 - 1 - 2) / 2) * 512

/-- What `filewrite` does with the inode locked, for one chunk. -/
def filewriteTurn (f : Fin NFILE) (chunk : List UInt8) : FsM (Option Nat) := do
  beginOp
  let file ← getFile f
  ilock file.ip
  let r ← writei file.ip chunk file.off
  setFile f { file with off := (file.off + r.getD 0) % 2 ^ 32 }
  iunlock file.ip
  endOp
  return r

/-- The loop of `filewrite`: whether it ends with `i == n`. -/
def filewriteLoop (f : Fin NFILE) : Nat → List UInt8 → FsM Bool
  | 0, _ => return true
  | fuel + 1, src =>
    if src.length = 0 then
      return true
    else do
      match ← filewriteTurn f (src.take (min src.length filewriteMax)) with
      | none => return false
      | some r =>
        if r ≠ min src.length filewriteMax then
          panic "short filewrite"
        else
          filewriteLoop f fuel (src.drop (min src.length filewriteMax))

def filewrite (f : Fin NFILE) (src : List UInt8) : FsM (Option Nat) := do
  let file ← getFile f
  if file.writable = false then
    return none
  else
    match file.type with
    | .inode => do
      let whole ← filewriteLoop f src.length src
      return if whole then some src.length else none
    | .pipe => pipewrite file.pipe src
    | .none => panic "filewrite"

def argfd (p : Fin NPROC) (fd : Nat) : FsM (Option (Fin NOFILE × Fin NFILE)) := do
  let proc ← getProc p
  if h : fd < NOFILE then
    return (proc.ofile ⟨fd, h⟩).map fun f => (⟨fd, h⟩, f)
  else
    return none

def fdalloc (p : Fin NPROC) (f : Fin NFILE) : FsM (Option (Fin NOFILE)) := do
  let proc ← getProc p
  match (List.finRange NOFILE).find? fun fd => (proc.ofile fd).isNone with
  | some fd => do
    setProc p { proc with ofile := update proc.ofile fd (some f) }
    return some fd
  | none => return none

def sysDup (p : Fin NPROC) (fd : Nat) : FsM Int := do
  match ← argfd p fd with
  | none => return -1
  | some (_, f) =>
    match ← fdalloc p f with
    | none => return -1
    | some fd => do
      filedup f
      return fd.val

def sysRead (p : Fin NPROC) (fd n : Nat) : FsM (Option (List UInt8)) := do
  match ← argfd p fd with
  | none => return none
  | some (_, f) => fileread f n

def sysWrite (p : Fin NPROC) (fd : Nat) (src : List UInt8) : FsM (Option Nat) := do
  match ← argfd p fd with
  | none => return none
  | some (_, f) => filewrite f src

def sysClose (p : Fin NPROC) (fd : Nat) : FsM Int := do
  match ← argfd p fd with
  | none => return -1
  | some (fd, f) => do
    let proc ← getProc p
    setProc p { proc with ofile := update proc.ofile fd none }
    fileclose f
    return 0

def sysFstat (p : Fin NPROC) (fd : Nat) : FsM (Option Stat) := do
  match ← argfd p fd with
  | none => return none
  | some (_, f) => filestat f

def pipeBad (f0 f1 : Option (Fin NFILE)) : FsM (Option (Fin NFILE × Fin NFILE)) := do
  match f0 with
  | some f0 => fileclose f0
  | none => pure ()
  match f1 with
  | some f1 => fileclose f1
  | none => pure ()
  return none

/-- `pipealloc` with the page that `kalloc` has for it, if it has one. -/
def pipealloc (page : Option Nat) : FsM (Option (Fin NFILE × Fin NFILE)) := do
  match ← filealloc with
  | none => pipeBad none none
  | some f0 =>
    match ← filealloc with
    | none => pipeBad (some f0) none
    | some f1 =>
      match page with
      | none => pipeBad (some f0) (some f1)
      | some page => do
        kallocPipe page
        let file ← getFile f0
        setFile f0 { file with type := .pipe, readable := true, writable := false, pipe := page }
        let file ← getFile f1
        setFile f1 { file with type := .pipe, readable := false, writable := true, pipe := page }
        return some (f0, f1)

/-- The end of `sys_pipe` when a descriptor is missing. -/
def pipeUndo (rf wf : Fin NFILE) : FsM Int := do
  fileclose rf
  fileclose wf
  return -1

def sysPipe (p : Fin NPROC) (page : Option Nat) : FsM Int := do
  match ← pipealloc page with
  | none => return -1
  | some (rf, wf) =>
    match ← fdalloc p rf with
    | none => pipeUndo rf wf
    | some fd0 =>
      match ← fdalloc p wf with
      | none => do
        let proc ← getProc p
        setProc p { proc with ofile := update proc.ofile fd0 none }
        pipeUndo rf wf
      | some _ => return 0

def linkBad (k : Fin NINODE) : FsM Int := do
  ilock k
  let ip ← getInode k
  setInode k { ip with nlink := (ip.nlink + (2 ^ 16 - 1)) % 2 ^ 16 }
  iupdate k
  iunlockput k
  endOp
  return -1

def sysLink (p : Fin NPROC) (old new : Path) : FsM Int := do
  beginOp
  match ← namei p old with
  | none => do
    endOp
    return -1
  | some k => do
    ilock k
    let ip ← getInode k
    if ip.type = T_DIR then do
      iunlockput k
      endOp
      return -1
    else do
      setInode k { ip with nlink := (ip.nlink + 1) % 2 ^ 16 }
      iupdate k
      iunlock k
      match ← nameiparent p new with
      | none => linkBad k
      | some (dp, name) => do
        ilock dp
        if ← dirlink dp name ip.inum then do
          iunlockput dp
          iput k
          endOp
          return 0
        else do
          iunlockput dp
          linkBad k

def isdirempty.loop (k : Fin NINODE) : Nat → Nat → FsM Bool
  | 0, _ => return true
  | fuel + 1, off => do
    let dp ← getInode k
    if off < dp.size then do
      let de ← readDirent k off "isdirempty: readi"
      if de.inum ≠ 0 then
        return false
      else
        isdirempty.loop k fuel (off + Dirent.SIZE)
    else
      return true

def isdirempty (k : Fin NINODE) : FsM Bool := do
  let dp ← getInode k
  isdirempty.loop k dp.size (2 * Dirent.SIZE)

def unlinkBad (dp : Fin NINODE) : FsM Int := do
  iunlockput dp
  endOp
  return -1

/-- `if(ip->type == T_DIR){ dp->nlink--; iupdate(dp); }` in `sys_unlink`. -/
def unlinkParent (dp k : Fin NINODE) : FsM Unit := do
  let ip ← getInode k
  if ip.type = T_DIR then do
    let parent ← getInode dp
    setInode dp { parent with nlink := (parent.nlink + (2 ^ 16 - 1)) % 2 ^ 16 }
    iupdate dp
  else
    return ()

def unlinkEntry (dp k : Fin NINODE) (off : Nat) : FsM Int := do
  let written ← writei dp (List.replicate Dirent.SIZE 0) off
  if written ≠ some Dirent.SIZE then
    panic "unlink: writei"
  else do
    unlinkParent dp k
    iunlockput dp
    let ip ← getInode k
    setInode k { ip with nlink := (ip.nlink + (2 ^ 16 - 1)) % 2 ^ 16 }
    iupdate k
    iunlockput k
    endOp
    return 0

/-- `ip->type != T_DIR || isdirempty(ip)`. -/
def unlinkable (k : Fin NINODE) : FsM Bool := do
  let ip ← getInode k
  if ip.type = T_DIR then
    isdirempty k
  else
    return true

def sysUnlink (p : Fin NPROC) (path : Path) : FsM Int := do
  beginOp
  match ← nameiparent p path with
  | none => do
    endOp
    return -1
  | some (dp, name) => do
    ilock dp
    if namecmp name dot = 0 ∨ namecmp name dotdot = 0 then
      unlinkBad dp
    else
      match ← dirlookup dp name with
      | none => unlinkBad dp
      | some (k, off) => do
        ilock k
        let ip ← getInode k
        if short ip.nlink < 1 then
          panic "unlink: nlink < 1"
        else if ← unlinkable k then
          unlinkEntry dp k off
        else do
          iunlockput k
          unlinkBad dp

def whenDir (type : Nat) (body : FsM Unit) : FsM Unit := if type = T_DIR then body else return ()

def createDots (dp k : Fin NINODE) : FsM Unit := do
  let ip ← getInode k
  let parent ← getInode dp
  setInode dp { parent with nlink := (parent.nlink + 1) % 2 ^ 16 }
  iupdate dp
  if ← dirlink k dot ip.inum then
    if ← dirlink k dotdot parent.inum then
      return ()
    else
      panic "create dots"
  else
    panic "create dots"

/-- `create` once `ialloc` has given the new inode `k`. -/
def createEntry (dp k : Fin NINODE) (name : List UInt8) (type major minor : Nat) : FsM Unit := do
  ilock k
  let ip ← getInode k
  setInode k { ip with major := major % 2 ^ 16, minor := minor % 2 ^ 16, nlink := 1 }
  iupdate k
  whenDir type (createDots dp k)
  if ← dirlink dp name ip.inum then
    iunlockput dp
  else
    panic "create: dirlink"

def create (p : Fin NPROC) (path : Path) (type major minor : Nat) : FsM (Option (Fin NINODE)) := do
  match ← nameiparent p path with
  | none => return none
  | some (dp, name) => do
    ilock dp
    match ← dirlookup dp name with
    | some (k, _) => do
      iunlockput dp
      ilock k
      let ip ← getInode k
      if type = T_FILE ∧ ip.type = T_FILE then
        return some k
      else do
        iunlockput k
        return none
    | none => do
      let k ← ialloc type
      createEntry dp k name type major minor
      return some k

def openInode (p : Fin NPROC) (path : Path) (omode : Nat) : FsM (Option (Fin NINODE)) := do
  if omode &&& O_CREATE ≠ 0 then
    create p path T_FILE 0 0
  else
    match ← namei p path with
    | none => return none
    | some k => do
      ilock k
      let ip ← getInode k
      if ip.type = T_DIR ∧ omode ≠ O_RDONLY then do
        iunlockput k
        return none
      else
        return some k

def sysOpen (p : Fin NPROC) (path : Path) (omode : Nat) : FsM Int := do
  beginOp
  match ← openInode p path omode with
  | none => do
    endOp
    return -1
  | some k =>
    match ← filealloc with
    | none => do
      iunlockput k
      endOp
      return -1
    | some f =>
      match ← fdalloc p f with
      | none => do
        fileclose f
        iunlockput k
        endOp
        return -1
      | some fd => do
        iunlock k
        endOp
        let file ← getFile f
        setFile f { file with
          type := .inode, ip := k, off := 0,
          readable := decide (omode &&& O_WRONLY = 0),
          writable := decide (omode &&& O_WRONLY ≠ 0 ∨ omode &&& O_RDWR ≠ 0) }
        return fd.val

/-- `sys_mkdir` and `sys_mknod`. They fetch their arguments after `begin_op`; the path is `none` if
one of them cannot be fetched. -/
def createAndPut (p : Fin NPROC) (path : Option Path) (type major minor : Nat) : FsM Int := do
  beginOp
  match path with
  | none => do
    endOp
    return -1
  | some path =>
    match ← create p path type major minor with
    | none => do
      endOp
      return -1
    | some k => do
      iunlockput k
      endOp
      return 0

def sysMkdir (p : Fin NPROC) (path : Option Path) : FsM Int := createAndPut p path T_DIR 0 0

def sysMknod (p : Fin NPROC) (path : Option Path) (major minor : Nat) : FsM Int :=
  createAndPut p path T_DEV major minor

/-- The argument is fetched after `begin_op`, as above. -/
def sysChdir (p : Fin NPROC) (path : Option Path) : FsM Int := do
  beginOp
  match path with
  | none => do
    endOp
    return -1
  | some path =>
    match ← namei p path with
    | none => do
      endOp
      return -1
    | some k => do
      ilock k
      let ip ← getInode k
      if ip.type ≠ T_DIR then do
        iunlockput k
        endOp
        return -1
      else do
        iunlock k
        match (← getProc p).cwd with
        | none => throw .fault
        | some cwd => do
          iput cwd
          endOp
          let proc ← getProc p
          setProc p { proc with cwd := some k }
          return 0

/-- `fork` into the free slot `child`, once the memory is copied. -/
def fork (p child : Fin NPROC) : FsM Unit := do
  let proc ← getProc p
  (List.finRange NOFILE).forM fun fd => do
    match proc.ofile fd with
    | none => pure ()
    | some f => do
      filedup f
      let np ← getProc child
      setProc child { np with ofile := update np.ofile fd (some f) }
  match proc.cwd with
  | none => throw .fault
  | some cwd => do
    let cwd ← idup cwd
    let np ← getProc child
    setProc child { np with cwd := some cwd }

def initproc : Fin NPROC := ⟨0, by decide⟩

def exit (p : Fin NPROC) : FsM Unit := do
  if p = initproc then
    panic "init exiting"
  else do
    (List.finRange NOFILE).forM fun fd => do
      let proc ← getProc p
      match proc.ofile fd with
      | none => pure ()
      | some f => do
        fileclose f
        let proc ← getProc p
        setProc p { proc with ofile := update proc.ofile fd none }
    beginOp
    match (← getProc p).cwd with
    | none => throw .fault
    | some cwd => do
      iput cwd
      endOp
      let proc ← getProc p
      setProc p { proc with cwd := none }

/-- How the page-table calls of `exec` end. -/
structure Vm where
  setupkvm : Bool
  allocuvm : Nat → Bool
  rest : Bool

def readExactly (k : Fin NINODE) (off n : Nat) : FsM (Option (List UInt8)) := do
  let bytes ← readi k off n
  return bytes.filter fun bytes => bytes.length = n

def loaduvm (k : Fin NINODE) : Nat → Nat → Nat → FsM Bool
  | 0, _, _ => return true
  | fuel + 1, off, sz =>
    if sz = 0 then
      return true
    else do
      let n := min sz PGSIZE
      match ← readExactly k (off % 2 ^ 32) n with
      | none => return false
      | some _ => loaduvm k fuel (off + n) (sz - n)

/-- The loop of `exec` over the program headers: `false` is `goto bad`. -/
def loadSegments (vm : Vm) (k : Fin NINODE) (phoff i : Nat) : Nat → FsM Bool
  | 0 => return true
  | count + 1 => do
    match ← readExactly k ((phoff + PROGHDR * i) % 2 ^ 32) PROGHDR with
    | none => return false
    | some bytes =>
      let ph := Proghdr.ofBytes bytes
      if ph.type ≠ ELF_PROG_LOAD then
        loadSegments vm k phoff (i + 1) count
      else if ph.memsz < ph.filesz ∨ (ph.vaddr + ph.memsz) % 2 ^ 32 < ph.vaddr ∨ vm.allocuvm i = false ∨
          ph.vaddr % PGSIZE ≠ 0 then
        return false
      else if ← loaduvm k ph.filesz ph.off ph.filesz then
        loadSegments vm k phoff (i + 1) count
      else
        return false

/-- What `exec` reads from the locked inode `k`. -/
def loadImage (vm : Vm) (k : Fin NINODE) : FsM Bool := do
  match ← readExactly k 0 ELFHDR with
  | none => return false
  | some bytes =>
    let elf := Elfhdr.ofBytes bytes
    if elf.magic ≠ ELF_MAGIC ∨ vm.setupkvm = false then
      return false
    else
      loadSegments vm k elf.phoff 0 elf.phnum

def exec (p : Fin NPROC) (path : Path) (vm : Vm) : FsM Int := do
  beginOp
  match ← namei p path with
  | none => do
    endOp
    return -1
  | some k => do
    ilock k
    let loaded ← loadImage vm k
    iunlockput k
    endOp
    return if loaded && vm.rest then 0 else -1

end Xv6.Fs
