import Xv6.Fs.OpenCalls
import Xv6.Lib.Transition

/-! The file system as its processes drive it, one system call after another, from the disk
image it was booted with. -/

namespace Xv6.Fs
open Lib Nat Option Function Finset

/-- The calls with their arguments. `mkdir`, `mknod` and `chdir` fetch theirs after `begin_op`: `none`
stands for arguments that are not in the memory of the process. -/
inductive Call where
  /-- A call that cannot fetch its arguments and has done nothing yet. -/
  | unfetched
  | open (path : Path) (omode : Nat)
  | mkdir (path : Option Path)
  | mknod (path : Option Path) (major minor : Nat)
  | link (old new : Path)
  | unlink (path : Path)
  | chdir (path : Option Path)
  | exec (path : Path) (vm : Vm)
  | read (fd n : Nat)
  | write (fd : Nat) (src : List UInt8)
  | fstat (fd : Nat)
  | dup (fd : Nat)
  | close (fd : Nat)
  | pipe (page : Option Nat)
  | fork (child : Fin NPROC)
  | exit

def orFail {α : Type} (value : α → Int) : Option α → Int
  | some a => value a
  | none => -1

def Call.code (p : Fin NPROC) : Call → FsM Int
  | .unfetched => pure (-1)
  | .open path omode => sysOpen p path omode
  | .mkdir path => sysMkdir p path
  | .mknod path major minor => sysMknod p path major minor
  | .link old new => sysLink p old new
  | .unlink path => sysUnlink p path
  | .chdir path => sysChdir p path
  | .exec path vm => Fs.exec p path vm
  | .read fd n => orFail (fun bytes => (bytes.length : Int)) <$> sysRead p fd n
  | .write fd src => orFail (fun n : Nat => (n : Int)) <$> sysWrite p fd src
  | .fstat fd => orFail (fun _ => 0) <$> sysFstat p fd
  | .dup fd => sysDup p fd
  | .close fd => sysClose p fd
  | .pipe page => sysPipe p page
  | .fork child => (fun _ => (child.val : Int)) <$> Fs.fork p child
  | .exit => (fun _ => 0) <$> Fs.exit p

/-- What a call needs from `kalloc` and `allocproc`. -/
def Call.Granted (s : State) : Call → Prop
  | .pipe (some page) => s.pipes.pipe page = none
  | .fork child => (s.procs child).cwd = none
  | _ => True

instance (s : State) (call : Call) : Decidable (call.Granted s) :=
  match call with
  | .pipe (some page) => inferInstanceAs (Decidable (s.pipes.pipe page = none))
  | .fork child => inferInstanceAs (Decidable ((s.procs child).cwd = none))
  | .pipe none | .open .. | .mkdir .. | .mknod .. | .link .. | .unlink .. | .chdir .. | .exec .. | .read .. | .write ..
  | .fstat .. | .dup .. | .close .. | .exit | .unfetched => .isTrue trivial

def step (s : State) (l : Fin NPROC × Call) : Option State :=
  if (s.procs l.1).cwd ≠ none ∧ l.2.Granted s then
    match (l.2.code l.1).run s with
    | .ok (_, t) => some t
    | .error _ => none
  else none

def State.cwdInum (s : State) (p : Fin NPROC) : Nat := ((s.procs p).cwd.map fun k => (s.icache k).inum).getD 0

/-- What becomes of the nodes if the call returns `r`. -/
def Call.Change (s : State) (p : Fin NPROC) (r : Int) : Call → Nodes → Nodes → Prop
  | .open path omode => Opened (s.nodes.openInode s.sb.ninodes (s.used 0) (s.cwdInum p) path.bytes omode) (s.used 0) (Room s p) r
  | .mkdir path => Outcome (s.nodes.createAndPut s.sb.ninodes (s.used 0) (s.cwdInum p) (path.map Path.bytes) T_DIR 0 0) r
  | .mknod path major minor =>
    Outcome (s.nodes.createAndPut s.sb.ninodes (s.used 0) (s.cwdInum p) (path.map Path.bytes) T_DEV major minor) r
  | .link old new => Outcome (s.nodes.link (s.used 0) (s.cwdInum p) old.bytes new.bytes) r
  | .unlink path => Outcome (s.nodes.unlink (s.used 0) (s.cwdInum p) path.bytes) r
  | .exec .. => fun nodes after => after = nodes
  | .chdir _ | .read .. | .write .. | .fstat _ | .dup _ | .close _ | .pipe _ | .fork _ | .exit | .unfetched => Nodes.Drift

def Call.OnPaths : Call → Prop
  | .open .. | .mkdir .. | .mknod .. | .link .. | .unlink .. | .chdir .. | .exec .. => True
  | .read .. | .write .. | .fstat .. | .dup .. | .close .. | .pipe .. | .fork .. | .exit | .unfetched => False

/-- The function of the call on the table of nodes stops with `e`. -/
def Call.Fails (s : State) (p : Fin NPROC) (e : Stop) : Call → Prop
  | .open path omode => s.nodes.openInode s.sb.ninodes (s.used 0) (s.cwdInum p) path.bytes omode = .error e
  | .mkdir path =>
    s.nodes.createAndPut s.sb.ninodes (s.used 0) (s.cwdInum p) (path.map Path.bytes) T_DIR 0 0 = .error e
  | .mknod path major minor =>
    s.nodes.createAndPut s.sb.ninodes (s.used 0) (s.cwdInum p) (path.map Path.bytes) T_DEV major minor = .error e
  | .link old new => s.nodes.link (s.used 0) (s.cwdInum p) old.bytes new.bytes = .error e
  | .unlink path => s.nodes.unlink (s.used 0) (s.cwdInum p) path.bytes = .error e
  | .chdir path => s.nodes.chdir (s.used 0) (s.cwdInum p) (path.map Path.bytes) = .error e
  | .exec path _ => s.nodes.namei (s.used 0) (s.cwdInum p) path.bytes = .error e
  | .read .. | .write .. | .fstat _ | .dup _ | .close _ | .pipe _ | .fork _ | .exit | .unfetched => False

def Call.MayStop (s : State) (p : Fin NPROC) (call : Call) (e : Stop) : Prop :=
  e.Benign ∧ (call.OnPaths → Covered s 0 → call.Fails s p e ∨ e = .panic "balloc: out of blocks")

section Calls

variable {s t : State} {p : Fin NPROC} {call : Call}

theorem State.cwdInum_eq {cwd : Fin NINODE} (here : (s.procs p).cwd = some cwd) : s.cwdInum p = (s.icache cwd).inum := by
  rw [State.cwdInum, here]
  rfl

theorem wp_pathless (rest : AtRest s) (alive : (s.procs p).cwd ≠ none) (granted : call.Granted s) (pathless : ¬ call.OnPaths) :
    wp (call.code p) (fun r t => Done s t (call.Change s p r)) Stop.Pathless s := by
  obtain ⟨cwd, here⟩ := ne_none_iff_exists'.mp alive
  cases call with
  | «open» | mkdir | mknod | link | unlink | chdir | exec => exact absurd trivial pathless
  | read fd n =>
    exact wp_map.mpr (wp_mono (wp_sysRead rest fd n) (fun _ _ read => read.1.done rest read.2) fun _ stopped => stopped)
  | write fd src => exact wp_map.mpr (wp_sysWrite rest fd src)
  | fstat fd =>
    exact wp_map.mpr (wp_mono (wp_sysFstat rest fd) (fun _ _ read => read.1.done rest read.2) fun _ stopped => stopped)
  | dup fd => exact wp_sysDup rest alive fd
  | close fd => exact wp_sysClose rest alive fd
  | pipe page =>
    refine wp_sysPipe rest alive page fun q same => ?_
    subst same
    exact granted
  | unfetched => exact wp_pure.mpr rest.done
  | fork child => exact wp_map.mpr (wp_fork rest here granted)
  | exit => exact wp_map.mpr (wp_exit rest here)

theorem Stops.mayStop {α : Type} {result : Except Stop α} {e : Stop} (stops : Stops s result e)
    (fails : result = .error e → call.Fails s p e) : call.MayStop s p e :=
  ⟨stops.1, fun _ covered => (stops.2 covered).imp_left fails⟩

theorem wp_call (rest : AtRest s) (alive : (s.procs p).cwd ≠ none) (granted : call.Granted s) :
    wp (call.code p) (fun r t => Done s t (call.Change s p r)) (call.MayStop s p) s := by
  obtain ⟨cwd, here⟩ := ne_none_iff_exists'.mp alive
  have inum := State.cwdInum_eq here
  cases call with
  | «open» path omode =>
    have spec := wp_sysOpen rest here path omode
    rw [← inum] at spec
    exact wp_mono spec (fun _ _ done => done.1) fun _ stopped => stopped.mayStop id
  | mkdir path =>
    have spec := wp_sysMkdir rest here path
    rw [← inum] at spec
    exact wp_mono spec (fun _ _ done => done) fun _ stopped => stopped.mayStop id
  | mknod path major minor =>
    have spec := wp_sysMknod rest here path major minor
    rw [← inum] at spec
    exact wp_mono spec (fun _ _ done => done) fun _ stopped => stopped.mayStop id
  | link old new =>
    have spec := wp_sysLink rest here old new
    rw [← inum] at spec
    exact wp_mono spec (fun _ _ done => done) fun _ stopped =>
      ⟨stopped.1, fun _ covered => (stopped.2 covered).imp_right And.left⟩
  | unlink path =>
    have spec := wp_sysUnlink rest here path
    rw [← inum] at spec
    exact wp_mono spec (fun _ _ done => done) fun _ stopped => stopped.mayStop id
  | chdir path =>
    have spec := wp_sysChdir rest here path
    rw [← inum] at spec
    exact wp_mono spec (fun _ _ done => done) fun _ stopped => stopped.mayStop id
  | exec path vm =>
    have spec := wp_exec rest here path vm
    rw [← inum] at spec
    exact wp_mono spec (fun _ _ done => done.1) fun _ stopped => stopped.mayStop id
  | read | write | fstat | dup | close | pipe | fork | exit | unfetched =>
    exact wp_mono (wp_pathless rest alive granted id) (fun _ _ done => done) fun _ stopped => ⟨stopped.1, False.elim⟩

theorem step_cases (taken : step s (p, call) = some t) :
    (s.procs p).cwd ≠ none ∧ call.Granted s ∧ ∃ r, (call.code p).run s = .ok (r, t) := by
  unfold step at taken
  split at taken
  next enabled =>
    split at taken
    next r u returned =>
      obtain rfl := some.inj taken
      exact ⟨enabled.1, enabled.2, r, returned⟩
    next => cases taken
  next => cases taken

theorem step_done (rest : AtRest s) (taken : step s (p, call) = some t) : ∃ r, Done s t (call.Change s p r) := by
  obtain ⟨alive, granted, r, returned⟩ := step_cases taken
  exact ⟨r, wp.ok (wp_call rest alive granted) returned⟩

end Calls

structure Image where
  sb : Superblock
  disk : Nat → Block

/-- A disk as `mkfs` leaves it, or as the file system does between calls. -/
structure Image.WellFormed (image : Image) : Prop where
  disk : DiskInv image.sb image.disk (dinodeAt image.sb image.disk)
  root : (dinodeAt image.sb image.disk ROOTINO).type = T_DIR

def Inode.unused : Inode := { Dinode.free with inum := 0, ref := 0, lock := false, valid := false }

/-- The file system after `userinit`. Devices may behave in any way. -/
def Image.boot (image : Image) (tty peer : List (Option (List UInt8))) : State where
  sb := image.sb
  disk := image.disk
  icache := update (fun _ => Inode.unused) 0 { Inode.unused with inum := ROOTINO, ref := 1 }
  ftable := fun _ => ⟨.none, 0, false, false, 0, 0, 0⟩
  procs := update (fun _ => ⟨fun _ => none, none⟩) initproc ⟨fun _ => none, some 0⟩
  pipes := ⟨fun _ => none, []⟩
  outstanding := 0
  trace := []
  tty := tty
  peer := peer

section Boot

variable {image : Image} {tty peer : List (Option (List UInt8))} {s : State}

theorem boot_icache (k : Fin NINODE) : (image.boot tty peer).icache k =
    if k = 0 then { Inode.unused with inum := ROOTINO, ref := 1 } else Inode.unused := by
  rw [Image.boot]
  simp only [update_apply]

theorem boot_held (k : Fin NINODE) : held (image.boot tty peer) k = if k = 0 then 1 else 0 := by
  have total := sum_update (fun _ : Fin NPROC => (⟨fun _ => none, none⟩ : Proc)) initproc ⟨fun _ => none, some 0⟩
    fun proc => proc.holds k
  have none : ∀ ofile, (⟨ofile, none⟩ : Proc).holds k = 0 := fun _ => if_neg fun wrong => nomatch wrong
  have files : (∑ f : Fin NFILE, ((image.boot tty peer).ftable f).holds k) = 0 :=
    sum_eq_zero fun f _ => if_neg fun both => nomatch both.1
  simp only [none, sum_const_zero, zero_add, add_zero] at total
  rw [held_def, files, zero_add]
  refine total.trans ?_
  by_cases same : k = 0
  · rw [if_pos same, Proc.holds, if_pos (congrArg some same.symm)]
  · rw [if_neg same, Proc.holds, if_neg fun wrong => same (some.inj wrong).symm]

theorem boot_ofile (p : Fin NPROC) (fd : Fin NOFILE) : ((image.boot tty peer).procs p).ofile fd = none := by
  simp only [Image.boot, update_apply]
  split <;> rfl

theorem boot_atRest (formed : image.WellFormed) : AtRest (image.boot tty peer) where
  inv := by
    have root := formed.disk.geometry.root
    refine ⟨formed.disk, ⟨fun k => ?_, fun k => ?_, fun k l => ?_⟩, ⟨fun k => ?_, fun k => ?_, ?_, fun k => ?_, ?_, ?_⟩⟩
    · rw [boot_icache]
      split
      · exact fun _ wrong => nomatch wrong
      · exact fun wrong => nomatch wrong
    · rw [boot_icache]
      split
      · exact fun _ => ⟨zero_lt_one, root⟩
      · exact fun wrong => nomatch wrong
    · rw [boot_icache, boot_icache]
      split
      next first =>
        split
        next second => exact fun _ _ _ => first.trans second.symm
        next => exact fun _ wrong => nomatch wrong
      next => exact fun wrong => nomatch wrong
    · rw [boot_icache, boot_held]
      split <;> rfl
    · rw [boot_icache]
      split <;> simp [Inode.unused]
    · exact fun k member => absurd member (notMem_empty k)
    · rw [boot_held, boot_icache]
      split
      · exact fun _ zero => absurd (zero.symm.trans formed.root) (by decide)
      · exact fun wrong => nomatch wrong
    · exact fun f type => nomatch type
    · exact fun _ _ => rfl
  files := by
    refine ⟨fun f => ?_, fun page writable => ?_, fun _ _ wrong => (nomatch wrong), fun _ => rfl⟩
    · have zero : slots (image.boot tty peer) f = 0 :=
        sum_eq_zero fun p _ => sum_eq_zero fun fd _ => by rw [boot_ofile, slotRef_none]
      rw [zero]
      rfl
    · exact sum_eq_zero fun f _ => if_neg fun both => nomatch both.1
  idle := fun p _ fd => boot_ofile p fd

theorem run_atRest (formed : image.WellFormed) {calls : List (Fin NPROC × Call)}
    (reached : Transition.run step (image.boot tty peer) calls = some s) : AtRest s := by
  refine Transition.run_invariant step AtRest ?_ (boot_atRest formed) reached
  rintro s ⟨p, call⟩ t rest taken
  obtain ⟨r, done⟩ := step_done rest taken
  exact done.rest

end Boot

/-- The inodes from 1 to `m` have a block each, and no other inode has one. -/
structure Image.Flat (image : Image) (m : Nat) : Prop where
  geometry : image.sb.Geometry
  few : m < image.sb.ninodes
  room : image.sb.datastart + m ≤ image.sb.size
  addrs : ∀ x < image.sb.ninodes, ∀ i ≤ NDIRECT, (dinodeAt image.sb image.disk x).addr i =
    if i = 0 ∧ 1 ≤ x ∧ x ≤ m then image.sb.datastart + (x - 1) else 0
  sizes : ∀ x < image.sb.ninodes, (dinodeAt image.sb image.disk x).size ≤ BSIZE ∧
    (0 < (dinodeAt image.sb image.disk x).size ↔ 1 ≤ x ∧ x ≤ m)
  types : ∀ x < image.sb.ninodes, (dinodeAt image.sb image.disk x).type = 0 → ¬ (1 ≤ x ∧ x ≤ m)
  marked : ∀ b < image.sb.size, inUse image.sb image.disk b = decide (b < image.sb.datastart + m)
  entries : ∀ x < image.sb.ninodes, (dinodeAt image.sb image.disk x).type = T_DIR → ∀ i < BSIZE / Dirent.SIZE,
    ((nodeOf image.disk (dinodeAt image.sb image.disk x)).entry i).inum < image.sb.ninodes
  root : (dinodeAt image.sb image.disk ROOTINO).type = T_DIR

namespace Image.Flat

variable {image : Image} {m : Nat}

theorem slot_eq (flat : image.Flat m) {x : Nat} (inside : x < image.sb.ninodes) (i : Nat) :
    slot image.disk (dinodeAt image.sb image.disk x) i = if i = 0 ∧ 1 ≤ x ∧ x ≤ m then image.sb.datastart + (x - 1) else 0 := by
  unfold slot
  split
  next direct => exact flat.addrs x inside i (le_of_lt_succ direct)
  next indirect =>
    have none : (dinodeAt image.sb image.disk x).addr NDIRECT = 0 := by
      rw [flat.addrs x inside NDIRECT (le_refl _), if_neg fun both => absurd both.1 (by decide)]
    rw [if_pos none, if_neg fun both => indirect (by omega)]

theorem mapped (flat : image.Flat m) {x : Nat} (inside : x < image.sb.ninodes) :
    Mapped image.disk (dinodeAt image.sb image.disk x) (dinodeAt image.sb image.disk x).size := by
  obtain ⟨small, used⟩ := flat.sizes x inside
  have limit : BSIZE ≤ MAXFILE * BSIZE ∧ BSIZE ≤ NDIRECT * BSIZE := by decide
  have positive := image.sb.datastart_pos
  refine ⟨by omega, fun bn bound => ?_, ?_⟩
  · rw [blockOf, flat.slot_eq inside]
    by_cases first : bn = 0
    · rw [first, zero_mul, used]
      by_cases owns : 1 ≤ x ∧ x ≤ m
      · rw [if_pos ⟨rfl, owns⟩]
        omega
      · rw [if_neg fun both => owns both.2]
        omega
    · have later : slotOf bn ≠ 0 := fun zero => first (slotOf_inj zero)
      have past : BSIZE ≤ bn * BSIZE := Nat.le_mul_of_pos_left _ (by omega)
      rw [if_neg fun both => later both.1]
      omega
  · rw [flat.addrs x inside NDIRECT (le_refl _), if_neg fun both => absurd both.1 (by decide)]
    omega

theorem owned (flat : image.Flat m) : Owned image.sb image.disk (dinodeAt image.sb image.disk) ∅ := by
  have positive := image.sb.datastart_pos
  have room := flat.room
  refine ⟨⟨?_, ?_, fun b none => none.elim, fun b none => none.elim⟩, fun b inside => ?_⟩
  · intro x inside i bound
    rw [flat.slot_eq inside]
    split
    next => exact fun _ => ⟨by omega, by omega⟩
    next => exact fun wrong => absurd rfl wrong
  · intro x inside i bound y inside' j bound'
    rw [flat.slot_eq inside, flat.slot_eq inside']
    split
    next =>
      split
      next => exact fun _ same => ⟨by omega, by omega⟩
      next => exact fun _ same => absurd same (by omega)
    next => exact fun wrong => absurd rfl wrong
  · rw [flat.marked b inside, decide_eq_true_iff]
    constructor
    · intro below
      by_cases before : b < image.sb.datastart
      · exact .inl before
      · have few := flat.few
        refine .inr (.inr ⟨b - image.sb.datastart + 1, by omega, 0, by decide, ?_⟩)
        rw [flat.slot_eq (by omega), if_pos (by omega)]
        omega
    · rintro (before | none | ⟨x, inside', i, bound, same⟩)
      · omega
      · exact none.elim
      · rw [flat.slot_eq inside'] at same
        split at same <;> omega

theorem wellFormed (flat : image.Flat m) : image.WellFormed where
  disk := by
    refine ⟨⟨flat.geometry, flat.owned, fun x inside _ _ => flat.mapped inside, fun x inside free i direct => ?_⟩,
      fun x inside dir i bound => ?_⟩
    · rw [flat.addrs x inside i direct, if_neg fun both => flat.types x inside free both.2]
    · have small := (flat.sizes x inside).1
      have whole : Dirent.SIZE * (BSIZE / Dirent.SIZE) = BSIZE := by decide
      refine flat.entries x inside dir i (Nat.lt_of_mul_lt_mul_left (a := Dirent.SIZE) ?_)
      have grows : Dirent.SIZE * i < Dirent.SIZE * (i + 1) := Nat.mul_lt_mul_of_pos_left (Nat.lt_succ_self i) (by decide)
      omega
  root := flat.root

end Image.Flat

def blockOfList (bytes : List UInt8) : Block := fun i => bytes.getD i.val 0

def direntBytes (inum : Nat) (name : List UInt8) : List UInt8 := Dirent.encode ⟨inum, strncpy name DIRSIZ⟩

def dinodeBytes (type nlink size addr : UInt8) : List UInt8 :=
  [type, 0, 0, 0, 0, 0, nlink, 0, size, 0, 0, 0, addr] ++ List.replicate 51 0

/-- The root has a directory `a` and an empty file `f`, and `a` has a directory `b`. -/
def smallImage : Image where
  sb := ⟨12, 7, 6, 1, 2, 3, 4⟩
  disk := fun b =>
    match b with
    | 3 => blockOfList (List.replicate 64 0 ++ dinodeBytes 1 2 64 5 ++ dinodeBytes 1 2 48 6 ++ dinodeBytes 1 1 32 7 ++
        dinodeBytes 2 1 0 0)
    | 4 => blockOfList [0xff]
    | 5 => blockOfList (direntBytes 1 dot ++ direntBytes 1 dotdot ++ direntBytes 2 [97] ++ direntBytes 4 [102])
    | 6 => blockOfList (direntBytes 2 dot ++ direntBytes 1 dotdot ++ direntBytes 3 [98])
    | 7 => blockOfList (direntBytes 3 dot ++ direntBytes 2 dotdot)
    | _ => Bytes.zero

theorem smallImage_flat : smallImage.Flat 3 where
  geometry := ⟨by decide, by decide, by decide, by decide, by decide, by decide⟩
  few := by decide
  room := by decide
  addrs := by decide +kernel
  sizes := by decide +kernel
  types := by decide +kernel
  marked := by decide +kernel
  entries := by decide +kernel
  root := by decide +kernel

theorem smallImage_wellFormed : smallImage.WellFormed := smallImage_flat.wellFormed

def pathAB : Path := ⟨[47, 97, 47, 98], by decide⟩

def pathF : Path := ⟨[47, 102], by decide⟩

def pathRoot : Path := ⟨[47], by decide⟩

def stopOf {α : Type} : Except Stop α → Option Stop
  | .ok _ => none
  | .error e => some e

theorem stopOf_eq {α : Type} {result : Except Stop α} {e : Stop} (stopped : stopOf result = some e) : result = .error e := by
  cases result with
  | ok => cases stopped
  | error => rw [some.inj stopped]

end Xv6.Fs
