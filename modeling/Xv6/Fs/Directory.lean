import Xv6.Fs.Inode

/-! `fs.c` from `skipelem` on: directories and paths. A string is the list of its bytes, without the
terminating zero. -/

namespace Xv6.Fs

def strncmp : List UInt8 → List UInt8 → Nat → Int
  | _, _, 0 => 0
  | p, q, n + 1 =>
    if p.headD 0 ≠ 0 ∧ p.headD 0 = q.headD 0 then strncmp p.tail q.tail n
    else (p.headD 0).toNat - (q.headD 0).toNat

def strncpy : List UInt8 → Nat → List UInt8
  | _, 0 => []
  | t, n + 1 => if t.headD 0 = 0 then List.replicate (n + 1) 0 else t.headD 0 :: strncpy t.tail n

def namecmp (s t : List UInt8) : Int := strncmp s t DIRSIZ

def slash : UInt8 := 47
def dot : List UInt8 := [46]
def dotdot : List UInt8 := [46, 46]

/-- The next element of the path and the path after it. -/
def skipelem (path : List UInt8) : Option (List UInt8 × List UInt8) :=
  match path.dropWhile (· == slash) with
  | [] => none
  | first :: more =>
    let elem := (first :: more).takeWhile (· != slash)
    let rest := (first :: more).dropWhile (· != slash)
    some (elem.take DIRSIZ, rest.dropWhile (· == slash))

/-- A path argument: a string with no zero inside. -/
structure Path where
  bytes : List UInt8
  noNul : 0 ∉ bytes

/-- The name that at most `DIRSIZ` bytes spell: what is before the first zero. -/
def component (field : List UInt8) : List UInt8 := (field.take DIRSIZ).takeWhile (· != 0)

theorem strncmp_eq_zero (n : Nat) (p q : List UInt8) :
    strncmp p q n = 0 ↔ (p.take n).takeWhile (· != 0) = (q.take n).takeWhile (· != 0) := by
  induction n generalizing p q with
  | zero => simp [strncmp]
  | succ n ih =>
    rw [strncmp]
    split
    next same =>
      rw [ih]
      cases p with
      | nil => exact absurd rfl same.1
      | cons a p =>
        cases q with
        | nil => exact absurd same.2 same.1
        | cons b q =>
          obtain ⟨nonzero, rfl⟩ : a ≠ 0 ∧ a = b := same
          simp [nonzero]
    next differ =>
      have numbers : ((p.headD 0).toNat : Int) - (q.headD 0).toNat = 0 ↔ p.headD 0 = q.headD 0 := by
        rw [← UInt8.toNat_inj]
        omega
      rw [numbers]
      cases p with
      | nil =>
        cases q with
        | nil => simp
        | cons b q => by_cases zero : b = 0 <;> simp [zero, Ne.symm]
      | cons a p =>
        cases q with
        | nil => by_cases zero : a = 0 <;> simp [zero]
        | cons b q =>
          by_cases zero : a = 0
          · subst zero
            by_cases other : b = 0 <;> simp [other, Ne.symm]
          · have apart : ¬ a = b := fun same => differ ⟨zero, same⟩
            by_cases other : b = 0 <;> simp [zero, other, apart]

theorem namecmp_eq_zero (s t : List UInt8) : namecmp s t = 0 ↔ component s = component t :=
  strncmp_eq_zero DIRSIZ s t

theorem length_strncpy (t : List UInt8) (n : Nat) : (strncpy t n).length = n := by
  induction n generalizing t with
  | zero => rfl
  | succ n ih =>
    rw [strncpy]
    split
    · exact List.length_replicate
    · rw [List.length_cons, ih]

theorem takeWhile_strncpy (t : List UInt8) (n : Nat) :
    (strncpy t n).takeWhile (· != 0) = (t.take n).takeWhile (· != 0) := by
  induction n generalizing t with
  | zero => simp [strncpy]
  | succ n ih =>
    rw [strncpy]
    cases t with
    | nil => simp [List.replicate_succ]
    | cons a t =>
      by_cases zero : a = 0
      · simp [zero, List.replicate_succ]
      · simp [zero, ih]

theorem component_strncpy (name : List UInt8) : component (strncpy name DIRSIZ) = component name := by
  rw [component, List.take_of_length_le (by rw [length_strncpy]), takeWhile_strncpy, component]

theorem skipelem_rest_lt {path name rest : List UInt8} (found : skipelem path = some (name, rest)) :
    rest.length < path.length := by
  have shorter := (List.dropWhile_suffix (· == slash) (l := path)).length_le
  unfold skipelem at found
  split at found
  next => cases found
  next first more taken =>
    rw [taken] at shorter
    have head : (first != slash) = true := by
      have stopped := List.head_dropWhile_not (· == slash) (l := path) (by rw [taken]; exact List.cons_ne_nil _ _)
      simpa only [taken, List.head_cons, bne, Bool.not_eq_true'] using stopped
    obtain ⟨-, rfl⟩ := Prod.mk.injEq .. ▸ Option.some.inj found
    have inner := (List.dropWhile_suffix (· == slash) (l := (first :: more).dropWhile (· != slash))).length_le
    rw [List.dropWhile_cons, if_pos head] at inner ⊢
    have outer := (List.dropWhile_suffix (· != slash) (l := more)).length_le
    rw [List.length_cons] at shorter
    omega

end Xv6.Fs

namespace Xv6.Fs
open Lib

structure Dirent where
  inum : Nat
  name : List UInt8
  deriving DecidableEq, Repr

namespace Dirent

def SIZE : Nat := 16

def decode (bytes : List UInt8) : Dirent where
  inum := (bytes.getD 0 0).toNat + 256 * (bytes.getD 1 0).toNat
  name := (bytes.drop 2).take DIRSIZ

/-- The two bytes of `inum` are those an `ushort` keeps. -/
def encode (de : Dirent) : List UInt8 :=
  UInt8.ofNat de.inum :: UInt8.ofNat (de.inum / 256) :: de.name

end Dirent

def readDirent (k : Fin NINODE) (off : Nat) (message : String) : FsM Dirent := do
  let bytes ← readi k off Dirent.SIZE
  match bytes with
  | some bytes =>
    if bytes.length = Dirent.SIZE then
      return Dirent.decode bytes
    else
      panic message
  | none => panic message

def dirlookupFrom (k : Fin NINODE) (name : List UInt8) : Nat → Nat → FsM (Option (Nat × Nat))
  | 0, _ => return none
  | fuel + 1, off => do
    let dp ← getInode k
    if off < dp.size then do
      let de ← readDirent k off "dirlookup read"
      if de.inum ≠ 0 ∧ namecmp name de.name = 0 then
        return some (off, de.inum)
      else
        dirlookupFrom k name fuel (off + Dirent.SIZE)
    else
      return none

/-- The inode found and `*poff`. -/
def dirlookup (k : Fin NINODE) (name : List UInt8) : FsM (Option (Fin NINODE × Nat)) := do
  let dp ← getInode k
  if dp.type ≠ T_DIR then
    panic "dirlookup not DIR"
  else do
    match ← dirlookupFrom k name dp.size 0 with
    | some (off, inum) => do
      let ip ← iget inum
      return some (ip, off)
    | none => return none

def emptyDirentFrom (k : Fin NINODE) : Nat → Nat → FsM Nat
  | 0, off => return off
  | fuel + 1, off => do
    let dp ← getInode k
    if off < dp.size then do
      let de ← readDirent k off "dirlink read"
      if de.inum = 0 then
        return off
      else
        emptyDirentFrom k fuel (off + Dirent.SIZE)
    else
      return off

def dirlink (k : Fin NINODE) (name : List UInt8) (inum : Nat) : FsM Bool := do
  match ← dirlookup k name with
  | some (ip, _) => do
    iput ip
    return false
  | none => do
    let dp ← getInode k
    let off ← emptyDirentFrom k dp.size 0
    let written ← writei k (Dirent.encode ⟨inum, strncpy name DIRSIZ⟩) off
    if written = some Dirent.SIZE then
      return true
    else
      panic "dirlink"

def namexFrom (parent : Bool) : Nat → Fin NINODE → List UInt8 → FsM (Option (Fin NINODE × List UInt8))
  | 0, _, _ => return none
  | fuel + 1, k, path =>
    match skipelem path with
    | none =>
      if parent then do
        iput k
        return none
      else
        return some (k, [])
    | some (name, rest) => do
      ilock k
      let ip ← getInode k
      if ip.type ≠ T_DIR then do
        iunlockput k
        return none
      else if parent ∧ rest = [] then do
        iunlock k
        return some (k, name)
      else
        match ← dirlookup k name with
        | none => do
          iunlockput k
          return none
        | some (next, _) => do
          iunlockput k
          namexFrom parent fuel next rest

/-- Where `namex` starts: the root or the current directory. -/
def namexStart (p : Fin NPROC) (path : List UInt8) : FsM (Fin NINODE) := do
  if path.head? = some slash then
    iget ROOTINO
  else
    match ((← get).procs p).cwd with
    | some cwd => idup cwd
    | none => throw .fault

def namex (p : Fin NPROC) (path : List UInt8) (parent : Bool) :
    FsM (Option (Fin NINODE × List UInt8)) := do
  let k ← namexStart p path
  namexFrom parent (path.length + 1) k path

def namei (p : Fin NPROC) (path : Path) : FsM (Option (Fin NINODE)) := do
  return (← namex p path.bytes false).map (·.1)

def nameiparent (p : Fin NPROC) (path : Path) : FsM (Option (Fin NINODE × List UInt8)) :=
  namex p path.bytes true

end Xv6.Fs
