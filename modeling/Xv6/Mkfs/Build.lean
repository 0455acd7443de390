import Xv6.Fs.Machine
import Xv6.Mkfs.Append

/-! The image while `mkfs` builds it: what each call does to the nodes, and the nodes that a
list of files comes to. -/

namespace Xv6.Mkfs
open Lib Fs Function List

/-- The image could be finished now, and the kernel would find it in order. -/
structure Valid (s : State) : Prop extends Ready s where
  disk : DiskInv sb s.finished (dinodeAt sb s.finished)

def State.node (s : State) (x : Nat) : Node := nodeOf s.finished (dinodeAt sb s.finished x)

variable {s : State} {x : Nat}

section Inodes

theorem iblock_range (inside : x < NINODES) : sb.iblock x < sb.bmapstart := geometry.iblock_lt inside

theorem lt_iblock (x : Nat) : 1 < sb.iblock x :=
  Nat.lt_of_lt_of_le (by decide : 1 < sb.inodestart) (Nat.le_add_left _ _)

theorem iblock_taken (ready : Ready s) (inside : x < NINODES) : sb.iblock x < s.freeblock :=
  (iblock_range inside).trans (Nat.lt_of_lt_of_le bmapstart_lt_nmeta ready.low)

def State.withInode (s : State) (x : Nat) (d : Dinode) : State :=
  { s with
    image := Function.update s.image (sb.iblock x) (Dinode.write (s.image (sb.iblock x)) (x % IPB) d)
    sectors := max s.sectors (sb.iblock x + 1) }

theorem finished_withInode (inside : x < NINODES) (d : Dinode) : (s.withInode x d).finished =
    update s.finished (sb.iblock x) (Dinode.write (s.finished (sb.iblock x)) (x % IPB) d) := by
  have apart := Nat.ne_of_lt (iblock_range inside)
  rw [State.withInode, finished_wsect apart, finished_of_ne apart]

theorem Ready.withInode (ready : Ready s) (inside : x < NINODES) (d : Dinode) : Ready (s.withInode x d) :=
  ready.wsect (lt_iblock x) (iblock_taken ready inside) _

variable {stop : Exit → Prop}

theorem wp_rinode {post : Dinode → State → Prop} (ready : Ready s) (inside : x < NINODES)
    (here : post (dinodeAt sb s.finished x) s) : wp (rinode x) post stop s := by
  have taken := iblock_taken ready inside
  have high := ready.high
  unfold rinode
  refine wp_bind.mpr (wp_rsect (fun _ => wp_pure.mpr ?_) fun out => ?_)
  · rwa [dinodeAt, finished_of_ne (Nat.ne_of_lt (iblock_range inside))] at here
  · rw [ready.sectors] at out
    omega

theorem wp_winode {post : Unit → State → Prop} (ready : Ready s) (inside : x < NINODES)
    {d : Dinode} (here : post () (s.withInode x d)) : wp (winode x d) post stop s := by
  have taken := iblock_taken ready inside
  have high := ready.high
  unfold winode
  refine wp_bind.mpr (wp_rsect (fun _ => wp_wsect.mpr here) fun out => ?_)
  rw [ready.sectors] at out
  omega

end Inodes

variable {n : Nat} {p : List UInt8}

section Append

def kernelOn (s : State) (x : Nat) : Fs.State where
  sb := sb
  disk := s.finished
  icache := Function.update (fun _ => Inode.unused) 0
    { dinodeAt sb s.finished x with inum := x, ref := 1, lock := true, valid := true }
  ftable := fun _ => ⟨.none, 0, false, false, 0, 0, 0⟩
  procs := fun _ => ⟨fun _ => none, none⟩
  pipes := ⟨fun _ => none, []⟩
  outstanding := 1
  trace := []
  tty := []
  peer := []

theorem kernelOn_icache (k : Fin NINODE) : (kernelOn s x).icache k =
    if k = 0 then { dinodeAt sb s.finished x with inum := x, ref := 1, lock := true, valid := true }
    else Inode.unused := by
  rw [kernelOn]
  simp only [update_apply]

theorem kernelOn_held (k : Fin NINODE) : held (kernelOn s x) k = 0 := by
  unfold held
  have files : ∀ f, ¬ (((kernelOn s x).ftable f).type = .inode ∧ ((kernelOn s x).ftable f).ip = k) :=
    fun f both => nomatch both.1
  have procs : ∀ p, ¬ ((kernelOn s x).procs p).cwd = some k := fun p same => nomatch same
  simp only [files, procs, if_false, Finset.sum_const_zero, Nat.add_zero]

theorem kernelOn_inv (valid : Valid s) (range : 0 < x ∧ x < NINODES) (type : (s.node x).type ≠ 0) :
    Inv (kernelOn s x) {0} {0} := by
  refine ⟨valid.disk, ⟨fun k => ?_, fun k => ?_, fun k l => ?_⟩, ⟨fun k => ?_, fun k => ?_, ?_, fun k => ?_, ?_, ?_⟩⟩
  · rw [kernelOn_icache]
    split
    · exact fun _ _ => ⟨rfl, type⟩
    · exact fun wrong => by cases wrong
  · rw [kernelOn_icache]
    split
    · exact fun _ => range
    · exact fun wrong => by cases wrong
  · rw [kernelOn_icache, kernelOn_icache]
    split
    next first =>
      split
      next second => exact fun _ _ _ => first.trans second.symm
      next => exact fun _ wrong => by cases wrong
    next => exact fun wrong => by cases wrong
  · rw [kernelOn_icache, kernelOn_held, Multiset.count_singleton]
    split <;> rfl
  · rw [kernelOn_icache]
    split <;> simp [*, Inode.unused]
  · intro k member
    rw [Finset.mem_singleton.mp member]
    exact ⟨Nat.zero_lt_one, rfl⟩
  · rw [kernelOn_held]
    exact fun wrong => absurd wrong (Nat.lt_irrefl 0)
  · exact fun f wrong => by cases wrong
  · exact fun f _ => rfl

theorem kernelOn_twin (valid : Valid s) : Twin s (dinodeAt sb s.finished x) 0 (kernelOn s x) where
  toReady := valid.toReady
  superblock := rfl
  disk := rfl
  inode := rfl
  op := Nat.zero_lt_one

theorem growSize_simulates {t u : Fs.State} {din d : Dinode} {table : Nat → Dinode} {k : Fin NINODE} {off : Nat}
    (inside : x < NINODES) (before : Twin s din k u) (remapped : Remapped t u k table x d)
    (inum : (t.icache k).inum = x) (some : 0 < n) (grows : (table x).size < off) :
    wp (growSize k off n) (fun _ v => v.disk = (s.withInode x { din with size := off }).finished) (fun _ => False) u := by
  obtain rfl : d = din := remapped.cached.symm.trans before.inode
  have size : d.size = (table x).size := by rw [remapped.fields]
  have entry : u.icache k = { t.icache k with toDinode := d } := by rw [remapped.icache, update_self]
  unfold growSize
  rw [wp_bind, wp_getInode, entry, if_pos ⟨some, by simp only [size]; exact grows⟩, wp_bind, wp_setInode]
  refine wp_iupdate before.op ?_
  simp only [flushed, update_self]
  rw [finished_withInode inside, before.superblock, before.disk, inum]

theorem writei_simulates (valid : Valid s) (range : 0 < x ∧ x < NINODES) (type : (s.node x).type ≠ 0)
    (file : (s.node x).type ≠ T_DEV) (some : 0 < p.length)
    (room : (s.node x).size + p.length ≤ MAXFILE * BSIZE) {s' : State} {din : Dinode}
    (loop : Simulates 0 (writeiLoop 0 p.length (s.node x).size p) (kernelOn s x) () s' din) :
    wp (writei 0 p (s.node x).size)
      (fun _ v => v.disk = (s'.withInode x { din with size := (s.node x).size + p.length }).finished)
      (fun _ => False) (kernelOn s x) := by
  have small : MAXFILE * BSIZE < 2 ^ 32 := by decide
  have spec := wp_writeiLoop (s := kernelOn s x) (k := 0) valid.disk.owned geometry range.2 (Dinode.fits_read ..)
    (kernelOn_twin valid).inode (kernelOn_twin valid).op p.length (s.node x).size (s.node x).size p
    (valid.disk.mapped x range.2 type file) (Nat.le_refl _) (Nat.le_refl _) room
  have device : ¬ (dinodeAt sb s.finished x).type = T_DEV := file
  have size : ((kernelOn s x).icache 0).size = (s.node x).size := rfl
  unfold writei
  rw [wp_bind, wp_getInode, if_neg (show ¬ ((kernelOn s x).icache 0).type = T_DEV from file), size,
    if_neg (by rw [Nat.mod_eq_of_lt (by omega)]; omega), if_neg (by omega)]
  refine wp_seq (wp_and loop spec) (fun _ both => both.1) ?_
  rintro _ u ⟨⟨-, twin⟩, d, remapped, -⟩
  refine wp_then (growSize_simulates range.2 twin remapped rfl some ?_) ?_
  · change (s.node x).size < _
    omega
  · intro _ v disk
    exact wp_pure.mpr disk

theorem wp_iappend (valid : Valid s) (range : 0 < x ∧ x < NINODES) (type : (s.node x).type ≠ 0)
    (file : (s.node x).type ≠ T_DEV) (some : 0 < p.length)
    (entries : (s.node x).type = T_DIR → ∀ i, Dirent.SIZE * (i + 1) ≤ ((s.node x).write (s.node x).size p).size →
      (((s.node x).write (s.node x).size p).entry i).inum < NINODES) :
    wp (iappend x p) (fun _ s' => Valid s' ∧ s'.freeinode = s.freeinode ∧
        s'.freeblock + need (s.node x).size = s.freeblock + need ((s.node x).size + p.length) ∧
        ∀ y < NINODES, s'.node y = update s.node x ((s.node x).write (s.node x).size p) y)
      (fun _ => MAXFILE * BSIZE < (s.node x).size + p.length ∨
        FSSIZE + need (s.node x).size < s.freeblock + need ((s.node x).size + p.length)) s := by
  unfold iappend
  refine wp_bind.mpr (wp_rinode valid.toReady range.2 ?_)
  refine wp_seq (wp_iappendLoop p.length _ p (kernelOn_twin valid) valid.disk.owned range.2 rfl (Dinode.fits_read ..)
    (valid.disk.mapped x range.2 type file) (Nat.le_refl _)) (fun _ stopped => stopped) ?_
  rintro ⟨din, off⟩ s' ⟨rfl, room, loop, inodes, blocks⟩
  change (s.node x).size + p.length ≤ MAXFILE * BSIZE at room
  have inv := kernelOn_inv valid range type
  have spec := wp_writei inv (Finset.mem_singleton_self 0) Nat.zero_lt_one p (s.node x).size fun dir _ => entries dir
  have simulates := writei_simulates valid range type file some room loop
  obtain ⟨_, _, _, _, ready⟩ := wp.returns loop
  obtain ⟨r, u, -, disk, after, replaced, -, done, -⟩ :=
    wp.returns (wp_mono (wp_and simulates spec) (fun _ _ both => both) fun _ both => both.1)
  have superblock : u.sb = sb := (replaced.frame 0).sb
  have accepts : (s.node x).Accepts (s.node x).size p.length := by
    have small : MAXFILE * BSIZE < 2 ^ 32 := by decide
    exact ⟨Nat.le_refl _, by rw [Nat.mod_eq_of_lt (by omega)]; omega, room⟩
  have nodes := (done file accepts).2
  refine wp_winode ready.toReady range.2 ⟨⟨ready.toReady.withInode range.2 _, ?_⟩, inodes, blocks, ?_⟩
  · have found := after.disk
    change DiskInv u.sb u.disk (dinodeAt u.sb u.disk) at found
    rwa [superblock, disk] at found
  · intro y within
    have here := nodes y within
    simp only [Fs.State.node, Fs.State.dinode] at here
    rwa [superblock, disk] at here

end Append

section Replace

theorem Valid.withInode (valid : Valid s) (inside : x < NINODES) {e : Dinode} (fits : e.Fits)
    (addrs : e.addrs = (dinodeAt sb s.finished x).addrs)
    (mapped : e.type ≠ 0 → e.type ≠ T_DEV → Mapped s.finished e e.size)
    (free : e.type = 0 → ∀ i ≤ NDIRECT, e.addr i = 0)
    (entries : e.type = T_DIR → ∀ i, Dirent.SIZE * (i + 1) ≤ e.size → ((nodeOf s.finished e).entry i).inum < NINODES) :
    Valid (s.withInode x e) ∧
      ∀ y < NINODES, (s.withInode x e).node y = update s.node x (nodeOf s.finished e) y := by
  have logical := valid.disk.replace (valid.disk.blocks.remap_self (Dinode.fits_read ..)) addrs mapped free entries
  obtain ⟨-, after, nodes⟩ := DiskInv.flush (s := kernelOn s x) logical inside fits fun _ _ => rfl
  have disk := finished_withInode (s := s) inside e
  refine ⟨⟨valid.toReady.withInode inside e, by rw [disk]; exact after⟩, fun y within => ?_⟩
  rw [State.node, disk]
  refine (nodes y within).trans ?_
  by_cases same : y = x
  · rw [same, update_self, update_self]
  · rw [update_of_ne same, update_of_ne same]
    rfl

/-- The node of type `type` with one link that holds the bytes. -/
def holding (type : Nat) (bytes : List UInt8) : Node := ⟨type, 0, 0, 1, bytes.length, fun o => bytes.getD o 0⟩

theorem holding_write (type : Nat) (bytes p : List UInt8) :
    (holding type bytes).write bytes.length p = holding type (bytes ++ p) := by
  have size : max bytes.length (bytes.length + p.length) = (bytes ++ p).length := by
    rw [length_append]
    omega
  rw [Node.write, holding, holding, size]
  congr 1
  funext o
  simp only [getD_eq_getElem?_getD]
  split
  next inside => rw [List.getElem?_append_right inside.1]
  next outside =>
    by_cases before : o < bytes.length
    · rw [List.getElem?_append_left before]
    · rw [List.getElem?_eq_none (by omega), List.getElem?_eq_none (by rw [length_append]; omega)]

theorem wp_ialloc {type : Nat} (valid : Valid s) (inside : s.freeinode < NINODES)
    (free : (s.node s.freeinode).type = 0) (small : type < 2 ^ 16) :
    wp (ialloc type) (fun inum s' => inum = s.freeinode ∧ Valid s' ∧ s'.freeinode = s.freeinode + 1 ∧
        s'.freeblock = s.freeblock ∧ ∀ y < NINODES, s'.node y = update s.node s.freeinode (holding type []) y)
      (fun _ => False) s := by
  have zero := valid.disk.free _ inside free
  let e : Dinode := { Dinode.free with type := type, nlink := 1 }
  have none : ∀ i ≤ NDIRECT, e.addr i = 0 := by
    intro i _
    unfold Dinode.addr
    split <;> rfl
  have fits : e.Fits := { Dinode.fits_free with type := small, nlink := (by decide : 1 < 2 ^ 16) }
  have counted : Valid { s with freeinode := s.freeinode + 1 } := 
    ⟨⟨valid.super, valid.sectors, valid.low, valid.high, valid.fresh⟩, valid.disk⟩
  obtain ⟨after, nodes⟩ := counted.withInode inside fits (addrs_eq_zero zero).symm (fun _ _ => mapped_zero none)
    (fun _ => none) fun _ i bound => absurd bound (noEntries rfl)
  unfold ialloc
  rw [wp_bind, wp_get, wp_bind, wp_set]
  refine wp_bind.mpr (wp_winode counted.toReady inside (wp_pure.mpr ⟨rfl, after, rfl, rfl, fun y within => ?_⟩))
  refine (nodes y within).trans ?_
  have node : nodeOf s.finished e = holding type [] := by
    simp only [nodeOf, e, holding, Dinode.free, Nat.not_lt_zero, false_and, if_false, length_nil, getD_nil]
  change update s.node s.freeinode (nodeOf s.finished e) y = _
  rw [node]

end Replace

def rootBytes (names : List (List UInt8)) : List UInt8 :=
  dirent ROOTINO dot ++ dirent ROOTINO dotdot ++ (names.zipIdx 2).flatMap fun entry => dirent entry.2 entry.1

def tree (files : List (List UInt8 × List UInt8)) : Nat → Node
  | 0 => Node.new 0
  | 1 => holding T_DIR (rootBytes (files.map (·.1)))
  | x + 2 => (files[x]?).elim (Node.new 0) fun file => holding T_FILE file.2

def sizes (files : List (List UInt8 × List UInt8)) : List Nat := files.map (·.2.length)

def usage (sizes : List Nat) : Nat := need (Dirent.SIZE * (sizes.length + 2)) + (sizes.map need).sum

structure Built (s : State) (files : List (List UInt8 × List UInt8)) : Prop extends Valid s where
  inodes : s.freeinode = files.length + 2
  nodes : ∀ y < NINODES, s.node y = tree files y
  blocks : s.freeblock = nmeta + usage (sizes files)

variable {files : List (List UInt8 × List UInt8)}

section Tree

variable {names : List (List UInt8)}

theorem length_dirent (inum : Nat) (name : List UInt8) : (dirent inum name).length = Dirent.SIZE :=
  Dirent.length_encode (length_strncpy ..)

theorem rootBytes_append (names : List (List UInt8)) (name : List UInt8) :
    rootBytes (names ++ [name]) = rootBytes names ++ dirent (names.length + 2) name := by
  simp only [rootBytes, zipIdx_append, flatMap_append, zipIdx_singleton, flatMap_singleton,
    append_assoc, Nat.add_comm]

theorem length_rootBytes (names : List (List UInt8)) : (rootBytes names).length = Dirent.SIZE * (names.length + 2) := by
  induction names using List.reverseRecOn with
  | nil => decide
  | append_singleton names name ih =>
    rw [rootBytes_append, length_append, ih, length_dirent, length_append, length_singleton]
    ring

variable {y : Nat}

theorem tree_inside (inside : y < files.length) : tree files (y + 2) = holding T_FILE files[y].2 := by
  rw [tree, List.getElem?_eq_getElem inside, Option.elim_some]

theorem tree_outside (outside : files.length ≤ y) : tree files (y + 2) = Node.new 0 := by
  rw [tree, List.getElem?_eq_none outside, Option.elim_none]

theorem tree_append (name bytes : List UInt8) :
    update (update (tree files) (files.length + 2) (holding T_FILE bytes)) ROOTINO
      (holding T_DIR (rootBytes (files.map (·.1)) ++ dirent (files.length + 2) name)) =
        tree (files ++ [(name, bytes)]) := by
  funext y
  match y with
  | 0 => rfl
  | 1 =>
    refine (update_self ..).trans ?_
    rw [tree, map_append, map_singleton, rootBytes_append, length_map]
  | y + 2 =>
    rw [update_of_ne (by unfold ROOTINO; omega)]
    rcases Nat.lt_trichotomy y files.length with before | rfl | after
    · rw [update_of_ne (by omega), tree, tree, List.getElem?_append_left before]
    · rw [update_self, tree, List.getElem?_concat_length, Option.elim_some]
    · rw [update_of_ne (by omega), tree_outside (by omega),
        tree_outside (by rw [length_append, length_singleton]; omega)]

theorem tree_rewrite (name bytes bytes' : List UInt8) :
    update (tree (files ++ [(name, bytes)])) (files.length + 2) (holding T_FILE bytes') =
      tree (files ++ [(name, bytes')]) := by
  have apart : files.length + 2 ≠ ROOTINO := by
    unfold ROOTINO
    omega
  rw [← tree_append, ← tree_append, update_comm apart.symm, update_idem]

theorem sizes_append (name bytes : List UInt8) : sizes (files ++ [(name, bytes)]) = sizes files ++ [bytes.length] := by
  rw [sizes, map_append]
  rfl

theorem length_sizes : (sizes files).length = files.length := length_map _

theorem usage_append (sizes : List Nat) (size : Nat) :
    usage (sizes ++ [size]) + need (Dirent.SIZE * (sizes.length + 2)) =
      usage sizes + need (Dirent.SIZE * (sizes.length + 2 + 1)) + need size := by
  simp only [usage, length_append, length_singleton, map_append, map_singleton, sum_append,
    sum_singleton]
  rw [show sizes.length + 1 + 2 = sizes.length + 2 + 1 from rfl]
  omega

theorem usage_le {before after : List Nat} {size size' : Nat} (order : size ≤ size') :
    usage (before ++ [size]) ≤ usage (before ++ size' :: after) := by
  have root : need (Dirent.SIZE * ((before ++ [size]).length + 2)) ≤
      need (Dirent.SIZE * ((before ++ size' :: after).length + 2)) := by
    refine need_mono (Nat.mul_le_mul_left _ ?_)
    simp only [length_append, length_cons, length_nil]
    omega
  have file := need_mono order
  simp only [usage, map_append, map_cons, map_nil, sum_append, sum_cons, sum_nil] at root ⊢
  omega

end Tree

section Files

theorem Built.root (built : Built s files) : s.node ROOTINO = holding T_DIR (rootBytes (files.map (·.1))) :=
  built.nodes ROOTINO (by decide)

variable {bytes : List UInt8}

theorem wp_appendEntry (valid : Valid s) (root : s.node ROOTINO = holding T_DIR bytes)
    (length : bytes.length = Dirent.SIZE * n) {inum : Nat} (small : inum < NINODES) (name : List UInt8) :
    wp (iappend ROOTINO (dirent inum name)) (fun _ s' => Valid s' ∧ s'.freeinode = s.freeinode ∧
        s'.freeblock + need (Dirent.SIZE * n) = s.freeblock + need (Dirent.SIZE * (n + 1)) ∧
        ∀ y < NINODES, s'.node y = update s.node ROOTINO (holding T_DIR (bytes ++ dirent inum name)) y)
      (fun _ => MAXFILE * BSIZE < Dirent.SIZE * (n + 1) ∨
        FSSIZE + need (Dirent.SIZE * n) < s.freeblock + need (Dirent.SIZE * (n + 1))) s := by
  have size : (s.node ROOTINO).size = Dirent.SIZE * n := by
    rw [root]
    exact length
  have grown : Dirent.SIZE * n + (dirent inum name).length = Dirent.SIZE * (n + 1) := by
    rw [length_dirent, Nat.mul_succ]
  have dir : (s.node ROOTINO).type = T_DIR := by rw [root]; rfl
  have count : (s.node ROOTINO).size = Dirent.SIZE * (s.node ROOTINO).count := by
    rw [Node.count, size, Nat.mul_div_cancel_left _ (by decide)]
  have number : (Dirent.decode (dirent inum name)).inum < NINODES := by
    rw [dirent, Dirent.inum_decode_encode]
    exact Nat.lt_of_le_of_lt (Nat.mod_le _ _) small
  have written : (s.node ROOTINO).write (Dirent.SIZE * n) (dirent inum name) =
      holding T_DIR (bytes ++ dirent inum name) := by
    rw [root, ← length, holding_write]
  have spec := wp_iappend valid (x := ROOTINO) ⟨by decide, by decide⟩ (by rw [dir]; decide) (by rw [dir]; decide)
    (p := dirent inum name) (by rw [length_dirent]; decide) (fun _ i bound => by
      rw [count] at bound ⊢
      exact Node.entry_setEntry_inum (length_dirent ..) (Nat.le_refl _) number
        (fun l inside => valid.disk.entries ROOTINO (by decide) dir l (Node.entry_le_size inside)) bound)
  rw [size, grown, written] at spec
  exact spec

theorem wp_addName (built : Built s files) (few : files.length + 2 < NINODES) (name : List UInt8) :
    wp (do
      let inum ← ialloc T_FILE
      iappend ROOTINO (dirent inum name)
      return inum) (fun inum s' => inum = files.length + 2 ∧ Built s' (files ++ [(name, [])]))
      (fun _ => FSSIZE < nmeta + usage (sizes (files ++ [(name, [])]))) s := by
  have inside : s.freeinode < NINODES := by rw [built.inodes]; exact few
  have free : (s.node s.freeinode).type = 0 := by
    rw [built.nodes _ inside, built.inodes, tree_outside (Nat.le_refl _)]
    rfl
  refine wp_then (wp_ialloc built.toValid inside free (by decide)) ?_
  rintro inum s₁ ⟨rfl, valid, inodes, blocks, nodes⟩
  have apart : s.freeinode ≠ ROOTINO := by
    rw [built.inodes]
    unfold ROOTINO
    omega
  have root : s₁.node ROOTINO = holding T_DIR (rootBytes (files.map (·.1))) := by
    rw [nodes ROOTINO (by decide), update_of_ne apart.symm, built.root]
  have counted := usage_append (sizes files) 0
  have small : Dirent.SIZE * (NINODES + 1) ≤ MAXFILE * BSIZE := by decide
  have total : usage (sizes (files ++ [(name, [])])) = usage (sizes files ++ [0]) := by
    rw [sizes_append, length_nil]
  have taken := built.blocks
  rw [length_sizes, show need 0 = 0 from rfl] at counted
  have length : (rootBytes (files.map (·.1))).length = Dirent.SIZE * (files.length + 2) := by
    rw [length_rootBytes, length_map]
  refine wp_seq (wp_appendEntry valid root length inside name) (fun _ stopped => ?_) ?_
  · rw [total]
    obtain large | full := stopped
    · have : Dirent.SIZE * (files.length + 2 + 1) ≤ Dirent.SIZE * (NINODES + 1) := Nat.mul_le_mul_left _ (by omega)
      omega
    · omega
  · rintro _ s₂ ⟨valid', inodes', blocks', nodes'⟩
    refine wp_pure.mpr ⟨built.inodes, valid', ?_, fun y within => ?_, ?_⟩
    · rw [inodes', inodes, built.inodes, length_append, length_singleton]
    · rw [nodes' y within, ← tree_append, built.inodes]
      by_cases first : y = ROOTINO
      · rw [first, update_self, update_self]
      · rw [update_of_ne first, update_of_ne first, nodes y within, built.inodes]
        by_cases second : y = files.length + 2
        · rw [second, update_self, update_self]
        · rw [update_of_ne second, update_of_ne second, built.nodes y within]
    · rw [total]
      omega

theorem wp_addBytes {name : List UInt8} (built : Built s (files ++ [(name, bytes)]))
    (few : files.length + 2 < NINODES) (some : 0 < p.length) :
    wp (iappend (files.length + 2) p) (fun _ s' => Built s' (files ++ [(name, bytes ++ p)]))
      (fun _ => MAXFILE * BSIZE < (bytes ++ p).length ∨
        FSSIZE < nmeta + usage (sizes (files ++ [(name, bytes ++ p)]))) s := by
  have node : s.node (files.length + 2) = holding T_FILE bytes := by
    rw [built.nodes _ few, tree, List.getElem?_concat_length, Option.elim_some]
  have size : (s.node (files.length + 2)).size = bytes.length := by rw [node]; rfl
  have type : (s.node (files.length + 2)).type = T_FILE := by rw [node]; rfl
  have spec := wp_iappend built.toValid (x := files.length + 2) ⟨by omega, few⟩ (by rw [type]; decide)
    (by rw [type]; decide) some fun dir => absurd (type.symm.trans dir) (by decide)
  have taken := built.blocks
  have before := usage_append (sizes files) bytes.length
  have after := usage_append (sizes files) (bytes ++ p).length
  rw [size, node, holding_write, ← length_append] at spec
  rw [sizes_append] at taken ⊢
  refine wp_mono spec ?_ ?_
  · rintro _ s' ⟨valid, inodes, blocks, nodes⟩
    refine ⟨valid, ?_, fun y within => ?_, ?_⟩
    · rw [inodes, built.inodes, length_append, length_append, length_singleton, length_singleton]
    · rw [nodes y within, ← tree_rewrite name bytes]
      by_cases here : y = files.length + 2
      · rw [here, update_self, update_self]
      · rw [update_of_ne here, update_of_ne here, built.nodes y within]
    · rw [sizes_append]
      omega
  · rintro _ (large | full)
    · exact .inl large
    · exact .inr (by omega)

theorem wp_addFile (built : Built s files) (few : files.length + 2 < NINODES) (file : HostFile) :
    wp (addFile file) (fun _ s' => Built s' (files ++ [(file.fsName, file.content)]))
      (fun _ => slash ∈ file.name.bytes ∨ MAXFILE * BSIZE < file.content.length ∨
        FSSIZE < nmeta + usage (sizes (files ++ [(file.fsName, file.content)]))) s := by
  have larger : ∀ bytes : List UInt8, bytes.length ≤ file.content.length →
      usage (sizes (files ++ [(file.fsName, bytes)])) ≤
        usage (sizes (files ++ [(file.fsName, file.content)])) := by
    intro bytes order
    rw [sizes_append, sizes_append]
    exact usage_le order
  have reads : ∀ s₁, Built s₁ (files ++ [(file.fsName, [])]) →
      wp (file.reads.forM fun bytes => iappend (files.length + 2) bytes)
        (fun _ s' => Built s' (files ++ [(file.fsName, file.content)]))
        (fun _ => slash ∈ file.name.bytes ∨ MAXFILE * BSIZE < file.content.length ∨
          FSSIZE < nmeta + usage (sizes (files ++ [(file.fsName, file.content)]))) s₁ := by
    intro s₁ empty
    refine wp_forM (fun done s' => Built s' (files ++ [(file.fsName, done.flatten)])) _ ?_ empty
    intro done p rest whole s' here
    have member : p ∈ file.reads := by
      rw [whole]
      exact mem_append_right _ mem_cons_self
    have order : (done.flatten ++ p).length ≤ file.content.length := by
      simp only [HostFile.content, whole, flatten_append, flatten_cons, length_append]
      omega
    have more := larger _ order
    have flat : (done ++ [p]).flatten = done.flatten ++ p := by
      rw [flatten_append, flatten_singleton]
    rw [flat]
    refine wp_mono (wp_addBytes here few (file.sizes p member).1) (fun _ _ done => done) ?_
    rintro _ (large | full)
    · exact .inr (.inl (by omega))
    · exact .inr (.inr (by omega))
  have named := wp_addName built few file.fsName
  unfold addFile
  refine wp_bind.mpr (wp_assert (fun fine => ?_) fun bad => .inl (not_not.mp bad))
  have both : wp ((do
      let inum ← ialloc T_FILE
      iappend ROOTINO (dirent inum file.fsName)
      return inum) >>= fun inum => file.reads.forM fun bytes => iappend inum bytes)
      (fun _ s' => Built s' (files ++ [(file.fsName, file.content)]))
      (fun _ => slash ∈ file.name.bytes ∨ MAXFILE * BSIZE < file.content.length ∨
        FSSIZE < nmeta + usage (sizes (files ++ [(file.fsName, file.content)]))) s := by
    refine wp_seq named (fun _ full => .inr (.inr ?_)) ?_
    · have := larger [] (Nat.zero_le _)
      omega
    · rintro inum s₁ ⟨rfl, empty⟩
      exact reads s₁ empty
  simpa only [bind_assoc, pure_bind] using both

def HostFile.entry (file : HostFile) : List UInt8 × List UInt8 := (file.fsName, file.content)

/-- There is room for the files, and their names are fit for one directory. -/
def Suitable (files : List HostFile) : Prop :=
  (∀ file ∈ files, slash ∉ file.name.bytes ∧ file.content.length ≤ MAXFILE * BSIZE) ∧
    nmeta + usage (sizes (files.map HostFile.entry)) ≤ FSSIZE

instance (files : List HostFile) : Decidable (Suitable files) := inferInstanceAs (Decidable (_ ∧ _))

theorem wp_addFiles (built : Built s []) (files : List HostFile) (few : files.length ≤ NINODES - 2) :
    wp (files.forM addFile) (fun _ s' => Built s' (files.map HostFile.entry)) (fun _ => ¬ Suitable files) s := by
  refine wp_forM (fun done s' => Built s' (done.map HostFile.entry)) files ?_ built
  intro done file rest whole s' here
  have room : (done.map HostFile.entry).length + 2 < NINODES := by
    have length := congrArg List.length whole
    rw [length_append, length_cons] at length
    have : 2 < NINODES := by decide
    rw [length_map]
    omega
  have step := wp_addFile here room file
  rw [map_append, map_singleton]
  refine wp_mono step (fun _ _ done => done) ?_
  rintro _ stopped ⟨each, total⟩
  have member : file ∈ files := by
    rw [whole]
    exact mem_append_right _ mem_cons_self
  obtain ⟨plain, fits⟩ := each file member
  obtain bad | large | full := stopped
  · exact plain bad
  · omega
  · have order : usage (sizes (done.map HostFile.entry ++ [file.entry])) ≤ usage (sizes (files.map HostFile.entry)) := by
      rw [whole]
      simp only [sizes, map_append, map_cons, map_nil]
      exact usage_le (Nat.le_refl _)
    change FSSIZE < nmeta + usage (sizes (done.map HostFile.entry ++ [file.entry])) at full
    omega

end Files

section Start

def formatted : State where
  image := Function.update (fun _ => Bytes.zero) 1 sbBlock
  sectors := FSSIZE
  freeinode := 1
  freeblock := nmeta

theorem wp_wzeroes (n : Nat) : wp (wzeroes n) (fun _ s => s = ⟨fun _ => Bytes.zero, n, 1, nmeta⟩) (fun _ => False)
    ⟨fun _ => Bytes.zero, 0, 1, nmeta⟩ := by
  rw [wzeroes]
  refine wp_forM_range (fun i (s : State) => s = ⟨fun _ => Bytes.zero, i, 1, nmeta⟩) n ?_ rfl
  rintro i - s rfl
  have still : update (fun _ : Nat => (Bytes.zero : Block)) i Bytes.zero = fun _ => Bytes.zero :=
    update_eq_self i _
  rw [wp_wsect, still, Nat.max_eq_right (Nat.le_succ i)]

theorem wp_format : wp format (fun _ s => s = formatted) (fun _ => False) started := by
  unfold format
  rw [wp_bind, wp_modify]
  refine wp_then (wp_wzeroes FSSIZE) ?_
  rintro _ s rfl
  exact wp_wsect.mpr rfl

theorem formatted_image {b : Nat} (apart : b ≠ 1) : formatted.image b = Bytes.zero := by
  change update (fun _ => Bytes.zero) 1 sbBlock b = _
  rw [update_of_ne apart]

theorem formatted_dinode (inside : x < NINODES) : dinodeAt sb formatted.finished x = Dinode.free := by
  have block : formatted.finished (sb.iblock x) = Bytes.zero := by
    rw [finished_of_ne (Nat.ne_of_lt (iblock_range inside)), formatted_image (Nat.ne_of_gt (lt_iblock x))]
  rw [dinodeAt, block, Dinode.read]
  simp only [Bytes.word_zero]
  rfl

theorem formatted_slot (inside : x < NINODES) (i : Nat) :
    slot formatted.finished (dinodeAt sb formatted.finished x) i = 0 := by
  have zero : ∀ j, Dinode.free.addr j = 0 := by
    intro j
    unfold Dinode.addr
    split <;> rfl
  rw [formatted_dinode inside, slot, zero, zero, if_pos rfl, ite_self]

theorem formatted_valid : Valid formatted where
  super := by
    change update (fun _ => Bytes.zero) 1 sbBlock 1 = _
    rw [update_self]
  sectors := rfl
  low := Nat.le_refl _
  high := by decide
  fresh := fun b above => formatted_image (by
    have : 1 < nmeta := by decide
    have : nmeta ≤ b := above
    omega)
  disk := by
    have type : ∀ x < NINODES, (dinodeAt sb formatted.finished x).type = 0 := fun x inside => by
      rw [formatted_dinode inside]
      rfl
    refine ⟨⟨geometry, ⟨⟨?_, ?_, fun b none => none.elim, fun b none => none.elim⟩, fun b inside => ?_⟩, ?_, ?_⟩, ?_⟩
    · exact fun x inside i _ nonzero => absurd (formatted_slot inside i) nonzero
    · exact fun x inside i _ y _ j _ nonzero => absurd (formatted_slot inside i) nonzero
    · rw [inUse_finished (by decide) inside, decide_eq_true_iff]
      constructor
      · exact fun below => .inl below
      · rintro (below | none | ⟨x, within, i, -, same⟩)
        · exact below
        · exact none.elim
        · rw [formatted_slot within] at same
          rw [← same]
          decide
    · exact fun x inside used => absurd (type x inside) used
    · intro x inside _ i bound
      rw [← slot_direct formatted.finished _ bound, formatted_slot inside]
    · exact fun x inside dir => absurd ((type x inside).symm.trans dir) (by decide)

theorem wp_makeRoot : wp makeRoot (fun _ s => Built s []) (fun _ => False) formatted := by
  have node : ∀ y < NINODES, formatted.node y = Node.new 0 := by
    intro y within
    rw [State.node, formatted_dinode within]
    simp only [nodeOf, Node.new, Dinode.free, Nat.not_lt_zero, false_and, if_false]
  have inside : formatted.freeinode < NINODES := by decide
  unfold makeRoot
  refine wp_then (wp_ialloc formatted_valid inside (by rw [node _ inside]; rfl) (by decide)) ?_
  rintro inum s ⟨rfl, valid, inodes, blocks, nodes⟩
  refine wp_bind.mpr (wp_assert (fun _ => ?_) fun wrong => wrong rfl)
  have first : s.node ROOTINO = holding T_DIR [] := (nodes ROOTINO (by decide)).trans (update_self ..)
  refine wp_seq (wp_appendEntry valid first (n := 0) rfl inside dot) (fun _ stopped => ?_) ?_
  · rw [blocks] at stopped
    exact absurd stopped (by decide)
  rintro _ t ⟨valid', inodes', blocks', nodes'⟩
  have second : t.node ROOTINO = holding T_DIR ([] ++ dirent formatted.freeinode dot) :=
    (nodes' ROOTINO (by decide)).trans (update_self ..)
  refine wp_mono (wp_appendEntry valid' second (n := 1) (length_dirent ..) inside dotdot) ?_ fun _ stopped => ?_
  · rintro _ u ⟨valid'', inodes'', blocks'', nodes''⟩
    refine ⟨valid'', by rw [inodes'', inodes', inodes]; rfl, fun y within => ?_, ?_⟩
    · rw [nodes'' y within]
      rcases y with _ | _ | y
      · rw [update_of_ne (by decide), nodes' 0 within, update_of_ne (by decide), nodes 0 within,
          update_of_ne (by decide), node 0 within]
        rfl
      · exact update_self ..
      · have apart : y + 2 ≠ ROOTINO := by
          unfold ROOTINO
          omega
        have root : formatted.freeinode = ROOTINO := rfl
        rw [update_of_ne apart, nodes' _ within, update_of_ne apart, nodes _ within, root,
          update_of_ne apart, node _ within, tree_outside (Nat.zero_le _)]
    · have costs : need (Dirent.SIZE * 0) = 0 ∧ need (Dirent.SIZE * (0 + 1)) = 1 ∧ need (Dirent.SIZE * 1) = 1 ∧
          need (Dirent.SIZE * (1 + 1)) = 1 ∧ usage (sizes []) = 1 ∧ formatted.freeblock = nmeta := by decide
      omega
  · have costs : need (Dirent.SIZE * 0) = 0 ∧ need (Dirent.SIZE * (0 + 1)) = 1 := by decide
    have taken : t.freeblock = nmeta + 1 := by
      have start : formatted.freeblock = nmeta := rfl
      omega
    rw [taken] at stopped
    exact absurd stopped (by decide)

end Start

end Xv6.Mkfs
