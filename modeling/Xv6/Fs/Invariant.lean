import Mathlib.Data.Multiset.Count
import Xv6.Fs.Content
import Xv6.Fs.Directory
import Xv6.Lib.Sum

/-! The inodes as a user of `ilock` and `readi` sees them, and the invariant while one process is in
a system call with the references `temps` and the locked inodes `locks`. -/

namespace Xv6.Fs
open Lib Function

def dinodeAt (sb : Superblock) (disk : Nat → Block) (x : Nat) : Dinode :=
  Dinode.read (disk (sb.iblock x)) (x % IPB)

def State.dinode (s : State) (x : Nat) : Dinode := dinodeAt s.sb s.disk x

/-- An inode without the addresses; bytes past the end are zero. -/
@[ext] structure Node where
  type : Nat
  major : Nat
  minor : Nat
  nlink : Nat
  size : Nat
  byte : Nat → UInt8

def nodeOf (disk : Nat → Block) (d : Dinode) : Node where
  type := d.type
  major := d.major
  minor := d.minor
  nlink := d.nlink
  size := d.size
  byte := fun o => if o < d.size ∧ d.type ≠ 0 ∧ d.type ≠ T_DEV then rawByte disk d o else 0

def State.node (s : State) (x : Nat) : Node := nodeOf s.disk (s.dinode x)

def Node.entry (node : Node) (i : Nat) : Dirent :=
  Dirent.decode ((List.range Dirent.SIZE).map fun j => node.byte (Dirent.SIZE * i + j))

theorem fits_dinode (s : State) (x : Nat) : (s.dinode x).Fits := Dinode.fits_read ..

variable {sb : Superblock} {disk : Nat → Block} {x : Nat}

variable {disk' : Nat → Block}

theorem dinodeAt_congr (geometry : sb.Geometry)
    (same : ∀ c < sb.bmapstart, disk' c = disk c) (inside : x < sb.ninodes) :
    dinodeAt sb disk' x = dinodeAt sb disk x := by
  rw [dinodeAt, same _ (geometry.iblock_lt inside), dinodeAt]

variable {y : Nat}

theorem eq_of_iblock (same : sb.iblock y = sb.iblock x) (rest : y % IPB = x % IPB) :
    y = x := by
  have quotient : y / IPB = x / IPB := Nat.add_right_cancel same
  rw [← Nat.div_add_mod y IPB, ← Nat.div_add_mod x IPB, quotient, rest]

variable {d : Dinode}

theorem dinodeAt_write (sb : Superblock) (disk : Nat → Block) (x : Nat) (fits : d.Fits) :
    dinodeAt sb (update disk (sb.iblock x) (Dinode.write (disk (sb.iblock x)) (x % IPB) d)) =
      update (dinodeAt sb disk) x d := by
  funext y
  by_cases same : y = x
  · subst same
    rw [dinodeAt, update_self, update_self, Dinode.read_write_self _ fits (Nat.mod_lt _ (by decide))]
  · rw [update_of_ne same, dinodeAt]
    by_cases block : sb.iblock y = sb.iblock x
    · rw [block, update_self, Dinode.read_write_of_ne _ _ fun rest => same (eq_of_iblock block rest), dinodeAt,
        block]
    · rw [update_of_ne block, dinodeAt]

/-- The bitmap is exact and inodes have the blocks of their size. -/
structure BlocksInv (sb : Superblock) (disk : Nat → Block) (table : Nat → Dinode) : Prop where
  geometry : sb.Geometry
  owned : Owned sb disk table ∅
  mapped : ∀ x < sb.ninodes, (table x).type ≠ 0 → (table x).type ≠ T_DEV → Mapped disk (table x) (table x).size
  free : ∀ x < sb.ninodes, (table x).type = 0 → ∀ i ≤ NDIRECT, (table x).addr i = 0

/-- Directory entries are inode numbers, too. -/
structure DiskInv (sb : Superblock) (disk : Nat → Block) (table : Nat → Dinode) : Prop
    extends blocks : BlocksInv sb disk table where
  entries : ∀ x < sb.ninodes, (table x).type = T_DIR → ∀ i, Dirent.SIZE * (i + 1) ≤ (table x).size →
    ((nodeOf disk (table x)).entry i).inum < sb.ninodes

variable {table : Nat → Dinode}

variable {e : Dinode}

section Nodes

theorem nodeOf_congr (mapped : d.type ≠ 0 → d.type ≠ T_DEV → Mapped disk d d.size)
    (slots : ∀ i < NSLOT, slot disk' d i = slot disk d i)
    (data : ∀ bn < MAXFILE, blockOf disk d bn ≠ 0 → disk' (blockOf disk d bn) = disk (blockOf disk d bn)) :
    nodeOf disk' d = nodeOf disk d := by
  unfold nodeOf
  congr 1
  funext o
  split
  next inside =>
    obtain ⟨bound, present⟩ := (mapped inside.2.1 inside.2.2).block_ne_zero inside.1
    rw [rawByte, blockOf, slots _ (slotOf_lt bound)]
    exact congrArg (Bytes.get · _) (data _ bound present)
  next => rfl

theorem Remap.node {extra : Set Nat}
    (remap : Remap sb disk disk' table x e extra)
    (mapped : (table y).type ≠ 0 → (table y).type ≠ T_DEV → Mapped disk (table y) (table y).size)
    (inside : y < sb.ninodes) (apart : y ≠ x) : nodeOf disk' (table y) = nodeOf disk (table y) :=
  nodeOf_congr mapped (remap.slots y inside apart) (remap.data y inside apart)

end Nodes

def held (s : State) (k : Fin NINODE) : Nat :=
  (∑ f, if (s.ftable f).type = .inode ∧ (s.ftable f).ip = k then 1 else 0) +
    ∑ p, if (s.procs p).cwd = some k then 1 else 0

structure CacheInv (ninodes : Nat) (icache : Fin NINODE → Inode) (table : Nat → Dinode) : Prop where
  cached : ∀ k, 0 < (icache k).ref → (icache k).valid = true →
    (icache k).toDinode = table (icache k).inum ∧ (icache k).type ≠ 0
  range : ∀ k, 0 < (icache k).ref → 0 < (icache k).inum ∧ (icache k).inum < ninodes
  unique : ∀ k l, 0 < (icache k).ref → 0 < (icache l).ref → (icache k).inum = (icache l).inum → k = l

structure RefInv (s : State) (temps : Multiset (Fin NINODE)) (locks : Finset (Fin NINODE)) : Prop where
  refs : ∀ k, (s.icache k).ref = held s k + temps.count k
  lock : ∀ k, (s.icache k).lock = true ↔ k ∈ locks
  locked : ∀ k ∈ locks, 0 < (s.icache k).ref ∧ (s.icache k).valid = true
  allocated : ∀ k, 0 < held s k → (s.dinode (s.icache k).inum).type ≠ 0
  writable : ∀ f, (s.ftable f).type = .inode → (s.ftable f).writable = true →
    (s.dinode (s.icache (s.ftable f).ip).inum).type ≠ T_DIR
  closed : ∀ f, (s.ftable f).ref = 0 → (s.ftable f).type = .none

structure Inv (s : State) (temps : Multiset (Fin NINODE)) (locks : Finset (Fin NINODE)) : Prop where
  disk : DiskInv s.sb s.disk s.dinode
  cache : CacheInv s.sb.ninodes s.icache s.dinode
  refs : RefInv s temps locks

variable {table' : Nat → Dinode}

variable {b : Nat}

namespace BlocksInv

theorem write_inode (inv : BlocksInv sb disk table) (before : b < sb.bmapstart) (data : Block) :
    BlocksInv sb (update disk b data) table ∧
      ∀ x < sb.ninodes, nodeOf (update disk b data) (table x) = nodeOf disk (table x) := by
  have order := sb.bmapstart_le_datastart
  have slots : ∀ x < sb.ninodes, ∀ i < NSLOT, slot (update disk b data) (table x) i = slot disk (table x) i :=
    inv.owned.slots_of_spared fun x _ _ area => update_of_ne (by omega) ..
  have nodes : ∀ x < sb.ninodes, nodeOf (update disk b data) (table x) = nodeOf disk (table x) := by
    intro x inside
    refine nodeOf_congr (inv.mapped x inside) (slots x inside) fun bn bound there => update_of_ne ?_ ..
    have := (inv.owned.area x inside _ (slotOf_lt bound) there).1
    exact fun same => absurd (same ▸ this : sb.datastart ≤ b) (by omega)
  refine ⟨⟨inv.geometry, inv.owned.congr slots fun c _ => inUse_update_inode before c, ?_, inv.free⟩, nodes⟩
  exact fun x inside used notDev => (inv.mapped x inside used notDev).congr (slots x inside)

theorem replace (inv : BlocksInv sb disk table) (remap : Remap sb disk disk' table x d ∅)
    (addrs : e.addrs = d.addrs)
    (mapped : e.type ≠ 0 → e.type ≠ T_DEV → Mapped disk' e e.size)
    (free : e.type = 0 → ∀ i ≤ NDIRECT, e.addr i = 0) :
    BlocksInv sb disk' (update table x e) := by
  have slots : ∀ y i, slot disk' (update table x e y) i = slot disk' (update table x d y) i := by
    intro y i
    by_cases same : y = x
    · rw [same, update_self, update_self, slot_of_addrs addrs]
    · rw [update_of_ne same, update_of_ne same]
  refine ⟨inv.geometry, remap.owned.congr (fun y _ i _ => slots y i) fun _ _ => rfl, ?_, ?_⟩
  · intro y inside
    by_cases same : y = x
    · rw [same, update_self]
      exact mapped
    · rw [update_of_ne same]
      exact fun used notDev => (inv.mapped y inside used notDev).congr (remap.slots y inside same)
  · intro y inside
    by_cases same : y = x
    · rw [same, update_self]
      exact free
    · rw [update_of_ne same]
      exact inv.free y inside

theorem remap_self (inv : BlocksInv sb disk table) (fits : (table x).Fits) : Remap sb disk disk table x (table x) ∅ where
  owned := by rw [update_eq_self]; exact inv.owned
  fields := rfl
  fits := fits
  slots := fun _ _ _ _ _ => rfl
  data := fun _ _ _ _ _ _ => rfl
  inodes := fun _ _ => rfl

theorem congr (inv : BlocksInv sb disk table) (same : ∀ y < sb.ninodes, table' y = table y) :
    BlocksInv sb disk table' where
  geometry := inv.geometry
  owned := inv.owned.congr (fun y inside i _ => by rw [same y inside]) fun _ _ => rfl
  mapped := fun y inside => by rw [same y inside]; exact inv.mapped y inside
  free := fun y inside => by rw [same y inside]; exact inv.free y inside

end BlocksInv

variable {s : State}

theorem BlocksInv.flush
    (inv : BlocksInv s.sb disk (update s.dinode x d)) (inside : x < s.sb.ninodes) (fits : d.Fits)
    (inodes : ∀ c < s.sb.bmapstart, disk c = s.disk c) :
    let disk' := update disk (s.sb.iblock x) (Dinode.write (disk (s.sb.iblock x)) (x % IPB) d)
    (∀ y < s.sb.ninodes, dinodeAt s.sb disk' y = update s.dinode x d y) ∧
    BlocksInv s.sb disk' (dinodeAt s.sb disk') ∧
    ∀ y < s.sb.ninodes, nodeOf disk' (dinodeAt s.sb disk' y) = nodeOf disk (update s.dinode x d y) := by
  intro disk'
  have before := inv.geometry.iblock_lt inside
  obtain ⟨flushed, nodes⟩ := inv.write_inode before (Dinode.write (disk (s.sb.iblock x)) (x % IPB) d)
  have table : ∀ y < s.sb.ninodes, dinodeAt s.sb disk' y = update s.dinode x d y := by
    intro y within
    have written := congrFun (dinodeAt_write s.sb disk x fits) y
    refine written.trans ?_
    by_cases same : y = x
    · rw [same, update_self, update_self]
    · rw [update_of_ne same, update_of_ne same]
      exact dinodeAt_congr inv.geometry inodes within
  exact ⟨table, flushed.congr table, fun y within => by rw [table y within]; exact nodes y within⟩

namespace DiskInv

theorem of_nodes (inv : DiskInv sb disk table) (blocks : BlocksInv sb disk' table') (node : Node)
    (nodes : ∀ y < sb.ninodes, nodeOf disk' (table' y) = update (fun y => nodeOf disk (table y)) x node y)
    (entries : node.type = T_DIR → ∀ i, Dirent.SIZE * (i + 1) ≤ node.size → (node.entry i).inum < sb.ninodes) :
    DiskInv sb disk' table' := by
  refine ⟨blocks, fun y inside dir i bound => ?_⟩
  change (nodeOf disk' (table' y)).type = T_DIR at dir
  change Dirent.SIZE * (i + 1) ≤ (nodeOf disk' (table' y)).size at bound
  rw [nodes y inside] at dir bound ⊢
  by_cases same : y = x
  · rw [same, update_self] at dir bound ⊢
    exact entries dir i bound
  · rw [update_of_ne same] at dir bound ⊢
    exact inv.entries y inside dir i bound

theorem write_inode (inv : DiskInv sb disk table) (before : b < sb.bmapstart) (data : Block) :
    DiskInv sb (update disk b data) table ∧
      ∀ x < sb.ninodes, nodeOf (update disk b data) (table x) = nodeOf disk (table x) := by
  obtain ⟨blocks, nodes⟩ := inv.blocks.write_inode before data
  refine ⟨⟨blocks, fun x inside dir i bound => ?_⟩, nodes⟩
  rw [nodes x inside]
  exact inv.entries x inside dir i bound

theorem replace (inv : DiskInv sb disk table) (remap : Remap sb disk disk' table x d ∅)
    (addrs : e.addrs = d.addrs)
    (mapped : e.type ≠ 0 → e.type ≠ T_DEV → Mapped disk' e e.size)
    (free : e.type = 0 → ∀ i ≤ NDIRECT, e.addr i = 0)
    (entries : e.type = T_DIR → ∀ i, Dirent.SIZE * (i + 1) ≤ e.size → ((nodeOf disk' e).entry i).inum < sb.ninodes) :
    DiskInv sb disk' (update table x e) := by
  apply inv.of_nodes (x := x) (inv.blocks.replace remap addrs mapped free) (nodeOf disk' e) _ entries
  intro y inside
  by_cases same : y = x
  · rw [same, update_self, update_self]
  · rw [update_of_ne same, update_of_ne same]
    exact remap.node (inv.mapped y inside) inside same

end DiskInv

theorem DiskInv.flush
    (inv : DiskInv s.sb disk (update s.dinode x d)) (inside : x < s.sb.ninodes) (fits : d.Fits)
    (inodes : ∀ c < s.sb.bmapstart, disk c = s.disk c) :
    let disk' := update disk (s.sb.iblock x) (Dinode.write (disk (s.sb.iblock x)) (x % IPB) d)
    (∀ y < s.sb.ninodes, dinodeAt s.sb disk' y = update s.dinode x d y) ∧
    DiskInv s.sb disk' (dinodeAt s.sb disk') ∧
    ∀ y < s.sb.ninodes, nodeOf disk' (dinodeAt s.sb disk' y) = nodeOf disk (update s.dinode x d y) := by
  obtain ⟨table, blocks, nodes⟩ := inv.blocks.flush inside fits inodes
  refine ⟨table, ⟨blocks, fun y within dir i bound => ?_⟩, nodes⟩
  rw [nodes y within]
  rw [table y within] at dir bound
  exact inv.entries y within dir i bound

variable {ninodes : Nat} {icache : Fin NINODE → Inode} {ip : Inode}

variable {k : Fin NINODE}

theorem CacheInv.change
    (inv : CacheInv ninodes icache table)
    (others : ∀ l, l ≠ k → 0 < (icache l).ref → table' (icache l).inum = table (icache l).inum)
    (cached : 0 < ip.ref → ip.valid = true → ip.toDinode = table' ip.inum ∧ ip.type ≠ 0)
    (range : 0 < ip.ref → 0 < ip.inum ∧ ip.inum < ninodes)
    (unique : ∀ l, l ≠ k → 0 < ip.ref → 0 < (icache l).ref → (icache l).inum ≠ ip.inum) :
    CacheInv ninodes (Function.update icache k ip) table' := by
  refine ⟨fun l => ?_, fun l => ?_, fun l m => ?_⟩
  · by_cases same : l = k
    · rw [same, update_self]
      exact cached
    · rw [update_of_ne same]
      intro ref valid
      rw [others l same ref]
      exact inv.cached l ref valid
  · by_cases same : l = k
    · rw [same, update_self]
      exact range
    · rw [update_of_ne same]
      exact inv.range l
  · by_cases first : l = k
    · by_cases second : m = k
      · exact fun _ _ _ => first.trans second.symm
      · rw [first, update_self, update_of_ne second]
        exact fun ref ref' inum => absurd inum.symm (unique m second ref ref')
    · by_cases second : m = k
      · rw [second, update_self, update_of_ne first]
        exact fun ref ref' inum => absurd inum (unique l first ref' ref)
      · rw [update_of_ne first, update_of_ne second]
        exact inv.unique l m

theorem CacheInv.update
    (inv : CacheInv ninodes icache table)
    (cached : 0 < ip.ref → ip.valid = true → ip.toDinode = table ip.inum ∧ ip.type ≠ 0)
    (range : 0 < ip.ref → 0 < ip.inum ∧ ip.inum < ninodes)
    (unique : ∀ l, l ≠ k → 0 < ip.ref → 0 < (icache l).ref → (icache l).inum ≠ ip.inum) :
    CacheInv ninodes (Function.update icache k ip) table :=
  inv.change (fun _ _ _ => rfl) cached range unique

theorem CacheInv.congr
    (inv : CacheInv ninodes icache table)
    (same : ∀ k, 0 < (icache k).ref → (icache k).valid = true → table' (icache k).inum = table (icache k).inum) :
    CacheInv ninodes icache table' where
  cached := fun k ref valid => by
    rw [same k ref valid]
    exact inv.cached k ref valid
  range := inv.range
  unique := inv.unique

section Refs

variable {temps temps' : Multiset (Fin NINODE)} {locks locks' : Finset (Fin NINODE)}

theorem held_of_file {f : Fin NFILE} (type : (s.ftable f).type = .inode) : 0 < held s (s.ftable f).ip := by
  refine Nat.add_pos_left (Nat.lt_of_lt_of_le Nat.zero_lt_one ?_) _
  have one := le_sum (fun g => if (s.ftable g).type = .inode ∧ (s.ftable g).ip = (s.ftable f).ip then 1 else 0) f
  rwa [if_pos ⟨type, rfl⟩] at one

theorem held_of_cwd {p : Fin NPROC} (cwd : (s.procs p).cwd = some k) : 0 < held s k := by
  refine Nat.add_pos_right _ (Nat.lt_of_lt_of_le Nat.zero_lt_one ?_)
  have one := le_sum (fun q => if (s.procs q).cwd = some k then 1 else 0) p
  rwa [if_pos cwd] at one

theorem RefInv.update (inv : RefInv s temps locks)
    (inum : ip.inum = (s.icache k).inum ∨ held s k = 0)
    (ref : ip.ref = held s k + temps'.count k) (counts : ∀ l, l ≠ k → temps'.count l = temps.count l)
    (lock : ip.lock = true ↔ k ∈ locks') (others : ∀ l, l ≠ k → (l ∈ locks' ↔ l ∈ locks))
    (locked : k ∈ locks' → 0 < ip.ref ∧ ip.valid = true) :
    RefInv { s with icache := Function.update s.icache k ip } temps' locks' where
  refs := fun l => by
    change (Function.update s.icache k ip l).ref = held s l + _
    by_cases same : l = k
    · rw [same, update_self, ref]
    · rw [update_of_ne same, inv.refs l, counts l same]
  lock := fun l => by
    change (Function.update s.icache k ip l).lock = true ↔ _
    by_cases same : l = k
    · rw [same, update_self, lock]
    · rw [update_of_ne same, inv.lock l, others l same]
  locked := fun l member => by
    change 0 < (Function.update s.icache k ip l).ref ∧ (Function.update s.icache k ip l).valid = true
    by_cases same : l = k
    · rw [same] at member ⊢
      rw [update_self]
      exact locked member
    · rw [update_of_ne same]
      exact inv.locked l ((others l same).mp member)
  allocated := fun l positive => by
    change (s.dinode (Function.update s.icache k ip l).inum).type ≠ 0
    change 0 < held s l at positive
    by_cases same : l = k
    · rw [same] at positive ⊢
      rw [update_self]
      obtain unchanged | none := inum
      · rw [unchanged]
        exact inv.allocated k positive
      · omega
    · rw [update_of_ne same]
      exact inv.allocated l positive
  writable := fun f type writable => by
    change (s.dinode (Function.update s.icache k ip (s.ftable f).ip).inum).type ≠ T_DIR
    have positive : 0 < held s (s.ftable f).ip := held_of_file type
    by_cases same : (s.ftable f).ip = k
    · have here := inv.writable f type writable
      rw [same] at positive here ⊢
      rw [update_self]
      obtain unchanged | none := inum
      · rwa [unchanged]
      · omega
    · rw [update_of_ne same]
      exact inv.writable f type writable
  closed := inv.closed

theorem RefInv.congr {t : State} (inv : RefInv s temps locks) (frame : t = { s with disk := t.disk, trace := t.trace })
    (used : ∀ k, 0 < held s k → (t.dinode (s.icache k).inum).type = (s.dinode (s.icache k).inum).type) :
    RefInv t temps locks := by
  have same : ∀ l, held t l = held s l := fun l => by rw [frame]; rfl
  have icache : t.icache = s.icache := by rw [frame]
  have ftable : t.ftable = s.ftable := by rw [frame]
  refine ⟨?_, ?_, ?_, ?_, ?_, ?_⟩
  · intro l
    rw [icache, same, inv.refs l]
  · intro l
    rw [icache, inv.lock l]
  · intro l member
    rw [icache]
    exact inv.locked l member
  · intro l positive
    rw [same] at positive
    rw [icache, used l positive]
    exact inv.allocated l positive
  · intro f type writable
    rw [ftable] at type writable
    rw [icache, ftable, used _ (held_of_file type)]
    exact inv.writable f type writable
  · intro f
    rw [ftable]
    exact inv.closed f

end Refs

end Xv6.Fs
