import Xv6.Fs.CacheOps

/-! `readi`, `writei` and `iupdate` on a locked inode, in terms of the node it holds. -/

namespace Xv6.Fs
open Lib Function

/-- What `readi` returns for anything but a device. -/
def Node.read (node : Node) (off n : Nat) : Option (List UInt8) :=
  if off > node.size ∨ (off + n) % 2 ^ 32 < off then none
  else some ((List.range (min n (node.size - off))).map fun i => node.byte (off + i))

def Node.write (node : Node) (off : Nat) (src : List UInt8) : Node :=
  { node with
    size := max node.size (off + src.length)
    byte := fun o => if off ≤ o ∧ o < off + src.length then src.getD (o - off) 0 else node.byte o }

def Node.Accepts (node : Node) (off n : Nat) : Prop :=
  off ≤ node.size ∧ off ≤ (off + n) % 2 ^ 32 ∧ off + n ≤ MAXFILE * BSIZE

instance (node : Node) (off n : Nat) : Decidable (node.Accepts off n) := inferInstanceAs (Decidable (_ ∧ _ ∧ _))

variable {d : Dinode} {stop : Stop → Prop} {t : State} {src : List UInt8}

variable {s : State} {temps : Multiset (Fin NINODE)} {locks : Finset (Fin NINODE)} {k : Fin NINODE}

section Console

theorem Inv.setTty (inv : Inv s temps locks) (tty : List (Option (List UInt8))) : Inv { s with tty := tty } temps locks :=
  ⟨inv.disk, inv.cache, ⟨inv.refs.refs, inv.refs.lock, inv.refs.locked, inv.refs.allocated, inv.refs.writable,
    inv.refs.closed⟩⟩

theorem inode_eta {ip : Inode} (dinode : ip.toDinode = d) (valid : ip.valid = true)
    (lock : ip.lock = true) : { ip with toDinode := d, valid := true, lock := true } = ip := by
  obtain ⟨d', inum, ref, lock', valid'⟩ := ip
  obtain rfl : d' = d := dinode
  obtain rfl : valid' = true := valid
  obtain rfl : lock' = true := lock
  rfl

section

variable (inv : Inv s temps locks) (locked : k ∈ locks)
include inv locked

theorem wp_relock {α : Type} {post : α → State → Prop} {next : FsM α}
    (unlocked : Inv t temps (locks.erase k))
    (state : t = { s with icache := update s.icache k { s.icache k with lock := false }, tty := t.tty })
    (rest : wp next post stop { s with tty := t.tty }) :
    wp (do ilock k; next) post stop t := by
  obtain ⟨ref, valid⟩ := inv.refs.locked k locked
  obtain ⟨same, type⟩ := inv.cache.cached k ref valid
  have here : t.icache k = { s.icache k with lock := false } := by rw [state]; exact update_self ..
  have dinode : t.dinode = s.dinode := by rw [state]; rfl
  refine wp_seq (wp_ilockEntry unlocked (k := k) ?_) ?_ ?_
  · rw [here]
    exact ref
  · rw [here, dinode]
    rintro e (⟨-, member⟩ | ⟨-, -, zero⟩)
    · exact absurd member (Finset.notMem_erase k locks)
    · exact absurd zero (same ▸ type)
  · rintro _ u ⟨-, -, rfl, -⟩
    have entry : lockedInode t k = s.icache k := by
      rw [lockedInode, here, dinode]
      exact inode_eta same valid ((inv.refs.lock k).mpr locked)
    have icache : update t.icache k (s.icache k) = s.icache := by
      rw [state]
      simp only [update_idem, update_eq_self]
    rw [entry, icache, state]
    exact rest

theorem wp_consoleread {n : Nat} :
    wp (consoleread k n) (fun _ t => t = { s with tty := t.tty }) (fun _ => False) s := by
  unfold consoleread
  rw [wp_bind, wp_get]
  refine wp_then (wp_iunlockEntry inv locked) ?_
  rintro _ t ⟨rfl, unlocked⟩
  rw [wp_bind, wp_modify]
  exact wp_relock inv locked (unlocked.setTty _) rfl (wp_pure.mpr rfl)

theorem wp_consolewrite :
    wp (consolewrite k src) (fun r t => r = some src.length ∧ t = s) (fun _ => False) s := by
  unfold consolewrite
  refine wp_then (wp_iunlockEntry inv locked) ?_
  rintro _ t ⟨rfl, unlocked⟩
  exact wp_relock inv locked unlocked rfl (wp_pure.mpr ⟨rfl, rfl⟩)

end

end Console

section Read

theorem wp_readi_mapped (same : (s.icache k).toDinode = s.dinode (s.icache k).inum) (type : (s.icache k).type ≠ 0)
    (file : (s.icache k).type ≠ T_DEV) (mapped : Mapped s.disk (s.icache k).toDinode (s.icache k).size) (off n : Nat) :
    wp (readi k off n) (fun r t => t = s ∧ r = (s.node (s.icache k).inum).read off n) (fun _ => False) s := by
  have size : (s.node (s.icache k).inum).size = (s.icache k).size := by
    rw [same]
    rfl
  unfold readi
  rw [wp_bind, wp_getInode, if_neg file]
  split
  next out =>
    refine wp_pure.mpr ⟨rfl, ?_⟩
    rw [Node.read, size, if_pos out]
  next ok =>
    have count : (if off + n > (s.icache k).size then (s.icache k).size - off else n) =
        min n ((s.icache k).size - off) := by
      rw [not_or] at ok
      split <;> omega
    rw [count]
    refine wp_bind.mpr (wp_readiLoop mapped _ _ _ (Nat.le_refl _) (by omega) (wp_pure.mpr ⟨rfl, ?_⟩))
    rw [Node.read, size, if_neg ok]
    refine congrArg some (List.map_congr_left fun i member => ?_)
    have below := List.mem_range.mp member
    rw [State.node, nodeOf, ← same]
    exact (if_pos ⟨by omega, type, file⟩).symm

theorem wp_readi (inv : Inv s temps locks) (locked : k ∈ locks) (off n : Nat) :
    wp (readi k off n) (fun r t => t = { s with tty := t.tty } ∧
      ((s.icache k).type ≠ T_DEV → t = s ∧ r = (s.node (s.icache k).inum).read off n)) (fun _ => False) s := by
  obtain ⟨same, type⟩ := inv.dinode_eq locked
  have inside := (inv.inum_range locked).2
  by_cases device : (s.icache k).type = T_DEV
  · unfold readi
    rw [wp_bind, wp_getInode, if_pos device]
    split
    · exact wp_pure.mpr ⟨rfl, fun other => absurd device other⟩
    · exact wp_mono (wp_consoleread inv locked) (fun _ _ frame => ⟨frame, fun other => absurd device other⟩)
        fun _ none => none
  · have mapped := inv.disk.mapped _ inside (same ▸ type) (same ▸ device)
    rw [← same] at mapped
    apply wp_mono (wp_readi_mapped same type device mapped off n) _ fun _ none => none
    rintro r t ⟨rfl, value⟩
    exact ⟨rfl, fun _ => ⟨rfl, value⟩⟩

end Read

variable {disk : Nat → Block} {e : Dinode}

section Replace

/-- The locked inode `k` has become `e`, in memory and on the disk. -/
def replaced (s : State) (disk : Nat → Block) (trace : List Event) (k : Fin NINODE) (e : Dinode) : State :=
  { s with disk := disk, trace := trace, icache := Function.update s.icache k { s.icache k with toDinode := e } }

def Replaced (s t : State) (k : Fin NINODE) : Prop :=
  ∃ disk trace e, Traced true true s.trace trace ∧ e.type = (s.icache k).type ∧ t = replaced s disk trace k e

theorem Replaced.refl (s : State) (k : Fin NINODE) : Replaced s s k := by
  refine ⟨s.disk, s.trace, (s.icache k).toDinode, .refl .., rfl, ?_⟩
  rw [replaced, update_eq_self]

theorem Replaced.frame (change : Replaced s t k) (temps : Multiset (Fin NINODE)) : Frame s t temps := by
  obtain ⟨disk, trace, e, traced, -, rfl⟩ := change
  exact ⟨rfl, rfl, rfl, rfl, rfl, traced, fun j _ => update_kept (by rfl) (by exact id) j⟩

theorem Replaced.type (change : Replaced s t k) (j : Fin NINODE) : (t.icache j).type = (s.icache j).type := by
  obtain ⟨disk, trace, e, -, type, rfl⟩ := change
  change (update s.icache k _ j).type = _
  by_cases same : j = k
  · rw [same, update_self]
    exact type
  · rw [update_of_ne same]

theorem Inv.inum_ne (inv : Inv s temps locks) {l : Fin NINODE} (ref : 0 < (s.icache k).ref)
    (ref' : 0 < (s.icache l).ref) (apart : l ≠ k) : (s.icache l).inum ≠ (s.icache k).inum :=
  fun same => apart (inv.cache.unique l k ref' ref same)

theorem Inv.replace (inv : Inv s temps locks) (locked : k ∈ locks) (trace : List Event)
    (after : DiskInv s.sb disk (dinodeAt s.sb disk))
    (table : ∀ y < s.sb.ninodes, dinodeAt s.sb disk y = update s.dinode (s.icache k).inum e y)
    (type : e.type = (s.icache k).type) : Inv (replaced s disk trace k e) temps locks := by
  obtain ⟨ref, valid⟩ := inv.refs.locked k locked
  obtain ⟨same, nonzero⟩ := inv.cache.cached k ref valid
  have types : ∀ y < s.sb.ninodes, (dinodeAt s.sb disk y).type = (s.dinode y).type := by
    intro y inside
    rw [table y inside]
    by_cases here : y = (s.icache k).inum
    · rw [here, update_self, type, same]
    · rw [update_of_ne here]
  have range := inv.cache.range k ref
  refine ⟨after, ?_, ?_⟩
  · refine inv.cache.change ?_ ?_ (fun _ => range) fun l apart _ ref' => inv.inum_ne ref ref' apart
    · intro l apart ref'
      rw [← update_of_ne (inv.inum_ne ref ref' apart) e s.dinode]
      exact table _ (inv.cache.range l ref').2
    · intro _ _
      refine ⟨?_, by rw [type]; exact nonzero⟩
      rw [← update_self (s.icache k).inum e s.dinode]
      exact (table _ range.2).symm
  · have onDisk : RefInv { s with disk := disk, trace := trace } temps locks := by
      refine inv.refs.congr rfl fun l positive => types _ (inv.cache.range l ?_).2
      have := inv.refs.refs l
      omega
    exact onDisk.update (.inl rfl) (inv.refs.refs k) (fun _ _ => rfl) (inv.refs.lock k) (fun _ _ => Iff.rfl)
      fun _ => ⟨ref, valid⟩

end Replace

section Update

def flushed (s : State) (disk : Nat → Block) (k : Fin NINODE) (e : Dinode) : Nat → Block :=
  Function.update disk (s.sb.iblock (s.icache k).inum)
    (Dinode.write (disk (s.sb.iblock (s.icache k).inum)) ((s.icache k).inum % IPB) e)

theorem wp_iupdate {post : Unit → State → Prop} (op : 0 < s.outstanding)
    (here : post () { s with
      disk := flushed s s.disk k (s.icache k).toDinode
      trace := .logWrite (s.sb.iblock (s.icache k).inum) :: s.trace }) :
    wp (iupdate k) post stop s := by
  unfold iupdate
  rw [wp_bind, wp_get, wp_bind, wp_getInode, wp_bind, wp_bread]
  exact wp_logWrite op here

def NodesSet (s t : State) (x : Nat) (node : Node) : Prop :=
  ∀ y < s.sb.ninodes, t.node y = Function.update s.node x node y

section

variable (inv : Inv s temps locks) (locked : k ∈ locks)
include inv locked

theorem Inv.flush (trace : List Event)
    (remap : Remap s.sb s.disk disk s.dinode (s.icache k).inum d ∅) (addrs : e.addrs = d.addrs) (fits : e.Fits)
    (type : e.type = (s.icache k).type)
    (mapped : e.type ≠ T_DEV → Mapped disk e e.size)
    (entries : e.type = T_DIR → ∀ i, Dirent.SIZE * (i + 1) ≤ e.size → ((nodeOf disk e).entry i).inum < s.sb.ninodes) :
    Inv (replaced s (flushed s disk k e) trace k e) temps locks ∧
      NodesSet s (replaced s (flushed s disk k e) trace k e) (s.icache k).inum (nodeOf disk e) := by
  have inside := (inv.inum_range locked).2
  have nonzero : e.type ≠ 0 := by rw [type]; exact (inv.dinode_eq locked).2
  have logical := inv.disk.replace remap addrs (fun _ => mapped) (fun zero => absurd zero nonzero) entries
  obtain ⟨table, after, nodes⟩ := logical.flush inside fits remap.inodes
  refine ⟨inv.replace locked trace after table type, fun y within => (nodes y within).trans ?_⟩
  by_cases here : y = (s.icache k).inum
  · rw [here, update_self, update_self]
  · rw [update_of_ne here, update_of_ne here]
    exact remap.node (inv.disk.mapped y within) within here

theorem wp_iupdateFields (op : 0 < s.outstanding)
    (fits : e.Fits) (type : e.type = (s.icache k).type) (size : e.size = (s.icache k).size)
    (addrs : e.addrs = (s.icache k).addrs) :
    wp (iupdate k) (fun _ t => Replaced s t k ∧ Inv t temps locks ∧
        NodesSet s t (s.icache k).inum
          { s.node (s.icache k).inum with major := e.major, minor := e.minor, nlink := e.nlink })
      (fun _ => False) { s with icache := update s.icache k { s.icache k with toDinode := e } } := by
  obtain ⟨same, nonzero⟩ := inv.dinode_eq locked
  have inside := (inv.inum_range locked).2
  have addresses : e.addrs = (s.dinode (s.icache k).inum).addrs := by rw [addrs, same]
  have node : nodeOf s.disk e =
      { s.node (s.icache k).inum with major := e.major, minor := e.minor, nlink := e.nlink } := by
    have bytes : ∀ o, rawByte s.disk e o = rawByte s.disk (s.dinode (s.icache k).inum) o := fun o => by
      rw [rawByte, blockOf, slot_of_addrs addresses, ← blockOf, rawByte]
    simp only [nodeOf, State.node, bytes, type, size, same]
  have mapped : e.type ≠ T_DEV → Mapped s.disk e e.size := by
    intro notDev
    have mapped := inv.disk.mapped _ inside (same ▸ nonzero) (by rw [← same, ← type]; exact notDev)
    rw [← same, ← size] at mapped
    exact mapped.of_addrs addrs
  have entries : e.type = T_DIR → ∀ i, Dirent.SIZE * (i + 1) ≤ e.size →
      ((nodeOf s.disk e).entry i).inum < s.sb.ninodes := by
    intro dir i bound
    rw [node]
    refine inv.disk.entries _ inside (by rw [← same, ← type, dir]) i ?_
    rw [← same, ← size]
    exact bound
  obtain ⟨after, nodes⟩ := inv.flush locked (.logWrite _ :: s.trace) (inv.disk.blocks.remap_self (x := (s.icache k).inum) (fits_dinode s _))
    addresses fits type mapped entries
  refine wp_iupdate op ?_
  simp only [flushed, update_self]
  rw [node] at nodes
  exact ⟨⟨_, _, _, .logWrite _, type, rfl⟩, after, nodes⟩

end

end Update

section Write

variable {off : Nat}

theorem nodeOf_written {disk' : Nat → Block} (type : d.type ≠ 0)
    (file : d.type ≠ T_DEV) (reach : off ≤ d.size)
    (fields : e = { d with size := max d.size (off + src.length), addrs := e.addrs })
    (bytes : ∀ o < max d.size (off + src.length), rawByte disk' e o =
      if off ≤ o ∧ o < off + src.length then src.getD (o - off) 0 else rawByte disk d o) :
    nodeOf disk' e = (nodeOf disk d).write off src := by
  have size : e.size = max d.size (off + src.length) := by rw [fields]
  have sameType : e.type = d.type := by rw [fields]
  ext o
  case type => exact sameType
  case major => rw [fields]; rfl
  case minor => rw [fields]; rfl
  case nlink => rw [fields]; rfl
  case size => exact size
  case byte =>
    simp only [nodeOf, Node.write, size, sameType, type, file, ne_eq, not_false_iff, and_true]
    by_cases below : o < max d.size (off + src.length)
    · rw [if_pos below, bytes o below]
      split
      · rfl
      · rw [if_pos (by omega)]
    · rw [if_neg below, if_neg (by omega), if_neg (by omega)]

/-- From `s` to `u` the inode at `k` was written back, and is `node` now. -/
structure Rewritten (s u : State) (k : Fin NINODE) (node : Node) : Prop where
  blocks : BlocksInv s.sb u.disk (dinodeAt s.sb u.disk)
  change : ∃ e, e.type = (s.icache k).type ∧ u = replaced s u.disk u.trace k e ∧
    ∀ y < s.sb.ninodes, dinodeAt s.sb u.disk y = Function.update s.dinode (s.icache k).inum e y
  trace : Traced true true s.trace u.trace
  nodes : NodesSet s u (s.icache k).inum node

section

variable (inv : BlocksInv s.sb s.disk s.dinode) (inside : (s.icache k).inum < s.sb.ninodes) (same : (s.icache k).toDinode = s.dinode (s.icache k).inum) (nonzero : (s.icache k).type ≠ 0)
include inv inside same nonzero

theorem BlocksInv.wp_growSize
    (op : 0 < s.outstanding) (reach : off ≤ (s.icache k).size) (room : off + src.length ≤ MAXFILE * BSIZE)
    (remapped : Remapped s t k s.dinode (s.icache k).inum d)
    (mapped : Mapped t.disk d (max (s.icache k).size (off + src.length)))
    (still : off + src.length ≤ (s.icache k).size → d = s.dinode (s.icache k).inum)
    (node : nodeOf t.disk { d with size := max (s.icache k).size (off + src.length) } =
      (s.node (s.icache k).inum).write off src) :
    wp (growSize k (off + src.length) src.length) (fun _ u => Rewritten s u k ((s.node (s.icache k).inum).write off src))
      (fun _ => False) t := by
  have size : d.size = (s.icache k).size := by rw [remapped.fields, same]
  have type : d.type = (s.icache k).type := by rw [remapped.fields, same]
  have entry : t.icache k = { s.icache k with toDinode := d } := by rw [remapped.icache, update_self]
  have others : ∀ y < s.sb.ninodes, y ≠ (s.icache k).inum → nodeOf t.disk (s.dinode y) = s.node y := fun y within apart =>
    remapped.toRemap.node (inv.mapped y within) within apart
  unfold growSize
  rw [wp_bind, wp_getInode, entry]
  split
  next grows =>
    have larger : max (s.icache k).size (off + src.length) = off + src.length := by
      rw [← size]
      exact Nat.max_eq_right (Nat.le_of_lt grows.2)
    rw [larger] at mapped node
    have fits : ({ d with size := off + src.length } : Dinode).Fits :=
      { remapped.fits with size := Nat.lt_of_le_of_lt room (by decide) }
    have logical := inv.replace remapped.toRemap (e := { d with size := off + src.length }) rfl
      (fun _ _ => mapped.of_addrs rfl) (fun zero => absurd zero (by rw [type]; exact nonzero))
    obtain ⟨table, after, nodes⟩ := logical.flush inside fits remapped.inodes
    rw [wp_bind, wp_setInode]
    refine wp_iupdate (by rw [remapped.frame]; exact op) ?_
    rw [remapped.frame]
    simp only [flushed, update_self, update_idem]
    refine ⟨after, ⟨{ d with size := off + src.length }, type, rfl, table⟩, remapped.trace.trans (.logWrite _), ?_⟩
    intro y within
    refine (nodes y within).trans ?_
    by_cases here : y = (s.icache k).inum
    · rw [here, update_self, update_self]
      exact node
    · rw [update_of_ne here, update_of_ne here]
      exact others y within here
  next stays =>
    have atMost : off + src.length ≤ (s.icache k).size := by
      have : d.size = (s.icache k).size := size
      by_cases empty : src.length = 0
      · omega
      · have := not_and.mp stays (Nat.pos_of_ne_zero empty)
        simp only [not_lt] at this
        omega
    have whole : max (s.icache k).size (off + src.length) = d.size := by rw [size]; exact Nat.max_eq_left atMost
    rw [whole] at mapped node
    have sameNode : nodeOf t.disk d = (s.node (s.icache k).inum).write off src := node
    have unchanged : update s.dinode (s.icache k).inum d = s.dinode := by
      rw [still atMost, update_eq_self]
    have table : ∀ y < s.sb.ninodes, dinodeAt s.sb t.disk y = s.dinode y := fun y within =>
      dinodeAt_congr inv.geometry remapped.inodes within
    have logical := inv.replace remapped.toRemap rfl (fun _ _ => mapped)
      (fun zero => absurd zero (by rw [type]; exact nonzero))
    rw [unchanged] at logical
    rw [wp_pure]
    refine ⟨logical.congr table, ⟨d, type, remapped.frame, fun y within => by rw [unchanged, table y within]⟩,
      remapped.trace, fun y within => ?_⟩
    have sb : t.sb = s.sb := by rw [remapped.frame]
    rw [State.node, State.dinode, sb, table y within]
    by_cases here : y = (s.icache k).inum
    · rw [here, update_self, ← still atMost, sameNode]
    · rw [update_of_ne here]
      exact others y within here

theorem BlocksInv.wp_writei
    (file : (s.icache k).type ≠ T_DEV) (op : 0 < s.outstanding)
    (accepts : (s.node (s.icache k).inum).Accepts off src.length) :
    wp (writei k src off) (fun r u => r = some src.length ∧ Rewritten s u k ((s.node (s.icache k).inum).write off src))
      (fun e => e = .panic "balloc: out of blocks" ∧ freeBlocks s.sb s.disk + need (s.icache k).size <
        need (max (s.icache k).size (off + src.length))) s := by
  have size : (s.node (s.icache k).inum).size = (s.icache k).size := by rw [same]; rfl
  obtain ⟨reach, whole, room⟩ := accepts
  rw [size] at reach
  unfold writei
  rw [wp_bind, wp_getInode, if_neg file, if_neg (by omega), if_neg (by omega)]
  have type : (s.dinode (s.icache k).inum).type ≠ 0 := same ▸ nonzero
  have notDev : (s.dinode (s.icache k).inum).type ≠ T_DEV := same ▸ file
  have reach' : off ≤ (s.dinode (s.icache k).inum).size := by rwa [← same]
  have loop := wp_writeiLoop inv.owned inv.geometry inside (fits_dinode s _) same op src.length _ off src
    (inv.mapped _ inside type notDev) reach' (Nat.le_refl _) room
  refine wp_seq loop (fun e stopped => by rwa [← same] at stopped) ?_
  rintro _ t ⟨d, remapped, mapped, still, bytes⟩
  have node : nodeOf t.disk { d with size := max (s.dinode (s.icache k).inum).size (off + src.length) } =
      (s.node (s.icache k).inum).write off src :=
    nodeOf_written type notDev reach' (by rw [remapped.fields]) bytes
  rw [← same] at mapped node
  refine wp_then (inv.wp_growSize inside same nonzero op reach room remapped mapped (by rw [same]; exact still) node) ?_
  intro _ u rewritten
  exact wp_pure.mpr ⟨rfl, rewritten⟩

end

theorem wp_writei_refused (file : (s.icache k).type ≠ T_DEV)
    (refused : ¬ (off ≤ (s.icache k).size ∧ off ≤ (off + src.length) % 2 ^ 32 ∧ off + src.length ≤ MAXFILE * BSIZE)) :
    wp (writei k src off) (fun r t => r = none ∧ t = s) stop s := by
  unfold writei
  rw [wp_bind, wp_getInode, if_neg file]
  split
  next => exact wp_pure.mpr ⟨rfl, rfl⟩
  next =>
    split
    next => exact wp_pure.mpr ⟨rfl, rfl⟩
    next => omega

theorem Rewritten.inv {u : State} {node : Node} (rewritten : Rewritten s u k node) (inv : Inv s temps locks)
    (locked : k ∈ locks)
    (entries : node.type = T_DIR → ∀ i, Dirent.SIZE * (i + 1) ≤ node.size → (node.entry i).inum < s.sb.ninodes) :
    Inv u temps locks ∧ Replaced s u k := by
  obtain ⟨e, type, state, table⟩ := rewritten.change
  have sb : u.sb = s.sb := by rw [state]; rfl
  have nodes := rewritten.nodes
  unfold NodesSet State.node State.dinode at nodes
  rw [sb] at nodes
  have after := inv.disk.of_nodes rewritten.blocks node nodes entries
  refine ⟨?_, u.disk, u.trace, e, rewritten.trace, type, state⟩
  rw [state]
  exact inv.replace locked u.trace after table type

theorem wp_writei (inv : Inv s temps locks) (locked : k ∈ locks) (op : 0 < s.outstanding) (src : List UInt8) (off : Nat)
    (entries : (s.icache k).type = T_DIR → (s.node (s.icache k).inum).Accepts off src.length →
      ∀ i, Dirent.SIZE * (i + 1) ≤ ((s.node (s.icache k).inum).write off src).size →
        (((s.node (s.icache k).inum).write off src).entry i).inum < s.sb.ninodes) :
    wp (writei k src off) (fun r t => Inv t temps locks ∧ Replaced s t k ∧
        ((s.icache k).type = T_DEV → t = s) ∧
        ((s.icache k).type ≠ T_DEV → (s.node (s.icache k).inum).Accepts off src.length → r = some src.length ∧
          NodesSet s t (s.icache k).inum ((s.node (s.icache k).inum).write off src)) ∧
        ((s.icache k).type ≠ T_DEV → ¬ (s.node (s.icache k).inum).Accepts off src.length → r = none ∧ t = s))
      (fun e => e = .panic "balloc: out of blocks" ∧ (s.node (s.icache k).inum).Accepts off src.length) s := by
  obtain ⟨same, nonzero⟩ := inv.dinode_eq locked
  have inside := (inv.inum_range locked).2
  have unchanged := Replaced.refl s k
  have size : (s.node (s.icache k).inum).size = (s.icache k).size := by rw [same]; rfl
  by_cases device : (s.icache k).type = T_DEV
  · unfold writei
    rw [wp_bind, wp_getInode, if_pos device]
    split
    · exact wp_pure.mpr ⟨inv, unchanged, fun _ => rfl, fun other => absurd device other, fun other => absurd device other⟩
    · refine wp_mono (wp_consolewrite inv locked) ?_ fun _ none => none.elim
      rintro r _ ⟨-, rfl⟩
      exact ⟨inv, unchanged, fun _ => rfl, fun other => absurd device other, fun other => absurd device other⟩
  by_cases accepts : (s.node (s.icache k).inum).Accepts off src.length
  · apply wp_mono (inv.disk.blocks.wp_writei inside same nonzero device op accepts) _ fun e stopped => ⟨stopped.1, accepts⟩
    rintro r u ⟨rfl, rewritten⟩
    have type : ((s.node (s.icache k).inum).write off src).type = (s.icache k).type := by rw [same]; rfl
    obtain ⟨after, state⟩ := rewritten.inv inv locked fun dir => entries (type ▸ dir) accepts
    exact ⟨after, state, fun other => absurd other device, fun _ _ => ⟨rfl, rewritten.nodes⟩,
      fun _ refused => absurd accepts refused⟩
  · apply wp_mono (wp_writei_refused device (size ▸ accepts)) _ fun _ (none : False) => none.elim
    intro r t refused
    exact ⟨refused.2 ▸ inv, refused.2 ▸ unchanged, fun _ => refused.2, fun _ yes => absurd yes accepts, fun _ _ => refused⟩

end Write

end Xv6.Fs
