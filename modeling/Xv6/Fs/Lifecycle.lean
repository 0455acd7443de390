import Xv6.Fs.ContentOps

/-! `ialloc` and `iput`: how an inode comes to be allocated and how it is freed. -/

namespace Xv6.Fs
open Lib Function

def Node.new (type : Nat) : Node := ⟨type, 0, 0, 0, 0, fun _ => 0⟩

def Node.freed (node : Node) : Node := { node with type := 0, size := 0, byte := fun _ => 0 }

def Dropped (s : State) (k : Fin NINODE) : Prop :=
  (s.icache k).valid = true ∧ (s.icache k).nlink = 0 ∧ (s.icache k).ref = 1

instance (s : State) (k : Fin NINODE) : Decidable (Dropped s k) := inferInstanceAs (Decidable (_ ∧ _ ∧ _))

variable {d : Dinode} {x : Nat}

variable {temps : Multiset (Fin NINODE)} {locks : Finset (Fin NINODE)} {disk : Nat → Block}

section Ialloc

variable {s : State}

theorem addrs_eq_zero (zero : ∀ i ≤ NDIRECT, d.addr i = 0) : d.addrs = fun _ => 0 := by
  funext j
  have here := zero j.val (Nat.le_of_lt_succ j.isLt)
  rwa [Dinode.addr, dif_pos j.isLt] at here

theorem mapped_zero (zero : ∀ i ≤ NDIRECT, d.addr i = 0) : Mapped disk d 0 where
  fits := Nat.zero_le _
  blocks := fun bn _ => by
    refine ⟨fun nonzero => absurd ?_ nonzero, fun below => absurd below (Nat.not_lt_zero _)⟩
    unfold blockOf slot
    split
    next direct => exact zero _ (Nat.le_of_lt_succ direct)
    next => exact if_pos (zero NDIRECT (Nat.le_refl _))
  indirect := ⟨fun nonzero => absurd (zero NDIRECT (Nat.le_refl _)) nonzero, fun below => absurd below (Nat.not_lt_zero _)⟩

theorem noEntries {size i : Nat} (zero : size = 0) : ¬ Dirent.SIZE * (i + 1) ≤ size := by
  have : 0 < Dirent.SIZE * (i + 1) := Nat.mul_pos (by decide) (Nat.succ_pos i)
  omega

variable {type : Nat}

theorem Inv.allocate (inv : Inv s temps locks) (inside : x < s.sb.ninodes)
    (free : (s.dinode x).type = 0) (small : type < 2 ^ 16) :
    let t := { s with
      disk := update s.disk (s.sb.iblock x)
        (Dinode.write (s.disk (s.sb.iblock x)) (x % IPB) { Dinode.free with type := type })
      trace := .logWrite (s.sb.iblock x) :: s.trace }
    Inv t temps locks ∧ NodesSet s t x (Node.new type) := by
  intro t
  have zero := inv.disk.free x inside free
  have none : ∀ i ≤ NDIRECT, ({ Dinode.free with type := type } : Dinode).addr i = 0 := by
    intro i _
    unfold Dinode.addr
    split <;> rfl
  have fits : ({ Dinode.free with type := type } : Dinode).Fits := { Dinode.fits_free with type := small }
  have logical := inv.disk.replace (inv.disk.blocks.remap_self (x := x) (fits_dinode s x))
    (e := { Dinode.free with type := type }) (addrs_eq_zero zero).symm (fun _ _ => mapped_zero none)
    (fun _ => none) (fun _ i bound => absurd bound (noEntries rfl))
  obtain ⟨table, after, nodes⟩ := logical.flush inside fits fun _ _ => rfl
  have others : ∀ k, 0 < (s.icache k).ref → (s.dinode (s.icache k).inum).type ≠ 0 →
      t.dinode (s.icache k).inum = s.dinode (s.icache k).inum := by
    intro k ref used
    have apart : (s.icache k).inum ≠ x := fun same => used (same ▸ free)
    exact (table _ (inv.cache.range k ref).2).trans (update_of_ne apart ..)
  refine ⟨⟨after, inv.cache.congr fun k ref valid => ?_, inv.refs.congr rfl fun k positive => ?_⟩, ?_⟩
  · have := inv.cache.cached k ref valid
    exact others k ref (this.1 ▸ this.2)
  · rw [others k (by have := inv.refs.refs k; omega) (inv.refs.allocated k positive)]
  · intro y within
    refine (nodes y within).trans ?_
    by_cases here : y = x
    · rw [here, update_self, update_self]
      simp only [nodeOf, Node.new, Dinode.free, Nat.not_lt_zero, false_and, if_false]
    · rw [update_of_ne here, update_of_ne here]
      rfl

def firstFree (s : State) (inum count : Nat) : Option Nat :=
  (List.range' inum count).find? fun x => decide ((s.node x).type = 0)

theorem wp_iallocFrom (inv : Inv s temps locks) (op : 0 < s.outstanding)
    (small : type < 2 ^ 16) (inum count : Nat) (positive : 0 < inum) (enough : inum + count ≤ s.sb.ninodes) :
    wp (iallocFrom type inum count) (fun k t => ∃ x, firstFree s inum count = some x ∧ ¬ Full (s.used temps) x ∧
        x < s.sb.ninodes ∧ Inv t (k ::ₘ temps) locks ∧ Frame s t temps ∧ (t.icache k).inum = x ∧
        NodesSet s t x (Node.new type))
      (fun e => (e = .panic "ialloc: no inodes" ∧ firstFree s inum count = none) ∨
        (e = .panic "iget: no inodes" ∧ ∃ x, firstFree s inum count = some x ∧ Full (s.used temps) x)) s := by
  induction count generalizing inum with
  | zero =>
    unfold iallocFrom
    exact wp_panic.mpr (.inl ⟨rfl, rfl⟩)
  | succ count ih =>
    have first : firstFree s inum (count + 1) = if (s.node inum).type = 0 then some inum else firstFree s (inum + 1) count := by
      rw [firstFree, List.range'_succ, List.find?_cons]
      by_cases free : (s.node inum).type = 0
      · rw [decide_eq_true free, if_pos free]
      · rw [decide_eq_false free, if_neg free]
        rfl
    unfold iallocFrom
    rw [wp_bind, wp_get, wp_bind, wp_bread]
    split
    next free =>
      have inside : inum < s.sb.ninodes := by omega
      have found : firstFree s inum (count + 1) = some inum := first.trans (if_pos free)
      obtain ⟨after, nodes⟩ := inv.allocate inside free small
      refine wp_bind.mpr (wp_logWrite op ?_)
      refine wp_mono (wp_iget after ⟨positive, inside⟩) ?_ fun _ stopped => .inr ⟨stopped.1, inum, found, stopped.2⟩
      rintro k t ⟨inv', quiet, here, room⟩
      refine ⟨inum, found, room, inside, inv', ?_, here, ?_⟩
      · exact { quiet.toFrame with trace := (Traced.logWrite _).trans quiet.trace }
      · intro y within
        rw [← nodes y within, State.node, State.dinode, quiet.sb, quiet.disk]
        rfl
    next taken =>
      rw [first, if_neg (show ¬ (s.node inum).type = 0 from taken)]
      exact ih (inum + 1) (Nat.succ_pos _) (by omega)

theorem wp_ialloc (inv : Inv s temps locks) (op : 0 < s.outstanding)
    (small : type < 2 ^ 16) :
    wp (ialloc type) (fun k t => ∃ x, firstFree s 1 (s.sb.ninodes - 1) = some x ∧ ¬ Full (s.used temps) x ∧
        x < s.sb.ninodes ∧ Inv t (k ::ₘ temps) locks ∧ Frame s t temps ∧ (t.icache k).inum = x ∧
        NodesSet s t x (Node.new type))
      (fun e => (e = .panic "ialloc: no inodes" ∧ firstFree s 1 (s.sb.ninodes - 1) = none) ∨
        (e = .panic "iget: no inodes" ∧ ∃ x, firstFree s 1 (s.sb.ninodes - 1) = some x ∧ Full (s.used temps) x)) s := by
  unfold ialloc
  rw [wp_bind, wp_get]
  have := inv.disk.geometry.root
  exact wp_iallocFrom inv op small 1 _ Nat.zero_lt_one (by omega)

end Ialloc

section Iput

variable {s : State} {k : Fin NINODE}

theorem Inv.dropInode (inv : Inv s (k ::ₘ temps) locks) (unlocked : k ∉ locks) (last : (s.icache k).ref = 1)
    {ip : Inode} (trace : List Event) (after : DiskInv s.sb disk (dinodeAt s.sb disk))
    (table : ∀ y < s.sb.ninodes, y ≠ (s.icache k).inum → dinodeAt s.sb disk y = s.dinode y)
    (ref : ip.ref = 0) (lock : ip.lock = false) (inum : ip.inum = (s.icache k).inum) :
    Inv { s with disk := disk, trace := trace, icache := update s.icache k ip } temps locks := by
  have count := inv.refs.refs k
  rw [Multiset.count_cons_self] at count
  have apart : ∀ l, l ≠ k → 0 < (s.icache l).ref → dinodeAt s.sb disk (s.icache l).inum = s.dinode (s.icache l).inum :=
    fun l other ref' => table _ (inv.cache.range l ref').2 (inv.inum_ne (by omega) ref' other)
  refine ⟨after, inv.cache.change apart (by omega) (by omega) (by omega), ?_⟩
  have onDisk : RefInv { s with disk := disk, trace := trace } (k ::ₘ temps) locks := by
    refine inv.refs.congr rfl fun l positive => ?_
    have other : l ≠ k := by
      rintro rfl
      omega
    exact congrArg Dinode.type (apart l other (by have := inv.refs.refs l; omega))
  refine onDisk.update (.inl inum) ?_ (fun l other => (Multiset.count_cons_of_ne other temps).symm) ?_
    (fun _ _ => Iff.rfl) fun member => absurd member unlocked
  · change ip.ref = held s k + _
    omega
  · rw [lock]
    exact ⟨fun wrong => (nomatch wrong), fun member => absurd member unlocked⟩

theorem Inv.dropRef (inv : Inv s (k ::ₘ temps) locks) (unlocked : k ∉ locks) (trace : List Event) :
    Inv { s with
      trace := trace
      icache := update s.icache k { s.icache k with ref := (s.icache k).ref - 1, lock := false } } temps locks := by
  have count := inv.refs.refs k
  rw [Multiset.count_cons_self] at count
  have ref : 0 < (s.icache k).ref := by omega
  refine ⟨inv.disk, ?_, ?_⟩
  · exact inv.cache.update (fun _ => inv.cache.cached k ref) (fun _ => inv.cache.range k ref)
      fun l apart _ ref' => inv.inum_ne ref ref' apart
  · have traced : RefInv { s with trace := trace } (k ::ₘ temps) locks := inv.refs.congr rfl fun _ _ => rfl
    refine traced.update (.inl rfl) ?_ (fun l other => (Multiset.count_cons_of_ne other temps).symm) ?_
      (fun _ _ => Iff.rfl) fun member => absurd member unlocked
    · change (s.icache k).ref - 1 = held s k + _
      omega
    · exact ⟨fun wrong => (nomatch wrong), fun member => absurd member unlocked⟩

theorem wp_itruncBlocks {α : Type} {post : α → State → Prop} {stop : Stop → Prop} {next : FsM α} {table : Nat → Dinode}
    (owned : Owned s.sb s.disk table ∅) (inside : x < s.sb.ninodes) (fits : (table x).Fits)
    (cached : (s.icache k).toDinode = table x) (op : 0 < s.outstanding)
    (rest : ∀ t d, Remapped s t k table x d → (∀ i ≤ NDIRECT, d.addr i = 0) → wp next post stop t) :
    wp (do itruncDirect k; itruncIndirect k; next) post stop s := by
  refine wp_then (wp_itruncDirect owned inside fits cached op) ?_
  rintro _ t ⟨d, remapped, direct⟩
  refine wp_then (wp_itruncIndirect remapped inside op) ?_
  rintro _ u ⟨e, remapped', indirect⟩
  refine rest u e remapped' fun i bound => ?_
  rw [indirect i]
  split
  · rfl
  · rw [direct i, if_pos (by omega)]

/-- The inode `x` is free on `disk`, and nothing else has changed. -/
structure Freed (s : State) (disk : Nat → Block) (x : Nat) : Prop where
  inv : DiskInv s.sb disk (dinodeAt s.sb disk)
  table : ∀ y < s.sb.ninodes, y ≠ x → dinodeAt s.sb disk y = s.dinode y
  nodes : ∀ y < s.sb.ninodes, nodeOf disk (dinodeAt s.sb disk y) = Function.update s.node x (s.node x).freed y

variable {t : State}

theorem Remapped.freed (disk : DiskInv s.sb s.disk s.dinode)
    (inside : x < s.sb.ninodes) (remapped : Remapped s t k s.dinode x d) (zero : ∀ i ≤ NDIRECT, d.addr i = 0) :
    let write := fun disk e => update disk (s.sb.iblock x) (Dinode.write (disk (s.sb.iblock x)) (x % IPB) e)
    Freed s (write (write t.disk { d with size := 0 }) { d with size := 0, type := 0 }) x := by
  intro write
  have fits : ({ d with size := 0 } : Dinode).Fits := { remapped.fits with size := Nat.two_pow_pos 32 }
  have first := disk.replace remapped.toRemap (e := { d with size := 0 }) rfl (fun _ _ => mapped_zero zero)
    (fun _ => zero) fun _ i bound => absurd bound (noEntries rfl)
  obtain ⟨table, after, nodes⟩ := first.flush inside fits remapped.inodes
  have here : dinodeAt s.sb (write t.disk { d with size := 0 }) x = { d with size := 0 } :=
    (table x inside).trans (update_self ..)
  have second := after.replace (after.blocks.remap_self (x := x) (Dinode.fits_read ..)) (e := { d with size := 0, type := 0 })
    (by rw [here]) (fun nonzero => absurd rfl nonzero) (fun _ => zero) fun _ i bound => absurd bound (noEntries rfl)
  obtain ⟨table', after', nodes'⟩ := DiskInv.flush (s := { s with disk := write t.disk { d with size := 0 } }) second
    inside { fits with type := Nat.two_pow_pos 16 } fun _ _ => rfl
  refine ⟨after', fun y within apart => ?_, fun y within => ?_⟩
  · rw [table' y within, update_of_ne apart]
    exact (table y within).trans (update_of_ne apart ..)
  · refine (nodes' y within).trans ?_
    by_cases same : y = x
    · rw [same, update_self, update_self, State.node, remapped.fields]
      simp only [nodeOf, Node.freed, Nat.not_lt_zero, false_and, if_false]
    · rw [update_of_ne same, update_of_ne same]
      refine (nodes y within).trans ?_
      rw [update_of_ne same]
      exact remapped.toRemap.node (disk.mapped y within) within same

theorem wp_dropInode (disk : DiskInv s.sb s.disk s.dinode) (inside : (s.icache k).inum < s.sb.ninodes)
    (cached : (s.icache k).toDinode = s.dinode (s.icache k).inum) (op : 0 < s.outstanding) :
    wp (do
        itrunc k
        let ip ← getInode k
        setInode k { ip with type := 0 }
        iupdate k
        let ip ← getInode k
        setInode k { ip with valid := false })
      (fun _ t => ∃ disk trace ip, t = { s with disk := disk, trace := trace, icache := update s.icache k ip } ∧
        Traced true true s.trace trace ∧ ip.inum = (s.icache k).inum ∧ ip.ref = (s.icache k).ref ∧ ip.valid = false ∧
        Freed s disk (s.icache k).inum)
      (fun _ => False) s := by
  unfold itrunc
  simp only [bind_assoc]
  refine wp_itruncBlocks disk.owned inside (fits_dinode s _) cached op fun t d remapped zero => ?_
  have outstanding : t.outstanding = s.outstanding := by rw [remapped.frame]
  rw [wp_bind, wp_getInode, wp_bind, wp_setInode]
  refine wp_bind.mpr (wp_iupdate (by rw [outstanding]; exact op) ?_)
  rw [wp_bind, wp_getInode, wp_bind, wp_setInode]
  refine wp_bind.mpr (wp_iupdate (by rw [outstanding]; exact op) ?_)
  rw [wp_bind, wp_getInode, wp_setInode]
  have freed := remapped.freed disk inside zero
  simp only [update_self, update_idem] at freed
  rw [remapped.frame]
  simp only [flushed, update_self, update_idem]
  exact ⟨_, _, _, rfl, (remapped.trace.trans (.logWrite _)).trans (.logWrite _), rfl, rfl, rfl, freed⟩

theorem wp_iputFree (disk : DiskInv s.sb s.disk s.dinode) (inside : (s.icache k).inum < s.sb.ninodes)
    (cached : (s.icache k).valid = true → (s.icache k).toDinode = s.dinode (s.icache k).inum)
    (op : 0 < s.outstanding) :
    wp (iputFree k) (fun _ t => (¬ Dropped s k → t = s) ∧ (Dropped s k → ∃ disk trace ip,
        t = { s with disk := disk, trace := trace, icache := update s.icache k ip } ∧
        Traced true true s.trace trace ∧ ip.inum = (s.icache k).inum ∧
        ip.ref = (s.icache k).ref ∧ Freed s disk (s.icache k).inum))
      (fun _ => False) s := by
  unfold iputFree
  rw [wp_bind, wp_getInode]
  split
  next dropped =>
    refine wp_mono (wp_dropInode disk inside (cached dropped.1) op) ?_ fun _ none => none
    rintro _ t ⟨disk', trace, ip, same, traced, inum, ref, -, freed⟩
    exact ⟨fun kept => absurd dropped kept, fun _ => ⟨disk', trace, ip, same, traced, inum, ref, freed⟩⟩
  next kept => exact wp_pure.mpr ⟨fun _ => rfl, fun dropped => absurd dropped kept⟩

/-- What `iput` does to the state, whatever else is in it. -/
def Put (s t : State) (k : Fin NINODE) : Prop :=
  ∃ disk trace ip, t = { s with disk := disk, trace := trace, icache := Function.update s.icache k ip } ∧
    Traced true true s.trace trace ∧
    (Dropped s k → ip.inum = (s.icache k).inum ∧ ip.ref = 0 ∧ ip.lock = false ∧ Freed s disk (s.icache k).inum) ∧
    (¬ Dropped s k → ip = { s.icache k with ref := (s.icache k).ref - 1, lock := false } ∧ disk = s.disk)

theorem Put.procs (put : Put s t k) (procs : Fin NPROC → Proc) :
    Put { s with procs := procs } { t with procs := procs } k := by
  obtain ⟨disk, trace, ip, rfl, traced, frees, keeps⟩ := put
  refine ⟨disk, trace, ip, rfl, traced, fun dropped => ?_, keeps⟩
  obtain ⟨inum, ref, lock, freed⟩ := frees dropped
  exact ⟨inum, ref, lock, freed.inv, freed.table, freed.nodes⟩

theorem wp_iputPut (disk : DiskInv s.sb s.disk s.dinode) (inside : (s.icache k).inum < s.sb.ninodes)
    (cached : (s.icache k).valid = true → (s.icache k).toDinode = s.dinode (s.icache k).inum) (op : 0 < s.outstanding) :
    wp (iput k) (fun _ t => (s.icache k).lock = false ∧ Put s t k)
      (fun e => e = .deadlock ∧ (s.icache k).lock = true) s := by
  have put : Traced true true s.trace (.iput :: s.trace) := .event rfl
  unfold iput acquiresleep
  rw [wp_bind, wp_modify, wp_bind, wp_bind, wp_getInode]
  split
  next taken => exact wp_throw.mpr ⟨rfl, taken⟩
  next untaken =>
    rw [wp_setInode]
    refine wp_then (wp_iputFree (k := k) disk ?_ ?_ op) ?_
    · simp only [update_self]
      exact inside
    · simp only [update_self]
      exact cached
    · rintro _ t ⟨keeps, frees⟩
      simp only [Dropped, update_self, update_idem] at keeps frees
      unfold releasesleep
      rw [wp_bind, wp_bind, wp_getInode, wp_setInode, wp_bind, wp_getInode, wp_setInode]
      refine ⟨by simpa using untaken, ?_⟩
      by_cases dropped : Dropped s k
      · obtain ⟨disk', trace, ip, rfl, traced, inum, ref, freed⟩ := frees dropped
        simp only [update_self, update_idem]
        refine ⟨_, _, _, rfl, put.trans traced, fun _ => ⟨inum, ?_, rfl, freed.inv, freed.table, freed.nodes⟩,
          fun kept => absurd dropped kept⟩
        rw [ref, dropped.2.2]
      · obtain rfl := keeps dropped
        simp only [update_self, update_idem]
        exact ⟨_, _, _, rfl, put, fun wrong => absurd wrong dropped, fun _ => ⟨rfl, rfl⟩⟩

theorem Put.dropped (put : Put s t k) (inv : Inv s (k ::ₘ temps) locks) (unlocked : k ∉ locks) :
    Inv t temps locks ∧ Frame s t temps ∧ (¬ Dropped s k → t.disk = s.disk) ∧
      (Dropped s k → NodesSet s t (s.icache k).inum (s.node (s.icache k).inum).freed) := by
  obtain ⟨disk, trace, ip, rfl, traced, frees, keeps⟩ := put
  by_cases dropped : Dropped s k
  · obtain ⟨inum, ref, lock, freed⟩ := frees dropped
    refine ⟨?_, ?_, fun kept => absurd dropped kept, fun _ => freed.nodes⟩
    · exact inv.dropInode unlocked dropped.2.2 trace freed.inv freed.table ref lock inum
    · refine ⟨rfl, rfl, rfl, rfl, rfl, traced, fun j used => ?_⟩
      have apart : j ≠ k := by
        rintro rfl
        have count := inv.refs.refs j
        rw [Multiset.count_cons_self] at count
        have := dropped.2.2
        omega
      simp only [update_of_ne apart]
      exact ⟨trivial, id⟩
  · obtain ⟨rfl, rfl⟩ := keeps dropped
    refine ⟨inv.dropRef unlocked _, ?_, fun _ => rfl, fun wrong => absurd wrong dropped⟩
    exact ⟨rfl, rfl, rfl, rfl, rfl, traced, fun j _ => update_kept (by rfl) (by exact id) j⟩

end Iput

end Xv6.Fs
