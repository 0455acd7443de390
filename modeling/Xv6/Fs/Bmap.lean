import Xv6.Fs.Alloc

/-! Where `bmap` finds the blocks of an inode and how it gets one more; `itrunc` gives all back. -/

namespace Xv6.Fs
open Lib Function Nat Finset Set

/-- Only the addresses of inode `x` have changed, to those of `d`. -/
structure Remap (sb : Superblock) (disk disk' : Nat → Block) (table : Nat → Dinode) (x : Nat) (d : Dinode)
    (extra : Set Nat) : Prop where
  owned : Owned sb disk' (update table x d) extra
  fields : d = { table x with addrs := d.addrs }
  fits : d.Fits
  slots : ∀ y < sb.ninodes, y ≠ x → ∀ i < NSLOT, slot disk' (table y) i = slot disk (table y) i
  data : ∀ y < sb.ninodes, y ≠ x → ∀ bn < MAXFILE, blockOf disk (table y) bn ≠ 0 →
    disk' (blockOf disk (table y) bn) = disk (blockOf disk (table y) bn)
  inodes : ∀ c < sb.bmapstart, disk' c = disk c

/-- The same for two states, with `d` in memory at `k`. -/
structure Remapped (s t : State) (k : Fin NINODE) (table : Nat → Dinode) (x : Nat) (d : Dinode) : Prop
    extends Remap s.sb s.disk t.disk table x d ∅ where
  frame : t = { s with
    disk := t.disk, trace := t.trace, icache := update s.icache k { s.icache k with toDinode := d } }
  trace : Traced true true s.trace t.trace

/-- `bmap` has returned `addr` for block `bn`; the other blocks are as they were. -/
structure GotBlock (s t : State) (k : Fin NINODE) (table : Nat → Dinode) (x : Nat) (d : Dinode) (bn addr : Nat) : Prop
    extends Remapped s t k table x d where
  here : blockOf t.disk d bn = addr
  others : ∀ cn < MAXFILE, (cn = bn → blockOf s.disk (table x) bn ≠ 0) →
    blockOf t.disk d cn = blockOf s.disk (table x) cn
  kept : ∀ cn < MAXFILE, blockOf s.disk (table x) cn ≠ 0 →
    t.disk (blockOf s.disk (table x) cn) = s.disk (blockOf s.disk (table x) cn)

variable {extra : Set Nat} {b j : Nat}

variable {s t u : State} {k : Fin NINODE} {table : Nat → Dinode} {x : Nat} {d e : Dinode}

section Growing

theorem Remapped.refl (owned : Owned s.sb s.disk table ∅) (fits : (table x).Fits)
    (cached : (s.icache k).toDinode = table x) : Remapped s s k table x (table x) where
  frame := by
    have same : { s.icache k with toDinode := table x } = s.icache k := by rw [← cached]
    rw [same, update_eq_self]
  trace := .refl ..
  owned := by rwa [update_eq_self]
  fields := rfl
  fits := fits
  slots := fun _ _ _ _ _ => rfl
  data := fun _ _ _ _ _ _ => rfl
  inodes := fun _ _ => rfl

theorem Remapped.icache (grown : Remapped s t k table x d) :
    t.icache = update s.icache k { s.icache k with toDinode := d } := by
  rw [grown.frame]

theorem Remapped.cached (grown : Remapped s t k table x d) : (t.icache k).toDinode = d := by
  rw [grown.icache, update_self]

theorem Remapped.trans (first : Remapped s t k table x d)
    (second : Remapped t u k (update table x d) x e) : Remapped s u k table x e := by
  have sb : t.sb = s.sb := by rw [first.frame]
  have other : ∀ y, y ≠ x → update table x d y = table y := fun y apart => update_of_ne apart ..
  refine ⟨⟨?_, ?_, second.fits, ?_, ?_, ?_⟩, ?frame, first.trace.trans second.trace⟩
  case frame =>
    have last := second.frame
    rw [first.frame] at last
    simpa only [update_self, update_idem] using last
  · have last := second.owned
    rwa [sb, update_idem] at last
  · have last := second.fields
    rw [update_self, first.fields] at last
    exact last
  · intro y inside apart i bound
    have last := second.slots y (sb ▸ inside) apart i bound
    rw [other y apart] at last
    rw [last, first.slots y inside apart i bound]
  · intro y inside apart bn bound nonzero
    have early := first.slots y inside apart (slotOf bn) (slotOf_lt bound)
    have last := second.data y (sb ▸ inside) apart bn bound
    rw [other y apart, blockOf, early] at last
    exact (last nonzero).trans (first.data y inside apart bn bound nonzero)
  · intro c before
    rw [second.inodes c (sb ▸ before), first.inodes c before]

theorem Allocated.slots (got : Allocated s t table extra b)
    (owned : Owned s.sb s.disk table extra) :
    ∀ y < s.sb.ninodes, ∀ i < NSLOT, slot t.disk (table y) i = slot s.disk (table y) i :=
  owned.slots_of_spared fun y inside _ low =>
    got.spared _ (fun same => got.unowned ⟨y, inside, NDIRECT, by decide, (slot_direct _ _ (le_refl _)).trans same⟩)
      (.inr low)

variable {i : Nat}

theorem Allocated.data (got : Allocated s t table extra b)
    (owned : Owned s.sb s.disk table extra) {y : Nat} (inside : y < s.sb.ninodes) (bound : i < NSLOT)
    (nonzero : slot s.disk (table y) i ≠ 0) :
    t.disk (slot s.disk (table y) i) = s.disk (slot s.disk (table y) i) :=
  got.spared _ (fun same => got.unowned ⟨y, inside, i, bound, same⟩) (.inr (owned.area y inside i bound nonzero).1)

theorem Allocated.freeBlocks (got : Allocated s t table extra b)
    (owned : Owned s.sb s.disk table extra) : freeBlocks s.sb t.disk + 1 = freeBlocks s.sb s.disk := by
  have owner : ∀ c, HasOwner s.sb t.disk table c ↔ HasOwner s.sb s.disk table c := by
    intro c
    constructor
    · rintro ⟨y, inside, i, bound, here⟩
      exact ⟨y, inside, i, bound, by rw [← got.slots owned y inside i bound, here]⟩
    · rintro ⟨y, inside, i, bound, here⟩
      exact ⟨y, inside, i, bound, by rw [got.slots owned y inside i bound, here]⟩
  have fewer : (range s.sb.size).filter (fun c => inUse s.sb t.disk c = false) =
      ((range s.sb.size).filter fun c => inUse s.sb s.disk c = false).erase b := by
    ext c
    simp only [Finset.mem_erase, Finset.mem_filter, Finset.mem_range, ← Bool.not_eq_true]
    constructor
    · rintro ⟨inside, clear⟩
      rw [got.owned.used c inside, owner, Set.mem_insert_iff] at clear
      rw [owned.used c inside]
      tauto
    · rintro ⟨other, inside, clear⟩
      rw [owned.used c inside] at clear
      rw [got.owned.used c inside, owner, Set.mem_insert_iff]
      tauto
  have member : b ∈ (Finset.range s.sb.size).filter fun c => inUse s.sb s.disk c = false := by
    simp only [Finset.mem_filter, Finset.mem_range, ← Bool.not_eq_true]
    rw [owned.used b got.area.2]
    have := got.area.1
    have := got.fresh
    have := got.unowned
    refine ⟨got.area.2, ?_⟩
    rintro (meta_ | shared | owner)
    · omega
    · contradiction
    · contradiction
  unfold Fs.freeBlocks
  rw [fewer, card_erase_add_one member]

theorem insert_empty_diff (b : Nat) : (insert b (∅ : Set Nat)) \ {b} = ∅ := by
  rw [insert_empty_eq, sdiff_self]

theorem Allocated.direct (got : Allocated s t table ∅ b) (owned : Owned s.sb s.disk table ∅)
    (geometry : s.sb.Geometry) (inside : x < s.sb.ninodes) (fits : (table x).Fits) (bound : i ≤ NDIRECT)
    (empty : (table x).addr i = 0) :
    Remapped s { t with icache := update s.icache k { s.icache k with toDinode := (table x).setAddr i b } }
      k table x ((table x).setAddr i b) ∧
    (∀ j < NSLOT, j ≠ i → slot t.disk ((table x).setAddr i b) j = slot s.disk (table x) j) := by
  have filled : ((table x).setAddr i b).addr i = b := by
    rw [Dinode.addr_setAddr _ _ _ (lt_succ_of_le bound), if_pos rfl]
  have rest : ∀ j < NSLOT, j ≠ i → slot t.disk ((table x).setAddr i b) j = slot s.disk (table x) j := by
    intro j small apart
    rw [← got.slots owned x inside j small]
    unfold slot
    split
    · rw [Dinode.addr_setAddr _ _ _ (lt_succ_of_le bound), if_neg apart]
    · rw [Dinode.addr_setAddr _ _ _ (lt_succ_of_le bound)]
      by_cases indirect : NDIRECT = i
      · rw [if_pos indirect, got.zero, Bytes.word_zero, ite_self, if_pos (indirect ▸ empty)]
      · rw [if_neg indirect]
  refine ⟨⟨⟨?_, rfl, fits.setAddr i (got.area.2.trans geometry.size_lt), ?_, ?_, ?_⟩, ?frame, got.trace⟩, rest⟩
  case frame => rw [got.frame]
  · rw [← insert_empty_diff b]
    have small : i < NSLOT := lt_of_le_of_lt bound (by decide)
    refine got.owned.assign inside small (mem_insert b ∅)
      (by rw [got.slots owned x inside i small, slot_direct _ _ bound, empty])
      (by rw [update_self, slot_direct _ _ bound, filled]) ?_ (fun _ _ => rfl)
    intro y within j small apart
    by_cases same : y = x
    · rw [same, update_self, rest j small (apart same), got.slots owned x inside j small]
    · rw [update_of_ne same]
  · exact fun y within _ j small => got.slots owned y within j small
  · exact fun y within _ bn small nonzero => got.data owned within (slotOf_lt small) nonzero
  · intro c before
    have := s.sb.bmapstart_le_datastart
    exact got.spared c (by have := got.area.1; omega) (.inl before)

theorem Allocated.entry (got : Allocated s t table ∅ b) (owned : Owned s.sb s.disk table ∅)
    (geometry : s.sb.Geometry) (inside : x < s.sb.ninodes) (fits : (table x).Fits)
    (cached : (s.icache k).toDinode = table x) (bound : j < NINDIRECT) (indirect : (table x).addr NDIRECT ≠ 0)
    (empty : (s.disk ((table x).addr NDIRECT)).word (4 * j) 4 = 0) :
    let disk := update t.disk ((table x).addr NDIRECT) ((s.disk ((table x).addr NDIRECT)).setWord (4 * j) 4 b)
    Remapped s { t with disk := disk, trace := .logWrite ((table x).addr NDIRECT) :: t.trace } k table x (table x) ∧
    slot disk (table x) (NDIRECT + 1 + j) = b ∧
    (∀ i < NSLOT, i ≠ NDIRECT + 1 + j → slot disk (table x) i = slot s.disk (table x) i) ∧
    (∀ i < NSLOT, i ≠ NDIRECT → slot s.disk (table x) i ≠ 0 →
      disk (slot s.disk (table x) i) = s.disk (slot s.disk (table x) i)) := by
  intro disk
  have small : NDIRECT + 1 + j < NSLOT := by
    unfold NSLOT
    omega
  have room : 4 * j + 4 ≤ BSIZE := by
    simp only [NINDIRECT, BSIZE] at bound ⊢
    omega
  have self : slot s.disk (table x) NDIRECT = (table x).addr NDIRECT := slot_direct _ _ (le_refl _)
  have block : disk ((table x).addr NDIRECT) = (s.disk ((table x).addr NDIRECT)).setWord (4 * j) 4 b :=
    update_self ..
  have area : s.sb.datastart ≤ (table x).addr NDIRECT := by
    have here := owned.area x inside NDIRECT (by decide)
    rw [self] at here
    exact (here indirect).1
  have filled : slot disk (table x) (NDIRECT + 1 + j) = b := by
    rw [slot_entry, if_neg indirect, block, Bytes.word_setWord _ _ _ _ room (got.area.2.trans geometry.size_lt)]
  have rest : ∀ i < NSLOT, i ≠ NDIRECT + 1 + j → slot disk (table x) i = slot s.disk (table x) i := by
    intro i _ apart
    unfold slot
    split
    · rfl
    · rw [block, Bytes.word_setWord_of_apart (by omega)]
  have apartFrom : ∀ y < s.sb.ninodes, ∀ i < NSLOT, (y = x → i ≠ NDIRECT) → slot s.disk (table y) i ≠ 0 →
      slot s.disk (table y) i ≠ (table x).addr NDIRECT := by
    intro y within i low apart nonzero same
    obtain ⟨here, there⟩ := owned.apart y within i low x inside NDIRECT (by decide) nonzero (same.trans self.symm)
    exact apart here there
  have others : ∀ y < s.sb.ninodes, y ≠ x → ∀ i < NSLOT, slot disk (table y) i = slot s.disk (table y) i := by
    intro y within apart i low
    rw [← got.slots owned y within i low]
    refine slot_congr (fun nonzero => update_of_ne ?_ ..) i
    have away := apartFrom y within NDIRECT (by decide) (fun same => absurd same apart)
    rw [slot_direct _ _ (le_refl _)] at away
    exact away nonzero
  have data : ∀ y < s.sb.ninodes, ∀ i < NSLOT, (y = x → i ≠ NDIRECT) → slot s.disk (table y) i ≠ 0 →
      disk (slot s.disk (table y) i) = s.disk (slot s.disk (table y) i) := by
    intro y within i low apart nonzero
    exact (update_of_ne (apartFrom y within i low apart nonzero) ..).trans (got.data owned within low nonzero)
  refine ⟨⟨⟨?_, rfl, fits, others, ?_, ?_⟩, ?frame, got.trace.trans (.logWrite _)⟩, filled, rest,
    fun i low apart => data x inside i low fun _ => apart⟩
  case frame =>
    have same : { s.icache k with toDinode := table x } = s.icache k := by rw [← cached]
    rw [same, update_eq_self, got.frame]
  · rw [update_eq_self, ← insert_empty_diff b]
    refine got.owned.assign inside small (mem_insert b ∅)
      (by rw [got.slots owned x inside _ small, slot_entry, if_neg indirect, empty]) filled ?_ ?_
    · intro y within i low apart
      rw [got.slots owned y within i low]
      by_cases same : y = x
      · subst same
        exact rest i low (apart rfl)
      · exact others y within same i low
    · exact fun c within => inUse_update_data area within
  · exact fun y within apart bn low nonzero => data y within _ (slotOf_lt low) (fun same => absurd same apart) nonzero
  · intro c before
    have := s.sb.bmapstart_le_datastart
    refine (update_of_ne (by omega) ..).trans (got.spared c ?_ (.inl before))
    have := got.area.1
    omega

end Growing

def need (size : Nat) : Nat := (size + (BSIZE - 1)) / BSIZE + if NDIRECT * BSIZE < size then 1 else 0

theorem need_mono {first second : Nat} (order : first ≤ second) : need first ≤ need second := by
  have blocks : (first + (BSIZE - 1)) / BSIZE ≤ (second + (BSIZE - 1)) / BSIZE := Nat.div_le_div_right (by omega)
  unfold need
  split
  · rw [if_pos (by omega)]
    omega
  · omega

theorem need_succ (bn : Nat) :
    need (bn * BSIZE + 1) = need (bn * BSIZE) + (1 + if bn = NDIRECT then 1 else 0) := by
  unfold need BSIZE NDIRECT
  have blocks : (bn * 512 + 1 + (512 - 1)) / 512 = (bn * 512 + (512 - 1)) / 512 + 1 := by omega
  rw [blocks]
  grind

section Specs

variable {stop : Stop → Prop}

variable {bn : Nat}

theorem blockOf_direct (disk : Nat → Block) (d : Dinode) (direct : bn < NDIRECT) :
    blockOf disk d bn = d.addr bn := by
  rw [blockOf, slotOf, if_pos direct, slot_direct _ _ (le_of_lt direct)]

theorem slotOf_indirect (indirect : NDIRECT ≤ bn) : slotOf bn = NDIRECT + 1 + (bn - NDIRECT) := by
  rw [slotOf, if_neg (by omega)]
  omega

theorem blockOf_indirect (disk : Nat → Block) (d : Dinode) (indirect : NDIRECT ≤ bn) :
    blockOf disk d bn =
      if d.addr NDIRECT = 0 then 0 else (disk (d.addr NDIRECT)).word (4 * (bn - NDIRECT)) 4 := by
  rw [blockOf, slotOf_indirect indirect, slot_entry]

theorem wp_bmap_mapped {post : Nat → State → Prop} (bound : bn < MAXFILE)
    (mapped : blockOf s.disk (s.icache k).toDinode bn ≠ 0)
    (here : post (blockOf s.disk (s.icache k).toDinode bn) s) : wp (bmap k bn) post stop s := by
  unfold bmap
  rw [wp_bind, wp_getInode]
  by_cases direct : bn < NDIRECT
  · rw [blockOf_direct _ _ direct] at mapped here
    rw [if_pos direct, if_neg mapped]
    exact wp_pure.mpr here
  · have small : bn - NDIRECT < NINDIRECT := by
      unfold MAXFILE at bound
      omega
    rw [blockOf_indirect _ _ (Nat.le_of_not_lt direct)] at mapped here
    have nonzero : (s.icache k).addr NDIRECT ≠ 0 := fun zero => mapped (if_pos zero)
    rw [if_neg nonzero] at mapped here
    rw [if_neg direct, if_pos small, wp_bind, bmapIndirect, wp_bind, wp_getInode, if_neg nonzero, wp_pure, wp_bind,
      wp_bread, if_neg mapped]
    exact wp_pure.mpr here

section

variable (owned : Owned s.sb s.disk table ∅) (geometry : s.sb.Geometry) (inside : x < s.sb.ninodes) (fits : (table x).Fits) (cached : (s.icache k).toDinode = table x) (op : 0 < s.outstanding)
include owned geometry inside fits cached op

theorem wp_bmap_direct
    (direct : bn < NDIRECT) (empty : blockOf s.disk (table x) bn = 0) :
    wp (bmap k bn) (fun addr t => ∃ d, GotBlock s t k table x d bn addr ∧
        (d.addr NDIRECT ≠ 0 ↔ (table x).addr NDIRECT ≠ 0) ∧ addr ≠ 0 ∧
        freeBlocks s.sb t.disk + 1 = freeBlocks s.sb s.disk)
      (fun e => e = .panic "balloc: out of blocks" ∧ freeBlocks s.sb s.disk = 0) s := by
  rw [blockOf_direct _ _ direct] at empty
  have missing : (s.icache k).addr bn = 0 := by rw [cached, empty]
  unfold bmap
  rw [wp_bind, wp_getInode, if_pos direct, if_pos missing]
  refine wp_seq (balloc_spec owned geometry op) (fun _ stopped => stopped) ?_
  intro b t got
  obtain ⟨grown, rest⟩ := got.direct (k := k) owned geometry inside fits (le_of_lt direct) empty
  rw [wp_bind, wp_setInode, wp_pure]
  have icache : t.icache = s.icache := by rw [got.frame]
  rw [icache, cached]
  refine ⟨(table x).setAddr bn b, ⟨grown, ?_, ?_, ?_⟩, ?_, ?_, got.freeBlocks owned⟩
  · rw [blockOf_direct _ _ direct, Dinode.addr_setAddr _ _ _ (lt_succ_of_lt direct), if_pos rfl]
  · intro cn bound apart
    refine rest _ (slotOf_lt bound) fun same => apart (slotOf_inj ?_) (by rw [blockOf_direct _ _ direct, empty])
    rw [same, slotOf, if_pos direct]
  · exact fun cn bound nonzero => got.data owned inside (slotOf_lt bound) nonzero
  · rw [Dinode.addr_setAddr _ _ _ (lt_succ_of_lt direct), if_neg (by omega)]
  · have := got.area.1
    have := s.sb.datastart_pos
    omega

theorem wp_bmapIndirect
    :
    wp (bmapIndirect k) (fun addr t => ∃ d, Remapped s t k table x d ∧ d.addr NDIRECT = addr ∧ addr ≠ 0 ∧
        (∀ i < NSLOT, i ≠ NDIRECT → slot t.disk d i = slot s.disk (table x) i ∧
          (slot s.disk (table x) i ≠ 0 → t.disk (slot s.disk (table x) i) = s.disk (slot s.disk (table x) i))) ∧
        freeBlocks s.sb t.disk + (if (table x).addr NDIRECT = 0 then 1 else 0) = freeBlocks s.sb s.disk)
      (fun e => e = .panic "balloc: out of blocks" ∧
        freeBlocks s.sb s.disk < if (table x).addr NDIRECT = 0 then 1 else 0) s := by
  unfold bmapIndirect
  rw [wp_bind, wp_getInode, cached]
  split
  next missing =>
    refine wp_seq (balloc_spec owned geometry op) (fun _ stopped => ⟨stopped.1, by rw [stopped.2]; exact one_pos⟩) ?_
    intro b t got
    obtain ⟨grown, rest⟩ := got.direct (k := k) owned geometry inside fits (le_refl _) missing
    have icache : t.icache = s.icache := by rw [got.frame]
    rw [wp_bind, wp_setInode, wp_pure, icache]
    refine ⟨(table x).setAddr NDIRECT b, grown, ?_, ?_, ?_, got.freeBlocks owned⟩
    · rw [Dinode.addr_setAddr _ _ _ (lt_succ_self _), if_pos rfl]
    · have := got.area.1
      have := s.sb.datastart_pos
      omega
    · exact fun i bound apart => ⟨rest i bound apart, got.data owned inside bound⟩
  next present =>
    rw [wp_pure]
    exact ⟨table x, .refl owned fits cached, rfl, present, fun i _ _ => ⟨rfl, fun _ => rfl⟩, rfl⟩

theorem wp_bmap_indirect
    (indirect : NDIRECT ≤ bn) (bound : bn < MAXFILE) (empty : blockOf s.disk (table x) bn = 0) :
    wp (bmap k bn) (fun addr t => ∃ d, GotBlock s t k table x d bn addr ∧ d.addr NDIRECT ≠ 0 ∧ addr ≠ 0 ∧
        freeBlocks s.sb t.disk + (1 + if (table x).addr NDIRECT = 0 then 1 else 0) = freeBlocks s.sb s.disk)
      (fun e => e = .panic "balloc: out of blocks" ∧
        freeBlocks s.sb s.disk < 1 + if (table x).addr NDIRECT = 0 then 1 else 0) s := by
  have small : bn - NDIRECT < NINDIRECT := by
    unfold MAXFILE at bound
    omega
  have place := slotOf_indirect indirect
  unfold bmap
  rw [wp_bind, wp_getInode, if_neg (by omega), if_pos small]
  refine wp_seq (wp_bmapIndirect owned geometry inside fits cached op) (fun _ stopped => ⟨stopped.1, by omega⟩) ?_
  rintro addr t ⟨d, grown, rfl, nonzero, rest, taken⟩
  have sb : t.sb = s.sb := by rw [grown.frame]
  have outstanding : t.outstanding = s.outstanding := by rw [grown.frame]
  have owned' : Owned t.sb t.disk (update table x d) ∅ := by rw [sb]; exact grown.owned
  have self : update table x d x = d := update_self ..
  have cached' : (t.icache k).toDinode = update table x d x := by rw [self, grown.cached]
  have missing : (t.disk (d.addr NDIRECT)).word (4 * (bn - NDIRECT)) 4 = 0 := by
    have entry := (rest (slotOf bn) (slotOf_lt bound) (slotOf_ne_indirect bn)).1
    rwa [place, slot_entry, if_neg nonzero, ← place, ← blockOf, empty] at entry
  rw [wp_bind, wp_bread, if_pos missing]
  refine wp_seq (balloc_spec owned' (sb ▸ geometry) (by rwa [outstanding]))
    (fun _ stopped => ⟨stopped.1, by have none := stopped.2; rw [sb] at none; omega⟩) ?_
  intro b u got
  have last := got.freeBlocks owned'
  rw [sb] at last
  have entry := got.entry (k := k) owned' (by rwa [sb]) (by rwa [sb]) (by rw [self]; exact grown.fits) cached' small
    (by rwa [self]) (by rwa [self])
  rw [self] at entry
  obtain ⟨more, filled, others, kept⟩ := entry
  refine wp_bind.mpr (wp_logWrite (by rw [got.frame, outstanding]; exact op) (wp_pure.mpr ?_))
  have logged : freeBlocks s.sb (update u.disk (d.addr NDIRECT)
      ((t.disk (d.addr NDIRECT)).setWord (4 * (bn - NDIRECT)) 4 b)) = freeBlocks s.sb u.disk := by
    have low := grown.owned.area x inside NDIRECT (by decide)
    rw [self, slot_direct _ _ (le_refl _)] at low
    exact freeBlocks_congr fun c within => inUse_update_data (low nonzero).1 within
  refine ⟨d, ⟨grown.trans more, ?_, ?_, ?_⟩, nonzero, ?_, by rw [logged]; omega⟩
  · rw [blockOf, place]
    exact filled
  · intro cn low apart
    have away : slotOf cn ≠ NDIRECT + 1 + (bn - NDIRECT) :=
      fun same => apart (slotOf_inj (same.trans place.symm)) empty
    exact (others _ (slotOf_lt low) away).trans (rest _ (slotOf_lt low) (slotOf_ne_indirect cn)).1
  · intro cn low there
    obtain ⟨early, stays⟩ := rest _ (slotOf_lt low) (slotOf_ne_indirect cn)
    have later := kept _ (slotOf_lt low) (slotOf_ne_indirect cn)
    rw [early] at later
    exact (later there).trans (stays there)
  · have := got.area.1
    have := t.sb.datastart_pos
    omega

theorem wp_bmap
    {size : Nat}
    (mapped : Mapped s.disk (table x) size) (bound : bn < MAXFILE) (reach : bn * BSIZE ≤ size) :
    wp (bmap k bn) (fun addr t => ∃ d, GotBlock s t k table x d bn addr ∧ addr ≠ 0 ∧
        Mapped t.disk d (max size (bn * BSIZE + 1)) ∧ (bn * BSIZE < size → d = table x) ∧
        freeBlocks s.sb t.disk + need (max size (bn * BSIZE + 1)) = freeBlocks s.sb s.disk + need size)
      (fun e => e = .panic "balloc: out of blocks" ∧
        freeBlocks s.sb s.disk + need size < need (max size (bn * BSIZE + 1))) s := by
  have positive : 0 < BSIZE := by decide
  by_cases there : blockOf s.disk (table x) bn = 0
  · have atEnd : size = bn * BSIZE := by
      have := (mapped.blocks bn bound).not.mp (by rw [not_not]; exact there)
      omega
    have grows : ∀ t addr d, GotBlock s t k table x d bn addr → addr ≠ 0 → (d.addr NDIRECT ≠ 0 ↔ NDIRECT ≤ bn) →
        Mapped t.disk d (max size (bn * BSIZE + 1)) := by
      intro t addr d got nonzero indirect
      have last : max size (bn * BSIZE + 1) = bn * BSIZE + 1 := by omega
      have order : ∀ cn, cn * BSIZE < bn * BSIZE + 1 ↔ cn ≤ bn := fun cn => by
        rw [Nat.lt_succ_iff]
        exact Nat.mul_le_mul_right_iff positive
      rw [last]
      refine ⟨?_, ?_, ?_⟩
      · calc bn * BSIZE + 1 ≤ bn * BSIZE + BSIZE := Nat.add_le_add_left positive _
          _ = (bn + 1) * BSIZE := (Nat.succ_mul _ _).symm
          _ ≤ MAXFILE * BSIZE := mul_le_mul_right _ bound
      · intro cn low
        rw [order]
        by_cases same : cn = bn
        · subst same
          rw [got.here]
          exact ⟨fun _ => le_refl _, fun _ => nonzero⟩
        · rw [got.others cn low (absurd · same), mapped.blocks cn low, atEnd]
          have := Nat.mul_lt_mul_right (b := cn) (c := bn) positive
          omega
      · rw [order, indirect]
    have cost : need (max size (bn * BSIZE + 1)) = need size + (1 + if bn = NDIRECT then 1 else 0) := by
      rw [atEnd, max_eq_right (le_succ _), need_succ]
    by_cases direct : bn < NDIRECT
    · rw [if_neg (by omega)] at cost
      apply wp_mono (wp_bmap_direct owned geometry inside fits cached op direct there) _
        fun _ stopped => ⟨stopped.1, by have := stopped.2; omega⟩
      rintro addr t ⟨d, got, same, nonzero, taken⟩
      refine ⟨d, got, nonzero, grows t addr d got nonzero ?_, by omega, by omega⟩
      rw [same, mapped.indirect, atEnd]
      have := Nat.mul_lt_mul_right (b := NDIRECT) (c := bn) positive
      omega
    · have first : (table x).addr NDIRECT = 0 ↔ bn = NDIRECT := by
        have order := Nat.mul_lt_mul_right (b := NDIRECT) (c := bn) positive
        have present := mapped.indirect
        rw [atEnd, order] at present
        omega
      simp only [← first] at cost
      apply wp_mono (wp_bmap_indirect owned geometry inside fits cached op (Nat.le_of_not_lt direct) bound there) _
        fun _ stopped => ⟨stopped.1, by have := stopped.2; omega⟩
      rintro addr t ⟨d, got, indirect, nonzero, taken⟩
      exact ⟨d, got, nonzero, grows t addr d got nonzero ⟨fun _ => Nat.le_of_not_lt direct, fun _ => indirect⟩, by omega,
        by omega⟩
  · have below := (mapped.blocks bn bound).mp there
    refine wp_bmap_mapped bound (by rwa [cached]) ?_
    rw [cached, max_eq_left below]
    exact ⟨table x, ⟨.refl owned fits cached, rfl, fun _ _ _ => rfl, fun _ _ _ => rfl⟩, there, mapped, fun _ => rfl, rfl⟩

end

end Specs

section Freeing

variable {sb : Superblock} {disk disk' : Nat → Block}

theorem Remap.release (remap : Remap sb disk disk' table x d ∅) (inside : x < sb.ninodes) (gone : Set Nat)
    (fields : e = { d with addrs := e.addrs }) (fits : e.Fits)
    (emptied : ∀ i < NSLOT, i ∈ gone → slot disk' e i = 0)
    (kept : ∀ i < NSLOT, i ∉ gone → slot disk' e i = slot disk' d i) :
    Remap sb disk disk' table x e {b | b ≠ 0 ∧ ∃ i < NSLOT, i ∈ gone ∧ slot disk' d i = b} where
  owned := by
    have self : update table x d x = d := update_self ..
    have released : Owned sb disk' (update table x e) _ := remap.owned.release inside gone
      (fun i bound left => by rw [update_self, emptied i bound left]) ?_
    · rwa [self] at released
    · intro y _ i bound left
      by_cases same : y = x
      · rw [same, update_self, update_self, kept i bound (left same)]
      · rw [update_of_ne same, update_of_ne same]
  fields := by rw [fields, remap.fields]
  fits := fits
  slots := remap.slots
  data := remap.data
  inodes := remap.inodes

theorem wp_bfree (remap : Remap sb disk s.disk table x d extra) (same : s.sb = sb)
    (op : 0 < s.outstanding) (member : b ∈ extra) :
    wp (bfree b) (fun _ t => Logged s t ∧ Remap sb disk t.disk table x d (extra \ {b}))
      (fun _ => False) s := by
  subst same
  refine wp_mono (bfree_spec remap.owned op member) ?_ fun _ none => none
  rintro _ t ⟨logged, owned, spared⟩
  have other : ∀ y, y ≠ x → update table x d y = table y := fun y apart => update_of_ne apart ..
  refine ⟨logged, owned, remap.fields, remap.fits, ?_, ?_, ?_⟩
  · intro y inside apart i bound
    have same := remap.owned.slots_of_spared (fun z _ _ area => spared _ (.inr area)) y inside i bound
    rw [other y apart] at same
    exact same.trans (remap.slots y inside apart i bound)
  · intro y inside apart bn bound there
    have early := remap.slots y inside apart (slotOf bn) (slotOf_lt bound)
    have area := remap.owned.area y inside (slotOf bn) (slotOf_lt bound)
    rw [other y apart, early] at area
    exact (spared _ (.inr (area there).1)).trans (remap.data y inside apart bn bound there)
  · exact fun c before => (spared c (.inl before)).trans (remap.inodes c before)

end Freeing

section Truncate

theorem Remapped.store (remapped : Remapped s t k table x d)
    (logged : Logged t u) (remap : Remap s.sb s.disk u.disk table x e ∅) :
    Remapped s { u with icache := update t.icache k { t.icache k with toDinode := e } } k table x e where
  toRemap := remap
  frame := by
    rw [logged.frame, remapped.frame]
    simp only [update_self, update_idem]
  trace := remapped.trace.trans logged.trace

theorem wp_itruncDirect (owned : Owned s.sb s.disk table ∅) (inside : x < s.sb.ninodes) (fits : (table x).Fits)
    (cached : (s.icache k).toDinode = table x) (op : 0 < s.outstanding) :
    wp (itruncDirect k) (fun _ t => ∃ d, Remapped s t k table x d ∧
      ∀ j, d.addr j = if j < NDIRECT then 0 else (table x).addr j) (fun _ => False) s := by
  refine wp_forM_range (fun i t => ∃ d, Remapped s t k table x d ∧
    ∀ j, d.addr j = if j < i then 0 else (table x).addr j) NDIRECT ?_
    ⟨table x, .refl owned fits cached, fun j => (if_neg (not_lt_zero j)).symm⟩
  rintro i bound t ⟨d, remapped, cleared⟩
  have sb : t.sb = s.sb := by rw [remapped.frame]
  have next : ∀ j, (if j = i then 0 else d.addr j) = if j < i + 1 then 0 else (table x).addr j := by
    intro j
    rw [cleared j]
    rcases Nat.lt_trichotomy j i with before | same | after
    · rw [if_neg (Nat.ne_of_lt before), if_pos before, if_pos (by omega)]
    · rw [if_pos same, if_pos (by omega)]
    · rw [if_neg (ne_of_gt after), if_neg (by omega), if_neg (by omega)]
  rw [wp_bind, wp_getInode, remapped.cached]
  split
  next zero =>
    rw [wp_pure]
    refine ⟨d, remapped, fun j => ?_⟩
    rw [← next j]
    split
    next same => rw [same, zero]
    next => rfl
  next nonzero =>
    have here : slot t.disk d i = d.addr i := slot_direct _ _ (le_of_lt bound)
    have released := remapped.toRemap.release inside {i} (e := d.setAddr i 0) rfl
      (remapped.fits.setAddr i (by decide))
      (by rintro j _ rfl; rw [slot_setAddr_direct _ _ _ _ bound, if_pos rfl])
      (fun j _ left => (slot_setAddr_direct _ _ _ _ bound).trans (if_neg left))
    have member : d.addr i ∈ {b | b ≠ 0 ∧ ∃ j < NSLOT, j ∈ ({i} : Set Nat) ∧ slot t.disk d j = b} :=
      ⟨nonzero, i, bound.trans (by decide), rfl, here⟩
    have nothing : {b | b ≠ 0 ∧ ∃ j < NSLOT, j ∈ ({i} : Set Nat) ∧ slot t.disk d j = b} \ {d.addr i} = ∅ := by
      refine eq_empty_of_forall_notMem ?_
      rintro b ⟨⟨-, j, -, rfl, same⟩, other⟩
      exact other (same.symm.trans here)
    refine wp_then (wp_bfree released sb (by rw [remapped.frame]; exact op) member) ?_
    rintro _ u ⟨logged, remap⟩
    rw [nothing] at remap
    have icache : u.icache = t.icache := by rw [logged.frame]
    rw [wp_setInode, icache]
    refine ⟨d.setAddr i 0, remapped.store logged remap, fun j => ?_⟩
    rw [Dinode.addr_setAddr _ _ _ (lt_succ_of_lt bound), next j]

/-- The blocks that are left of an indirect block from entry `j` on. -/
def indirectFrom (a : Nat) (block : Block) (j : Nat) : Set Nat :=
  {b | b ≠ 0 ∧ (b = a ∨ ∃ l < NINDIRECT, j ≤ l ∧ block.word (4 * l) 4 = b)}

variable {a : Nat} {block : Block}

theorem indirectFrom_succ_of_zero (zero : block.word (4 * j) 4 = 0) :
    indirectFrom a block (j + 1) = indirectFrom a block j := by
  ext b
  refine and_congr_right fun nonzero => or_congr Iff.rfl (exists_congr fun l => and_congr_right fun _ => ?_)
  refine ⟨fun ⟨later, same⟩ => ⟨by omega, same⟩, fun ⟨later, same⟩ => ⟨?_, same⟩⟩
  have : l ≠ j := by
    rintro rfl
    exact nonzero (same.symm.trans zero)
  omega

theorem indirectFrom_succ (apartA : block.word (4 * j) 4 ≠ a)
    (apart : ∀ l < NINDIRECT, j < l → block.word (4 * l) 4 ≠ block.word (4 * j) 4) :
    indirectFrom a block j \ {block.word (4 * j) 4} = indirectFrom a block (j + 1) := by
  ext b
  constructor
  · rintro ⟨⟨nonzero, rfl | ⟨l, bound, later, rfl⟩⟩, other⟩
    · exact ⟨nonzero, .inl rfl⟩
    · refine ⟨nonzero, .inr ⟨l, bound, ?_, rfl⟩⟩
      have : l ≠ j := by
        rintro rfl
        exact other rfl
      omega
  · rintro ⟨nonzero, rfl | ⟨l, bound, later, rfl⟩⟩
    · exact ⟨⟨nonzero, .inl rfl⟩, fun same => apartA same.symm⟩
    · exact ⟨⟨nonzero, .inr ⟨l, bound, by omega, rfl⟩⟩, apart l bound (by omega)⟩

theorem wp_itruncIndirect (remapped : Remapped s t k table x d) (inside : x < s.sb.ninodes) (op : 0 < s.outstanding) :
    wp (itruncIndirect k) (fun _ u => ∃ e, Remapped s u k table x e ∧
      ∀ j, e.addr j = if j = NDIRECT then 0 else d.addr j) (fun _ => False) t := by
  have sb : t.sb = s.sb := by rw [remapped.frame]
  have outstanding : t.outstanding = s.outstanding := by rw [remapped.frame]
  have self : update table x d x = d := update_self ..
  unfold itruncIndirect
  rw [wp_bind, wp_getInode, remapped.cached]
  split
  next zero =>
    rw [wp_pure]
    refine ⟨d, remapped, fun j => ?_⟩
    split
    next same => rw [same, zero]
    next => rfl
  next nonzero =>
    set a := d.addr NDIRECT with ha
    set block := t.disk a with hblock
    have pointer : slot t.disk d NDIRECT = a := slot_direct _ _ (le_refl _)
    have entry : ∀ l, slot t.disk d (NDIRECT + 1 + l) = block.word (4 * l) 4 := fun l => by
      rw [slot_entry, if_neg nonzero]
    have low : ∀ l < NINDIRECT, NDIRECT + 1 + l < NSLOT := fun l bound => Nat.add_lt_add_left bound _
    have apart : ∀ i < NSLOT, ∀ j < NSLOT, slot t.disk d i ≠ 0 → slot t.disk d i = slot t.disk d j → i = j := by
      intro i bound j bound' there same
      have := remapped.owned.apart x inside i bound x inside j bound'
      rw [self] at this
      exact (this there same).2
    have released := remapped.toRemap.release inside {i | NDIRECT ≤ i} (e := d.setAddr NDIRECT 0) rfl
      (remapped.fits.setAddr NDIRECT (by decide))
      (fun j _ after => (slot_setAddr_indirect ..).trans (if_pos after))
      (fun j _ before => (slot_setAddr_indirect ..).trans (if_neg before))
    have all : {b | b ≠ 0 ∧ ∃ i < NSLOT, i ∈ {i | NDIRECT ≤ i} ∧ slot t.disk d i = b} = indirectFrom a block 0 := by
      ext b
      refine and_congr_right fun _ => ⟨?_, ?_⟩
      · rintro ⟨i, bound, after, same⟩
        rcases Nat.eq_or_lt_of_le after with here | later
        · exact .inl (by rw [← same, ← here, pointer])
        · obtain ⟨l, rfl⟩ := Nat.exists_eq_add_of_le (Nat.succ_le_of_lt later)
          exact .inr ⟨l, Nat.lt_of_add_lt_add_left bound, Nat.zero_le _, by rw [← entry, ← same]⟩
      · rintro (here | ⟨l, bound, -, same⟩)
        · exact ⟨NDIRECT, by decide, le_refl NDIRECT, by rw [pointer, here]⟩
        · exact ⟨NDIRECT + 1 + l, low l bound, by change NDIRECT ≤ _; omega, by rw [entry, same]⟩
    rw [all] at released
    rw [wp_bind, wp_bread]
    refine wp_then (wp_forM_range (fun j u => Logged t u ∧
      Remap s.sb s.disk u.disk table x (d.setAddr NDIRECT 0) (indirectFrom a block j)) NINDIRECT ?_ ⟨.refl t, released⟩) ?_
    · rintro j bound u ⟨logged, remap⟩
      have usb : u.sb = s.sb := by rw [logged.frame, sb]
      split
      next zero =>
        rw [wp_pure, indirectFrom_succ_of_zero zero]
        exact ⟨logged, remap⟩
      next there =>
        refine wp_mono (wp_bfree remap usb (by rw [logged.frame, outstanding]; exact op)
          ⟨there, .inr ⟨j, bound, le_refl _, rfl⟩⟩) ?_ fun _ none => none
        rintro _ v ⟨logged', remap'⟩
        refine ⟨logged.trans logged', ?_⟩
        rw [indirectFrom_succ] at remap'
        · exact remap'
        · intro same
          have := apart _ (low j bound) NDIRECT (by decide) (by rwa [entry]) (by rw [entry, pointer, same])
          omega
        · intro l bound' later same
          have := apart _ (low l bound') _ (low j bound) (by rw [entry, same]; exact there) (by rw [entry, entry, same])
          omega
    · rintro _ u ⟨logged, remap⟩
      have usb : u.sb = s.sb := by rw [logged.frame, sb]
      have only : indirectFrom a block NINDIRECT \ {a} = ∅ := by
        refine eq_empty_of_forall_notMem ?_
        rintro b ⟨⟨-, rfl | ⟨l, bound, later, -⟩⟩, other⟩
        · exact other rfl
        · omega
      refine wp_then (wp_bfree remap usb (by rw [logged.frame, outstanding]; exact op) ⟨nonzero, .inl rfl⟩) ?_
      rintro _ v ⟨logged', remap'⟩
      rw [only] at remap'
      have icache : v.icache = t.icache := by rw [logged'.frame, logged.frame]
      rw [wp_setInode, icache]
      refine ⟨d.setAddr NDIRECT 0, remapped.store (logged.trans logged') remap', fun j => ?_⟩
      rw [Dinode.addr_setAddr _ _ _ (lt_succ_self _)]

end Truncate

end Xv6.Fs
