import Xv6.Fs.Content
import Xv6.Mkfs.Model

/-! `iappend` does to the image what `writei` does to the disk: the bitmap that `mkfs` would write
marks exactly the blocks it has counted. -/

namespace Xv6.Mkfs
open Lib Fs Function Nat List

/-- The image if `balloc` wrote the bitmap now. -/
def State.finished (s : State) : Nat → Block := update s.image sb.bmapstart (bitmap s.freeblock)

theorem bmapstart_lt_nmeta : sb.bmapstart < nmeta := by decide

theorem geometry : sb.Geometry := ⟨by decide, by decide, by decide, by decide, by decide, by decide⟩

variable {b : Nat}

variable {s : State}

section Bitmap

theorem bitmap_succ (used : Nat) : bitmap (used + 1) = (bitmap used).setBit used := by
  rw [bitmap, range_succ, foldl_append]
  rfl

theorem bit_bitmap {used : Nat} (small : used ≤ BSIZE * 8) (i : Nat) : (bitmap used).bit i = decide (i < used) := by
  induction used with
  | zero => simp [bitmap, Bytes.bit, Bytes.get_zero]
  | succ used ih =>
    have byte : used / 8 < BSIZE := by omega
    rw [bitmap_succ, Bytes.bit_setBit _ byte, ih (by omega)]
    grind

theorem finished_of_ne (apart : b ≠ sb.bmapstart) : s.finished b = s.image b := update_of_ne apart ..

theorem finished_of_data (data : nmeta ≤ b) : s.finished b = s.image b :=
  finished_of_ne (ne_of_gt (lt_of_lt_of_le bmapstart_lt_nmeta data))

theorem bblock_eq (inside : b < FSSIZE) : sb.bblock b = sb.bmapstart := by
  have small : b < BPB := lt_trans inside (by decide)
  rw [Superblock.bblock, div_eq_of_lt small, zero_add]

theorem inUse_finished (low : s.freeblock ≤ FSSIZE) (inside : b < FSSIZE) :
    inUse sb s.finished b = decide (b < s.freeblock) := by
  have small : b < BPB := lt_trans inside (by decide)
  have bound : FSSIZE ≤ BSIZE * 8 := by decide
  rw [inUse, bblock_eq inside, State.finished, update_self, mod_eq_of_lt small,
    bit_bitmap (low.trans bound)]

end Bitmap

/-- All that is past the blocks taken is zero. -/
structure Ready (s : State) : Prop where
  super : s.image 1 = sbBlock
  sectors : s.sectors = FSSIZE
  low : nmeta ≤ s.freeblock
  high : s.freeblock ≤ FSSIZE
  fresh : ∀ b, s.freeblock ≤ b → s.image b = Bytes.zero

/-- The kernel `t` has the image for its disk, and `din` in memory at `k`. -/
structure Twin (s : State) (din : Dinode) (k : Fin NINODE) (t : Fs.State) : Prop extends Ready s where
  superblock : t.sb = sb
  disk : t.disk = s.finished
  inode : (t.icache k).toDinode = din
  op : 0 < t.outstanding

/-- The kernel's `prog` ends as the twin of `s` and `din`. -/
def Simulates {α : Type} (k : Fin NINODE) (prog : FsM α) (t : Fs.State) (value : α) (s : State) (din : Dinode) : Prop :=
  wp prog (fun result u => result = value ∧ Twin s din k u) (fun _ => False) t

variable {stop : Exit → Prop}

variable {din : Dinode} {k : Fin NINODE} {t : Fs.State} {post : Unit → State → Prop}

section Simulation

variable {s' : State} {din' : Dinode} {α β : Type}

theorem Simulates.bind {prog : FsM β} {next : β → FsM α} {value : β} {result : α} {s'' : State} {din'' : Dinode}
    (first : Simulates k prog t value s' din')
    (rest : ∀ u, Twin s' din' k u → Simulates k (next value) u result s'' din'') :
    Simulates k (prog >>= next) t result s'' din'' := by
  refine wp_then first ?_
  rintro _ u ⟨rfl, twin⟩
  exact rest u twin

theorem Simulates.pure (twin : Twin s din k t) (value : α) : Simulates k (pure value) t value s din :=
  wp_pure.mpr ⟨rfl, twin⟩

theorem Simulates.bread {next : Block → FsM α} {value : α} (twin : Twin s din k t) (data : nmeta ≤ b)
    (rest : Simulates k (next (s.image b)) t value s' din') : Simulates k (Fs.bread b >>= next) t value s' din' := by
  unfold Simulates
  rw [wp_bind, wp_bread, twin.disk, finished_of_data data]
  exact rest

theorem wp_takeBlock {post : Nat → State → Prop} :
    wp takeBlock post stop s ↔ post s.freeblock { s with freeblock := s.freeblock + 1 } := wp_of_ok rfl

theorem wp_wsect {sec : Nat} {buf : Block} :
    wp (wsect sec buf) post stop s ↔
      post () { s with image := update s.image sec buf, sectors := max s.sectors (sec + 1) } := wp_of_ok rfl

theorem wp_rsect {post : Block → State → Prop} {sec : Nat}
    (inside : sec < s.sectors → post (s.image sec) s) (outside : s.sectors ≤ sec → stop (.perror "read")) :
    wp (rsect sec) post stop s := by
  unfold rsect
  rw [wp_bind, wp_get]
  split
  next low => exact wp_pure.mpr (inside low)
  next high => exact wp_throw.mpr (outside (Nat.le_of_not_lt high))

theorem Ready.wsect (ready : Ready s) (other : 1 < b) (taken : b < s.freeblock) (data : Block) :
    Ready { s with image := update s.image b data, sectors := max s.sectors (b + 1) } where
  super := (update_of_ne (Nat.ne_of_lt other) ..).trans ready.super
  sectors := by
    have := ready.high
    have := ready.sectors
    simp only
    omega
  low := ready.low
  high := ready.high
  fresh := fun c above => (update_of_ne (by simp only at above; omega) ..).trans (ready.fresh c above)

theorem finished_wsect (apart : b ≠ sb.bmapstart) (data : Block) (sectors : Nat) :
    ({ s with image := update s.image b data, sectors := sectors } : State).finished =
      update s.finished b data :=
  update_comm apart ..

theorem Simulates.logWrite (twin : Twin s din k t) (area : nmeta ≤ b) (taken : b < s.freeblock)
    (data : Block) : Simulates k (Fs.logWrite b data) t ()
      { s with image := update s.image b data, sectors := max s.sectors (b + 1) } din := by
  refine wp_logWrite twin.op ⟨rfl, ?_⟩
  have other : 1 < nmeta := by decide
  refine { twin.toReady.wsect (by omega) taken data with superblock := twin.superblock, disk := ?_, inode := twin.inode, op := twin.op }
  rw [finished_wsect (by have := bmapstart_lt_nmeta; omega), ← twin.disk]

theorem clearBit_bitmap {used : Nat} (room : used < FSSIZE) : clearBit sb (bitmap used) 0 BPB = some used := by
  have small : used < BPB := lt_trans room (by decide)
  have bits := bit_bitmap (le_of_lt small)
  rw [clearBit, find?_range_eq_some]
  refine ⟨?_, mem_range.mpr small, fun j before => ?_⟩
  · rw [bits, zero_add, decide_eq_true (show used < sb.size from room), decide_eq_false (lt_irrefl used)]
    rfl
  · rw [bits, decide_eq_true before]
    simp

theorem Ready.takeBlock (ready : Ready s) (room : s.freeblock < FSSIZE) :
    Ready { s with freeblock := s.freeblock + 1 } where
  super := ready.super
  sectors := ready.sectors
  low := le_succ_of_le ready.low
  high := room
  fresh := fun b above => ready.fresh b (le_of_succ_le above)

theorem finished_takeBlock (ready : Ready s) :
    ({ s with freeblock := s.freeblock + 1 } : State).finished =
      update (update s.finished sb.bmapstart ((bitmap s.freeblock).setBit s.freeblock)) s.freeblock
        Bytes.zero := by
  have apart : s.freeblock ≠ sb.bmapstart := by
    have := ready.low
    have := bmapstart_lt_nmeta
    omega
  funext b
  simp only [State.finished, update_idem, ← bitmap_succ]
  by_cases here : b = s.freeblock
  · rw [here, update_self, update_of_ne apart, ready.fresh _ (le_refl _)]
  · rw [update_of_ne here]

/-- The kernel's `balloc` finds the block that `mkfs` takes. -/
theorem balloc_simulates (twin : Twin s din k t) (room : s.freeblock < FSSIZE) :
    Simulates k Fs.balloc t s.freeblock { s with freeblock := s.freeblock + 1 } din := by
  have blocks : (sb.size + (BPB - 1)) / BPB = 1 := by decide
  have first : sb.bblock 0 = sb.bmapstart := by decide
  have map : t.disk sb.bmapstart = bitmap s.freeblock := by rw [twin.disk, State.finished, update_self]
  unfold Simulates Fs.balloc
  rw [wp_bind, wp_get]
  change wp (ballocFrom 0 ((t.sb.size + (BPB - 1)) / BPB)) _ _ t
  rw [twin.superblock, blocks]
  unfold ballocFrom
  rw [wp_bind, wp_get, wp_bind, wp_bread, twin.superblock, first, map, clearBit_bitmap room]
  refine wp_bind.mpr (wp_logWrite twin.op (wp_bind.mpr (wp_logWrite twin.op (wp_pure.mpr ⟨zero_add _, ?_⟩))))
  refine { twin.toReady.takeBlock room with superblock := twin.superblock, disk := ?_, inode := twin.inode, op := twin.op }
  rw [finished_takeBlock twin.toReady, zero_add, ← twin.disk]

theorem Simulates.setInode (twin : Twin s din k t) (ip : Inode) :
    Simulates k (Fs.setInode k ip) t () s ip.toDinode := by
  refine wp_setInode.mpr ⟨rfl, ?_⟩
  exact { twin with inode := by simp only [update_self] }

theorem Simulates.assign (twin : Twin s din k t) (room : s.freeblock < FSSIZE) (i : Nat) :
    Simulates k (do
      let addr ← Fs.balloc
      Fs.setInode k { t.icache k with toDinode := (t.icache k).setAddr i addr }
      return addr) t s.freeblock { s with freeblock := s.freeblock + 1 } (din.setAddr i s.freeblock) := by
  refine Simulates.bind (balloc_simulates twin room) fun u after => ?_
  refine Simulates.bind (Simulates.setInode after _) fun v last => ?_
  rw [← twin.inode]
  exact Simulates.pure last _

end Simulation

variable {off : Nat}

variable {table : Nat → Dinode}

section Chunk

variable {x fbn : Nat}

/-- How many blocks `iappend` takes for block `fbn` of the file. -/
def cost (disk : Nat → Block) (din : Dinode) (fbn : Nat) : Nat :=
  (if blockOf disk din fbn = 0 then 1 else 0) + if NDIRECT ≤ fbn ∧ din.addr NDIRECT = 0 then 1 else 0

theorem slot_range (twin : Twin s din k t) (owned : Owned sb s.finished table ∅) (inside : x < NINODES) {i : Nat}
    (bound : i < NSLOT) (nonzero : slot s.finished (table x) i ≠ 0) :
    nmeta ≤ slot s.finished (table x) i ∧ slot s.finished (table x) i < s.freeblock := by
  obtain ⟨low, high⟩ := owned.area x inside i bound nonzero
  have used := (owned.used _ high).mpr (.inr (.inr ⟨x, inside, i, bound, rfl⟩))
  rw [inUse_finished twin.high high, decide_eq_true_iff] at used
  exact ⟨low, used⟩

/-- What `mkfs` has after it asked for the block `b`, and the kernel with it. -/
structure Got {α : Type} (s s' : State) (k : Fin NINODE) (prog : FsM α) (t : Fs.State) (value : α) (din' : Dinode)
    (b taken : Nat) : Prop where
  sectors : s'.sectors = FSSIZE
  freeinode : s'.freeinode = s.freeinode
  freeblock : s'.freeblock = s.freeblock + taken
  inside : b < FSSIZE → Simulates k prog t value s' din' ∧ nmeta ≤ b ∧ b < s'.freeblock
  outside : FSSIZE ≤ b → FSSIZE < s'.freeblock

theorem wp_withIndirect (twin : Twin s din k t) (owned : Owned sb s.finished table ∅) (inside : x < NINODES)
    (here : table x = din) :
    wp (withIndirect din) (fun din' s' =>
        Got s s' k (bmapIndirect k) t (din'.addr NDIRECT) din' (din'.addr NDIRECT)
          (if din.addr NDIRECT = 0 then 1 else 0) ∧
        (din.addr NDIRECT ≠ 0 → s' = s ∧ din' = din) ∧
        (din.addr NDIRECT = 0 → s' = { s with freeblock := s.freeblock + 1 } ∧ din' = din.setAddr NDIRECT s.freeblock))
      (fun _ => False) s := by
  unfold withIndirect
  split
  next empty =>
    rw [wp_bind, wp_takeBlock, wp_pure]
    have filled : (din.setAddr NDIRECT s.freeblock).addr NDIRECT = s.freeblock := by
      rw [Dinode.addr_setAddr _ _ _ (lt_succ_self _), if_pos rfl]
    refine ⟨⟨twin.sectors, rfl, rfl, fun room => ?_, fun full => ?_⟩, fun other => absurd empty other,
      fun _ => ⟨rfl, rfl⟩⟩
    · rw [filled] at room ⊢
      refine ⟨?_, twin.low, lt_succ_self _⟩
      unfold bmapIndirect Simulates
      rw [wp_bind, wp_getInode, if_pos (by rw [twin.inode]; exact empty)]
      exact Simulates.assign twin room NDIRECT
    · rw [filled] at full
      exact lt_succ_of_le full
  next present =>
    have self : slot s.finished (table x) NDIRECT = din.addr NDIRECT := by rw [here, slot_direct _ _ (le_refl _)]
    have range := slot_range twin owned inside (i := NDIRECT) (by decide) (by rw [self]; exact present)
    rw [self] at range
    have high := twin.high
    refine wp_pure.mpr ⟨⟨twin.sectors, rfl, rfl, fun _ => ⟨?_, range⟩, fun out => by omega⟩,
      fun _ => ⟨rfl, rfl⟩, fun empty => absurd empty present⟩
    unfold bmapIndirect Simulates
    rw [wp_bind, wp_getInode, twin.inode, if_neg present]
    exact wp_pure.mpr ⟨rfl, twin⟩

theorem wp_blockFor (twin : Twin s din k t) (owned : Owned sb s.finished table ∅) (inside : x < NINODES)
    (here : table x = din) (bound : fbn < MAXFILE) :
    wp (blockFor din fbn) (fun r s' => Got s s' k (bmap k fbn) t r.2 r.1 r.2 (cost s.finished din fbn))
      (fun e => e = .perror "read" ∧ FSSIZE < s.freeblock + cost s.finished din fbn) s := by
  unfold blockFor
  split
  next direct =>
    have noIndirect : ¬ (NDIRECT ≤ fbn ∧ din.addr NDIRECT = 0) := fun both => by omega
    have block := blockOf_direct s.finished din direct
    split
    next empty =>
      rw [wp_bind, wp_takeBlock, wp_pure, cost, block, if_pos empty, if_neg noIndirect]
      refine ⟨twin.sectors, rfl, rfl, fun room => ⟨?_, twin.low, lt_succ_self _⟩, lt_succ_of_le⟩
      unfold bmap Simulates
      rw [wp_bind, wp_getInode, if_pos direct, if_pos (by rw [twin.inode]; exact empty)]
      exact Simulates.assign twin room fbn
    next present =>
      have range := slot_range twin owned inside (i := slotOf fbn) (slotOf_lt bound) (by rw [here, ← blockOf, block]; exact present)
      rw [here, ← blockOf, block] at range
      have high := twin.high
      rw [wp_pure, cost, block, if_neg present, if_neg noIndirect]
      refine ⟨twin.sectors, rfl, rfl, fun _ => ⟨?_, range⟩, fun out => by simp only at out; omega⟩
      unfold bmap Simulates
      rw [wp_bind, wp_getInode, twin.inode, if_pos direct, if_neg present]
      exact wp_pure.mpr ⟨rfl, twin⟩
  next indirect =>
    have high := twin.high
    have entry : fbn - NDIRECT < NINDIRECT := by
      unfold MAXFILE at bound
      omega
    refine wp_then (wp_withIndirect twin owned inside here) ?_
    rintro din' s' ⟨got, kept, grown⟩
    have total : cost s.finished din fbn =
        (if blockOf s.finished din fbn = 0 then 1 else 0) + if din.addr NDIRECT = 0 then 1 else 0 := by
      simp only [cost, Nat.le_of_not_lt indirect, true_and]
    refine wp_bind.mpr (wp_rsect (fun low => ?_) fun out => ?_)
    · rw [got.sectors] at low
      obtain ⟨first, data, taken⟩ := got.inside low
      have value : (s'.image (din'.addr NDIRECT)).word (4 * (fbn - NDIRECT)) 4 = blockOf s.finished din fbn := by
        rw [blockOf_indirect _ _ (Nat.le_of_not_lt indirect)]
        by_cases empty : din.addr NDIRECT = 0
        · obtain ⟨rfl, rfl⟩ := grown empty
          have filled : (din.setAddr NDIRECT s.freeblock).addr NDIRECT = s.freeblock := by
            rw [Dinode.addr_setAddr _ _ _ (lt_succ_self _), if_pos rfl]
          rw [if_pos empty, filled, twin.fresh _ (le_refl _), Bytes.word_zero]
        · obtain ⟨rfl, rfl⟩ := kept empty
          rw [if_neg empty, finished_of_data data]
      have kernel : ∀ {result s'' din''}, (∀ u, Twin s' din' k u → Simulates k (do
          let bp ← bread (din'.addr NDIRECT)
          let entry := bp.word (4 * (fbn - NDIRECT)) 4
          if entry = 0 then do
            let fresh ← Fs.balloc
            logWrite (din'.addr NDIRECT) (bp.setWord (4 * (fbn - NDIRECT)) 4 fresh)
            return fresh
          else
            return entry) u result s'' din'') → Simulates k (bmap k fbn) t result s'' din'' := by
        intro result s'' din'' rest
        unfold bmap Simulates
        rw [wp_bind, wp_getInode, if_neg indirect, if_pos entry]
        exact Simulates.bind first rest
      rw [value]
      dsimp only
      split
      next zero =>
        rw [wp_bind, wp_takeBlock, wp_bind, wp_wsect, wp_pure, total, if_pos zero]
        refine ⟨?_, got.freeinode, ?_, fun room => ⟨kernel fun u after => ?_, ?_, lt_succ_self _⟩, ?_⟩
        · have := got.sectors
          simp only
          omega
        · have := got.freeblock
          simp only
          omega
        · refine Simulates.bread after data ?_
          rw [value, if_pos zero]
          refine Simulates.bind (balloc_simulates after room) fun v last => ?_
          refine Simulates.bind (Simulates.logWrite last data (lt_succ_of_lt taken) _) fun w final => ?_
          exact Simulates.pure final _
        · exact le_trans data (le_of_lt taken)
        · exact lt_succ_of_le
      next mapped =>
        have present : din.addr NDIRECT ≠ 0 := fun empty => mapped (by
          rw [blockOf_indirect _ _ (Nat.le_of_not_lt indirect), if_pos empty])
        obtain ⟨rfl, rfl⟩ := kept present
        have range := slot_range twin owned inside (i := slotOf fbn) (slotOf_lt bound)
          (by rw [here, ← blockOf]; exact mapped)
        rw [here, ← blockOf] at range
        rw [wp_pure, total, if_neg mapped, if_neg present]
        refine ⟨got.sectors, rfl, rfl, fun _ => ⟨kernel fun u after => ?_, range⟩, fun out => by simp only at out; omega⟩
        refine Simulates.bread after data ?_
        rw [value, if_neg mapped]
        exact Simulates.pure after _
    · have := got.outside (got.sectors ▸ out)
      have := got.freeblock
      exact ⟨rfl, by omega⟩

def writeChunk (k : Fin NINODE) (off : Nat) (chunk : List UInt8) : FsM Unit := do
  let b ← bmap k (off / BSIZE)
  let bp ← bread b
  logWrite b (bp.blit (off % BSIZE) chunk)

theorem wp_appendChunk (twin : Twin s din k t) (owned : Owned sb s.finished table ∅) (inside : x < NINODES)
    (here : table x = din) (bound : off / BSIZE < MAXFILE) (chunk : List UInt8) :
    wp (appendChunk din off chunk) (fun din' s' => Simulates k (writeChunk k off chunk) t () s' din' ∧
        s'.freeinode = s.freeinode ∧ s'.freeblock = s.freeblock + cost s.finished din (off / BSIZE))
      (fun e => e = .perror "read" ∧ FSSIZE < s.freeblock + cost s.finished din (off / BSIZE)) s := by
  have place : off - off / BSIZE * BSIZE = off % BSIZE := by
    have := div_add_mod off BSIZE
    rw [mul_comm] at this
    omega
  unfold appendChunk
  refine wp_seq (wp_blockFor twin owned inside here bound) (fun _ stopped => stopped) ?_
  rintro ⟨din', b⟩ s' got
  refine wp_bind.mpr (wp_rsect (fun low => ?_) fun out => ?_)
  · rw [got.sectors] at low
    obtain ⟨first, data, taken⟩ := got.inside low
    rw [wp_bind, wp_wsect, wp_pure, place]
    refine ⟨?_, got.freeinode, got.freeblock⟩
    refine Simulates.bind first fun u after => Simulates.bread after data ?_
    exact Simulates.logWrite after data taken _
  · have := got.outside (got.sectors ▸ out)
    rw [got.freeblock] at this
    exact ⟨rfl, this⟩

end Chunk

theorem cost_add_need {disk : Nat → Block} {m : Nat} (mapped : Mapped disk din off)
    (bound : off / BSIZE < MAXFILE) (some : 0 < m) (oneBlock : m ≤ BSIZE - off % BSIZE) :
    cost disk din (off / BSIZE) + need off = need (off + m) := by
  have block := mapped.blocks (off / BSIZE) bound
  have indirect := mapped.indirect
  have first : blockOf disk din (off / BSIZE) = 0 ↔ off % BSIZE = 0 := by
    have := div_add_mod off BSIZE
    rw [mul_comm] at this
    omega
  have second : NDIRECT ≤ off / BSIZE ∧ din.addr NDIRECT = 0 ↔ off = NDIRECT * BSIZE := by
    rw [le_div_iff_mul_le BSIZE_pos]
    omega
  simp only [cost, need, first, second]
  simp only [BSIZE, NDIRECT] at *
  grind

section Loop

variable {x : Nat}

theorem wp_assert {holds : Prop} [Decidable holds] {condition : String}
    (yes : holds → post () s) (no : ¬ holds → stop (.assert condition)) :
    wp (assert holds condition) post stop s := by
  unfold assert
  split
  next true => exact wp_pure.mpr (yes true)
  next false => exact wp_throw.mpr (no false)

theorem wp_writeChunk_end (twin : Twin s din k t) (owned : Owned sb s.finished table ∅) (inside : x < NINODES)
    (here : table x = din) (fits : din.Fits) (mapped : Mapped s.finished din off) {chunk : List UInt8}
    (some : 0 < chunk.length) (oneBlock : chunk.length ≤ BSIZE - off % BSIZE)
    (room : off + chunk.length ≤ MAXFILE * BSIZE) :
    wp (writeChunk k off chunk) (fun _ u => ∃ d, Remapped t u k table x d ∧ Mapped u.disk d (off + chunk.length))
      (· = .panic "balloc: out of blocks") t := by
  have spec : wp (do
      let b ← bmap k (off / BSIZE)
      let bp ← bread b
      logWrite b (bp.blit (off % BSIZE) chunk)
      pure ()) (fun _ u => ∃ d, Remapped t u k table x d ∧ Mapped u.disk d (off + chunk.length))
        (· = .panic "balloc: out of blocks") t := wp_writeChunk
    (by rw [twin.superblock, twin.disk]; exact owned) (by rw [twin.superblock]; exact geometry)
    (by rw [twin.superblock]; exact inside) (by rw [here]; exact fits) (by rw [here, twin.inode]) twin.op
    (by rw [here, twin.disk]; exact mapped) (le_refl off) some oneBlock room (fun _ => rfl)
    fun u d remapped grown _ _ _ => wp_pure.mpr ⟨d, remapped, by
      rwa [max_eq_right (le_add_right _ _)] at grown⟩
  simpa only [writeChunk, bind_pure_unit] using spec

/-- The loops of `iappend` and `writei` take the same steps. -/
theorem wp_iappendLoop (fuel off : Nat) (p : List UInt8) (twin : Twin s din k t) (owned : Owned sb s.finished table ∅)
    (inside : x < NINODES) (here : table x = din) (fits : din.Fits) (mapped : Mapped s.finished din off)
    (enough : p.length ≤ fuel) :
    wp (iappendLoop fuel din off p) (fun r s' => r.2 = off + p.length ∧ off + p.length ≤ MAXFILE * BSIZE ∧
        Simulates k (writeiLoop k fuel off p) t () s' r.1 ∧ s'.freeinode = s.freeinode ∧
        s'.freeblock + need off = s.freeblock + need (off + p.length))
      (fun _ => MAXFILE * BSIZE < off + p.length ∨ FSSIZE + need off < s.freeblock + need (off + p.length)) s := by
  induction fuel generalizing s din t table off p with
  | zero =>
    have none : p.length = 0 := by omega
    unfold iappendLoop writeiLoop
    rw [wp_pure, none, add_zero]
    exact ⟨rfl, mapped.fits, Simulates.pure twin _, rfl, rfl⟩
  | succ fuel ih =>
    unfold iappendLoop writeiLoop
    split
    next none =>
      rw [wp_pure, none, add_zero]
      exact ⟨rfl, mapped.fits, Simulates.pure twin _, rfl, rfl⟩
    next more =>
      have chunkEnd : (off / BSIZE + 1) * BSIZE - off = BSIZE - off % BSIZE := by
        have := div_add_mod off BSIZE
        rw [mul_comm] at this
        rw [succ_mul]
        omega
      have positive : 0 < BSIZE - off % BSIZE := Nat.sub_pos_of_lt (Nat.mod_lt _ BSIZE_pos)
      have limit := mapped.fits
      dsimp only
      rw [chunkEnd]
      set m := min p.length (BSIZE - off % BSIZE) with hm
      have length : (p.take m).length = m := by rw [length_take]; omega
      have left : (p.drop m).length = p.length - m := length_drop
      refine wp_bind.mpr (wp_assert (fun bound => ?_) fun out => .inl ?_)
      · have counted := cost_add_need mapped bound (m := m) (by omega) (by omega)
        have least : need (off + m) ≤ need (off + p.length) := need_mono (by omega)
        have within : off + m ≤ MAXFILE * BSIZE := by
          have := mul_le_mul_right BSIZE (succ_le_of_lt bound)
          rw [succ_mul] at this
          have := div_add_mod off BSIZE
          rw [mul_comm] at this
          omega
        refine wp_seq (wp_appendChunk twin owned inside here bound (p.take m))
          (fun _ stopped => .inr (by have := stopped.2; omega)) ?_
        rintro din' s' ⟨simulates, inodes, blocks⟩
        have spec := wp_writeChunk_end twin owned inside here fits mapped (by omega : 0 < (p.take m).length)
          (by omega) (by omega)
        obtain ⟨value, u, ran, ⟨-, after⟩, d, remapped, grown⟩ :=
          wp.returns (wp_mono (wp_and simulates spec) (fun _ _ both => both) fun _ both => both.1)
        obtain rfl : d = din' := remapped.cached.symm.trans after.inode
        have self : update table x d x = d := update_self ..
        have owned' := remapped.owned
        rw [twin.superblock, after.disk] at owned'
        rw [after.disk, length] at grown
        have whole : off + m + (p.drop m).length = off + p.length := by omega
        refine wp_mono (ih (off + m) (p.drop m) after owned' self remapped.fits grown (by omega)) ?_ ?_
        · rintro ⟨e, last⟩ s'' ⟨rfl, fit, rest, inodes', blocks'⟩
          rw [whole] at fit blocks' ⊢
          refine ⟨rfl, fit, ?_, inodes'.trans inodes, by omega⟩
          have kernel : Simulates k (writeChunk k off (p.take m) >>= fun _ => writeiLoop k fuel (off + m) (p.drop m)) t ()
              s'' e := (wp_bind_of_ok ran).mpr rest
          simpa only [Simulates, writeChunk, bind_assoc] using kernel
        · intro _ stopped
          rw [whole] at stopped
          omega
      · have := div_add_mod off BSIZE
        rw [Nat.mul_comm] at this
        have := Nat.mul_le_mul_right BSIZE (Nat.le_of_not_lt out)
        omega

end Loop

end Xv6.Mkfs
