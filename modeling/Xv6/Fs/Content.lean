import Mathlib.Algebra.Order.Group.Nat
import Xv6.Fs.Bmap

/-! What `readi` returns and what `writei` leaves: the content of an inode as the bytes of
its blocks. -/

namespace Xv6.Fs
open Lib Function Nat List

def rawByte (disk : Nat → Block) (d : Dinode) (o : Nat) : UInt8 :=
  (disk (blockOf disk d (o / BSIZE))).get (o % BSIZE)

variable {o off : Nat}

section Offsets

theorem BSIZE_pos : 0 < BSIZE := by decide

theorem block_lt_of_lt (small : o < MAXFILE * BSIZE) : o / BSIZE < MAXFILE :=
  Nat.div_lt_of_lt_mul (by rwa [Nat.mul_comm])

theorem block_mul_le (o : Nat) : o / BSIZE * BSIZE ≤ o := div_mul_le_self o BSIZE

theorem lt_block_end (o : Nat) : o < o / BSIZE * BSIZE + BSIZE := lt_div_mul_add BSIZE_pos

theorem same_block {i : Nat} (inside : i < BSIZE - off % BSIZE) :
    (off + i) / BSIZE = off / BSIZE ∧ (off + i) % BSIZE = off % BSIZE + i := by
  have small : off % BSIZE + i < BSIZE := by omega
  have whole : off + i = BSIZE * (off / BSIZE) + (off % BSIZE + i) := by
    have := div_add_mod off BSIZE
    omega
  constructor
  · rw [whole, mul_add_div BSIZE_pos, div_eq_of_lt small, add_zero]
  · rw [whole, mul_add_mod, mod_eq_of_lt small]

end Offsets

variable {disk : Nat → Block} {size : Nat}

section Read

variable {s : State} {k : Fin NINODE} {stop : Stop → Prop}

theorem slice_block (disk : Nat → Block) (d : Dinode) {m : Nat} (inside : m ≤ BSIZE - off % BSIZE) :
    (disk (blockOf disk d (off / BSIZE))).slice (off % BSIZE) m =
      (range m).map fun i => rawByte disk d (off + i) := by
  refine map_congr_left fun i member => ?_
  obtain ⟨block, place⟩ := same_block (lt_of_lt_of_le (mem_range.mp member) inside)
  rw [rawByte, block, place]

theorem Mapped.block_ne_zero {d : Dinode} (mapped : Mapped disk d size)
    (below : o < size) : o / BSIZE < MAXFILE ∧ blockOf disk d (o / BSIZE) ≠ 0 := by
  have bound := block_lt_of_lt (lt_of_lt_of_le below mapped.fits)
  exact ⟨bound, (mapped.blocks _ bound).mpr (lt_of_le_of_lt (block_mul_le o) below)⟩

theorem wp_readiLoop {post : List UInt8 → State → Prop}
    (mapped : Mapped s.disk (s.icache k).toDinode size) (fuel off n : Nat) (enough : n ≤ fuel)
    (below : off + n ≤ size)
    (here : post ((range n).map fun i => rawByte s.disk (s.icache k).toDinode (off + i)) s) :
    wp (readiLoop k fuel off n) post stop s := by
  induction fuel generalizing off n post with
  | zero =>
    obtain rfl : n = 0 := by omega
    exact wp_pure.mpr here
  | succ fuel ih =>
    unfold readiLoop
    split
    next zero =>
      subst zero
      exact wp_pure.mpr here
    next nonzero =>
      obtain ⟨bound, present⟩ := mapped.block_ne_zero (o := off) (by omega)
      have room : 0 < BSIZE - off % BSIZE := Nat.sub_pos_of_lt (Nat.mod_lt _ BSIZE_pos)
      refine wp_bind.mpr (wp_bmap_mapped bound present ?_)
      rw [wp_bind, wp_bread]
      refine wp_bind.mpr (ih _ _ (by omega) (by omega) (wp_pure.mpr ?_))
      rw [slice_block _ _ (min_le_right ..)]
      have split : n = min n (BSIZE - off % BSIZE) + (n - min n (BSIZE - off % BSIZE)) := by omega
      rw [split, range_add, map_append, map_map] at here
      simpa only [comp_def, add_assoc, ← split] using here

end Read

section Write

variable {s t : State} {k : Fin NINODE} {table : Nat → Dinode} {x : Nat} {d : Dinode}

variable {addr : Nat}

theorem GotBlock.write {bn : Nat} (got : GotBlock s t k table x d bn addr) (inside : x < s.sb.ninodes)
    (bound : bn < MAXFILE) (nonzero : addr ≠ 0) (data : Block) :
    Remapped s { t with disk := update t.disk addr data, trace := .logWrite addr :: t.trace } k table x d ∧
      ∀ cn < MAXFILE, blockOf (update t.disk addr data) d cn = blockOf t.disk d cn ∧
        (cn ≠ bn → blockOf t.disk d cn ≠ addr) := by
  have self : update table x d x = d := update_self ..
  have other : ∀ y, y ≠ x → update table x d y = table y := fun y apart => update_of_ne apart ..
  have here : slot t.disk (update table x d x) (slotOf bn) = addr := by rw [self]; exact got.here
  have area := got.owned.area x inside (slotOf bn) (slotOf_lt bound) (by rwa [here])
  rw [here] at area
  have apartFrom : ∀ y < s.sb.ninodes, ∀ i < NSLOT, (y = x → i ≠ slotOf bn) →
      slot t.disk (update table x d y) i ≠ addr := by
    intro y within i low apart same
    obtain ⟨same, place⟩ := got.owned.apart x inside (slotOf bn) (slotOf_lt bound) y within i low (by rwa [here])
      (here.trans same.symm)
    exact apart same.symm place.symm
  have slots : ∀ y < s.sb.ninodes, ∀ i < NSLOT,
      slot (update t.disk addr data) (update table x d y) i =
        slot t.disk (update table x d y) i := by
    refine got.owned.slots_of_spared fun y within _ _ => update_of_ne ?_ ..
    have away := apartFrom y within NDIRECT (by decide) fun _ same => slotOf_ne_indirect bn same.symm
    rwa [slot_direct _ _ (le_refl _)] at away
  refine ⟨⟨⟨?_, got.fields, got.fits, ?_, ?_, ?_⟩, ?frame, got.trace.trans (.logWrite _)⟩, ?_⟩
  case frame => rw [got.frame]
  · exact got.owned.congr slots fun c within => inUse_update_data area.1 within
  · intro y within apart i low
    have same := slots y within i low
    rw [other y apart] at same
    exact same.trans (got.slots y within apart i low)
  · intro y within apart cn low there
    have away := apartFrom y within (slotOf cn) (slotOf_lt low) fun same => absurd same apart
    rw [other y apart, got.slots y within apart _ (slotOf_lt low)] at away
    exact (update_of_ne away ..).trans (got.data y within apart cn low there)
  · intro c before
    have := s.sb.bmapstart_le_datastart
    exact (update_of_ne (by omega) ..).trans (got.inodes c before)
  · intro cn low
    have same := slots x inside (slotOf cn) (slotOf_lt low)
    have away := apartFrom x inside (slotOf cn) (slotOf_lt low)
    rw [self] at same away
    exact ⟨same, fun other => away fun _ place => other (slotOf_inj place)⟩

theorem GotBlock.rawByte_eq {bn : Nat} (got : GotBlock s t k table x d bn addr) (bound : o / BSIZE < MAXFILE)
    (there : blockOf s.disk (table x) (o / BSIZE) ≠ 0) : rawByte t.disk d o = rawByte s.disk (table x) o := by
  rw [rawByte, got.others _ bound (fun same => same ▸ there), got.kept _ bound there, rawByte]

theorem rawByte_blit {chunk : List UInt8}
    (here : blockOf disk d (off / BSIZE) = addr)
    (blocks : ∀ cn < MAXFILE,
      blockOf (update disk addr ((disk addr).blit (off % BSIZE) chunk)) d cn = blockOf disk d cn ∧
        (cn ≠ off / BSIZE → blockOf disk d cn ≠ addr))
    (oneBlock : chunk.length ≤ BSIZE - off % BSIZE) (bound : o / BSIZE < MAXFILE) :
    rawByte (update disk addr ((disk addr).blit (off % BSIZE) chunk)) d o =
      if off ≤ o ∧ o < off + chunk.length then chunk.getD (o - off) 0 else rawByte disk d o := by
  have place : o % BSIZE < BSIZE := mod_lt _ BSIZE_pos
  have first := div_add_mod o BSIZE
  have second := div_add_mod off BSIZE
  rw [rawByte, (blocks _ bound).1]
  by_cases same : o / BSIZE = off / BSIZE
  · rw [same] at first
    have range : (off % BSIZE ≤ o % BSIZE ∧ o % BSIZE < off % BSIZE + chunk.length) ↔
        (off ≤ o ∧ o < off + chunk.length) := by omega
    have index : o % BSIZE - off % BSIZE = o - off := by omega
    rw [same, here, update_self, Bytes.get_blit _ _ _ place, rawByte, same, here]
    simp only [range, index]
  · have outside : ¬ (off ≤ o ∧ o < off + chunk.length) := by
      rintro ⟨low, high⟩
      have inner := (same_block (by omega : o - off < BSIZE - off % BSIZE)).1
      rw [Nat.add_sub_cancel' low] at inner
      exact same inner
    rw [if_neg outside, update_of_ne ((blocks _ bound).2 same), rawByte]

theorem Mapped.resize {size' : Nat} (mapped : Mapped disk d size)
    (fits : size' ≤ MAXFILE * BSIZE) (same : ∀ bn, bn * BSIZE < size ↔ bn * BSIZE < size') : Mapped disk d size' where
  fits := fits
  blocks := fun bn bound => (mapped.blocks bn bound).trans (same bn)
  indirect := mapped.indirect.trans (same NDIRECT)

theorem wp_writeChunk {α : Type} {post : α → State → Prop} {next : FsM α} {stop : Stop → Prop}
    {chunk : List UInt8} (owned : Owned s.sb s.disk table ∅) (geometry : s.sb.Geometry) (inside : x < s.sb.ninodes)
    (fits : (table x).Fits) (cached : (s.icache k).toDinode = table x) (op : 0 < s.outstanding)
    (mapped : Mapped s.disk (table x) size) (reach : off ≤ size) (some : 0 < chunk.length)
    (oneBlock : chunk.length ≤ BSIZE - off % BSIZE) (room : off + chunk.length ≤ MAXFILE * BSIZE)
    (full : freeBlocks s.sb s.disk + need size < need (max size (off + chunk.length)) →
      stop (.panic "balloc: out of blocks"))
    (rest : ∀ t d, Remapped s t k table x d → Mapped t.disk d (max size (off + chunk.length)) →
      freeBlocks s.sb t.disk + need (max size (off + chunk.length)) = freeBlocks s.sb s.disk + need size →
      (off + chunk.length ≤ size → d = table x) →
      (∀ o < max size (off + chunk.length), rawByte t.disk d o =
        if off ≤ o ∧ o < off + chunk.length then chunk.getD (o - off) 0 else rawByte s.disk (table x) o) →
      wp next post stop t) :
    wp (do
      let b ← bmap k (off / BSIZE)
      let bp ← bread b
      logWrite b (bp.blit (off % BSIZE) chunk)
      next) post stop s := by
  have bound : off / BSIZE < MAXFILE := block_lt_of_lt (by omega)
  have low := block_mul_le off
  have high := lt_block_end off
  have atMost : off + chunk.length ≤ off / BSIZE * BSIZE + BSIZE := by
    have := div_add_mod off BSIZE
    rw [mul_comm] at this
    omega
  have cost : need (max size (off / BSIZE * BSIZE + 1)) = need (max size (off + chunk.length)) := by
    unfold need BSIZE NDIRECT at *
    have same : (max size (off / 512 * 512 + 1) + (512 - 1)) / 512 = (max size (off + chunk.length) + (512 - 1)) / 512 := by
      omega
    have border : 12 * 512 < max size (off / 512 * 512 + 1) ↔ 12 * 512 < max size (off + chunk.length) := by omega
    simp only [same, border]
  refine wp_seq (wp_bmap owned geometry inside fits cached op mapped bound (low.trans reach))
    (fun _ stopped => stopped.1 ▸ full (by rw [← cost]; exact stopped.2)) ?_
  rintro addr t ⟨d, got, nonzero, grown, still, taken⟩
  rw [cost] at taken
  have area := got.owned.area x inside (slotOf (off / BSIZE)) (slotOf_lt bound)
  rw [update_self, ← blockOf, got.here] at area
  have logged : freeBlocks s.sb (update t.disk addr ((t.disk addr).blit (off % BSIZE) chunk)) =
      freeBlocks s.sb t.disk := freeBlocks_congr fun c within => inUse_update_data (area nonzero).1 within
  obtain ⟨written, blocks⟩ := got.write inside bound nonzero ((t.disk addr).blit (off % BSIZE) chunk)
  rw [wp_bind, wp_bread]
  refine wp_bind.mpr (wp_logWrite (by rw [got.frame]; exact op) ?_)
  have order : ∀ cn, cn * BSIZE < max size (off / BSIZE * BSIZE + 1) ↔
      cn * BSIZE < max size (off + chunk.length) := by
    intro cn
    have split : cn * BSIZE ≤ off / BSIZE * BSIZE ∨ off / BSIZE * BSIZE + BSIZE ≤ cn * BSIZE := by
      rcases lt_or_ge (off / BSIZE) cn with after | before
      · have := mul_le_mul_right BSIZE after
        rw [succ_mul] at this
        exact .inr this
      · exact .inl (mul_le_mul_right _ before)
    omega
  have larger : max size (off + chunk.length) ≤ MAXFILE * BSIZE := max_le mapped.fits room
  have resized := grown.resize larger order
  refine rest _ d written ⟨larger, fun cn small => ?_, resized.indirect⟩ (by rw [logged]; exact taken)
    (fun below => still (by omega)) ?_
  · rw [(blocks cn small).1]
    exact resized.blocks cn small
  · intro o below
    have small : o / BSIZE < MAXFILE := block_lt_of_lt (lt_of_lt_of_le below larger)
    refine (rawByte_blit got.here blocks oneBlock small).trans ?_
    split
    · rfl
    next outside => exact got.rawByte_eq small (mapped.block_ne_zero (by omega)).2

theorem wp_writeiLoop (owned : Owned s.sb s.disk table ∅) (geometry : s.sb.Geometry) (inside : x < s.sb.ninodes)
    (fits : (table x).Fits) (cached : (s.icache k).toDinode = table x) (op : 0 < s.outstanding)
    (fuel size off : Nat) (src : List UInt8) (mapped : Mapped s.disk (table x) size) (reach : off ≤ size)
    (enough : src.length ≤ fuel) (room : off + src.length ≤ MAXFILE * BSIZE) :
    wp (writeiLoop k fuel off src) (fun _ t => ∃ d, Remapped s t k table x d ∧
        Mapped t.disk d (max size (off + src.length)) ∧ (off + src.length ≤ size → d = table x) ∧
        ∀ o < max size (off + src.length), rawByte t.disk d o =
          if off ≤ o ∧ o < off + src.length then src.getD (o - off) 0 else rawByte s.disk (table x) o)
      (fun e => e = .panic "balloc: out of blocks" ∧
        freeBlocks s.sb s.disk + need size < need (max size (off + src.length))) s := by
  induction fuel generalizing s table size off src with
  | zero =>
    have none : src.length = 0 := by omega
    unfold writeiLoop
    rw [wp_pure, none, add_zero, max_eq_left reach]
    exact ⟨table x, .refl owned fits cached, mapped, fun _ => rfl, fun o _ => (if_neg (by omega)).symm⟩
  | succ fuel ih =>
    unfold writeiLoop
    split
    next none =>
      rw [wp_pure, none, add_zero, max_eq_left reach]
      exact ⟨table x, .refl owned fits cached, mapped, fun _ => rfl, fun o _ => (if_neg (by omega)).symm⟩
    next more =>
      have positive : 0 < BSIZE - off % BSIZE := Nat.sub_pos_of_lt (Nat.mod_lt _ BSIZE_pos)
      set m := min src.length (BSIZE - off % BSIZE) with hm
      have length : (src.take m).length = m := by rw [length_take]; omega
      have left : (src.drop m).length = src.length - m := length_drop
      have least : need (max size (off + m)) ≤ need (max size (off + src.length)) := need_mono (by omega)
      refine wp_writeChunk owned geometry inside fits cached op mapped reach (by omega) (by omega) (by omega)
        (fun few => ⟨rfl, by rw [length] at few; omega⟩) ?_
      intro t d grown mapped' taken still bytes
      rw [length] at mapped' taken still bytes
      have sb : t.sb = s.sb := by rw [grown.frame]
      have total : max (max size (off + m)) (off + m + (src.drop m).length) = max size (off + src.length) := by omega
      have self : update table x d x = d := update_self ..
      have owned' : Owned t.sb t.disk (update table x d) ∅ := by rw [sb]; exact grown.owned
      refine wp_mono (ih owned' (by rwa [sb]) (by rwa [sb]) (by rw [self]; exact grown.fits) (by rw [self]; exact grown.cached)
        (by rw [grown.frame]; exact op) (max size (off + m)) (off + m) (src.drop m) (by rwa [self]) (by omega)
        (by omega) (by omega)) ?_ fun _ stopped => ⟨stopped.1, by have few := stopped.2; rw [sb, total] at few; omega⟩
      rintro _ u ⟨e, last, mapped'', still', bytes'⟩
      rw [total] at mapped'' bytes'
      rw [self] at bytes' still'
      refine ⟨e, grown.trans last, mapped'', fun below => (still' (by omega)).trans (still (by omega)), fun o below => ?_⟩
      rw [bytes' o below]
      by_cases second : off + m ≤ o ∧ o < off + m + (src.drop m).length
      · rw [if_pos second, if_pos (by omega), getD_eq_getElem?_getD, getD_eq_getElem?_getD,
          getElem?_drop, show m + (o - (off + m)) = o - off by omega]
      · rw [if_neg second, bytes o (by omega)]
        by_cases first : off ≤ o ∧ o < off + m
        · rw [if_pos first, if_pos (by omega), getD_eq_getElem?_getD, getD_eq_getElem?_getD,
            getElem?_take_of_lt (by omega)]
        · rw [if_neg first, if_neg (by omega)]

end Write

end Xv6.Fs
