import Mathlib.Data.Finset.Card
import Xv6.Fs.Inode
import Xv6.Fs.Ownership
import Xv6.Lib.Hoare

/-! What `balloc` and `bfree` do to the bitmap and to the ownership of blocks. -/

namespace Xv6.Fs
open Lib Function

variable {b : Nat} {data : Block}

section Steps

variable {s : State} {stop : Stop → Prop}

theorem wp_panic {α : Type} {post : α → State → Prop} {message : String} :
    wp (panic message) post stop s ↔ stop (.panic message) := wp_of_error rfl

theorem wp_getInode {post : Inode → State → Prop} {k : Fin NINODE} :
    wp (getInode k) post stop s ↔ post (s.icache k) s := wp_of_ok rfl

theorem wp_setInode {post : Unit → State → Prop} {k : Fin NINODE} {ip : Inode} :
    wp (setInode k ip) post stop s ↔ post () { s with icache := update s.icache k ip } := wp_of_ok rfl

theorem wp_bread {post : Block → State → Prop} :
    wp (bread b) post stop s ↔ post (s.disk b) s := wp_of_ok rfl

theorem wp_logWrite {post : Unit → State → Prop} (op : 0 < s.outstanding)
    (here : post () { s with disk := update s.disk b data, trace := .logWrite b :: s.trace }) :
    wp (logWrite b data) post stop s := by
  unfold logWrite
  rw [wp_bind, wp_get, if_neg (by omega)]
  exact wp_modify.mpr here

end Steps

variable {c : Nat}

section Bitmap

variable {sb : Superblock} {disk : Nat → Block}

theorem inUse_update_of_ne (apart : sb.bblock c ≠ b) :
    inUse sb (update disk b data) c = inUse sb disk c := by
  rw [inUse, update_of_ne apart, inUse]

theorem inUse_update_data (area : sb.datastart ≤ b) (inside : c < sb.size) :
    inUse sb (update disk b data) c = inUse sb disk c :=
  inUse_update_of_ne (by have := sb.bblock_lt inside; omega)

theorem inUse_update_inode (before : b < sb.bmapstart) (c : Nat) :
    inUse sb (update disk b data) c = inUse sb disk c :=
  inUse_update_of_ne (by have := sb.bmapstart_le_bblock c; omega)

theorem eq_of_bblock (same : sb.bblock c = sb.bblock b) (rest : c % BPB = b % BPB) : c = b := by
  have quotient : c / BPB = b / BPB := Nat.add_right_cancel same
  rw [← Nat.div_add_mod c BPB, ← Nat.div_add_mod b BPB, quotient, rest]

theorem mod_div_lt (b : Nat) : b % BPB / 8 < BSIZE := by
  simp only [BPB, BSIZE] at *
  omega

theorem inUse_setBit (b c : Nat) :
    inUse sb (update disk (sb.bblock b) ((disk (sb.bblock b)).setBit (b % BPB))) c =
      (inUse sb disk c || decide (c = b)) := by
  by_cases same : sb.bblock c = sb.bblock b
  · have here : c % BPB = b % BPB ↔ c = b := ⟨eq_of_bblock same, fun eq => by rw [eq]⟩
    rw [inUse, inUse, same, update_self, Bytes.bit_setBit _ (mod_div_lt b)]
    simp only [here]
  · have other : ¬ c = b := fun eq => same (by rw [eq])
    rw [inUse_update_of_ne same, decide_eq_false other, Bool.or_false]

theorem inUse_clearBit (b c : Nat) :
    inUse sb (update disk (sb.bblock b) ((disk (sb.bblock b)).clearBit (b % BPB))) c =
      (inUse sb disk c && decide (c ≠ b)) := by
  by_cases same : sb.bblock c = sb.bblock b
  · have here : c % BPB ≠ b % BPB ↔ c ≠ b := not_congr ⟨eq_of_bblock same, fun eq => by rw [eq]⟩
    rw [inUse, inUse, same, update_self, Bytes.bit_clearBit _ (mod_div_lt b)]
    simp only [here]
  · have other : c ≠ b := fun eq => same (by rw [eq])
    rw [inUse_update_of_ne same, decide_eq_true other, Bool.and_true]

def freeBlocks (sb : Superblock) (disk : Nat → Block) : Nat :=
  ((Finset.range sb.size).filter fun b => inUse sb disk b = false).card

theorem freeBlocks_congr {disk' : Nat → Block} (same : ∀ b < sb.size, inUse sb disk' b = inUse sb disk b) :
    freeBlocks sb disk' = freeBlocks sb disk := by
  unfold freeBlocks
  congr 1
  apply Finset.filter_congr
  intro b member
  rw [same b (Finset.mem_range.mp member)]

theorem freeBlocks_eq_zero (all : ∀ b < sb.size, inUse sb disk b = true) : freeBlocks sb disk = 0 := by
  unfold freeBlocks
  rw [Finset.card_eq_zero, Finset.filter_eq_empty_iff]
  intro b member clear
  rw [all b (Finset.mem_range.mp member)] at clear
  cases clear

end Bitmap

/-- From `s` to `t` blocks were logged, and nothing else. -/
structure Logged (s t : State) : Prop where
  frame : t = { s with disk := t.disk, trace := t.trace }
  trace : Traced true true s.trace t.trace

theorem Logged.refl (s : State) : Logged s s := ⟨rfl, .refl ..⟩

theorem Logged.trans {s t u : State} (first : Logged s t) (second : Logged t u) : Logged s u :=
  ⟨by rw [second.frame, first.frame], first.trace.trans second.trace⟩

def State.allocate (s : State) (b : Nat) : State :=
  { s with
    disk := update (update s.disk (s.sb.bblock b) ((s.disk (s.sb.bblock b)).setBit (b % BPB))) b Bytes.zero
    trace := .logWrite b :: .logWrite (s.sb.bblock b) :: s.trace }

/-- What `balloc` leaves when it returns `b`. -/
structure Allocated (s t : State) (table : Nat → Dinode) (extra : Set Nat) (b : Nat) : Prop extends Logged s t where
  owned : Owned s.sb t.disk table (insert b extra)
  area : s.sb.datastart ≤ b ∧ b < s.sb.size
  fresh : b ∉ extra
  unowned : ¬ HasOwner s.sb s.disk table b
  zero : t.disk b = Bytes.zero
  spared : ∀ c, c ≠ b → c < s.sb.bmapstart ∨ s.sb.datastart ≤ c → t.disk c = s.disk c

section Specs

variable {s : State} {table : Nat → Dinode} {extra : Set Nat}

variable {bi : Nat}

theorem clearBit_some {sb : Superblock} {block : Block} {count : Nat}
    (found : clearBit sb block b count = some bi) :
    bi < count ∧ b + bi < sb.size ∧ block.bit bi = false ∧ ∀ j < bi, block.bit j = true := by
  rw [clearBit, List.find?_range_eq_some, List.mem_range, Bool.and_eq_true, decide_eq_true_iff, Bool.not_eq_true'] at found
  obtain ⟨⟨inside, clear⟩, member, before⟩ := found
  refine ⟨member, inside, clear, fun j lower => ?_⟩
  simpa [show b + j < sb.size by omega] using before j lower

theorem clearBit_none {sb : Superblock} {block : Block} {count : Nat} (missing : clearBit sb block b count = none)
    (small : bi < count) (inside : b + bi < sb.size) : block.bit bi = true := by
  rw [clearBit, List.find?_eq_none] at missing
  simpa [inside] using missing bi (List.mem_range.mpr small)

theorem allocated_of_clear (owned : Owned s.sb s.disk table extra) (inside : b < s.sb.size)
    (clear : inUse s.sb s.disk b = false) : Allocated s (s.allocate b) table extra b := by
  have unused : ¬ (b < s.sb.datastart ∨ b ∈ extra ∨ HasOwner s.sb s.disk table b) := by
    rw [← owned.used b inside, clear]
    exact Bool.false_ne_true
  rw [not_or, not_or] at unused
  obtain ⟨data, fresh, unowned⟩ := unused
  have area : s.sb.datastart ≤ b := Nat.le_of_not_lt data
  have bitmap := s.sb.bblock_lt inside
  have spared : ∀ c, c ≠ b → c < s.sb.bmapstart ∨ s.sb.datastart ≤ c → (s.allocate b).disk c = s.disk c := by
    intro c other outside
    have := s.sb.bmapstart_le_bblock b
    change update (update s.disk _ _) b _ c = s.disk c
    rw [update_of_ne other, update_of_ne (by omega)]
  refine ⟨⟨rfl, (Traced.logWrite _).trans (.logWrite _)⟩, ?_, ⟨area, inside⟩, fresh, unowned, update_self ..,
    spared⟩
  refine owned.take inside clear (owned.slots_of_spared ?_) ?_
  · intro x within nonzero low
    refine spared _ ?_ (.inr low)
    exact fun same => unowned ⟨x, within, NDIRECT, by decide, (slot_direct _ _ (Nat.le_refl _)).trans same⟩
  · intro c within
    exact (inUse_update_data area within).trans (inUse_setBit b c)

theorem bblock_add (sb : Superblock) (aligned : b % BPB = 0) (small : bi < BPB) :
    sb.bblock b = sb.bblock (b + bi) ∧ bi = (b + bi) % BPB := by
  constructor
  · unfold Superblock.bblock
    have whole : BPB * (b / BPB) = b := Nat.mul_div_cancel' (Nat.dvd_of_mod_eq_zero aligned)
    rw [← whole, Nat.mul_add_div (by decide), Nat.div_eq_of_lt small, Nat.add_zero, whole]
  · rw [Nat.add_mod, aligned, Nat.zero_add, Nat.mod_mod, Nat.mod_eq_of_lt small]

theorem inUse_eq_bit (aligned : b % BPB = 0) (low : b ≤ c) (high : c < b + BPB) :
    inUse s.sb s.disk c = (s.disk (s.sb.bblock b)).bit (c - b) := by
  obtain ⟨block, place⟩ := bblock_add s.sb aligned (show c - b < BPB by omega)
  rw [Nat.add_sub_cancel' low] at block place
  rw [inUse, ← block, ← place]

theorem wp_ballocFrom (op : 0 < s.outstanding) (small : s.sb.size + BPB ≤ 2 ^ 31) (count b : Nat)
    (aligned : b % BPB = 0) (within : b + count * BPB < s.sb.size + BPB) :
    wp (ballocFrom b count)
      (fun r t => r < s.sb.size ∧ inUse s.sb s.disk r = false ∧ (∀ c, b ≤ c → c < r → inUse s.sb s.disk c = true) ∧
        t = s.allocate r)
      (fun e => e = .panic "balloc: out of blocks" ∧
        ∀ c, b ≤ c → c < b + count * BPB → c < s.sb.size → inUse s.sb s.disk c = true) s := by
  induction count generalizing b with
  | zero =>
    unfold ballocFrom
    exact wp_panic.mpr ⟨rfl, fun c low high => by omega⟩
  | succ count ih =>
    unfold ballocFrom
    rw [wp_bind, wp_get, wp_bind, wp_bread]
    split
    next bi found =>
      obtain ⟨small, inside, clear, before⟩ := clearBit_some found
      obtain ⟨block, place⟩ := bblock_add s.sb aligned small
      refine wp_bind.mpr (wp_logWrite op (wp_bind.mpr (wp_logWrite op (wp_pure.mpr ⟨inside, ?_, fun c low high => ?_, ?_⟩))))
      · rw [inUse_eq_bit aligned (by omega) (by omega), Nat.add_sub_cancel_left, clear]
      · rw [inUse_eq_bit aligned low (by omega)]
        exact before _ (by omega)
      · rw [State.allocate, ← block, ← place]
    next missing =>
      have marked : ∀ c, b ≤ c → c < b + BPB → c < s.sb.size → inUse s.sb s.disk c = true := by
        intro c low high inside
        rw [inUse_eq_bit aligned low high]
        exact clearBit_none missing (by omega) (by omega)
      have next : (b + BPB) % BPB = 0 := by rw [Nat.add_mod_right, aligned]
      rw [Nat.succ_mul] at within
      rw [if_neg (by omega)]
      apply wp_mono (ih (b + BPB) next (by omega))
      · rintro r t ⟨inside, clear, before, made⟩
        refine ⟨inside, clear, fun c low lower => ?_, made⟩
        by_cases here : c < b + BPB
        · exact marked c low here (by omega)
        · exact before c (by omega) lower
      · intro e stopped
        refine ⟨stopped.1, fun c low high inside => ?_⟩
        rw [Nat.succ_mul] at high
        by_cases here : c < b + BPB
        · exact marked c low here inside
        · exact stopped.2 c (by omega) (by omega) inside

theorem wp_balloc (op : 0 < s.outstanding) (small : s.sb.size + BPB ≤ 2 ^ 31) :
    wp balloc (fun b t => b < s.sb.size ∧ inUse s.sb s.disk b = false ∧ (∀ c < b, inUse s.sb s.disk c = true) ∧
        t = s.allocate b)
      (fun e => e = .panic "balloc: out of blocks" ∧ ∀ c < s.sb.size, inUse s.sb s.disk c = true) s := by
  unfold balloc
  rw [wp_bind, wp_get]
  apply wp_mono (wp_ballocFrom op small _ 0 (Nat.zero_mod _) (by unfold BPB BSIZE; omega))
  · rintro b t ⟨inside, clear, before, made⟩
    exact ⟨inside, clear, fun c => before c (Nat.zero_le c), made⟩
  · rintro e ⟨why, all⟩
    refine ⟨why, fun c inside => all c (Nat.zero_le c) ?_ inside⟩
    unfold BPB BSIZE
    omega

theorem balloc_spec (owned : Owned s.sb s.disk table extra) (geometry : s.sb.Geometry) (op : 0 < s.outstanding) :
    wp balloc (fun b t => Allocated s t table extra b)
      (fun e => e = .panic "balloc: out of blocks" ∧ freeBlocks s.sb s.disk = 0) s := by
  apply wp_mono (wp_balloc op geometry.size)
  · rintro b t ⟨inside, clear, -, rfl⟩
    exact allocated_of_clear owned inside clear
  · rintro e ⟨why, all⟩
    exact ⟨why, freeBlocks_eq_zero all⟩

theorem wp_bfreeBit (op : 0 < s.outstanding) (marked : inUse s.sb s.disk b = true) :
    wp (bfree b) (fun _ t => t = { s with
      disk := update s.disk (s.sb.bblock b) ((s.disk (s.sb.bblock b)).clearBit (b % BPB))
      trace := .logWrite (s.sb.bblock b) :: s.trace }) (fun _ => False) s := by
  rw [inUse] at marked
  unfold bfree
  rw [wp_bind, wp_get, wp_bind, wp_bread, if_pos marked]
  exact wp_logWrite op rfl

theorem bfree_spec (owned : Owned s.sb s.disk table extra) (op : 0 < s.outstanding) (member : b ∈ extra) :
    wp (bfree b) (fun _ t => Logged s t ∧ Owned s.sb t.disk table (extra \ {b}) ∧
      ∀ c, c < s.sb.bmapstart ∨ s.sb.datastart ≤ c → t.disk c = s.disk c) (fun _ => False) s := by
  have inside := (owned.extraArea b member).2
  have bitmap := s.sb.bblock_lt inside
  have spared : ∀ c, c < s.sb.bmapstart ∨ s.sb.datastart ≤ c →
      update s.disk (s.sb.bblock b) ((s.disk (s.sb.bblock b)).clearBit (b % BPB)) c = s.disk c := by
    intro c outside
    have := s.sb.bmapstart_le_bblock b
    rw [update_of_ne (by omega)]
  refine wp_mono (wp_bfreeBit op (owned.inUse_of_extra member)) ?_ fun _ => id
  rintro _ t rfl
  refine ⟨⟨rfl, .logWrite _⟩, owned.drop member (owned.slots_of_spared ?_) fun c _ => inUse_clearBit b c, spared⟩
  exact fun x _ _ low => spared _ (.inr low)

end Specs

end Xv6.Fs
