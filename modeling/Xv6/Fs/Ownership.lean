import Mathlib.Data.Set.Insert
import Xv6.Fs.Layout

/-! Which block belongs to which inode: its slots are the direct ones, the indirect block, and the
entries of that. -/

namespace Xv6.Fs
open Lib

def NSLOT : Nat := NDIRECT + 1 + NINDIRECT

/-- The address in slot `i` of the inode `d`, zero if there is none. -/
def slot (disk : Nat → Block) (d : Dinode) (i : Nat) : Nat :=
  if i < NDIRECT + 1 then d.addr i
  else if d.addr NDIRECT = 0 then 0
  else (disk (d.addr NDIRECT)).word (4 * (i - (NDIRECT + 1))) 4

def slotOf (bn : Nat) : Nat := if bn < NDIRECT then bn else bn + 1

def blockOf (disk : Nat → Block) (d : Dinode) (bn : Nat) : Nat := slot disk d (slotOf bn)

/-- Exactly the blocks below `size` have addresses. -/
structure Mapped (disk : Nat → Block) (d : Dinode) (size : Nat) : Prop where
  fits : size ≤ MAXFILE * BSIZE
  blocks : ∀ bn < MAXFILE, blockOf disk d bn ≠ 0 ↔ bn * BSIZE < size
  indirect : d.addr NDIRECT ≠ 0 ↔ NDIRECT * BSIZE < size

def inUse (sb : Superblock) (disk : Nat → Block) (b : Nat) : Bool :=
  (disk (sb.bblock b)).bit (b % BPB)

def HasOwner (sb : Superblock) (disk : Nat → Block) (table : Nat → Dinode) (b : Nat) : Prop :=
  ∃ x < sb.ninodes, ∃ i < NSLOT, slot disk (table x) i = b

/-- No block of the data area is in two slots, or in a slot and in `extra`. -/
structure Placed (sb : Superblock) (disk : Nat → Block) (table : Nat → Dinode) (extra : Set Nat) :
    Prop where
  area : ∀ x < sb.ninodes, ∀ i < NSLOT, slot disk (table x) i ≠ 0 →
    sb.datastart ≤ slot disk (table x) i ∧ slot disk (table x) i < sb.size
  apart : ∀ x < sb.ninodes, ∀ i < NSLOT, ∀ y < sb.ninodes, ∀ j < NSLOT,
    slot disk (table x) i ≠ 0 → slot disk (table x) i = slot disk (table y) j → x = y ∧ i = j
  extraArea : ∀ b ∈ extra, sb.datastart ≤ b ∧ b < sb.size
  extraApart : ∀ b ∈ extra, ¬ HasOwner sb disk table b

/-- The bitmap marks the metadata, the blocks that have an owner, and `extra`. -/
structure Owned (sb : Superblock) (disk : Nat → Block) (table : Nat → Dinode) (extra : Set Nat) : Prop
    extends Placed sb disk table extra where
  used : ∀ b < sb.size, inUse sb disk b = true ↔ b < sb.datastart ∨ b ∈ extra ∨ HasOwner sb disk table b

variable {disk disk' : Nat → Block} {i : Nat}

section Slots

variable {d : Dinode}

variable {bn : Nat}

theorem slotOf_lt (bound : bn < MAXFILE) : slotOf bn < NSLOT := by
  unfold slotOf
  simp only [MAXFILE, NSLOT] at *
  split <;> omega

theorem slotOf_ne_indirect (bn : Nat) : slotOf bn ≠ NDIRECT := by
  unfold slotOf
  split <;> omega

theorem slotOf_inj {cn : Nat} (same : slotOf bn = slotOf cn) : bn = cn := by
  unfold slotOf at same
  split at same <;> split at same <;> omega

theorem slot_direct (disk : Nat → Block) (d : Dinode) (direct : i ≤ NDIRECT) :
    slot disk d i = d.addr i := if_pos (Nat.lt_succ_of_le direct)

theorem slot_entry (disk : Nat → Block) (d : Dinode) (j : Nat) :
    slot disk d (NDIRECT + 1 + j) =
      if d.addr NDIRECT = 0 then 0 else (disk (d.addr NDIRECT)).word (4 * j) 4 := by
  rw [slot, if_neg (by omega), Nat.add_sub_cancel_left]

theorem slot_congr (same : d.addr NDIRECT ≠ 0 → disk' (d.addr NDIRECT) = disk (d.addr NDIRECT)) (i : Nat) :
    slot disk' d i = slot disk d i := by
  unfold slot
  split
  · rfl
  · split
    · rfl
    next nonzero => rw [same nonzero]

theorem slot_of_addrs {e : Dinode} (same : e.addrs = d.addrs) (i : Nat) : slot disk e i = slot disk d i := by
  unfold slot Dinode.addr
  rw [same]

theorem slot_setAddr_direct (disk : Nat → Block) (d : Dinode) (b j : Nat) (direct : i < NDIRECT) :
    slot disk (d.setAddr i b) j = if j = i then b else slot disk d j := by
  have address : ∀ l, (d.setAddr i b).addr l = if l = i then b else d.addr l := fun l =>
    d.addr_setAddr b l (Nat.lt_succ_of_lt direct)
  have pointer : (d.setAddr i b).addr NDIRECT = d.addr NDIRECT := by rw [address, if_neg (by omega)]
  unfold slot
  rw [pointer, address]
  split
  · rfl
  next entry =>
    have apart : ¬ j = i := by omega
    rw [if_neg apart]

theorem slot_setAddr_indirect (disk : Nat → Block) (d : Dinode) (j : Nat) :
    slot disk (d.setAddr NDIRECT 0) j = if NDIRECT ≤ j then 0 else slot disk d j := by
  have address : ∀ l, (d.setAddr NDIRECT 0).addr l = if l = NDIRECT then 0 else d.addr l := fun l =>
    d.addr_setAddr 0 l (Nat.lt_succ_self _)
  unfold slot
  rw [address, address, if_pos rfl, if_pos rfl]
  by_cases after : NDIRECT ≤ j
  · rw [if_pos after]
    split
    · exact if_pos (by omega)
    · rfl
  · rw [if_neg after, if_pos (by omega), if_neg (by omega), if_pos (by omega)]

variable {size : Nat}

theorem Mapped.congr (mapped : Mapped disk d size)
    (same : ∀ i < NSLOT, slot disk' d i = slot disk d i) : Mapped disk' d size where
  fits := mapped.fits
  blocks := fun bn bound => by
    have here := mapped.blocks bn bound
    rwa [blockOf, ← same _ (slotOf_lt bound)] at here
  indirect := mapped.indirect

theorem Mapped.of_addrs {e : Dinode} (mapped : Mapped disk d size) (same : e.addrs = d.addrs) :
    Mapped disk e size where
  fits := mapped.fits
  blocks := fun bn bound => by
    have here := mapped.blocks bn bound
    rwa [blockOf, ← slot_of_addrs same] at here
  indirect := by
    have here := mapped.indirect
    rwa [Dinode.addr, ← same] at here

end Slots

variable {table table' : Nat → Dinode} {extra : Set Nat}

section Placing

variable {sb : Superblock}

theorem hasOwner_congr (slots : ∀ x < sb.ninodes, ∀ i < NSLOT, slot disk' (table' x) i = slot disk (table x) i)
    (b : Nat) : HasOwner sb disk' table' b ↔ HasOwner sb disk table b :=
  exists_congr fun x => and_congr_right fun inside => exists_congr fun i => and_congr_right fun bound => by
    rw [slots x inside i bound]

theorem Placed.congr (placed : Placed sb disk table extra)
    (slots : ∀ x < sb.ninodes, ∀ i < NSLOT, slot disk' (table' x) i = slot disk (table x) i) :
    Placed sb disk' table' extra where
  area := fun x inside i bound => by
    rw [slots x inside i bound]
    exact placed.area x inside i bound
  apart := fun x inside i bound y inside' j bound' => by
    rw [slots x inside i bound, slots y inside' j bound']
    exact placed.apart x inside i bound y inside' j bound'
  extraArea := placed.extraArea
  extraApart := fun b member => by
    rw [hasOwner_congr slots]
    exact placed.extraApart b member

end Placing

namespace Owned

variable {sb : Superblock}

variable {x : Nat}

section

variable (owned : Owned sb disk table extra)
include owned

/-- What the slots and the bitmap show is all there is to it. -/
theorem congr
    (slots : ∀ x < sb.ninodes, ∀ i < NSLOT, slot disk' (table' x) i = slot disk (table x) i)
    (bits : ∀ b < sb.size, inUse sb disk' b = inUse sb disk b) : Owned sb disk' table' extra where
  toPlaced := owned.toPlaced.congr slots
  used := fun b inside => by rw [bits b inside, owned.used b inside, hasOwner_congr slots]

variable {b : Nat}

theorem inUse_of_extra (member : b ∈ extra) :
    inUse sb disk b = true :=
  (owned.used b (owned.extraArea b member).2).mpr (.inr (.inl member))

theorem slots_of_spared
    (spared : ∀ x < sb.ninodes, (table x).addr NDIRECT ≠ 0 → sb.datastart ≤ (table x).addr NDIRECT →
      disk' ((table x).addr NDIRECT) = disk ((table x).addr NDIRECT)) :
    ∀ x < sb.ninodes, ∀ i < NSLOT, slot disk' (table x) i = slot disk (table x) i := by
  intro x inside i _
  refine slot_congr (fun nonzero => spared x inside nonzero ?_) i
  have here := owned.area x inside NDIRECT (by decide)
  rw [slot_direct _ _ (Nat.le_refl _)] at here
  exact (here nonzero).1

theorem take (inside : b < sb.size)
    (clear : inUse sb disk b = false)
    (slots : ∀ x < sb.ninodes, ∀ i < NSLOT, slot disk' (table x) i = slot disk (table x) i)
    (bits : ∀ c < sb.size, inUse sb disk' c = (inUse sb disk c || decide (c = b))) :
    Owned sb disk' table (insert b extra) := by
  have unused : ¬ (b < sb.datastart ∨ b ∈ extra ∨ HasOwner sb disk table b) := by
    rw [← owned.used b inside, clear]
    exact Bool.false_ne_true
  rw [not_or, not_or] at unused
  obtain ⟨data, fresh, unowned⟩ := unused
  refine { owned.toPlaced.congr slots with extraArea := ?_, extraApart := ?_, used := ?_ }
  · rintro c (rfl | member)
    · exact ⟨Nat.le_of_not_lt data, inside⟩
    · exact owned.extraArea c member
  · rintro c (rfl | member)
    · rwa [hasOwner_congr slots]
    · rw [hasOwner_congr slots]
      exact owned.extraApart c member
  · intro c within
    rw [bits c within, Bool.or_eq_true, decide_eq_true_iff, owned.used c within, Set.mem_insert_iff,
      hasOwner_congr slots]
    tauto

theorem drop (member : b ∈ extra)
    (slots : ∀ x < sb.ninodes, ∀ i < NSLOT, slot disk' (table x) i = slot disk (table x) i)
    (bits : ∀ c < sb.size, inUse sb disk' c = (inUse sb disk c && decide (c ≠ b))) :
    Owned sb disk' table (extra \ {b}) := by
  have placed := owned.toPlaced.congr slots
  refine { placed with
    extraArea := fun c other => placed.extraArea c other.1
    extraApart := fun c other => placed.extraApart c other.1
    used := ?_ }
  intro c within
  rw [bits c within, Bool.and_eq_true, decide_eq_true_iff, owned.used c within, hasOwner_congr slots,
    Set.mem_sdiff, Set.mem_singleton_iff]
  have data : c = b → ¬ c < sb.datastart := fun here => by
    have := (owned.extraArea b member).1
    omega
  have unowned : c = b → ¬ HasOwner sb disk table c := fun here => here ▸ owned.extraApart b member
  tauto

theorem assign (inside : x < sb.ninodes) (bound : i < NSLOT)
    (member : b ∈ extra) (empty : slot disk (table x) i = 0)
    (filled : slot disk' (table' x) i = b)
    (slots : ∀ y < sb.ninodes, ∀ j < NSLOT, (y = x → j ≠ i) → slot disk' (table' y) j = slot disk (table y) j)
    (bits : ∀ c < sb.size, inUse sb disk' c = inUse sb disk c) :
    Owned sb disk' table' (extra \ {b}) := by
  have place : ∀ y < sb.ninodes, ∀ j < NSLOT, (y = x ∧ j = i ∧ slot disk' (table' y) j = b) ∨
      (slot disk' (table' y) j = slot disk (table y) j ∧ slot disk (table y) j ≠ b) := by
    intro y within j bound'
    by_cases here : y = x ∧ j = i
    · obtain ⟨rfl, rfl⟩ := here
      exact .inl ⟨rfl, rfl, filled⟩
    · exact .inr ⟨slots y within j bound' fun same other => here ⟨same, other⟩,
        fun same => owned.extraApart b member ⟨y, within, j, bound', same⟩⟩
  refine ⟨⟨?_, ?_, fun c other => owned.extraArea c other.1, ?_⟩, ?_⟩
  · intro y within j bound' nonzero
    obtain ⟨-, -, same⟩ | ⟨same, -⟩ := place y within j bound'
    · rw [same]
      exact owned.extraArea b member
    · rw [same] at nonzero ⊢
      exact owned.area y within j bound' nonzero
  · intro y within j bound' z within' k bound'' nonzero same
    obtain ⟨rfl, rfl, here⟩ | ⟨here, other⟩ := place y within j bound'
    · obtain ⟨rfl, rfl, -⟩ | ⟨there, other⟩ := place z within' k bound''
      · exact ⟨rfl, rfl⟩
      · exact absurd (by rw [← there, ← same, here]) other
    · obtain ⟨rfl, rfl, there⟩ | ⟨there, -⟩ := place z within' k bound''
      · exact absurd (by rw [← here, same, there]) other
      · rw [here] at nonzero
        exact owned.apart y within j bound' z within' k bound'' nonzero (by rw [← here, same, there])
  · rintro c other ⟨y, within, j, bound', same⟩
    obtain ⟨-, -, here⟩ | ⟨here, -⟩ := place y within j bound'
    · exact other.2 (by rw [Set.mem_singleton_iff, ← same, here])
    · exact owned.extraApart c other.1 ⟨y, within, j, bound', by rw [← here, same]⟩
  · intro c within
    rw [bits c within, owned.used c within, Set.mem_sdiff, Set.mem_singleton_iff]
    constructor
    · rintro (data | other | ⟨y, within', j, bound', same⟩)
      · exact .inl data
      · by_cases here : c = b
        · exact .inr (.inr ⟨x, inside, i, bound, by rw [filled, here]⟩)
        · exact .inr (.inl ⟨other, here⟩)
      · obtain ⟨rfl, rfl, -⟩ | ⟨here, -⟩ := place y within' j bound'
        · rw [empty] at same
          exact .inl (by have := sb.datastart_pos; omega)
        · exact .inr (.inr ⟨y, within', j, bound', by rw [here, same]⟩)
    · rintro (data | other | ⟨y, within', j, bound', same⟩)
      · exact .inl data
      · exact .inr (.inl other.1)
      · obtain ⟨-, -, here⟩ | ⟨here, -⟩ := place y within' j bound'
        · exact .inr (.inl (by rwa [← same, here]))
        · exact .inr (.inr ⟨y, within', j, bound', by rw [← here, same]⟩)

end

/-- Inode `x` gives up the slots in `gone`. -/
theorem release (owned : Owned sb disk table ∅) (inside : x < sb.ninodes) (gone : Set Nat)
    (emptied : ∀ i < NSLOT, i ∈ gone → slot disk (table' x) i = 0)
    (slots : ∀ y < sb.ninodes, ∀ i < NSLOT, (y = x → i ∉ gone) → slot disk (table' y) i = slot disk (table y) i) :
    Owned sb disk table' {b | b ≠ 0 ∧ ∃ i < NSLOT, i ∈ gone ∧ slot disk (table x) i = b} := by
  have place : ∀ y < sb.ninodes, ∀ i < NSLOT, (y = x ∧ i ∈ gone ∧ slot disk (table' y) i = 0) ∨
      ((y = x → i ∉ gone) ∧ slot disk (table' y) i = slot disk (table y) i) := by
    intro y within i bound
    by_cases here : y = x ∧ i ∈ gone
    · obtain ⟨rfl, left⟩ := here
      exact .inl ⟨rfl, left, emptied i bound left⟩
    · have kept : y = x → i ∉ gone := fun same left => here ⟨same, left⟩
      exact .inr ⟨kept, slots y within i bound kept⟩
  refine ⟨⟨?_, ?_, ?_, ?_⟩, ?_⟩
  · intro y within i bound nonzero
    obtain ⟨-, -, zero⟩ | ⟨-, same⟩ := place y within i bound
    · exact absurd zero nonzero
    · rw [same] at nonzero ⊢
      exact owned.area y within i bound nonzero
  · intro y within i bound z within' j bound' nonzero same
    obtain ⟨-, -, zero⟩ | ⟨-, here⟩ := place y within i bound
    · exact absurd zero nonzero
    · obtain ⟨-, -, zero⟩ | ⟨-, there⟩ := place z within' j bound'
      · exact absurd (same.trans zero) nonzero
      · rw [here] at nonzero
        exact owned.apart y within i bound z within' j bound' nonzero (by rw [← here, same, there])
  · rintro b ⟨nonzero, i, bound, -, rfl⟩
    exact owned.area x inside i bound nonzero
  · rintro b ⟨nonzero, i, bound, left, rfl⟩ ⟨y, within, j, bound', same⟩
    obtain ⟨-, -, zero⟩ | ⟨kept, here⟩ := place y within j bound'
    · exact nonzero (same.symm.trans zero)
    · obtain ⟨rfl, rfl⟩ := owned.apart x inside i bound y within j bound' nonzero (by rw [← here, same])
      exact kept rfl left
  · intro b within
    rw [owned.used b within]
    constructor
    · rintro (data | none | ⟨y, within', i, bound, same⟩)
      · exact .inl data
      · exact none.elim
      · by_cases zero : b = 0
        · exact .inl (by have := sb.datastart_pos; omega)
        · obtain ⟨rfl, left, -⟩ | ⟨-, here⟩ := place y within' i bound
          · exact .inr (.inl ⟨zero, i, bound, left, same⟩)
          · exact .inr (.inr ⟨y, within', i, bound, by rw [here, same]⟩)
    · rintro (data | ⟨-, i, bound, -, same⟩ | ⟨y, within', i, bound, same⟩)
      · exact .inl data
      · exact .inr (.inr ⟨x, inside, i, bound, same⟩)
      · by_cases zero : b = 0
        · exact .inl (by have := sb.datastart_pos; omega)
        · obtain ⟨-, -, here⟩ | ⟨-, here⟩ := place y within' i bound
          · exact absurd (same.symm.trans here) zero
          · exact .inr (.inr ⟨y, within', i, bound, by rw [← here, same]⟩)

end Owned

end Xv6.Fs
