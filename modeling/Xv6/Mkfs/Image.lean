import Xv6.Mkfs.Build

/-! The image that `mkfs` leaves. The size of the root is rounded up, by a whole block when it
already fills its last one. -/

namespace Xv6.Mkfs
open Lib Fs Function

def mkfs (files : List HostFile) : Except Exit Image := do
  let (_, s) ← main files started
  return ⟨Superblock.read (s.image 1), s.image⟩

def rounded (d : Dinode) : Dinode := { d with size := (d.size / BSIZE + 1) * BSIZE }

/-- The disk when the size of the root has been set. -/
def State.last (s : State) : Nat → Block := (s.withInode ROOTINO (rounded (dinodeAt sb s.finished ROOTINO))).finished

theorem read_sbBlock : Superblock.read sbBlock = sb := by decide +kernel

section Finish

variable {s : State} {files : List (List UInt8 × List UInt8)}

theorem wp_finish (ready : Ready s) :
    wp finish (fun _ s' => s'.image = s.last) (fun _ => False) s := by
  have root : ROOTINO < NINODES := by decide
  have bound : FSSIZE < BSIZE * 8 := by decide
  unfold finish
  refine wp_bind.mpr (wp_rinode ready root (wp_bind.mpr (wp_winode ready root ?_)))
  rw [wp_bind, wp_get]
  unfold balloc
  refine wp_bind.mpr (wp_assert (fun _ => wp_wsect.mpr rfl) fun large => large ?_)
  exact Nat.lt_of_le_of_lt ready.high bound

theorem wp_main (files : List HostFile) (few : files.length ≤ NINODES - 2) :
    wp (main files) (fun _ s' => ∃ s, Built s (files.map HostFile.entry) ∧ s'.image = s.last)
      (fun _ => ¬ Suitable files) started := by
  unfold main
  refine wp_then wp_format ?_
  rintro _ _ rfl
  refine wp_then wp_makeRoot fun _ s₁ root => ?_
  refine wp_seq (wp_addFiles root files few) (fun _ stopped => stopped) fun _ s₂ built => ?_
  exact wp_mono (wp_finish built.toReady) (fun _ s' image => ⟨s₂, built, image⟩) fun _ none => none.elim

theorem last_super (built : Built s files) : s.last 1 = sbBlock := by
  have root : ROOTINO < NINODES := by decide
  have ready := built.toReady.withInode root (rounded (dinodeAt sb s.finished ROOTINO))
  rw [State.last, finished_of_ne (by decide), ready.super]

theorem mkfs_ok {files : List HostFile} (few : files.length ≤ NINODES - 2) {image : Image}
    (made : mkfs files = .ok image) : ∃ s, Built s (files.map HostFile.entry) ∧ image = ⟨sb, s.last⟩ := by
  unfold mkfs at made
  cases ran : main files started with
  | error e =>
    rw [ran] at made
    cases made
  | ok result =>
    obtain ⟨⟨⟩, s'⟩ := result
    obtain ⟨s, built, last⟩ := (wp_main files few).ok ran
    rw [ran] at made
    cases made
    refine ⟨s, built, ?_⟩
    rw [last, last_super built, read_sbBlock]

theorem mkfs_suitable {files : List HostFile} (few : files.length ≤ NINODES - 2) (suitable : Suitable files) :
    ∃ image, mkfs files = .ok image := by
  unfold mkfs
  cases ran : main files started with
  | error e => exact absurd suitable ((wp_main files few).error ran)
  | ok result => exact ⟨_, rfl⟩

end Finish

def dinodeOf (image : Image) (x : Nat) : Dinode := dinodeAt image.sb image.disk x

/-- The blocks of every inode up to its size have their own places, and the kernel reads them. -/
structure Complete (image : Image) : Prop where
  blocks : ∀ x < image.sb.ninodes, (dinodeOf image x).type ≠ 0 → ∀ bn, bn * BSIZE < (dinodeOf image x).size →
    blockOf image.disk (dinodeOf image x) bn ≠ 0 ∧
    image.sb.datastart ≤ blockOf image.disk (dinodeOf image x) bn ∧
    blockOf image.disk (dinodeOf image x) bn < image.sb.size ∧
    inUse image.sb image.disk (blockOf image.disk (dinodeOf image x) bn) = true
  distinct : ∀ x < image.sb.ninodes, ∀ y < image.sb.ninodes, (dinodeOf image x).type ≠ 0 → (dinodeOf image y).type ≠ 0 →
    ∀ bn cn, bn * BSIZE < (dinodeOf image x).size → cn * BSIZE < (dinodeOf image y).size →
      blockOf image.disk (dinodeOf image x) bn = blockOf image.disk (dinodeOf image y) cn → x = y ∧ bn = cn
  reads : ∀ x < image.sb.ninodes, (dinodeOf image x).type ≠ 0 → ∀ (s : Fs.State) (k : Fin NINODE),
    s.sb = image.sb → s.disk = image.disk → (s.icache k).toDinode = dinodeOf image x →
      ∀ off n, off < (dinodeOf image x).size → ∃ bytes, readi k off n s = .ok (bytes, s)

theorem Complete.of_mapped {image : Image} (owned : Owned image.sb image.disk (dinodeOf image) ∅)
    (mapped : ∀ x < image.sb.ninodes, (dinodeOf image x).type ≠ 0 → (dinodeOf image x).type ≠ T_DEV ∧
      Mapped image.disk (dinodeOf image x) (dinodeOf image x).size) : Complete image where
  blocks := fun x inside type bn below => by
    have here := (mapped x inside type).2
    have bound : bn < MAXFILE := Nat.lt_of_mul_lt_mul_right (Nat.lt_of_lt_of_le below here.fits)
    have nonzero := (here.blocks bn bound).mpr below
    obtain ⟨low, high⟩ := owned.area x inside _ (slotOf_lt bound) nonzero
    exact ⟨nonzero, low, high, (owned.used _ high).mpr (.inr (.inr ⟨x, inside, _, slotOf_lt bound, rfl⟩))⟩
  distinct := fun x inside y inside' type type' bn cn below below' same => by
    have here := (mapped x inside type).2
    have there := (mapped y inside' type').2
    have bound : bn < MAXFILE := Nat.lt_of_mul_lt_mul_right (Nat.lt_of_lt_of_le below here.fits)
    have bound' : cn < MAXFILE := Nat.lt_of_mul_lt_mul_right (Nat.lt_of_lt_of_le below' there.fits)
    obtain ⟨one, place⟩ := owned.apart x inside _ (slotOf_lt bound) y inside' _ (slotOf_lt bound')
      ((here.blocks bn bound).mpr below) same
    exact ⟨one, slotOf_inj place⟩
  reads := fun x inside type s k _ disk cached off n below => by
    obtain ⟨file, here⟩ := mapped x inside type
    rw [← cached] at file here below
    rw [← disk] at here
    have program : wp (readi k off n) (fun _ t => t = s) (fun _ => False) s := by
      unfold readi
      rw [wp_bind, wp_getInode, if_neg file]
      split
      · exact wp_pure.mpr rfl
      · refine wp_bind.mpr (wp_readiLoop here _ _ _ (Nat.le_refl _) ?_ (wp_pure.mpr rfl))
        split <;> omega
    obtain ⟨bytes, t, ran, rfl⟩ := wp.returns program
    exact ⟨bytes, ran⟩

section Rounding

variable {s : State} {files : List (List UInt8 × List UInt8)}

section

variable (built : Built s files)
include built

theorem Built.root_size :
    (dinodeAt sb s.finished ROOTINO).size = Dirent.SIZE * (files.length + 2) := by
  have size : (s.node ROOTINO).size = _ := congrArg Node.size built.root
  exact size.trans ((length_rootBytes _).trans (by rw [List.length_map]))

theorem Built.root_type : (dinodeAt sb s.finished ROOTINO).type = T_DIR :=
  (congrArg Node.type built.root : (s.node ROOTINO).type = _)

theorem Built.root_mapped :
    Mapped s.finished (dinodeAt sb s.finished ROOTINO) (dinodeAt sb s.finished ROOTINO).size :=
  built.disk.mapped ROOTINO (by decide) (by rw [built.root_type]; decide) (by rw [built.root_type]; decide)

theorem rounded_fits : (rounded (dinodeAt sb s.finished ROOTINO)).Fits := by
  have fits : (dinodeAt sb s.finished ROOTINO).Fits := Dinode.fits_read ..
  have limit := built.root_mapped.fits
  have small : MAXFILE * BSIZE + BSIZE < 2 ^ 32 := by decide
  have grown : ((dinodeAt sb s.finished ROOTINO).size / BSIZE + 1) * BSIZE ≤
      (dinodeAt sb s.finished ROOTINO).size + BSIZE := by
    rw [Nat.succ_mul]
    exact Nat.add_le_add_right (Nat.div_mul_le_self _ _) _
  exact { fits with size := by simp only [rounded]; omega }

theorem last_dinode : dinodeAt sb s.last =
    update (dinodeAt sb s.finished) ROOTINO (rounded (dinodeAt sb s.finished ROOTINO)) := by
  rw [State.last, finished_withInode (by decide), dinodeAt_write _ _ _ (rounded_fits built)]

theorem last_disk : DiskInv sb s.last (dinodeAt sb s.finished) ∧
    ∀ x < NINODES, nodeOf s.last (dinodeAt sb s.finished x) = tree files x := by
  have root : ROOTINO < NINODES := by decide
  obtain ⟨inv, nodes⟩ := built.disk.write_inode (iblock_range root)
    (Dinode.write (s.finished (sb.iblock ROOTINO)) (ROOTINO % IPB) (rounded (dinodeAt sb s.finished ROOTINO)))
  rw [← finished_withInode root] at inv nodes
  exact ⟨inv, fun x inside => (nodes x inside).trans (built.nodes x inside)⟩

theorem last_slot (x i : Nat) :
    slot s.last (dinodeAt sb s.last x) i = slot s.last (dinodeAt sb s.finished x) i := by
  rw [last_dinode built]
  by_cases root : x = ROOTINO
  · rw [root, update_self]
    exact slot_of_addrs rfl i
  · rw [update_of_ne root]

end

theorem tree_type_ne (files : List (List UInt8 × List UInt8)) (x : Nat) : (tree files x).type ≠ T_DEV := by
  match x with
  | 0 => exact (by decide : 0 ≠ T_DEV)
  | 1 => exact (by decide : T_DIR ≠ T_DEV)
  | x + 2 =>
    rw [tree]
    cases files[x]? with
    | none => exact (by decide : 0 ≠ T_DEV)
    | some file => exact (by decide : T_FILE ≠ T_DEV)

theorem last_owned (built : Built s files) : Owned sb s.last (dinodeAt sb s.last) ∅ :=
  (last_disk built).1.owned.congr (fun x _ i _ => last_slot built x i) fun _ _ => rfl

theorem below_rounded {size : Nat} (partly : size % BSIZE ≠ 0) (bn : Nat) :
    bn * BSIZE < size ↔ bn * BSIZE < (size / BSIZE + 1) * BSIZE := by
  rw [Nat.mul_lt_mul_right BSIZE_pos, Nat.lt_succ_iff, Nat.le_div_iff_mul_le BSIZE_pos]
  constructor
  · exact Nat.le_of_lt
  · intro atMost
    refine Nat.lt_of_le_of_ne atMost fun same => partly ?_
    rw [← same, Nat.mul_mod_left]

section

variable (built : Built s files)
include built

theorem root_full :
    (dinodeAt sb s.finished ROOTINO).size % BSIZE = 0 ↔ (files.length + 2) % (BSIZE / Dirent.SIZE) = 0 := by
  rw [built.root_size]
  simp only [Dirent.SIZE, BSIZE]
  omega

theorem last_mapped (partly : (files.length + 2) % (BSIZE / Dirent.SIZE) ≠ 0) {x : Nat}
    (inside : x < NINODES) (type : (dinodeAt sb s.last x).type ≠ 0) :
    (dinodeAt sb s.last x).type ≠ T_DEV ∧ Mapped s.last (dinodeAt sb s.last x) (dinodeAt sb s.last x).size := by
  obtain ⟨inv, nodes⟩ := last_disk built
  have file : (dinodeAt sb s.finished x).type ≠ T_DEV := by
    have same : (nodeOf s.last (dinodeAt sb s.finished x)).type = _ := congrArg Node.type (nodes x inside)
    exact fun device => tree_type_ne files x (same.symm.trans device)
  rw [last_dinode built] at type ⊢
  by_cases root : x = ROOTINO
  · subst root
    rw [update_self] at type ⊢
    refine ⟨file, ?_⟩
    have old := inv.mapped ROOTINO inside type file
    have part := (root_full built).not.mpr partly
    have below : (dinodeAt sb s.finished ROOTINO).size < MAXFILE * BSIZE := by
      refine Nat.lt_of_le_of_ne old.fits fun full => part ?_
      rw [full, Nat.mul_mod_left]
    have fits : ((dinodeAt sb s.finished ROOTINO).size / BSIZE + 1) * BSIZE ≤ MAXFILE * BSIZE :=
      Nat.mul_le_mul_right _ (block_lt_of_lt below)
    exact (old.resize fits (below_rounded part)).of_addrs rfl
  · rw [update_of_ne root] at type ⊢
    exact ⟨file, inv.mapped x inside type file⟩

theorem last_unmapped (few : files.length + 2 ≤ NINODES) (full : (files.length + 2) % (BSIZE / Dirent.SIZE) = 0) :
    ∃ bn, bn * BSIZE < (dinodeAt sb s.last ROOTINO).size ∧ blockOf s.last (dinodeAt sb s.last ROOTINO) bn = 0 ∧
      bn * BSIZE = Dirent.SIZE * (files.length + 2) := by
  obtain ⟨inv, -⟩ := last_disk built
  have old := inv.mapped ROOTINO (by decide) (by rw [built.root_type]; decide) (by rw [built.root_type]; decide)
  have whole : (dinodeAt sb s.finished ROOTINO).size / BSIZE * BSIZE = (dinodeAt sb s.finished ROOTINO).size := by
    exact Nat.div_mul_cancel (Nat.dvd_of_mod_eq_zero ((root_full built).mpr full))
  refine ⟨(dinodeAt sb s.finished ROOTINO).size / BSIZE, ?_, ?_, whole.trans built.root_size⟩
  · rw [last_dinode built, update_self]
    exact Nat.mul_lt_mul_of_pos_right (Nat.lt_succ_self _) BSIZE_pos
  · rw [blockOf, last_slot built, ← blockOf]
    have limit : Dirent.SIZE * NINODES < MAXFILE * BSIZE := by decide
    have small : (dinodeAt sb s.finished ROOTINO).size < MAXFILE * BSIZE := by
      rw [built.root_size]
      exact Nat.lt_of_le_of_lt (Nat.mul_le_mul_left _ few) limit
    have bound := block_lt_of_lt small
    by_contra nonzero
    exact absurd ((old.blocks _ bound).mp nonzero) (by rw [whole]; exact Nat.lt_irrefl _)

theorem last_root_type : (dinodeAt sb s.last ROOTINO).type = T_DIR := by
  rw [last_dinode built, update_self]
  exact built.root_type

end

end Rounding

/-- The image of a list of files is complete unless the entries of the root fill its blocks. -/
theorem image_complete_iff (files : List HostFile) (few : files.length ≤ NINODES - 2) (image : Image)
    (made : mkfs files = .ok image) : Complete image ↔ (files.length + 2) % (BSIZE / Dirent.SIZE) ≠ 0 := by
  obtain ⟨s, built, rfl⟩ := mkfs_ok few made
  have length : (files.map HostFile.entry).length = files.length := List.length_map _
  have root : ROOTINO < NINODES := by decide
  have two : 2 ≤ NINODES := by decide
  constructor
  · intro complete full
    rw [← length] at full few
    obtain ⟨bn, below, missing, -⟩ := last_unmapped built (by omega) full
    have type : (dinodeOf ⟨sb, s.last⟩ ROOTINO).type = T_DIR := last_root_type built
    exact (complete.blocks ROOTINO root (by rw [type]; decide) bn below).1 missing
  · intro partly
    rw [← length] at partly
    exact .of_mapped (last_owned built) fun x inside type => last_mapped built partly inside type

def twoReads : HostFile := ⟨⟨[underscore, 97, 98], by decide⟩, [[1, 2, 3], [4, 5]], by decide⟩

theorem image_complete_twoReads : ∃ image, mkfs [twoReads] = .ok image ∧ Complete image := by
  obtain ⟨image, made⟩ := mkfs_suitable (by decide : [twoReads].length ≤ NINODES - 2) (by decide)
  exact ⟨image, made, (image_complete_iff [twoReads] (by decide) image made).mpr (by decide)⟩

def emptyFiles : List HostFile :=
  (List.finRange 30).map fun (i : Fin 30) => ⟨⟨[UInt8.ofNat (97 + i.val)], by decide +revert⟩, [], fun _ none => nomatch none⟩

/-- Thirty files and the two entries of its own fill a block of the root; its size is two. -/
theorem thirty_files_unmapped : ∃ image, mkfs emptyFiles = .ok image ∧
    1 * BSIZE < (dinodeOf image ROOTINO).size ∧ blockOf image.disk (dinodeOf image ROOTINO) 1 = 0 := by
  have few : emptyFiles.length ≤ NINODES - 2 := by decide
  obtain ⟨image, made⟩ := mkfs_suitable few (by decide)
  obtain ⟨s, built, rfl⟩ := mkfs_ok few made
  obtain ⟨bn, below, missing, place⟩ := last_unmapped built (by decide) (by decide)
  have full : Dirent.SIZE * ((emptyFiles.map HostFile.entry).length + 2) = 1 * BSIZE := by decide
  obtain rfl : bn = 1 := Nat.eq_of_mul_eq_mul_right BSIZE_pos (place.trans full)
  exact ⟨_, made, below, missing⟩

end Xv6.Mkfs
