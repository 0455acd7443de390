import Xv6.Param

/-! The on-disk format of `fs.h`: the superblock, and the inodes in the inode blocks. -/

namespace Xv6.Fs
open Lib
open Bytes (word_setWord_of_apart word_setWord)

def T_DIR : Nat := 1
def T_FILE : Nat := 2
def T_DEV : Nat := 3

structure Superblock where
  size : Nat
  nblocks : Nat
  ninodes : Nat
  nlog : Nat
  logstart : Nat
  inodestart : Nat
  bmapstart : Nat
  deriving DecidableEq, Repr

namespace Superblock

def iblock (sb : Superblock) (i : Nat) : Nat := i / IPB + sb.inodestart

def bblock (sb : Superblock) (b : Nat) : Nat := b / BPB + sb.bmapstart

def datastart (sb : Superblock) : Nat := sb.bmapstart + (sb.size / BPB + 1)

structure Geometry (sb : Superblock) : Prop where
  log : 2 ≤ sb.logstart
  inodes : sb.logstart + sb.nlog ≤ sb.inodestart
  bitmap : sb.inodestart + (sb.ninodes / IPB + 1) ≤ sb.bmapstart
  data : sb.datastart ≤ sb.size
  -- so that the `int b` of `balloc` does not overflow
  size : sb.size + BPB ≤ 2 ^ 31
  root : ROOTINO < sb.ninodes

variable {sb : Superblock}

theorem Geometry.size_lt (geometry : sb.Geometry) : sb.size < 2 ^ 32 := by
  have := geometry.size
  omega

theorem datastart_pos : 0 < sb.datastart := Nat.add_pos_right _ (Nat.succ_pos _)

theorem Geometry.iblock_lt (geometry : sb.Geometry) {x : Nat} (bound : x < sb.ninodes) :
    sb.iblock x < sb.bmapstart := by
  have room := geometry.bitmap
  have order : x / IPB ≤ sb.ninodes / IPB := Nat.div_le_div_right (by omega)
  unfold iblock
  omega

theorem bmapstart_le_datastart : sb.bmapstart ≤ sb.datastart := Nat.le_add_right _ _

theorem bmapstart_le_bblock (b : Nat) : sb.bmapstart ≤ sb.bblock b := Nat.le_add_left _ _

theorem bblock_lt {b : Nat} (bound : b < sb.size) : sb.bblock b < sb.datastart := by
  have order : b / BPB ≤ sb.size / BPB := Nat.div_le_div_right (by omega)
  unfold bblock datastart
  omega

/-- `readsb` of the block with the superblock. -/
def read (block : Block) : Superblock where
  size := block.word 0 4
  nblocks := block.word 4 4
  ninodes := block.word 8 4
  nlog := block.word 12 4
  logstart := block.word 16 4
  inodestart := block.word 20 4
  bmapstart := block.word 24 4

end Superblock

@[ext] structure Dinode where
  type : Nat
  major : Nat
  minor : Nat
  nlink : Nat
  size : Nat
  addrs : Fin (NDIRECT + 1) → Nat

namespace Dinode

def free : Dinode := ⟨0, 0, 0, 0, 0, fun _ => 0⟩

instance : Inhabited Dinode := ⟨free⟩

def addr (d : Dinode) (i : Nat) : Nat := if h : i < NDIRECT + 1 then d.addrs ⟨i, h⟩ else 0

def setAddr (d : Dinode) (i b : Nat) : Dinode :=
  { d with addrs := fun j => if j.val = i then b else d.addrs j }

theorem addr_setAddr (d : Dinode) {i : Nat} (b j : Nat) (bound : i < NDIRECT + 1) :
    (d.setAddr i b).addr j = if j = i then b else d.addr j := by
  unfold addr setAddr
  split
  next => rfl
  next out => rw [if_neg (by omega)]

/-- The dinode at place `i` of an inode block. -/
def read (block : Block) (i : Nat) : Dinode where
  type := block.word (64 * i) 2
  major := block.word (64 * i + 2) 2
  minor := block.word (64 * i + 4) 2
  nlink := block.word (64 * i + 6) 2
  size := block.word (64 * i + 8) 4
  addrs := fun j => block.word (64 * i + 12 + 4 * j.val) 4

def write (block : Block) (i : Nat) (d : Dinode) : Block :=
  (((((block.setWord (64 * i) 2 d.type).setWord (64 * i + 2) 2 d.major).setWord (64 * i + 4) 2 d.minor).setWord
    (64 * i + 6) 2 d.nlink).setWord (64 * i + 8) 4 d.size).setWords (64 * i + 12) 4 (List.ofFn d.addrs)

/-- The fields are numbers that `short` and `uint` can hold. -/
structure Fits (d : Dinode) : Prop where
  type : d.type < 2 ^ 16
  major : d.major < 2 ^ 16
  minor : d.minor < 2 ^ 16
  nlink : d.nlink < 2 ^ 16
  size : d.size < 2 ^ 32
  addrs : ∀ j, d.addrs j < 2 ^ 32

theorem fits_read (block : Block) (i : Nat) : (read block i).Fits where
  type := block.word_lt _ 2
  major := block.word_lt _ 2
  minor := block.word_lt _ 2
  nlink := block.word_lt _ 2
  size := block.word_lt _ 4
  addrs := fun _ => block.word_lt _ 4

theorem fits_free : free.Fits :=
  ⟨by decide, by decide, by decide, by decide, by decide, fun _ => Nat.two_pow_pos 32⟩

theorem Fits.setAddr {d : Dinode} (fits : d.Fits) (i : Nat) {b : Nat} (small : b < 2 ^ 32) :
    (d.setAddr i b).Fits :=
  { fits with
    addrs := fun j => by
      change (if j.val = i then b else d.addrs j) < 2 ^ 32
      split
      · exact small
      · exact fits.addrs j }

theorem word_write_of_outside (block : Block) {i place wide : Nat} (d : Dinode)
    (outside : place + wide ≤ 64 * i ∨ 64 * i + 64 ≤ place) :
    (write block i d).word place wide = block.word place wide := by
  have length : (List.ofFn d.addrs).length = 13 := List.length_ofFn
  rw [write, Bytes.word_setWords_of_apart _ _ _ _ _ _ (by omega), word_setWord_of_apart (by omega),
    word_setWord_of_apart (by omega), word_setWord_of_apart (by omega),
    word_setWord_of_apart (by omega), word_setWord_of_apart (by omega)]

theorem read_write_of_ne (block : Block) {i j : Nat} (d : Dinode) (apart : j ≠ i) :
    read (write block i d) j = read block j := by
  have outside : 64 * j + 64 ≤ 64 * i ∨ 64 * i + 64 ≤ 64 * j := by omega
  unfold read
  rw [word_write_of_outside _ _ (by omega), word_write_of_outside _ _ (by omega), word_write_of_outside _ _ (by omega),
    word_write_of_outside _ _ (by omega), word_write_of_outside _ _ (by omega)]
  congr 1
  funext k
  have := k.isLt
  exact word_write_of_outside _ _ (by simp only [NDIRECT] at this; omega)

theorem read_write_self (block : Block) {i : Nat} {d : Dinode} (fits : d.Fits) (bound : i < IPB) :
    read (write block i d) i = d := by
  have length : (List.ofFn d.addrs).length = 13 := List.length_ofFn
  have room : 64 * i + 64 ≤ BSIZE := by
    simp only [IPB, BSIZE] at bound ⊢
    omega
  have head : ∀ place wide, place + wide ≤ 64 * i + 12 →
      (write block i d).word place wide = (((((block.setWord (64 * i) 2 d.type).setWord (64 * i + 2) 2 d.major).setWord
        (64 * i + 4) 2 d.minor).setWord (64 * i + 6) 2 d.nlink).setWord (64 * i + 8) 4 d.size).word place wide :=
    fun place wide before => Bytes.word_setWords_of_apart _ _ _ _ _ _ (.inl before)
  ext
  case type =>
    change (write block i d).word (64 * i) 2 = _
    rw [head _ _ (by omega), word_setWord_of_apart (by omega),
      word_setWord_of_apart (by omega), word_setWord_of_apart (by omega),
      word_setWord_of_apart (by omega), word_setWord _ _ _ _ (by omega) fits.type]
  case major =>
    change (write block i d).word (64 * i + 2) 2 = _
    rw [head _ _ (by omega), word_setWord_of_apart (by omega),
      word_setWord_of_apart (by omega), word_setWord_of_apart (by omega),
      word_setWord _ _ _ _ (by omega) fits.major]
  case minor =>
    change (write block i d).word (64 * i + 4) 2 = _
    rw [head _ _ (by omega), word_setWord_of_apart (by omega),
      word_setWord_of_apart (by omega), word_setWord _ _ _ _ (by omega) fits.minor]
  case nlink =>
    change (write block i d).word (64 * i + 6) 2 = _
    rw [head _ _ (by omega), word_setWord_of_apart (by omega),
      word_setWord _ _ _ _ (by omega) fits.nlink]
  case size =>
    change (write block i d).word (64 * i + 8) 4 = _
    rw [head _ _ (by omega), word_setWord _ _ _ _ (by omega) fits.size]
  case addrs j =>
    have inside : j.val < (List.ofFn d.addrs).length := by rw [List.length_ofFn]; exact j.isLt
    have small : ∀ value ∈ List.ofFn d.addrs, value < 256 ^ 4 := by
      intro value member
      obtain ⟨k, rfl⟩ := List.mem_ofFn.mp member
      exact fits.addrs k
    refine (Bytes.word_setWords _ _ _ _ (by omega) small j.val inside).trans ?_
    rw [List.getElem_ofFn]

end Dinode

end Xv6.Fs
