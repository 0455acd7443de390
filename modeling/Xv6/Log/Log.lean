import Mathlib.Data.List.Nodup
import Xv6.Param

/-! `struct log`, what the sections of `log.c` under `log.lock` do to it, and the log header as
`read_head` and `write_head` see it. The first `lh.n` entries of `lh.block` are a list. -/

namespace Xv6

structure Log where
  start : Nat
  size : Nat
  outstanding : Nat
  committing : Bool
  block : List Nat

namespace Log

def n (log : Log) : Nat := log.block.length

def beginWaits (log : Log) : Bool :=
  log.committing || LOGSIZE < log.n + (log.outstanding + 1) * MAXOPBLOCKS

def enter (log : Log) : Log := { log with outstanding := log.outstanding + 1 }

/-- The test of `log_write` before `panic("too big a transaction")`. -/
def tooBig (log : Log) : Bool := LOGSIZE ≤ log.n || log.size - 1 ≤ log.n

/-- `log_write` records a block, absorbing one that is already there. -/
def record (log : Log) (blockno : Nat) : Log :=
  if blockno ∈ log.block then log else { log with block := log.block ++ [blockno] }

def leave (log : Log) : Log := { log with outstanding := log.outstanding - 1 }

@[simp] theorem record_outstanding (log : Log) (b : Nat) : (log.record b).outstanding = log.outstanding := by
  unfold record
  split <;> rfl

@[simp] theorem record_committing (log : Log) (b : Nat) : (log.record b).committing = log.committing := by
  unfold record
  split <;> rfl

@[simp] theorem record_size (log : Log) (b : Nat) : (log.record b).size = log.size := by
  unfold record
  split <;> rfl

@[simp] theorem record_start (log : Log) (b : Nat) : (log.record b).start = log.start := by
  unfold record
  split <;> rfl

theorem mem_record (log : Log) (b c : Nat) : c ∈ (log.record b).block ↔ c = b ∨ c ∈ log.block := by
  unfold record
  split
  next known => exact ⟨.inr, fun either => either.elim (fun same => same ▸ known) id⟩
  next => simp [or_comm]

theorem nodup_record (log : Log) (b : Nat) (distinct : log.block.Nodup) : (log.record b).block.Nodup := by
  unfold record
  split
  next => exact distinct
  next new =>
    refine List.nodup_append.mpr ⟨distinct, List.nodup_singleton _, fun c member d single same => ?_⟩
    rw [List.mem_singleton] at single
    exact new (single ▸ same ▸ member)

end Log

end Xv6

namespace Xv6
open Lib

namespace Log

def sbNlog (block : Block) : Nat := block.word 12 4

def sbLogstart (block : Block) : Nat := block.word 16 4

def headCount (block : Block) : Nat := block.word 0 4

def headEntry (block : Block) (t : Nat) : Nat := block.word (4 + 4 * t) 4

def headBlocks (block : Block) : List Nat := (List.range (headCount block)).map (headEntry block)

def putEntries (block : Block) (t : Nat) : List Nat → Block
  | [] => block
  | b :: rest => putEntries (block.setWord (4 + 4 * t) 4 b) (t + 1) rest

def putHead (block : Block) (blocks : List Nat) : Block :=
  putEntries (block.setWord 0 4 blocks.length) 0 blocks

theorem headCount_putEntries (block : Block) (t : Nat) (blocks : List Nat) :
    headCount (putEntries block t blocks) = headCount block := by
  induction blocks generalizing block t with
  | nil => rfl
  | cons b rest ih =>
    rw [putEntries, ih]
    exact Bytes.word_setWord_of_apart (.inl (by omega))

theorem headEntry_putEntries_before (block : Block) (t u : Nat) (blocks : List Nat) (before : u < t) :
    headEntry (putEntries block t blocks) u = headEntry block u := by
  induction blocks generalizing block t with
  | nil => rfl
  | cons b rest ih =>
    rw [putEntries, ih _ _ (by omega)]
    exact Bytes.word_setWord_of_apart (.inl (by omega))

theorem headEntry_putEntries (block : Block) (t : Nat) (blocks : List Nat) (small : ∀ b ∈ blocks, b < 2 ^ 32)
    (room : 4 + 4 * (t + blocks.length) ≤ BSIZE) (u : Nat) (bound : u < blocks.length) :
    headEntry (putEntries block t blocks) (t + u) = blocks[u] := by
  induction blocks generalizing block t u with
  | nil => cases bound
  | cons b rest ih =>
    rw [List.length_cons] at room bound
    cases u with
    | zero =>
      rw [putEntries, headEntry_putEntries_before _ _ _ _ (by omega)]
      exact Bytes.word_setWord _ _ _ _ (by omega) (small b List.mem_cons_self)
    | succ u =>
      rw [putEntries, ← Nat.add_assoc, Nat.add_right_comm, List.getElem_cons_succ]
      exact ih _ _ (fun c member => small c (List.mem_cons_of_mem b member)) (by omega) u (by omega)

theorem headBlocks_putHead (block : Block) (blocks : List Nat) (small : ∀ b ∈ blocks, b < 2 ^ 32)
    (room : 4 + 4 * blocks.length ≤ BSIZE) : headBlocks (putHead block blocks) = blocks := by
  have count : headCount (putHead block blocks) = blocks.length := by
    rw [putHead, headCount_putEntries]
    refine Bytes.word_setWord _ _ _ _ (by omega) ?_
    simp only [BSIZE] at room
    omega
  apply List.ext_getElem
  · rw [headBlocks, List.length_map, List.length_range, count]
  · intro u _ bound
    have entry := headEntry_putEntries (block.setWord 0 4 blocks.length) 0 blocks small (by omega) u bound
    rw [Nat.zero_add] at entry
    rw [← entry]
    simp only [headBlocks, List.getElem_map, List.getElem_range]
    rfl

end Log

end Xv6
