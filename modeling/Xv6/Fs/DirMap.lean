import Xv6.Fs.Contents
import Xv6.Fs.Listing

/-! A directory as a finite map from names to inode numbers. -/

namespace Xv6.Fs
open Lib Function Option Nat List Dirent

namespace Node

variable {node : Node} {name : List UInt8} {i inum : Nat}

def Distinct (node : Node) : Prop :=
  ∀ i < node.count, ∀ j < node.count, (node.listed i).1 ≠ 0 → (node.listed j).1 ≠ 0 →
    (node.listed i).2 = (node.listed j).2 → i = j

instance (node : Node) : Decidable node.Distinct := decidableBallLT _ _

/-- The offset of the entry for a name, and its inode number. -/
def find (node : Node) (name : List UInt8) : Option (Nat × Nat) :=
  (node.lookup name).map fun i => (Dirent.SIZE * i, (node.entry i).inum)

end Node

variable {s t : State} {k l : Fin NINODE} {name : List UInt8} {inum : Nat}

def State.dir (s : State) (k : Fin NINODE) : Node := s.node (s.icache k).inum

structure Directory (s : State) (k : Fin NINODE) : Prop where
  geometry : s.sb.Geometry
  owned : BlockOwnership s
  loaded : s.Loaded k
  type : (s.icache k).type = T_DIR
  aligned : (s.dir k).Aligned
  distinct : (s.dir k).Distinct

def Got (s t : State) (l : Fin NINODE) (x : Nat) : Prop :=
  ∃ ip, t = { s with icache := update s.icache l ip } ∧ ip.inum = x ∧
    ((0 < (s.icache l).ref ∧ ip = { s.icache l with ref := (s.icache l).ref + 1 }) ∨
      ((s.icache l).ref = 0 ∧ ip = { s.icache l with inum := x, ref := 1, valid := false }))

theorem Directory.size_eq (dir : Directory s k) : (s.icache k).size = (s.dir k).size := by
  rw [dir.loaded.same]
  rfl

theorem Directory.readable (dir : Directory s k) : Readable s k (s.dir k) where
  size := dir.size_eq
  bound := (dir.owned.mapped _ dir.loaded.inside (dir.loaded.same ▸ dir.loaded.allocated)
    (dir.loaded.same ▸ dir.loaded.notDev)).1
  reads := fun off n => (wp_of_ok (dir.owned.readi_eq dir.geometry dir.loaded off n)).mpr ⟨rfl, rfl⟩

theorem Directory.wp_dirlookup (dir : Directory s k) (name : List UInt8) :
    wp (dirlookup k name) (fun r t =>
        match r with
        | none => (s.dir k).find name = none ∧ t = s
        | some (l, off) => ∃ x, (s.dir k).find name = some (off, x) ∧ Got s t l x)
      (fun e => e = .panic "iget: no inodes" ∧ (s.dir k).find name ≠ none ∧ ∀ l, (s.icache l).ref ≠ 0) s := by
  unfold dirlookup
  rw [wp_bind, wp_getInode, if_neg (by rw [dir.type]; decide)]
  have scan := wp_dirlookupFrom dir.readable name (s.icache k).size 0 (by rw [dir.size_eq]; omega) (Nat.zero_le _)
  rw [Nat.mul_zero, Nat.sub_zero, ← List.range_eq_range'] at scan
  refine wp_seq scan (fun _ stopped => absurd dir.aligned stopped.2.1) ?_
  rintro r t ⟨rfl, result, -⟩
  change r = (t.dir k).find name at result
  cases r with
  | none => exact wp_pure.mpr ⟨result.symm, rfl⟩
  | some entry =>
    obtain ⟨off, x⟩ := entry
    refine wp_bind.mpr (wp_igetEntry ?_ ?_ ?_)
    · exact fun l ref same => wp_pure.mpr ⟨x, result.symm, _, rfl, same, .inl ⟨ref, rfl⟩⟩
    · exact fun _ l free => wp_pure.mpr ⟨x, result.symm, _, rfl, rfl, .inr ⟨free, rfl⟩⟩
    · exact fun _ taken => ⟨rfl, by rw [← result]; exact some_ne_none _, taken⟩

/-- After `iget` and `iput` the references are what they were. -/
structure Unmoved (s t : State) : Prop where
  disk : t.disk = s.disk
  refs : ∀ l, (t.icache l).ref = (s.icache l).ref
  kept : ∀ l, 0 < (s.icache l).ref → t.icache l = s.icache l

theorem Got.wp_iput {x : Nat} (got : Got s t l x) (unlocked : (s.icache l).lock = false) :
    wp (iput l) (fun _ u => Unmoved s u) (fun _ => False) t := by
  obtain ⟨ip, rfl, same, entry⟩ := got
  have lock : ip.lock = false := by
    obtain ⟨-, rfl⟩ | ⟨-, rfl⟩ := entry <;> exact unlocked
  have stays : ¬ (ip.valid ∧ ip.nlink = 0 ∧ ip.ref = 1) := by
    obtain ⟨ref, rfl⟩ | ⟨-, rfl⟩ := entry
    · exact fun last => absurd last.2.2 (by simp only; omega)
    · exact fun last => Bool.false_ne_true last.1
  unfold iput acquiresleep iputFree releasesleep
  simp only [wp_bind, wp_modify, wp_getInode, update_self, lock, Bool.false_eq_true, if_false, wp_setInode,
    update_idem]
  rw [if_neg stays]
  simp only [wp_pure, update_self, update_idem]
  refine ⟨rfl, fun j => ?_, fun j ref => ?_⟩
  · by_cases here : j = l
    · subst here
      simp only [update_self]
      obtain ⟨-, rfl⟩ | ⟨free, rfl⟩ := entry
      · exact Nat.add_sub_cancel ..
      · exact free.symm
    · simp only [update_of_ne here]
  · by_cases here : j = l
    · subst here
      obtain ⟨-, rfl⟩ | ⟨free, rfl⟩ := entry
      · simp only [update_self, Nat.add_sub_cancel, ← unlocked]
      · omega
    · simp only [update_of_ne here]

end Xv6.Fs
