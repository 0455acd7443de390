import Mathlib.Algebra.BigOperators.Group.Finset.Piecewise
import Mathlib.Algebra.Order.BigOperators.Group.Finset
import Mathlib.Logic.Function.Iterate

/-! Directories that have names for each other and for other things, and are a tree. Names may be
added and removed, and directories without names may come and go. -/

namespace Xv6.Lib
open Finset

@[ext] structure Hierarchy (ι : Type) where
  dirs : Finset ι
  parent : ι → ι
  /-- How many names a directory has for a thing. -/
  names : ι → ι → Nat

namespace Hierarchy

variable {ι : Type} [DecidableEq ι] {h : Hierarchy ι} {root d x y : ι}

/-- The links of `x` that `d` accounts for. -/
def share (h : Hierarchy ι) (x d : ι) : Nat := h.names d x + if h.parent d = x then 1 else 0

def links (h : Hierarchy ι) (x : ι) : Nat := ∑ d ∈ h.dirs, h.share x d

structure IsTree (h : Hierarchy ι) (root : ι) : Prop where
  root_mem : root ∈ h.dirs
  parent_root : h.parent root = root
  parent_mem : ∀ d ∈ h.dirs, h.parent d ∈ h.dirs
  named : ∀ d ∈ h.dirs, d ≠ root → ∀ e ∈ h.dirs, h.names e d = if e = h.parent d then 1 else 0
  root_unnamed : ∀ e ∈ h.dirs, h.names e root = 0
  reaches : ∀ d ∈ h.dirs, ∃ k, h.parent^[k] d = root

def addName (h : Hierarchy ι) (d x : ι) : Hierarchy ι :=
  { h with names := fun e y => h.names e y + if e = d ∧ y = x then 1 else 0 }

/-- The directory `x` is new in `d`. -/
def grow (h : Hierarchy ι) (d x : ι) : Hierarchy ι where
  dirs := insert x h.dirs
  parent := Function.update h.parent x d
  names := (h.addName d x).names

theorem addName_names (h : Hierarchy ι) (d x e y : ι) :
    (h.addName d x).names e y = h.names e y + if e = d ∧ y = x then 1 else 0 := rfl

theorem addName_names_of_ne (h : Hierarchy ι) (d e : ι) (apart : y ≠ x) : (h.addName d x).names e y = h.names e y := by
  rw [addName_names, if_neg fun both => apart both.2, Nat.add_zero]

theorem grow_names (h : Hierarchy ι) (d x : ι) : (h.grow d x).names = (h.addName d x).names := rfl

theorem grow_parent_self (h : Hierarchy ι) (d x : ι) : (h.grow d x).parent x = d := Function.update_self ..

theorem grow_parent_of_ne (h : Hierarchy ι) (d : ι) (apart : y ≠ x) : (h.grow d x).parent y = h.parent y :=
  Function.update_of_ne apart ..

theorem share_le_links (member : d ∈ h.dirs) : h.share x d ≤ h.links x :=
  single_le_sum (fun _ _ => Nat.zero_le _) member

theorem links_eq_zero (unnamed : ∀ e ∈ h.dirs, h.names e x = 0) (childless : ∀ e ∈ h.dirs, h.parent e ≠ x) : h.links x = 0 := by
  refine sum_eq_zero fun e member => ?_
  rw [share, unnamed e member, if_neg (childless e member), Nat.add_zero]

theorem links_addName (member : d ∈ h.dirs) : (h.addName d x).links y = h.links y + if y = x then 1 else 0 := by
  have shares : ∀ e, (h.addName d x).share y e = h.share y e + if e = d then (if y = x then 1 else 0) else 0 := by
    intro e
    rw [share, addName_names, ite_and, Nat.add_right_comm]
    rfl
  rw [links, sum_congr rfl fun e _ => shares e, sum_add_distrib]
  congr 1
  exact (sum_ite_eq' h.dirs d _).trans (if_pos member)

theorem links_grow (new : x ∉ h.dirs) (member : d ∈ h.dirs) (empty : ∀ y, h.names x y = 0) :
    (h.grow d x).links y = h.links y + (if y = x then 1 else 0) + if y = d then 1 else 0 := by
  have others : ∀ e ∈ h.dirs, (h.grow d x).share y e = (h.addName d x).share y e := by
    intro e inside
    have apart : e ≠ x := fun same => new (same ▸ inside)
    rw [share, grow_parent_of_ne h d apart]
    rfl
  have last : (h.grow d x).share y x = if y = d then 1 else 0 := by
    have apart : x ≠ d := fun same => new (same ▸ member)
    rw [share, grow_parent_self, grow_names, addName_names, empty, if_neg fun both => apart both.1]
    simp only [eq_comm, Nat.zero_add]
  have total : (h.grow d x).links y = (h.grow d x).share y x + ∑ e ∈ h.dirs, (h.grow d x).share y e :=
    sum_insert new
  rw [total, last, sum_congr rfl others]
  change _ + (h.addName d x).links y = _
  rw [links_addName member, Nat.add_comm]

namespace IsTree

theorem names_eq_zero (tree : h.IsTree root) (member : d ∈ h.dirs) (empty : ∀ y, h.names x y = 0) (inside : x ∈ h.dirs)
    (other : d ≠ root) : h.parent d ≠ x := by
  intro same
  have one := tree.named d member other x inside
  rw [empty, if_pos same.symm] at one
  cases one

theorem links_of_empty (tree : h.IsTree root) (inside : x ∈ h.dirs) (other : x ≠ root) (empty : ∀ y, h.names x y = 0) :
    h.links x = 1 := by
  have shares : ∀ e ∈ h.dirs, h.share x e = if e = h.parent x then 1 else 0 := by
    intro e member
    have childless : h.parent e ≠ x := by
      by_cases top : e = root
      · rw [top, tree.parent_root]
        exact other.symm
      · exact tree.names_eq_zero member empty inside top
    rw [share, tree.named x inside other e member, if_neg childless, Nat.add_zero]
  rw [links, sum_congr rfl shares]
  exact (sum_ite_eq' h.dirs _ _).trans (if_pos (tree.parent_mem x inside))

theorem two_le_links (tree : h.IsTree root) (inside : x ∈ h.dirs) (other : x ≠ root) (empty : ∀ y, h.names x y = 0) :
    2 ≤ h.links (h.parent x) := by
  have above := tree.parent_mem x inside
  have mine : 1 ≤ h.share (h.parent x) x := by
    rw [share, if_pos rfl]
    exact Nat.le_add_left ..
  obtain ⟨e, member, apart, one⟩ : ∃ e ∈ h.dirs, x ≠ e ∧ 1 ≤ h.share (h.parent x) e := by
    by_cases top : h.parent x = root
    · refine ⟨root, tree.root_mem, other, ?_⟩
      rw [share, tree.parent_root, if_pos top.symm]
      exact Nat.le_add_left ..
    · refine ⟨h.parent (h.parent x), tree.parent_mem _ above, (tree.names_eq_zero above empty inside top).symm, ?_⟩
      rw [share, tree.named _ above top _ (tree.parent_mem _ above), if_pos rfl]
      exact Nat.le_add_right ..
  calc 2 ≤ h.share (h.parent x) x + h.share (h.parent x) e := Nat.add_le_add mine one
    _ ≤ h.links (h.parent x) := add_le_sum (fun _ _ => Nat.zero_le _) inside member apart

theorem eq_parent (tree : h.IsTree root) (inside : x ∈ h.dirs) (member : d ∈ h.dirs) (name : h.names d x ≠ 0) :
    x ≠ root ∧ d = h.parent x := by
  have other : x ≠ root := by
    rintro rfl
    exact name (tree.root_unnamed d member)
  refine ⟨other, by_contra fun apart => name ?_⟩
  rw [tree.named x inside other d member, if_neg apart]

theorem addName_iff (outside : x ∉ h.dirs) : (h.addName d x).IsTree root ↔ h.IsTree root := by
  have same : ∀ e, ∀ y ∈ h.dirs, (h.addName d x).names e y = h.names e y := by
    intro e y member
    exact addName_names_of_ne h d e fun same => outside (same ▸ member)
  constructor
  · intro tree
    exact ⟨tree.root_mem, tree.parent_root, tree.parent_mem,
      fun y member other e inside => (same e y member).symm.trans (tree.named y member other e inside),
      fun e inside => (same e root tree.root_mem).symm.trans (tree.root_unnamed e inside), tree.reaches⟩
  · intro tree
    exact ⟨tree.root_mem, tree.parent_root, tree.parent_mem,
      fun y member other e inside => (same e y member).trans (tree.named y member other e inside),
      fun e inside => (same e root tree.root_mem).trans (tree.root_unnamed e inside), tree.reaches⟩

omit [DecidableEq ι] in
theorem iterate_congr {f g : ι → ι} {s : Finset ι} (closed : ∀ d ∈ s, g d ∈ s) (same : ∀ d ∈ s, f d = g d) (k : Nat) {d : ι}
    (member : d ∈ s) : f^[k] d = g^[k] d := by
  induction k generalizing d with
  | zero => rfl
  | succ k ih => rw [Function.iterate_succ_apply, Function.iterate_succ_apply, same d member, ih (closed d member)]

theorem grow (tree : h.IsTree root) (new : x ∉ h.dirs) (member : d ∈ h.dirs) (unnamed : ∀ e ∈ h.dirs, h.names e x = 0)
    (empty : ∀ y, h.names x y = 0) : (h.grow d x).IsTree root := by
  have apart : ∀ e ∈ h.dirs, e ≠ x := fun e inside same => new (same ▸ inside)
  have parent : ∀ e ∈ h.dirs, (h.grow d x).parent e = h.parent e := fun e inside => grow_parent_of_ne h d (apart e inside)
  have reaches : ∀ e ∈ h.dirs, ∃ k, (h.grow d x).parent^[k] e = root := by
    intro e inside
    obtain ⟨k, arrives⟩ := tree.reaches e inside
    exact ⟨k, (iterate_congr tree.parent_mem parent k inside).trans arrives⟩
  refine ⟨mem_insert_of_mem tree.root_mem, (parent root tree.root_mem).trans tree.parent_root, ?_, ?_, ?_, ?_⟩
  · intro e inside
    obtain rfl | inside := mem_insert.mp inside
    · rw [grow_parent_self]
      exact mem_insert_of_mem member
    · rw [parent e inside]
      exact mem_insert_of_mem (tree.parent_mem e inside)
  · intro y inside other e inside'
    obtain rfl | old := mem_insert.mp inside
    · have none : h.names e y = 0 := by
        obtain rfl | old := mem_insert.mp inside'
        · exact empty e
        · exact unnamed e old
      rw [grow_parent_self, grow_names, addName_names, none]
      simp
    · rw [grow_names, addName_names_of_ne h d e (apart y old), parent y old]
      obtain rfl | old' := mem_insert.mp inside'
      · rw [empty, if_neg fun same : e = _ => new (same ▸ tree.parent_mem y old)]
      · exact tree.named y old other e old'
  · intro e inside
    rw [grow_names, addName_names_of_ne h d e (apart root tree.root_mem)]
    obtain rfl | inside := mem_insert.mp inside
    · exact empty root
    · exact tree.root_unnamed e inside
  · intro e inside
    obtain rfl | inside := mem_insert.mp inside
    · obtain ⟨k, arrives⟩ := reaches d member
      exact ⟨k + 1, by rw [Function.iterate_succ_apply, grow_parent_self, arrives]⟩
    · exact reaches e inside

theorem prune (tree : (h.grow d x).IsTree root) (old : x ∉ h.dirs) (other : x ≠ root) (empty : ∀ y, h.names x y = 0) (apart : x ≠ d) :
    h.IsTree root := by
  have differ : ∀ e ∈ h.dirs, e ≠ x := fun e inside same => old (same ▸ inside)
  have mem : ∀ e ∈ h.dirs, e ∈ (h.grow d x).dirs := fun e inside => mem_insert_of_mem inside
  have parent : ∀ e ∈ h.dirs, (h.grow d x).parent e = h.parent e := fun e inside => grow_parent_of_ne h d (differ e inside)
  have named : ∀ e, ∀ y ∈ h.dirs, (h.grow d x).names e y = h.names e y := fun e y inside =>
    addName_names_of_ne h d e (differ y inside)
  have bare : ∀ y, (h.grow d x).names x y = 0 := fun y => by
    rw [grow_names, addName_names, empty, if_neg fun both => apart both.1]
  have top : root ∈ h.dirs := (mem_insert.mp tree.root_mem).resolve_left other.symm
  have up : h.parent root = root := (parent root top).symm.trans tree.parent_root
  have closed : ∀ e ∈ h.dirs, h.parent e ∈ h.dirs := by
    intro e inside
    rw [← parent e inside]
    refine (mem_insert.mp (tree.parent_mem e (mem e inside))).resolve_left fun same => ?_
    by_cases here : e = root
    · rw [here, tree.parent_root] at same
      exact other same.symm
    · exact tree.names_eq_zero (mem e inside) bare (mem_insert_self ..) here same
  refine ⟨top, up, closed, ?_, ?_, ?_⟩
  · intro y inside away e inside'
    rw [← named e y inside, ← parent y inside]
    exact tree.named y (mem y inside) away e (mem e inside')
  · intro e inside
    rw [← named e root top]
    exact tree.root_unnamed e (mem e inside)
  · intro e inside
    obtain ⟨k, arrives⟩ := tree.reaches e (mem e inside)
    exact ⟨k, (iterate_congr closed parent k inside).symm.trans arrives⟩

end IsTree

end Hierarchy

end Xv6.Lib
