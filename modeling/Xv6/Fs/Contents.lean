import Xv6.Fs.Books
import Xv6.Fs.LogRoom

/-! What `readi` and `writei` do to the contents of a file, from the ownership of blocks alone, and
what `balloc` and `bfree` do to the bitmap. -/

namespace Xv6.Fs
open Lib Function List

def Node.content (node : Node) : List UInt8 := (range node.size).map node.byte

def State.content (s : State) (x : Nat) : List UInt8 := (s.node x).content

section Lists

variable {node : Node}

end Lists

section Owned

variable {s : State} {k : Fin NINODE}

theorem BlockOwnership.blocks (owned : BlockOwnership s) (geometry : s.sb.Geometry) :
    BlocksInv s.sb s.disk s.dinode := by
  have used : ∀ x < s.sb.ninodes, ∀ i < NSLOT, slot s.disk (s.dinode x) i ≠ 0 →
      s.Owns x i (slot s.disk (s.dinode x) i) := by
    intro x inside i bound nonzero
    refine ⟨inside, fun free => ?_, bound, rfl⟩
    exact nonzero (owned.free x inside (not_not.mpr free) i bound)
  refine ⟨geometry, ⟨⟨?_, ?_, fun _ none => none.elim, fun _ none => none.elim⟩, ?_⟩, ?_, ?_⟩
  · intro x inside i bound nonzero
    exact owned.data _ x i nonzero (used x inside i bound nonzero)
  · intro x insideX i boundI y insideY j boundJ nonzero same
    apply owned.one _ x i y j nonzero (used x insideX i boundI nonzero)
    rw [same] at nonzero ⊢
    exact used y insideY j boundJ nonzero
  · intro b inside
    rw [owned.bitmap b inside]
    constructor
    · rintro (meta_ | ⟨x, i, within, -, bound, here⟩)
      · exact .inl meta_
      · exact .inr (.inr ⟨x, within, i, bound, here⟩)
    · rintro (meta_ | none | ⟨x, within, i, bound, here⟩)
      · exact .inl meta_
      · exact none.elim
      · by_cases zero : b = 0
        · exact .inl (zero ▸ Superblock.datastart_pos)
        · exact .inr ⟨x, i, here ▸ used x within i bound (here ▸ zero)⟩
  · intro x inside allocated notDev
    obtain ⟨fits, blocks, indirect⟩ := owned.mapped x inside allocated notDev
    exact ⟨fits, fun bn bound => (blocks bn bound).trans (mul_lt_iff_lt_ceil ..).symm,
      indirect.trans (mul_lt_iff_lt_ceil ..).symm⟩
  · intro x inside free i bound
    have empty := owned.free x inside (not_not.mpr free) i (Nat.lt_of_le_of_lt bound (by decide))
    rwa [slot_direct _ _ bound] at empty

theorem BlockOwnership.readi_eq (owned : BlockOwnership s) (geometry : s.sb.Geometry) (loaded : s.Loaded k)
    (off n : Nat) : (readi k off n).run s = .ok ((s.node (s.icache k).inum).read off n, s) := by
  have mapped := (owned.blocks geometry).mapped _ loaded.inside (loaded.same ▸ loaded.allocated)
    (loaded.same ▸ loaded.notDev)
  rw [← loaded.same] at mapped
  obtain ⟨r, t, ran, rfl, rfl⟩ :=
    wp.returns (wp_readi_mapped loaded.same loaded.allocated loaded.notDev mapped off n)
  exact ran

theorem BlockOwnership.wp_writei (owned : BlockOwnership s) (geometry : s.sb.Geometry) (loaded : s.Loaded k)
    (op : 0 < s.outstanding) {off : Nat} {src : List UInt8}
    (accepts : (s.node (s.icache k).inum).Accepts off src.length) :
    wp (writei k src off) (fun r t => r = some src.length ∧ BlockOwnership t ∧ t.Loaded k ∧
        Replaced s t k ∧ NodesSet s t (s.icache k).inum ((s.node (s.icache k).inum).write off src))
      (fun _ => freeBlocks s.sb s.disk + need (s.icache k).size < need (max (s.icache k).size (off + src.length))) s := by
  apply wp_mono ((owned.blocks geometry).wp_writei loaded.inside loaded.same loaded.allocated loaded.notDev op accepts) _
    fun _ stopped => stopped.2
  rintro r t ⟨value, rewritten⟩
  obtain ⟨e, type, state, table⟩ := rewritten.change
  have sb : t.sb = s.sb := by rw [state]; rfl
  have entry : t.icache k = { s.icache k with toDinode := e } := by
    rw [state]
    exact update_self ..
  have dinode : t.dinode = dinodeAt s.sb t.disk := by
    funext x
    rw [State.dinode, sb]
  have here := table _ loaded.inside
  rw [update_self] at here
  refine ⟨value, ?_, ⟨?_, ?_, ?_, ?_⟩, ⟨_, _, _, rewritten.trace, type, state⟩, rewritten.nodes⟩
  · apply BlocksInv.ownership
    rw [dinode, sb]
    exact rewritten.blocks
  · rw [entry, sb]
    exact loaded.inside
  · rw [entry, dinode]
    exact here.symm
  · rw [entry]
    exact type ▸ loaded.allocated
  · rw [entry]
    exact type ▸ loaded.notDev

end Owned

end Xv6.Fs
