import Xv6.Fs.Invariant

/-! `iget`, `idup`, `ilock` and `iunlock`: references and locks, with the disk untouched. -/

namespace Xv6.Fs
open Lib Function Finset

/-- What a step of a system call leaves alone, `temps` being the references that the process keeps.
-/
structure Frame (s t : State) (temps : Multiset (Fin NINODE)) : Prop where
  sb : t.sb = s.sb
  ftable : t.ftable = s.ftable
  procs : t.procs = s.procs
  pipes : t.pipes = s.pipes
  outstanding : t.outstanding = s.outstanding
  trace : Traced true true s.trace t.trace
  kept : ∀ j, 0 < held s j + temps.count j → (t.icache j).inum = (s.icache j).inum ∧
    ((s.icache j).valid = true → (t.icache j).valid = true)

variable {s t : State} {temps : Multiset (Fin NINODE)} {k : Fin NINODE}

namespace Frame

variable {u : State}

theorem refl (s : State) (temps : Multiset (Fin NINODE)) : Frame s s temps :=
  ⟨rfl, rfl, rfl, rfl, rfl, .refl .., fun _ _ => ⟨rfl, id⟩⟩

theorem held_eq (frame : Frame s t temps) (k : Fin NINODE) : held t k = held s k := by
  rw [held, frame.ftable, frame.procs, held]

theorem trans (first : Frame s t temps) (second : Frame t u temps) : Frame s u temps where
  sb := second.sb.trans first.sb
  ftable := second.ftable.trans first.ftable
  procs := second.procs.trans first.procs
  pipes := second.pipes.trans first.pipes
  outstanding := second.outstanding.trans first.outstanding
  trace := first.trace.trans second.trace
  kept := fun j used => by
    obtain ⟨inum, valid⟩ := first.kept j used
    obtain ⟨inum', valid'⟩ := second.kept j (by rwa [first.held_eq])
    exact ⟨inum'.trans inum, fun here => valid' (valid here)⟩

theorem weaken {more : Multiset (Fin NINODE)} (frame : Frame s t more) (less : temps ≤ more) : Frame s t temps :=
  { frame with kept := fun j used => frame.kept j (by have := Multiset.count_le_of_le j less; omega) }

theorem tail (frame : Frame s t (k ::ₘ temps)) : Frame s t temps :=
  frame.weaken (Multiset.le_cons_self temps k)

theorem inum (frame : Frame s t temps) (kept : k ∈ temps) : (t.icache k).inum = (s.icache k).inum :=
  (frame.kept k (by have := Multiset.count_pos.mpr kept; omega)).1

end Frame

structure Quiet (s t : State) (temps : Multiset (Fin NINODE)) : Prop extends Frame s t temps where
  disk : t.disk = s.disk
  silent : t.trace = s.trace

variable {locks : Finset (Fin NINODE)}

section References

theorem Inv.ref_pos (inv : Inv s temps locks) (kept : k ∈ temps) : 0 < (s.icache k).ref := by
  have := inv.refs.refs k
  have := Multiset.count_pos.mpr kept
  omega

theorem Inv.dinode_eq (inv : Inv s temps locks) (locked : k ∈ locks) :
    (s.icache k).toDinode = s.dinode (s.icache k).inum ∧ (s.icache k).type ≠ 0 := by
  obtain ⟨ref, valid⟩ := inv.refs.locked k locked
  exact inv.cache.cached k ref valid

theorem Inv.inum_range (inv : Inv s temps locks) (locked : k ∈ locks) :
    0 < (s.icache k).inum ∧ (s.icache k).inum < s.sb.ninodes :=
  inv.cache.range k (inv.refs.locked k locked).1

theorem Quiet.of_icache (s : State) (icache : Fin NINODE → Inode) (temps : Multiset (Fin NINODE))
    (kept : ∀ j, 0 < held s j + temps.count j → (icache j).inum = (s.icache j).inum ∧
      ((s.icache j).valid = true → (icache j).valid = true)) :
    Quiet s { s with icache := icache } temps := ⟨⟨rfl, rfl, rfl, rfl, rfl, .refl .., kept⟩, rfl, rfl⟩

theorem update_kept {ip : Inode} (same : ip.inum = (s.icache k).inum)
    (valid : (s.icache k).valid = true → ip.valid = true) (j : Fin NINODE) :
    (update s.icache k ip j).inum = (s.icache j).inum ∧
      ((s.icache j).valid = true → (update s.icache k ip j).valid = true) := by
  by_cases here : j = k
  · rw [here, update_self]
    exact ⟨same, valid⟩
  · rw [update_of_ne here]
    exact ⟨rfl, id⟩

/-- The inodes that are in use, the references in `temps` included. -/
def State.used (s : State) (temps : Multiset (Fin NINODE)) : Finset Nat :=
  (Finset.univ.filter fun k => 0 < held s k + temps.count k).image fun k => (s.icache k).inum

/-- The cache has no entry for `x`, and none that it could give to it. -/
def Full (used : Finset Nat) (x : Nat) : Prop := x ∉ used ∧ NINODE ≤ used.card

instance (used : Finset Nat) (x : Nat) : Decidable (Full used x) := inferInstanceAs (Decidable (_ ∧ _))

variable {x : Nat}

theorem State.mem_used : x ∈ s.used temps ↔ ∃ k, 0 < held s k + temps.count k ∧ (s.icache k).inum = x := by
  rw [State.used, mem_image]
  exact exists_congr fun k => by rw [mem_filter, and_iff_right (mem_univ k)]

theorem State.used_cons (s : State) (temps : Multiset (Fin NINODE)) (k : Fin NINODE) :
    s.used (k ::ₘ temps) = insert (s.icache k).inum (s.used temps) := by
  ext x
  rw [mem_insert, State.mem_used, State.mem_used]
  constructor
  · rintro ⟨l, here, rfl⟩
    by_cases same : l = k
    · exact .inl (by rw [same])
    · exact .inr ⟨l, by rwa [Multiset.count_cons_of_ne same] at here, rfl⟩
  · rintro (rfl | ⟨l, here, rfl⟩)
    · exact ⟨k, by rw [Multiset.count_cons_self]; omega, rfl⟩
    · exact ⟨l, by have := Multiset.count_le_count_cons l k temps; omega, rfl⟩

theorem Frame.used_eq (frame : Frame s t temps) : t.used temps = s.used temps := by
  ext x
  rw [State.mem_used, State.mem_used]
  refine exists_congr fun k => ?_
  rw [frame.held_eq]
  exact and_congr_right fun here => by rw [(frame.kept k here).1]

theorem Inv.full (inv : Inv s temps locks) (taken : ∀ k, (s.icache k).ref ≠ 0)
    (absent : ∀ k, 0 < (s.icache k).ref → (s.icache k).inum ≠ x) : Full (s.used temps) x := by
  have every : ∀ k, 0 < held s k + temps.count k := fun k => by
    have := inv.refs.refs k
    have := taken k
    omega
  refine ⟨fun member => ?_, ?_⟩
  · obtain ⟨k, -, same⟩ := State.mem_used.mp member
    exact absent k (Nat.pos_of_ne_zero (taken k)) same
  · rw [State.used, filter_true_of_mem fun k _ => every k, card_image_of_injective, card_fin]
    exact fun k l => inv.cache.unique k l (Nat.pos_of_ne_zero (taken k)) (Nat.pos_of_ne_zero (taken l))

theorem Inv.not_full_of_mem (inv : Inv s temps locks) (ref : 0 < (s.icache k).ref) :
    ¬ Full (s.used temps) (s.icache k).inum :=
  fun full => full.1 (State.mem_used.mpr ⟨k, by rw [← inv.refs.refs k]; exact ref, rfl⟩)

theorem Inv.not_full_of_free (inv : Inv s temps locks) (x : Nat) (ref : (s.icache k).ref = 0) :
    ¬ Full (s.used temps) x := by
  intro full
  have small : (Finset.univ.filter fun l => 0 < held s l + temps.count l).card < NINODE := by
    have proper : (Finset.univ.filter fun l => 0 < held s l + temps.count l).card < (Finset.univ : Finset (Fin NINODE)).card := by
      refine card_lt_card (filter_ssubset.mpr ⟨k, mem_univ k, ?_⟩)
      rw [← inv.refs.refs k]
      omega
    rwa [card_fin] at proper
  exact absurd full.2 (Nat.not_le_of_lt (Nat.lt_of_le_of_lt card_image_le small))

theorem Inv.addRef (inv : Inv s temps locks) (ref : 0 < (s.icache k).ref) :
    Inv { s with icache := update s.icache k { s.icache k with ref := (s.icache k).ref + 1 } }
      (k ::ₘ temps) locks where
  disk := inv.disk
  cache := inv.cache.update (fun _ => inv.cache.cached k ref) (fun _ => inv.cache.range k ref)
    fun l apart _ ref' inum => apart (inv.cache.unique l k ref' ref inum)
  refs := by
    refine inv.refs.update (.inl rfl) ?_ ?_ (inv.refs.lock k) (fun _ _ => Iff.rfl) ?_
    · rw [Multiset.count_cons_self, ← Nat.add_assoc, ← inv.refs.refs k]
    · exact fun l apart => Multiset.count_cons_of_ne apart temps
    · exact fun member => ⟨Nat.succ_pos _, (inv.refs.locked k member).2⟩

variable {inum : Nat}

theorem Inv.newRef (inv : Inv s temps locks) (range : 0 < inum ∧ inum < s.sb.ninodes)
    (ref : (s.icache k).ref = 0) (absent : ∀ l, 0 < (s.icache l).ref → (s.icache l).inum ≠ inum) :
    Inv { s with icache := update s.icache k { s.icache k with inum := inum, ref := 1, valid := false } }
      (k ::ₘ temps) locks where
  disk := inv.disk
  cache := inv.cache.update (fun _ valid => nomatch valid) (fun _ => range) fun l _ _ ref' => absent l ref'
  refs := by
    have count := inv.refs.refs k
    refine inv.refs.update (.inr (by omega)) ?_ ?_ (inv.refs.lock k) (fun _ _ => Iff.rfl) ?_
    · change 1 = _
      rw [Multiset.count_cons_self]
      omega
    · exact fun l apart => Multiset.count_cons_of_ne apart temps
    · intro member
      have := (inv.refs.locked k member).1
      omega

theorem wp_igetEntry {post : Fin NINODE → State → Prop} {stop : Stop → Prop}
    (again : ∀ k, 0 < (s.icache k).ref → (s.icache k).inum = inum →
      post k { s with icache := update s.icache k { s.icache k with ref := (s.icache k).ref + 1 } })
    (fresh : (∀ l, 0 < (s.icache l).ref → (s.icache l).inum ≠ inum) → ∀ k, (s.icache k).ref = 0 →
      post k { s with icache := update s.icache k { s.icache k with inum := inum, ref := 1, valid := false } })
    (full : (∀ l, 0 < (s.icache l).ref → (s.icache l).inum ≠ inum) → (∀ l, (s.icache l).ref ≠ 0) →
      stop (.panic "iget: no inodes")) : wp (iget inum) post stop s := by
  unfold iget
  rw [wp_bind, wp_get]
  split
  next k found =>
    have test := List.find?_some found
    rw [Bool.and_eq_true, decide_eq_true_iff, decide_eq_true_iff] at test
    rw [wp_bind, wp_setInode, wp_pure]
    exact again k test.1 test.2
  next missing =>
    have absent : ∀ l, 0 < (s.icache l).ref → (s.icache l).inum ≠ inum := by
      intro l ref same
      have := List.find?_eq_none.mp missing l (List.mem_finRange l)
      rw [Bool.and_eq_true, decide_eq_true_iff, decide_eq_true_iff] at this
      exact this ⟨ref, same⟩
    split
    next k found =>
      have free := List.find?_some found
      rw [wp_bind, wp_setInode, wp_pure]
      exact fresh absent k (of_decide_eq_true free)
    next none =>
      refine wp_panic.mpr (full absent fun l zero => ?_)
      exact List.find?_eq_none.mp none l (List.mem_finRange l) (decide_eq_true zero)

theorem wp_iget (inv : Inv s temps locks) (range : 0 < inum ∧ inum < s.sb.ninodes) :
    wp (iget inum) (fun k t => Inv t (k ::ₘ temps) locks ∧ Quiet s t temps ∧
        (t.icache k).inum = inum ∧ ¬ Full (s.used temps) inum)
      (fun e => e = .panic "iget: no inodes" ∧ Full (s.used temps) inum) s := by
  apply wp_igetEntry
  · intro k ref same
    refine ⟨inv.addRef ref, .of_icache _ _ _ fun j _ => update_kept (by rfl) (by exact id) j, ?_, ?_⟩
    · simp only [update_self]
      exact same
    · rw [← same]
      exact inv.not_full_of_mem ref
  · intro absent k free
    have count := inv.refs.refs k
    refine ⟨inv.newRef range free absent, .of_icache _ _ _ fun j used => ?_, ?_, inv.not_full_of_free inum free⟩
    · have apart : j ≠ k := by
        rintro rfl
        omega
      rw [update_of_ne apart]
      exact ⟨rfl, id⟩
    · simp only [update_self]
  · exact fun absent taken => ⟨rfl, inv.full taken absent⟩

theorem wp_idup (inv : Inv s temps locks) (ref : 0 < (s.icache k).ref) :
    wp (idup k) (fun l t => l = k ∧ Inv t (k ::ₘ temps) locks ∧ Quiet s t temps ∧
      (t.icache k).inum = (s.icache k).inum) (fun _ => False) s := by
  unfold idup
  rw [wp_bind, wp_getInode, wp_bind, wp_setInode, wp_pure]
  exact ⟨rfl, inv.addRef ref, .of_icache _ _ _ fun j _ => update_kept (by rfl) (by exact id) j,
    by simp only [update_self]⟩

end References

section Locks

def lockedInode (s : State) (k : Fin NINODE) : Inode :=
  { s.icache k with toDinode := s.dinode (s.icache k).inum, valid := true, lock := true }

theorem Inv.lockInode (inv : Inv s temps locks) (ref : 0 < (s.icache k).ref)
    (type : (s.dinode (s.icache k).inum).type ≠ 0) :
    Inv { s with icache := update s.icache k (lockedInode s k) } temps (insert k locks) where
  disk := inv.disk
  cache := inv.cache.update (fun _ _ => ⟨rfl, type⟩) (fun _ => inv.cache.range k ref)
    fun l apart _ ref' inum => apart (inv.cache.unique l k ref' ref inum)
  refs := inv.refs.update (.inl rfl) (inv.refs.refs k) (fun _ _ => rfl)
    ⟨fun _ => mem_insert_self k locks, fun _ => rfl⟩
    (fun l apart => by rw [mem_insert, or_iff_right apart]) fun _ => ⟨ref, rfl⟩

theorem wp_ilockEntry (inv : Inv s temps locks) (ref : 0 < (s.icache k).ref) :
    wp (ilock k) (fun _ t => k ∉ locks ∧ (s.dinode (s.icache k).inum).type ≠ 0 ∧
        t = { s with icache := update s.icache k (lockedInode s k) } ∧ Inv t temps (insert k locks))
      (fun e => (e = .deadlock ∧ k ∈ locks) ∨
        (e = .panic "ilock: no type" ∧ k ∉ locks ∧ (s.dinode (s.icache k).inum).type = 0)) s := by
  unfold ilock acquiresleep
  rw [wp_bind, wp_getInode, if_neg (by omega), wp_bind, wp_bind, wp_getInode]
  split
  next taken => exact wp_throw.mpr (.inl ⟨rfl, (inv.refs.lock k).mp taken⟩)
  next untaken =>
    have free : k ∉ locks := fun member => untaken ((inv.refs.lock k).mpr member)
    rw [wp_setInode, wp_bind, wp_getInode]
    simp only [update_self]
    split
    next invalid =>
      rw [wp_bind, wp_get, wp_bind, wp_bread, wp_bind, wp_setInode]
      simp only [update_idem]
      split
      next zero => exact wp_panic.mpr (.inr ⟨rfl, free, zero⟩)
      next type =>
        rw [wp_pure]
        exact ⟨free, type, rfl, inv.lockInode ref type⟩
    next notInvalid =>
      have valid : (s.icache k).valid = true := by simpa using notInvalid
      obtain ⟨same, type⟩ := inv.cache.cached k ref valid
      have entry : lockedInode s k = { s.icache k with lock := true } := by rw [lockedInode, ← same, ← valid]
      have nonzero : (s.dinode (s.icache k).inum).type ≠ 0 := by rwa [← same]
      rw [wp_pure]
      refine ⟨free, nonzero, by rw [entry], ?_⟩
      rw [← entry]
      exact inv.lockInode ref nonzero

theorem wp_iunlockEntry (inv : Inv s temps locks) (locked : k ∈ locks) :
    wp (iunlock k) (fun _ t => t = { s with icache := update s.icache k { s.icache k with lock := false } } ∧
      Inv t temps (locks.erase k)) (fun _ => False) s := by
  have ref := (inv.refs.locked k locked).1
  have taken := (inv.refs.lock k).mpr locked
  unfold iunlock releasesleep
  rw [wp_bind, wp_getInode, if_neg (by rw [taken]; simp; omega), wp_bind, wp_getInode, wp_setInode]
  refine ⟨rfl, inv.disk, ?_, ?_⟩
  · exact inv.cache.update (fun _ => inv.cache.cached k ref) (fun _ => inv.cache.range k ref)
      fun l apart _ ref' inum => apart (inv.cache.unique l k ref' ref inum)
  · refine inv.refs.update (.inl rfl) (inv.refs.refs k) (fun _ _ => rfl) ?_ ?_ ?_
    · exact ⟨fun lock => (nomatch lock), fun member => absurd member (notMem_erase k locks)⟩
    · exact fun l apart => by rw [mem_erase, and_iff_right apart]
    · exact fun member => absurd member (notMem_erase k locks)

end Locks

end Xv6.Fs
