import Mathlib.Data.List.TakeWhile
import Xv6.Mkfs.Image

/-! The kernel reads back what `mkfs` wrote: it finds each name in the root, and behind it the file.
-/

namespace Xv6.Mkfs
open Lib Fs Function List Nat Dirent

def find (name : List UInt8) : FsM (Option (Fin NINODE)) := do
  ilock 0
  let found ← dirlookup 0 name
  iunlock 0
  return found.map (·.1)

/-- The inode with the name, and what `readi` returns. -/
def fetch (name : List UInt8) (n : Nat) : FsM (Option (Inode × Option (List UInt8))) := do
  match ← find name with
  | none => return none
  | some k => do
    ilock k
    let ip ← getInode k
    let bytes ← readi k 0 n
    return some (ip, bytes)

variable {n j : Nat}

section Entries

variable {names : List (List UInt8)}

def listing (names : List (List UInt8)) : Nat → Nat × List UInt8
  | 0 => (ROOTINO, dot)
  | 1 => (ROOTINO, dotdot)
  | j + 2 => (j + 2, names.getD j [])

theorem decode_dirent {inum : Nat} (small : inum < 2 ^ 16) (name : List UInt8) :
    decode (dirent inum name) = ⟨inum, strncpy name DIRSIZ⟩ := by
  have number := inum_decode_encode inum (strncpy name DIRSIZ)
  have word : (decode (encode ⟨inum, strncpy name DIRSIZ⟩)).name = _ :=
    name_decode_encode (length_strncpy ..)
  rw [mod_eq_of_lt small] at number
  rw [dirent]
  cases found : decode (encode ⟨inum, strncpy name DIRSIZ⟩) with
  | mk first second =>
    rw [found] at number word
    rw [show first = inum from number, show second = _ from word]

theorem holding_append_entry {bytes : List UInt8} (length : bytes.length = Dirent.SIZE * n) (inum : Nat)
    (name : List UInt8) (j : Nat) : (holding T_DIR (bytes ++ dirent inum name)).entry j =
      if j = n then decode (dirent inum name) else (holding T_DIR bytes).entry j := by
  rw [← holding_write, length]
  exact Node.entry_setEntry (length_dirent ..) j

theorem entry_rootBytes (few : names.length ≤ NINODES) (inside : j < names.length + 2) :
    (holding T_DIR (rootBytes names)).entry j = ⟨(listing names j).1, strncpy (listing names j).2 DIRSIZ⟩ := by
  have limit : NINODES + 2 < 2 ^ 16 := by decide
  induction names using reverseRecOn with
  | nil =>
    have first : (dirent ROOTINO dot).length = Dirent.SIZE * 1 := length_dirent ..
    rw [rootBytes, zipIdx_nil, flatMap_nil, append_nil, holding_append_entry first,
      ← nil_append (dirent ROOTINO dot), holding_append_entry (n := 0) rfl, decode_dirent (by decide),
      decode_dirent (by decide)]
    rcases j with _ | _ | j
    · rfl
    · rfl
    · exact absurd inside (by rw [length_nil]; omega)
  | append_singleton names name ih =>
    rw [length_append, length_singleton] at few inside
    rw [rootBytes_append, holding_append_entry (length_rootBytes names), decode_dirent (by omega)]
    split
    next last =>
      rw [last, listing, getD_eq_getElem?_getD, getElem?_concat_length, Option.getD_some]
    next other =>
      rw [ih (by omega) (by omega)]
      rcases j with _ | _ | j
      · rfl
      · rfl
      · rw [listing, listing, getD_eq_getElem?_getD, getD_eq_getElem?_getD,
          getElem?_append_left (by omega)]

end Entries

variable {name : List UInt8}

section Scan

variable {s : Fs.State} {k : Fin NINODE} {size : Nat}

def rawEntry (s : Fs.State) (k : Fin NINODE) (j : Nat) : Dirent :=
  decode ((range Dirent.SIZE).map fun l => rawByte s.disk (s.icache k).toDinode (Dirent.SIZE * j + l))

theorem wp_readi_mapped {post : Option (List UInt8) → Fs.State → Prop} {stop : Stop → Prop} {off : Nat}
    (file : (s.icache k).type ≠ T_DEV) (mapped : Mapped s.disk (s.icache k).toDinode size)
    (within : size ≤ (s.icache k).size) (below : off + n ≤ size)
    (here : post (some ((range n).map fun i => rawByte s.disk (s.icache k).toDinode (off + i))) s) :
    wp (readi k off n) post stop s := by
  have small : MAXFILE * BSIZE < 2 ^ 32 := by decide
  have limit := mapped.fits
  have whole : (off + n) % 2 ^ 32 = off + n := mod_eq_of_lt (by omega)
  unfold readi
  rw [wp_bind, wp_getInode, if_neg file, if_neg (by omega), if_neg (by omega)]
  exact wp_bind.mpr (wp_readiLoop mapped _ _ _ (le_refl _) below (wp_pure.mpr here))

theorem wp_dirlookupFrom_mapped {i : Nat} (dir : (s.icache k).type = T_DIR)
    (mapped : Mapped s.disk (s.icache k).toDinode size) (within : size ≤ (s.icache k).size)
    (inside : Dirent.SIZE * (i + 1) ≤ size)
    (here : (rawEntry s k i).inum ≠ 0 ∧ namecmp name (rawEntry s k i).name = 0)
    (before : ∀ j < i, namecmp name (rawEntry s k j).name ≠ 0) (fuel j : Nat) (atMost : j ≤ i) (enough : i < j + fuel) :
    wp (dirlookupFrom k name fuel (Dirent.SIZE * j))
      (fun r t => t = s ∧ r = some (Dirent.SIZE * i, (rawEntry s k i).inum)) (fun _ => False) s := by
  induction fuel generalizing j with
  | zero => omega
  | succ fuel ih =>
    have order : Dirent.SIZE * (j + 1) ≤ Dirent.SIZE * (i + 1) := mul_le_mul_left _ (succ_le_succ atMost)
    rw [mul_succ] at order
    have positive : 0 < Dirent.SIZE := by decide
    unfold dirlookupFrom
    rw [wp_bind, wp_getInode, if_pos (by omega)]
    unfold readDirent
    refine wp_bind.mpr (wp_bind.mpr (wp_readi_mapped (by rw [dir]; decide) mapped within (by omega) ?_))
    have length : ((range Dirent.SIZE).map fun l =>
        rawByte s.disk (s.icache k).toDinode (Dirent.SIZE * j + l)).length = Dirent.SIZE := by
      rw [length_map, length_range]
    simp only [length, if_true]
    rw [wp_pure]
    change wp (if (rawEntry s k j).inum ≠ 0 ∧ namecmp name (rawEntry s k j).name = 0 then _ else _) _ _ s
    by_cases last : j = i
    · subst last
      rw [if_pos here]
      exact wp_pure.mpr ⟨rfl, rfl⟩
    · rw [if_neg fun both => before j (by omega) both.2]
      exact ih (j + 1) (by omega) (by omega)

end Scan

section Cache

variable {s : Fs.State} {k : Fin NINODE} {stop : Stop → Prop}

theorem wp_ilock_any {post : Unit → Fs.State → Prop} (ref : 0 < (s.icache k).ref) (unlocked : (s.icache k).lock = false)
    (cached : (s.icache k).valid = true → (s.icache k).toDinode = s.dinode (s.icache k).inum)
    (type : (s.dinode (s.icache k).inum).type ≠ 0)
    (here : post () { s with icache := update s.icache k (lockedInode s k) }) : wp (ilock k) post stop s := by
  unfold ilock acquiresleep
  rw [wp_bind, wp_getInode, if_neg (by omega), wp_bind, wp_bind, wp_getInode, unlocked, if_neg Bool.false_ne_true,
    wp_setInode, wp_bind, wp_getInode]
  simp only [update_self]
  split
  next invalid =>
    rw [wp_bind, wp_get, wp_bind, wp_bread, wp_bind, wp_setInode]
    simp only [update_idem]
    split
    next zero => exact absurd zero type
    next => exact wp_pure.mpr here
  next notInvalid =>
    have valid : (s.icache k).valid = true := by simpa using notInvalid
    have entry : lockedInode s k = { s.icache k with lock := true } := by rw [lockedInode, ← cached valid, ← valid]
    rw [wp_pure, ← entry]
    exact here

theorem wp_iunlock_any {post : Unit → Fs.State → Prop} (ref : 0 < (s.icache k).ref) (locked : (s.icache k).lock = true)
    (here : post () { s with icache := update s.icache k { s.icache k with lock := false } }) :
    wp (iunlock k) post stop s := by
  unfold iunlock releasesleep
  rw [wp_bind, wp_getInode, if_neg (by rw [locked]; simp; omega), wp_bind, wp_getInode, wp_setInode]
  exact here

theorem wp_iget_first {post : Fin NINODE → Fs.State → Prop} {inum : Nat} (ref : 0 < (s.icache 0).ref)
    (others : ∀ k ≠ 0, (s.icache k).ref = 0)
    (again : (s.icache 0).inum = inum →
      post 0 { s with icache := update s.icache 0 { s.icache 0 with ref := (s.icache 0).ref + 1 } })
    (fresh : ∀ k ≠ 0, (s.icache 0).inum ≠ inum → post k { s with
      icache := update s.icache k { s.icache k with inum := inum, ref := 1, valid := false } }) :
    wp (iget inum) post stop s := by
  apply wp_igetEntry
  · intro k held same
    have first : k = 0 := by
      by_contra other
      have := others k other
      omega
    subst first
    exact again same
  · intro absent k free
    have other : k ≠ 0 := by
      rintro rfl
      omega
    exact fresh k other (absent 0 ref)
  · exact fun _ taken => absurd (others 1 (by decide)) (taken 1)

end Cache

variable {l : Nat}

section Boot

variable {s : State} {files : List (List UInt8 × List UInt8)} {tty peer : List (Option (List UInt8))}

/-- The kernel has found the inode `x` and put it at `k`, unlocked. -/
structure Found (s : State) (t : Fs.State) (k : Fin NINODE) (x : Nat) : Prop where
  superblock : t.sb = sb
  disk : t.disk = s.last
  inum : (t.icache k).inum = x
  ref : 0 < (t.icache k).ref
  unlocked : (t.icache k).lock = false
  cached : (t.icache k).valid = true → (t.icache k).toDinode = dinodeAt sb s.last x

variable {k : Fin NINODE}

theorem rawEntry_root (built : Built s files) (few : files.length + 2 ≤ NINODES) {t : Fs.State}
    (disk : t.disk = s.last) (cached : (t.icache k).toDinode = dinodeAt sb s.last ROOTINO)
    (inside : j < files.length + 2) :
    rawEntry t k j = ⟨(listing (files.map (·.1)) j).1, strncpy (listing (files.map (·.1)) j).2 DIRSIZ⟩ := by
  obtain ⟨-, nodes⟩ := last_disk built
  have node : nodeOf s.last (dinodeAt sb s.finished ROOTINO) = holding T_DIR (rootBytes (files.map (·.1))) :=
    nodes ROOTINO (by decide)
  have type := built.root_type
  have size := built.root_size
  have length : (files.map (·.1)).length = files.length := length_map _
  rw [← entry_rootBytes (by omega) (by omega), ← node, rawEntry, Node.entry, disk, cached]
  refine congrArg decode (map_congr_left fun l member => ?_)
  have low := mem_range.mp member
  have within : Dirent.SIZE * j + l < Dirent.SIZE * (files.length + 2) := by
    have := mul_le_mul_left Dirent.SIZE (succ_le_of_lt inside)
    rw [mul_succ] at this
    omega
  have same : rawByte s.last (dinodeAt sb s.last ROOTINO) (Dirent.SIZE * j + l) =
      rawByte s.last (dinodeAt sb s.finished ROOTINO) (Dirent.SIZE * j + l) := by
    rw [rawByte, blockOf, last_slot built, ← blockOf, rawByte]
  rw [same]
  exact (if_pos ⟨by rw [size]; exact within, by rw [type]; decide, by rw [type]; decide⟩).symm

def heldRoot (s : State) : Inode :=
  { dinodeAt sb s.last ROOTINO with inum := ROOTINO, ref := 1, lock := true, valid := true }

def rootLocked (s : State) (tty peer : List (Option (List UInt8))) : Fs.State :=
  { (⟨sb, s.last⟩ : Image).boot tty peer with
    icache := update ((⟨sb, s.last⟩ : Image).boot tty peer).icache 0 (heldRoot s) }

theorem rootLocked_first : (rootLocked s tty peer).icache 0 = heldRoot s := by
  rw [rootLocked]
  simp only [update_self]

theorem rootLocked_others (apart : k ≠ 0) : (rootLocked s tty peer).icache k = Inode.unused := by
  rw [rootLocked]
  simp only [update_of_ne apart]
  rw [boot_icache, if_neg apart]

theorem heldRoot_type (built : Built s files) : (heldRoot s).type = T_DIR := last_root_type built

theorem wp_lockRoot (built : Built s files) : wp (ilock 0) (fun _ t => t = rootLocked s tty peer) (fun _ => False)
    ((⟨sb, s.last⟩ : Image).boot tty peer) := by
  have first : ((⟨sb, s.last⟩ : Image).boot tty peer).icache 0 = { Inode.unused with inum := ROOTINO, ref := 1 } :=
    boot_icache 0
  have dinode : ((⟨sb, s.last⟩ : Image).boot tty peer).dinode ROOTINO = dinodeAt sb s.last ROOTINO := rfl
  refine wp_ilock_any (by rw [first]; exact zero_lt_one) (by rw [first]; rfl)
    (by rw [first]; exact fun wrong => nomatch wrong) (by rw [first, dinode, last_root_type built]; decide) ?_
  rw [lockedInode, first, dinode]
  rfl

theorem root_larger (built : Built s files) : Dirent.SIZE * (files.length + 2) ≤ (heldRoot s).size := by
  have size : (heldRoot s).size = (Dirent.SIZE * (files.length + 2) / BSIZE + 1) * BSIZE := by
    rw [heldRoot, last_dinode built, update_self, rounded, built.root_size]
  rw [size, succ_mul]
  exact le_of_lt (lt_div_mul_add BSIZE_pos)

theorem heldRoot_mapped (built : Built s files) :
    Mapped s.last (heldRoot s).toDinode (Dirent.SIZE * (files.length + 2)) := by
  have old := (last_disk built).1.mapped ROOTINO (by decide) (by rw [built.root_type]; decide)
    (by rw [built.root_type]; decide)
  rw [heldRoot, last_dinode built, update_self, ← built.root_size]
  exact old.of_addrs rfl

theorem listing_pos (names : List (List UInt8)) (j : Nat) : (listing names j).1 ≠ 0 := by
  match j with
  | 0 => exact (by decide : ROOTINO ≠ 0)
  | 1 => exact (by decide : ROOTINO ≠ 0)
  | j + 2 => exact succ_ne_zero _

theorem wp_scanRoot (built : Built s files) (few : files.length + 2 ≤ NINODES)
    (inside : j < files.length + 2) (here : component name = component (listing (files.map (·.1)) j).2)
    (before : ∀ i < j, component name ≠ component (listing (files.map (·.1)) i).2) :
    wp (dirlookupFrom 0 name (heldRoot s).size 0)
      (fun r t => t = rootLocked s tty peer ∧ r = some (Dirent.SIZE * j, (listing (files.map (·.1)) j).1))
      (fun _ => False) (rootLocked s tty peer) := by
  have root : (rootLocked s tty peer).icache 0 = heldRoot s := rootLocked_first
  have larger := root_larger built
  have entries : ∀ i < files.length + 2, rawEntry (rootLocked s tty peer) 0 i =
      ⟨(listing (files.map (·.1)) i).1, strncpy (listing (files.map (·.1)) i).2 DIRSIZ⟩ :=
    fun i low => rawEntry_root built few rfl (by rw [root]; rfl) low
  have named : ∀ i < files.length + 2, namecmp name (rawEntry (rootLocked s tty peer) 0 i).name = 0 ↔
      component name = component (listing (files.map (·.1)) i).2 := by
    intro i low
    rw [entries i low, namecmp_eq_zero, component_strncpy]
  have nonzero : (rawEntry (rootLocked s tty peer) 0 j).inum ≠ 0 := by
    rw [entries j inside]
    exact listing_pos _ j
  have scan := wp_dirlookupFrom_mapped (s := rootLocked s tty peer) (k := 0) (by rw [root]; exact last_root_type built)
    (by rw [root]; exact heldRoot_mapped built) (by rw [root]; exact larger) (mul_le_mul_left _ inside)
    ⟨nonzero, (named j inside).mpr here⟩ (fun i low same => before i low ((named i (by omega)).mp same))
    (heldRoot s).size 0 (zero_le _) (by simp only [Dirent.SIZE] at larger; omega)
  rw [mul_zero, entries j inside] at scan
  exact scan

theorem wp_takeFound (s : State) (tty peer : List (Option (List UInt8))) (x : Nat) :
    wp (do
      let k ← iget x
      iunlock 0
      return some k) (fun r t => ∃ k, r = some k ∧ Found s t k x) (fun _ => False) (rootLocked s tty peer) := by
  have root : (rootLocked s tty peer).icache 0 = heldRoot s := rootLocked_first
  refine wp_bind.mpr (wp_iget_first (by rw [root]; exact zero_lt_one)
    (fun k apart => by rw [rootLocked_others apart]; rfl) (fun same => ?_) fun k apart other => ?_)
  · refine wp_bind.mpr (wp_iunlock_any ?_ ?_ (wp_pure.mpr ⟨0, rfl, ?_⟩))
    · simp only [update_self]
      omega
    · simp only [update_self, root]
      rfl
    · refine ⟨rfl, rfl, ?_, ?_, ?_, ?_⟩ <;> simp only [update_self, root]
      · exact root ▸ same
      · exact succ_pos _
      · rw [root] at same
        exact fun _ => same ▸ rfl
  · have first : update (rootLocked s tty peer).icache k
        { (rootLocked s tty peer).icache k with inum := x, ref := 1, valid := false } 0 = heldRoot s := by
      rw [update_of_ne apart.symm, root]
    refine wp_bind.mpr (wp_iunlock_any ?_ ?_ (wp_pure.mpr ⟨k, rfl, ?_⟩))
    · simp only [first]
      exact zero_lt_one
    · simp only [first]
      rfl
    · refine ⟨rfl, rfl, ?_, ?_, ?_, ?_⟩ <;> simp only [update_of_ne apart, update_self]
      · exact zero_lt_one
      · rw [rootLocked_others apart]
        rfl
      · exact fun wrong => nomatch wrong

theorem wp_find (built : Built s files) (few : files.length + 2 ≤ NINODES)
    (inside : j < files.length + 2) (here : component name = component (listing (files.map (·.1)) j).2)
    (before : ∀ i < j, component name ≠ component (listing (files.map (·.1)) i).2) :
    wp (find name) (fun r t => ∃ k, r = some k ∧ Found s t k (listing (files.map (·.1)) j).1) (fun _ => False)
      ((⟨sb, s.last⟩ : Image).boot tty peer) := by
  unfold find
  refine wp_then (wp_lockRoot built) ?_
  rintro _ _ rfl
  unfold dirlookup
  rw [wp_bind, wp_bind, wp_getInode, rootLocked_first, if_neg (not_not.mpr (heldRoot_type built))]
  refine wp_then (wp_scanRoot built few inside here before) ?_
  rintro r t ⟨rfl, rfl⟩
  have taken := wp_bind.mp (wp_takeFound s tty peer (listing (files.map (·.1)) j).1)
  refine wp_bind.mpr (wp_mono taken (fun k t rest => ?_) fun _ none => none)
  exact wp_pure.mpr rest

theorem last_file (built : Built s files) (few : files.length + 2 ≤ NINODES) (inside : l < files.length) :
    nodeOf s.last (dinodeAt sb s.last (l + 2)) = holding T_FILE files[l].2 ∧
      Mapped s.last (dinodeAt sb s.last (l + 2)) files[l].2.length := by
  obtain ⟨inv, nodes⟩ := last_disk built
  have apart : l + 2 ≠ ROOTINO := by
    unfold ROOTINO
    omega
  have node := (nodes (l + 2) (by omega)).trans (tree_inside inside)
  have type : (dinodeAt sb s.finished (l + 2)).type = T_FILE := congrArg Node.type node
  have size : (dinodeAt sb s.finished (l + 2)).size = files[l].2.length := congrArg Node.size node
  have mapped := inv.mapped (l + 2) (show l + 2 < NINODES by omega) (by rw [type]; decide) (by rw [type]; decide)
  rw [last_dinode built, update_of_ne apart, ← size]
  exact ⟨node, mapped⟩

theorem wp_readi_whole {t : Fs.State} {bytes : List UInt8}
    {post : Option (List UInt8) → Fs.State → Prop} {stop : Stop → Prop}
    (node : nodeOf t.disk (t.icache k).toDinode = holding T_FILE bytes)
    (mapped : Mapped t.disk (t.icache k).toDinode bytes.length) (enough : bytes.length ≤ n)
    (here : post (some bytes) t) : wp (readi k 0 n) post stop t := by
  have type : (t.icache k).type = T_FILE := congrArg Node.type node
  have size : (t.icache k).size = bytes.length := congrArg Node.size node
  have content : ((range bytes.length).map fun i => rawByte t.disk (t.icache k).toDinode (0 + i)) = bytes := by
    apply ext_getElem
    · rw [length_map, length_range]
    · intro i inside bound
      have byte : (nodeOf t.disk (t.icache k).toDinode).byte i = bytes.getD i 0 := by rw [node]; rfl
      rw [getElem_map, getElem_range, zero_add, ← getD_eq_getElem _ 0 bound, ← byte]
      exact (if_pos ⟨by rw [size]; exact bound, by rw [type]; decide, by rw [type]; decide⟩).symm
  have count : (if 0 + n > bytes.length then bytes.length - 0 else n) = bytes.length := by
    split <;> omega
  unfold readi
  rw [wp_bind, wp_getInode, if_neg (by rw [type]; decide), if_neg (by omega), size, count]
  refine wp_bind.mpr (wp_readiLoop mapped _ _ _ (le_refl _) (by omega) (wp_pure.mpr ?_))
  rw [content]
  exact here

theorem wp_fetch (built : Built s files) (few : files.length + 2 ≤ NINODES)
    (inside : l < files.length) (here : component name = component (listing (files.map (·.1)) (l + 2)).2)
    (before : ∀ i < l + 2, component name ≠ component (listing (files.map (·.1)) i).2)
    (enough : files[l].2.length ≤ n) :
    wp (fetch name n) (fun r _ => ∃ ip, r = some (ip, some files[l].2) ∧ ip.type = T_FILE ∧ ip.nlink = 1 ∧
      ip.size = files[l].2.length) (fun _ => False) ((⟨sb, s.last⟩ : Image).boot tty peer) := by
  obtain ⟨node, mapped⟩ := last_file built few inside
  unfold fetch
  refine wp_then (wp_find built few (by omega) here before) ?_
  rintro _ t ⟨k, rfl, found⟩
  have dinode : t.dinode (t.icache k).inum = dinodeAt sb s.last (l + 2) := by
    rw [Fs.State.dinode, found.superblock, found.disk, found.inum]
    rfl
  have type : (dinodeAt sb s.last (l + 2)).type = T_FILE := congrArg Node.type node
  refine wp_bind.mpr (wp_ilock_any found.ref found.unlocked (fun valid => (found.cached valid).trans dinode.symm)
    (by rw [dinode, type]; decide) ?_)
  rw [wp_bind, wp_getInode]
  simp only [update_self]
  have entry : (lockedInode t k).toDinode = dinodeAt sb s.last (l + 2) := dinode
  refine wp_bind.mpr (wp_readi_whole ?_ ?_ enough (wp_pure.mpr ⟨lockedInode t k, rfl, ?_, ?_, ?_⟩))
  · simp only [update_self, entry, found.disk]
    exact node
  · simp only [update_self, entry, found.disk]
    exact mapped
  · rw [entry]
    exact type
  · rw [entry]
    exact congrArg Node.nlink node
  · rw [entry]
    exact congrArg Node.size node

end Boot

def HostFile.cutName (file : HostFile) : List UInt8 := file.fsName.take DIRSIZ

theorem HostFile.component_fsName (file : HostFile) : component file.fsName = file.cutName := by
  refine takeWhile_eq_self_iff.mpr fun byte member => bne_iff_ne.mpr ?_
  rintro rfl
  have name : 0 ∈ file.fsName := mem_of_mem_take member
  unfold HostFile.fsName at name
  split at name
  · exact file.name.noNul (mem_of_mem_tail name)
  · exact file.name.noNul name

theorem HostFile.component_cutName (file : HostFile) : component file.cutName = file.cutName := by
  rw [← file.component_fsName, component, component, take_of_length_le ?_]
  · refine takeWhile_eq_self_iff.mpr fun byte member => ?_
    exact mem_takeWhile_imp (p := fun byte => byte != 0) member
  · exact ( takeWhile_prefix _).length_le.trans (length_take_le _ _)

section Result

variable {files : List HostFile}

theorem listing_file (inside : l < files.length) :
    listing ((files.map HostFile.entry).map (·.1)) (l + 2) = (l + 2, files[l].fsName) := by
  rw [listing, getD_eq_getElem?_getD, getElem?_map, getElem?_map, getElem?_eq_getElem inside]
  rfl

/-- The kernel finds every file by its name, with its bytes, and the root by its two names. -/
theorem files_read_back (files : List HostFile) (few : files.length ≤ NINODES - 2)
    (distinct : (files.map HostFile.cutName).Nodup)
    (proper : ∀ file ∈ files, file.cutName ≠ dot ∧ file.cutName ≠ dotdot) (image : Image)
    (made : mkfs files = .ok image) (tty peer : List (Option (List UInt8))) :
    (∀ file ∈ files, ∀ n, file.content.length ≤ n → ∃ ip t,
      fetch file.cutName n (image.boot tty peer) = .ok (some (ip, some file.content), t) ∧
        ip.type = T_FILE ∧ ip.nlink = 1 ∧ ip.size = file.content.length) ∧
    ∀ name, name = dot ∨ name = dotdot → ∃ k t,
      find name (image.boot tty peer) = .ok (some k, t) ∧ (t.icache k).inum = ROOTINO := by
  obtain ⟨s, built, rfl⟩ := mkfs_ok few made
  have length : (files.map HostFile.entry).length = files.length := length_map _
  have two : 2 ≤ NINODES := by decide
  have bound : (files.map HostFile.entry).length + 2 ≤ NINODES := by omega
  constructor
  · intro file member n enough
    obtain ⟨l, inside, rfl⟩ := getElem_of_mem member
    have within : l < (files.map HostFile.entry).length := by omega
    have entry : (files.map HostFile.entry)[l].2 = files[l].content := by
      rw [getElem_map]
      rfl
    have before : ∀ i < l + 2, component files[l].cutName ≠
        component (listing ((files.map HostFile.entry).map (·.1)) i).2 := by
      intro i low
      rw [HostFile.component_cutName]
      match i with
      | 0 => exact (proper _ member).1
      | 1 => exact (proper _ member).2
      | i + 2 =>
        have inside' : i < files.length := by omega
        rw [listing_file inside', HostFile.component_fsName]
        intro same
        have apart : l ≠ i := by omega
        have first : l < (files.map HostFile.cutName).length := by rwa [length_map]
        have second : i < (files.map HostFile.cutName).length := by rwa [length_map]
        have equal : (files.map HostFile.cutName)[l] = (files.map HostFile.cutName)[i] := by
          rw [getElem_map, getElem_map, same]
        exact apart ((List.Nodup.getElem_inj_iff distinct).mp equal)
    have spec : wp (fetch files[l].cutName n) _ _ ((⟨sb, s.last⟩ : Image).boot tty peer) := wp_fetch built bound within
      (by rw [listing_file inside, HostFile.component_cutName, HostFile.component_fsName]) before
      (by rw [entry]; exact enough)
    rw [entry] at spec
    obtain ⟨_, t, ran, ip, rfl, found⟩ := wp.returns spec
    exact ⟨ip, t, ran, found⟩
  · intro name either
    have spec : ∃ j, (j = 0 ∨ j = 1) ∧ component name = component (listing ((files.map HostFile.entry).map (·.1)) j).2 ∧
        ∀ i < j, component name ≠ component (listing ((files.map HostFile.entry).map (·.1)) i).2 := by
      obtain rfl | rfl := either
      · exact ⟨0, .inl rfl, rfl, fun i none => absurd none (not_lt_zero i)⟩
      · refine ⟨1, .inr rfl, rfl, fun i low => ?_⟩
        obtain rfl : i = 0 := by omega
        exact (by decide : component dotdot ≠ component dot)
    obtain ⟨j, small, here, before⟩ := spec
    have root : (listing ((files.map HostFile.entry).map (·.1)) j).1 = ROOTINO := by
      obtain rfl | rfl := small <;> rfl
    have spec : wp (find name) _ _ ((⟨sb, s.last⟩ : Image).boot tty peer) := wp_find built bound (by omega) here before
    obtain ⟨_, t, ran, k, rfl, found⟩ := wp.returns spec
    exact ⟨k, t, ran, found.inum.trans root⟩

theorem sizes_nil : ∀ bytes ∈ ([] : List (List UInt8)), 0 < bytes.length ∧ bytes.length ≤ BSIZE := by decide

def emptyFile : HostFile := ⟨⟨[97], by decide⟩, [], sizes_nil⟩

theorem files_read_back_two : ∃ image, mkfs [twoReads, emptyFile] = .ok image ∧
    ∃ ip t, fetch [97, 98] 5 (image.boot [] []) = .ok (some (ip, some [1, 2, 3, 4, 5]), t) := by
  obtain ⟨image, made⟩ := mkfs_suitable (by decide : [twoReads, emptyFile].length ≤ NINODES - 2) (by decide)
  obtain ⟨found, -⟩ := files_read_back _ (by decide) (by decide) (by decide) image made [] []
  obtain ⟨ip, t, ran, -⟩ := found twoReads mem_cons_self 5 (by decide)
  exact ⟨image, made, ip, t, ran⟩

end Result

end Xv6.Mkfs
