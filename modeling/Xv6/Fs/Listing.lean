import Xv6.Fs.Machine
import Xv6.Lib.Slots

/-! A directory as the list of its entries, and what the functions on the table of nodes do to
these lists. -/

namespace Xv6.Fs
open Lib Function List
open Dirent (decode encode)

abbrev Link : Type := Nat × List UInt8

def Link.free (e : Link) : Bool := e.1 == 0

variable {node : Node} {name : List UInt8}

namespace Node

def listed (node : Node) (i : Nat) : Link := ((node.entry i).inum, component (node.entry i).name)

def entries (node : Node) : List Link := (List.range node.count).map node.listed

@[simp] theorem length_entries (node : Node) : node.entries.length = node.count := by
  rw [entries, length_map, length_range]

variable {i : Nat}

@[simp] theorem getElem_entries (inside : i < node.entries.length) : node.entries[i] = node.listed i := by
  simp only [entries, getElem_map, getElem_range]

theorem entries_of_empty (empty : node.size = 0) : node.entries = [] := by
  rw [← length_eq_zero_iff, length_entries, count, empty, Nat.zero_div]

variable {e : Link}

theorem mem_entries : e ∈ node.entries ↔ ∃ i < node.count, node.listed i = e := by
  simp only [entries, mem_map, mem_range]

variable {bytes : List UInt8}

theorem count_setEntry (length : bytes.length = Dirent.SIZE) (aligned : node.Aligned) :
    (node.setEntry i bytes).count = max node.count (i + 1) ∧ (node.setEntry i bytes).Aligned := by
  have size : (node.setEntry i bytes).size = max node.size (Dirent.SIZE * i + Dirent.SIZE) := by
    change max node.size (Dirent.SIZE * i + bytes.length) = _
    rw [length]
  have whole : node.size = Dirent.SIZE * node.count := (Nat.mul_div_cancel' (Nat.dvd_of_mod_eq_zero aligned)).symm
  have both : (node.setEntry i bytes).size = Dirent.SIZE * max node.count (i + 1) := by
    rw [size, whole, ← Nat.mul_succ, Nat.mul_max_mul_left]
  rw [count, Aligned, both]
  exact ⟨Nat.mul_div_cancel_left _ (by decide), Nat.mul_mod_right ..⟩

theorem listed_setEntry (length : bytes.length = Dirent.SIZE) (l : Nat) :
    (node.setEntry i bytes).listed l =
      if l = i then ((decode bytes).inum, component (decode bytes).name) else node.listed l := by
  rw [listed, entry_setEntry length]
  split <;> rfl

theorem entries_setEntry_of_lt (length : bytes.length = Dirent.SIZE) (inside : i < node.count) :
    (node.setEntry i bytes).entries =
      node.entries.set i ((decode bytes).inum, component (decode bytes).name) := by
  have size : (node.setEntry i bytes).size = node.size := by
    change max node.size (Dirent.SIZE * i + bytes.length) = _
    rw [length, ← Nat.mul_succ]
    exact Nat.max_eq_left (entry_le_size inside)
  have count : (node.setEntry i bytes).count = node.count := by rw [Node.count, size, Node.count]
  refine ext_getElem (by simp only [length_entries, length_set, count]) fun l bound bound' => ?_
  rw [getElem_entries, listed_setEntry length, getElem_set, getElem_entries]
  simp only [eq_comm]

theorem entries_setEntry_count (length : bytes.length = Dirent.SIZE) (aligned : node.Aligned) :
    (node.setEntry node.count bytes).entries =
      node.entries ++ [((decode bytes).inum, component (decode bytes).name)] := by
  have count : (node.setEntry node.count bytes).count = node.count + 1 := by rw [(count_setEntry length aligned).1]; omega
  refine ext_getElem (by simp only [length_entries, length_append, length_singleton, count]) fun l bound bound' => ?_
  rw [length_entries, count] at bound
  rw [getElem_entries, listed_setEntry length, getElem_append]
  by_cases last : l = node.count
  · simp [last]
  · rw [if_neg last, dif_pos (by rw [length_entries]; omega), getElem_entries]

theorem vacant_eq (node : Node) : node.vacant = (node.entries.findIdx? Link.free).getD node.count := by
  rw [vacant, entries, List.findIdx?_map, ← Slots.find?_range]
  rfl

def linked (node : Node) (name : List UInt8) (inum : Nat) : Node :=
  node.setEntry node.vacant (encode ⟨inum, strncpy name DIRSIZ⟩)

def cleared (node : Node) (i : Nat) : Node := node.setEntry i (List.replicate Dirent.SIZE 0)

theorem length_encode (name : List UInt8) (inum : Nat) : (encode ⟨inum, strncpy name DIRSIZ⟩).length = Dirent.SIZE :=
  Dirent.length_encode (length_strncpy name DIRSIZ)

theorem linked_aligned (aligned : node.Aligned) (name : List UInt8) (inum : Nat) : (node.linked name inum).Aligned :=
  (count_setEntry (length_encode name inum) aligned).2

theorem entries_linked (aligned : node.Aligned) (name : List UInt8) (inum : Nat) :
    (node.linked name inum).entries = Slots.place Link.free node.entries (inum % 2 ^ 16, component name) := by
  have bytes : ((decode (encode ⟨inum, strncpy name DIRSIZ⟩)).inum,
      component (decode (encode ⟨inum, strncpy name DIRSIZ⟩)).name) = (inum % 2 ^ 16, component name) := by
    rw [Dirent.inum_decode_encode, Dirent.name_decode_encode (length_strncpy name DIRSIZ), component_strncpy]
  rw [linked, vacant_eq]
  cases found : node.entries.findIdx? Link.free with
  | none =>
    rw [Slots.place_none found, Option.getD_none, entries_setEntry_count (length_encode name inum) aligned, bytes]
  | some i =>
    obtain ⟨inside, -⟩ := Slots.findIdx?_some found
    rw [length_entries] at inside
    rw [Slots.place_some found, Option.getD_some, entries_setEntry_of_lt (length_encode name inum) inside, bytes]

theorem entries_cleared (inside : i < node.count) : (node.cleared i).entries = node.entries.set i (0, []) := by
  rw [cleared, entries_setEntry_of_lt length_replicate inside, Dirent.decode_replicate]
  rfl

theorem listed_of_lookup (found : node.lookup name = some i) :
    i < node.count ∧ (node.listed i).1 ≠ 0 ∧ (node.listed i).2 = component name := by
  obtain ⟨inside, occupied, same⟩ := lookup_some found
  exact ⟨inside, occupied, ((namecmp_eq_zero _ _).mp same).symm⟩

theorem absent_of_lookup (missing : node.lookup name = none) (member : e ∈ node.entries)
    (occupied : e.1 ≠ 0) : e.2 ≠ component name := by
  obtain ⟨i, inside, rfl⟩ := mem_entries.mp member
  exact fun same => lookup_none missing inside ⟨occupied, (namecmp_eq_zero _ _).mpr same.symm⟩

theorem lookup_eq_none (absent : ∀ e ∈ node.entries, e.1 ≠ 0 → e.2 ≠ component name) :
    node.lookup name = none := by
  cases found : node.lookup name with
  | none => rfl
  | some i =>
    obtain ⟨inside, occupied, same⟩ := listed_of_lookup found
    exact absurd same (absent _ (mem_entries.mpr ⟨i, inside, rfl⟩) occupied)

theorem lookup_of_mem (member : e ∈ node.entries) (occupied : e.1 ≠ 0)
    (same : e.2 = component name) : ∃ i, node.lookup name = some i := by
  cases found : node.lookup name with
  | none => exact absurd same (absent_of_lookup found member occupied)
  | some i => exact ⟨i, rfl⟩

end Node

variable {major minor : Nat}

variable {d x type cwd : Nat}

namespace Nodes

variable {nodes after : Nodes} {used locked : Finset Nat} {y : Nat}

theorem relink_apply (nodes : Nodes) (x delta y : Nat) : nodes.relink x delta y =
    { nodes y with nlink := if y = x then ((nodes x).nlink + delta) % 2 ^ 16 else (nodes y).nlink } := by
  rw [relink]
  by_cases same : y = x
  · rw [same, update_self, if_pos rfl]
  · rw [update_of_ne same, if_neg same]

theorem dirlookup_relink (nodes : Nodes) (x delta : Nat) (used : Finset Nat) (d : Nat) (name : List UInt8) :
    (nodes.relink x delta).dirlookup used d name = nodes.dirlookup used d name := by
  unfold dirlookup
  rw [relink_apply]
  rfl

theorem walk_relink (nodes : Nodes) (x delta : Nat) (used : Finset Nat) (parent : Bool) (fuel y : Nat) (path : List UInt8) :
    (nodes.relink x delta).walk used parent fuel y path = nodes.walk used parent fuel y path := by
  induction fuel generalizing y path with
  | zero => rfl
  | succ fuel ih =>
    unfold walk
    simp only [dirlookup_relink, ih, relink_apply]
    rfl

theorem resolve_relink (nodes : Nodes) (x delta : Nat) (used : Finset Nat) (cwd : Nat) (parent : Bool) (path : List UInt8) :
    (nodes.relink x delta).resolve used cwd parent path = nodes.resolve used cwd parent path := by
  unfold resolve
  simp only [walk_relink]

theorem dirlookup_none (missing : nodes.dirlookup used d name = .ok none) : (nodes d).lookup name = none ∧ (nodes d).Aligned := by
  unfold dirlookup at missing
  split at missing
  · split at missing <;> cases missing
  next none =>
    split at missing
    next aligned => exact ⟨none, aligned⟩
    next => cases missing

theorem dirlink_of_none (missing : (nodes d).lookup name = none) (aligned : (nodes d).Aligned) (inum : Nat) :
    nodes.dirlink used locked d name inum =
      if (nodes d).Accepts (Dirent.SIZE * (nodes d).vacant) Dirent.SIZE then
        .ok (some (update nodes d ((nodes d).linked name inum)))
      else .error (.panic "dirlink") := by
  have looked : nodes.dirlookup used d name = .ok none := by rw [dirlookup, missing]; exact if_pos aligned
  rw [dirlink, looked]
  rfl

theorem dirlink_linked {inum : Nat} (done : nodes.dirlink used locked d name inum = .ok (some after)) :
    (nodes d).lookup name = none ∧ (nodes d).Aligned ∧ after = update nodes d ((nodes d).linked name inum) := by
  cases looked : nodes.dirlookup used d name with
  | error e =>
    rw [dirlink, looked] at done
    cases done
  | ok r =>
    cases r with
    | some i =>
      simp only [dirlink, looked] at done
      split at done <;> cases done
    | none =>
      obtain ⟨missing, aligned⟩ := dirlookup_none looked
      rw [dirlink_of_none missing aligned] at done
      split at done
      next => exact ⟨missing, aligned, (Option.some.inj (Except.ok.inj done)).symm⟩
      next => cases done

theorem mustLink_of_none (missing : (nodes d).lookup name = none) (aligned : (nodes d).Aligned) (inum : Nat) (message : String) :
    nodes.mustLink used locked d name inum message =
      if (nodes d).Accepts (Dirent.SIZE * (nodes d).vacant) Dirent.SIZE then
        .ok (update nodes d ((nodes d).linked name inum))
      else .error (.panic "dirlink") := by
  rw [mustLink, dirlink_of_none missing aligned]
  by_cases accepts : (nodes d).Accepts (Dirent.SIZE * (nodes d).vacant) Dirent.SIZE
  · simp only [if_pos accepts]
  · simp only [if_neg accepts]

theorem fresh_entries (empty : node.size = 0) (nonzero : x % 2 ^ 16 ≠ 0) :
    (node.linked dot x).entries = [(x % 2 ^ 16, dot)] ∧ (node.linked dot x).size = Dirent.SIZE ∧
    ((node.linked dot x).linked dotdot d).entries = [(x % 2 ^ 16, dot), (d % 2 ^ 16, dotdot)] := by
  have aligned : node.Aligned := by
    rw [Node.Aligned, empty]
    rfl
  have bare := Node.entries_of_empty empty
  have first : (node.linked dot x).entries = [(x % 2 ^ 16, dot)] := by
    rw [Node.entries_linked aligned, bare]
    rfl
  have size : (node.linked dot x).size = Dirent.SIZE := by
    change max node.size (Dirent.SIZE * node.vacant + (encode ⟨x, strncpy dot DIRSIZ⟩).length) = _
    rw [Node.length_encode, Node.vacant_eq, bare, Node.count, empty]
    rfl
  refine ⟨first, size, ?_⟩
  rw [Node.entries_linked (Node.linked_aligned aligned dot x), first]
  have taken : [(x % 2 ^ 16, dot)].findIdx? Link.free = none := by
    rw [List.findIdx?_eq_none_iff]
    simp only [mem_singleton, forall_eq, Link.free, beq_eq_false_iff_ne]
    exact nonzero
  rw [Slots.place_none taken]
  rfl

theorem dots_eq (empty : (nodes x).size = 0) (apart : x ≠ d) (nonzero : x % 2 ^ 16 ≠ 0) :
    nodes.dots used d x =
      .ok (update (nodes.relink d 1) x (((nodes x).linked dot x).linked dotdot d)) := by
  obtain ⟨first, size, -⟩ := fresh_entries (d := d) empty nonzero
  have same : nodes.relink d 1 x = nodes x := update_of_ne apart ..
  have aligned : (nodes x).Aligned := by
    rw [Node.Aligned, empty]
    rfl
  have bare := Node.entries_of_empty empty
  have missing : (nodes x).lookup dot = none := Node.lookup_eq_none (by rw [bare]; exact fun _ member => by cases member)
  have absent : ((nodes x).linked dot x).lookup dotdot = none := by
    refine Node.lookup_eq_none fun e member _ => ?_
    rw [first, mem_singleton] at member
    rw [member]
    exact show dot ≠ component dotdot by decide
  have accepts : (nodes x).Accepts (Dirent.SIZE * (nodes x).vacant) Dirent.SIZE := by
    rw [Node.vacant_eq, bare, Node.count, empty, Node.Accepts, empty]
    decide
  have next : ((nodes x).linked dot x).vacant = 1 := by
    rw [Node.vacant_eq, first, Node.count, size]
    have taken : [(x % 2 ^ 16, dot)].findIdx? Link.free = none := by
      rw [List.findIdx?_eq_none_iff]
      simp only [mem_singleton, forall_eq, Link.free, beq_eq_false_iff_ne]
      exact nonzero
    rw [taken]
    rfl
  have accepts' : ((nodes x).linked dot x).Accepts (Dirent.SIZE * ((nodes x).linked dot x).vacant) Dirent.SIZE := by
    rw [next, Node.Accepts, size]
    decide
  rw [dots, mustLink_of_none (by rw [same]; exact missing) (by rw [same]; exact aligned), same, if_pos accepts]
  simp only []
  have written : update (nodes.relink d 1) x ((nodes x).linked dot x) x = (nodes x).linked dot x :=
    update_self ..
  rw [mustLink_of_none (by rw [written]; exact absent) (by rw [written]; exact Node.linked_aligned aligned dot x), written,
    if_pos accepts', update_idem]

def placed (nodes : Nodes) (d : Nat) (name : List UInt8) (x type : Nat) : Nodes :=
  if type = T_DIR then
    Function.update (Function.update (nodes.relink d 1) x (((nodes x).linked dot x).linked dotdot d)) d
      ((nodes.relink d 1 d).linked name x)
  else Function.update nodes d ((nodes d).linked name x)

theorem createLinks_of_none (empty : (nodes x).size = 0) (apart : x ≠ d) (nonzero : x % 2 ^ 16 ≠ 0)
    (missing : (nodes d).lookup name = none) (aligned : (nodes d).Aligned) :
    nodes.createLinks used d name x type =
      if (nodes d).Accepts (Dirent.SIZE * (nodes d).vacant) Dirent.SIZE then
        .ok ((nodes.placed d name x type).reap (insert x used) d)
      else .error (.panic "dirlink") := by
  unfold createLinks placed
  by_cases dir : type = T_DIR
  · have there : update (nodes.relink d 1) x (((nodes x).linked dot x).linked dotdot d) d = nodes.relink d 1 d :=
      update_of_ne apart.symm ..
    have same : nodes.relink d 1 d = { nodes d with nlink := ((nodes d).nlink + 1) % 2 ^ 16 } := update_self ..
    simp only [if_pos dir, dots_eq empty apart nonzero]
    rw [mustLink_of_none (by rw [there, same]; exact missing) (by rw [there, same]; exact aligned), there]
    by_cases accepts : (nodes d).Accepts (Dirent.SIZE * (nodes d).vacant) Dirent.SIZE
    · have accepts' : (nodes.relink d 1 d).Accepts (Dirent.SIZE * (nodes.relink d 1 d).vacant) Dirent.SIZE := by
        rw [same]
        exact accepts
      simp only [if_pos accepts, if_pos accepts']
    · have accepts' : ¬ (nodes.relink d 1 d).Accepts (Dirent.SIZE * (nodes.relink d 1 d).vacant) Dirent.SIZE := by
        rw [same]
        exact accepts
      simp only [if_neg accepts, if_neg accepts']
  · simp only [if_neg dir]
    rw [mustLink_of_none missing aligned]
    by_cases accepts : (nodes d).Accepts (Dirent.SIZE * (nodes d).vacant) Dirent.SIZE
    · simp only [if_pos accepts]
    · simp only [if_neg accepts]

variable {n : Nat}

theorem ialloc_ok (taken : nodes.ialloc n used = .ok x) : 0 < x ∧ x < n ∧ (nodes x).type = 0 := by
  unfold ialloc at taken
  split at taken
  next => cases taken
  next y found =>
    split at taken <;> cases taken
    have member := mem_range'_1.mp (mem_of_find?_eq_some found)
    have free := List.find?_some found
    exact ⟨by omega, by omega, of_decide_eq_true free⟩

theorem createNew_of_none (small : n ≤ 2 ^ 16) (dir : (nodes d).type = T_DIR)
    (missing : (nodes d).lookup name = none) (aligned : (nodes d).Aligned) :
    nodes.createNew n used d name type major minor =
      match nodes.ialloc n (insert d used) with
      | .error e => .error e
      | .ok x =>
        if (nodes d).Accepts (Dirent.SIZE * (nodes d).vacant) Dirent.SIZE then
          .ok (x, ((nodes.make x type major minor).placed d name x type).reap (insert x used) d)
        else .error (.panic "dirlink") := by
  unfold createNew
  cases taken : nodes.ialloc n (insert d used) with
  | error e => rfl
  | ok x =>
    obtain ⟨positive, inside, free⟩ := ialloc_ok taken
    have apart : x ≠ d := by
      rintro rfl
      rw [free] at dir
      cases dir
    have there : nodes.make x type major minor d = nodes d := update_of_ne apart.symm ..
    have empty : (nodes.make x type major minor x).size = 0 := by
      rw [make, update_self]
      rfl
    have nonzero : x % 2 ^ 16 ≠ 0 := by omega
    simp only []
    rw [createLinks_of_none empty apart nonzero (by rw [there]; exact missing) (by rw [there]; exact aligned), there]
    by_cases accepts : (nodes d).Accepts (Dirent.SIZE * (nodes d).vacant) Dirent.SIZE
    · simp only [if_pos accepts]
    · simp only [if_neg accepts]

variable {parent : Bool} {z : Nat} {path : List UInt8}

variable {fuel : Nat}

/-- A path leads to where the entries of directories lead. -/
theorem walk_mem (reach : Nat → Prop) (start : reach y)
    (closed : ∀ d, reach d → (nodes d).type = T_DIR → ∀ e ∈ (nodes d).entries, e.1 ≠ 0 → reach e.1)
    (found : nodes.walk used parent fuel y path = .ok (some (z, name))) : reach z := by
  induction fuel generalizing y path with
  | zero => cases found
  | succ fuel ih =>
    unfold walk at found
    split at found
    next =>
      split at found <;> cases found
      exact start
    next elem rest taken =>
      split at found
      · cases found
      split at found
      · cases found
      next dir =>
        split at found
        next =>
          cases found
          exact start
        next =>
          split at found
          next => cases found
          next => cases found
          next i looked =>
            obtain ⟨inside, occupied, -⟩ := Node.listed_of_lookup (dirlookup_some looked)
            exact ih (closed y start (not_not.mp dir) _ (Node.mem_entries.mpr ⟨i, inside, rfl⟩) occupied) found

theorem walk_dir (found : nodes.walk used true fuel y path = .ok (some (z, name))) :
    (nodes z).type = T_DIR := by
  induction fuel generalizing y path with
  | zero => cases found
  | succ fuel ih =>
    unfold walk at found
    split at found
    next => cases found
    next elem rest taken =>
      split at found
      · cases found
      split at found
      · cases found
      next dir =>
        split at found
        next =>
          cases found
          exact not_not.mp dir
        next =>
          split at found
          next => cases found
          next => cases found
          next => exact ih found

theorem resolve_walk (found : nodes.resolve used cwd parent path = .ok (some (z, name))) :
    nodes.walk used parent (path.length + 1) (if path.head? = some slash then ROOTINO else cwd) path = .ok (some (z, name)) := by
  unfold resolve at found
  split at found
  next absolute =>
    split at found
    · cases found
    · rwa [if_pos absolute]
  next relative => rwa [if_neg relative]

theorem resolve_dir (found : nodes.resolve used cwd true path = .ok (some (z, name))) :
    (nodes z).type = T_DIR := walk_dir (resolve_walk found)

theorem resolve_ne_zero (nonzero : cwd ≠ 0)
    (found : nodes.resolve used cwd parent path = .ok (some (z, name))) : z ≠ 0 := by
  refine walk_mem (· ≠ 0) ?_ (fun _ _ _ _ _ other => other) (resolve_walk found)
  split
  · decide
  · exact nonzero

theorem namei_some (found : nodes.namei used cwd path = .ok (some x)) :
    (nodes x).type ≠ 0 ∧ ∃ name, nodes.resolve used cwd false path = .ok (some (x, name)) := by
  unfold namei at found
  split at found
  next => cases found
  next => cases found
  next y name resolved =>
    split at found <;> cases found
    next used => exact ⟨used, name, resolved⟩

structure Linked (nodes : Nodes) (used : Finset Nat) (cwd : Nat) (old new : List UInt8) (x d : Nat) (name : List UInt8) : Prop where
  found : nodes.namei used cwd old = .ok (some x)
  file : (nodes x).type ≠ T_DIR
  parent : nodes.resolve (insert x used) cwd true new = .ok (some (d, name))
  missing : (nodes d).lookup name = none
  aligned : (nodes d).Aligned

theorem link_some {old new : List UInt8} (done : nodes.link used cwd old new = .ok (some after)) :
    ∃ x d name, nodes.Linked used cwd old new x d name ∧
      after = reap (update (nodes.relink x 1) d ((nodes.relink x 1 d).linked name x)) used x := by
  unfold link at done
  split at done
  next => cases done
  next => cases done
  next x found =>
    split at done
    · cases done
    next file =>
      unfold linkInto at done
      rw [resolve_relink] at done
      split at done
      next => cases done
      next => cases done
      next d name parent =>
        split at done
        next => cases done
        next => cases done
        next linked entry =>
          cases done
          obtain ⟨missing, aligned, rfl⟩ := dirlink_linked entry
          rw [relink_apply] at missing aligned
          exact ⟨x, d, name, ⟨found, file, parent, missing, aligned⟩, rfl⟩

structure Unlinked (nodes : Nodes) (used : Finset Nat) (cwd : Nat) (path : List UInt8) (d i : Nat) (name : List UInt8) : Prop where
  parent : nodes.resolve used cwd true path = .ok (some (d, name))
  notDot : component name ≠ dot
  notDotdot : component name ≠ dotdot
  found : (nodes d).lookup name = some i
  apart : ((nodes d).entry i).inum ≠ d
  allocated : (nodes ((nodes d).entry i).inum).type ≠ 0
  links : 1 ≤ short (nodes ((nodes d).entry i).inum).nlink
  empty : (nodes ((nodes d).entry i).inum).type = T_DIR → (nodes ((nodes d).entry i).inum).Empty

theorem unlink_some (done : nodes.unlink used cwd path = .ok (some after)) :
    ∃ d i name, nodes.Unlinked used cwd path d i name ∧ after = nodes.removeEntry used d i ((nodes d).entry i).inum := by
  unfold unlink at done
  split at done
  next => cases done
  next => cases done
  next d name parent =>
    split at done
    · cases done
    next plain =>
      rw [not_or, namecmp_eq_zero, namecmp_eq_zero] at plain
      split at done
      next => cases done
      next => cases done
      next i looked =>
        simp only [unlinkAt] at done
        split at done
        · cases done
        next apart =>
          split at done
          · cases done
          next allocated =>
            split at done
            · cases done
            next links =>
              split at done
              · cases done
              next empty =>
                split at done
                · cases done
                next =>
                  cases done
                  refine ⟨d, i, name, ⟨parent, plain.1, plain.2, dirlookup_some looked, apart, allocated, by omega, ?_⟩, rfl⟩
                  exact fun dir => by_contra fun full => empty ⟨dir, full⟩

structure Created (nodes : Nodes) (n : Nat) (used : Finset Nat) (cwd : Nat) (path : List UInt8) (x d : Nat) (name : List UInt8) :
    Prop where
  parent : nodes.resolve used cwd true path = .ok (some (d, name))
  missing : (nodes d).lookup name = none
  aligned : (nodes d).Aligned
  positive : 0 < x
  inside : x < n
  free : (nodes x).type = 0

theorem create_some (small : n ≤ 2 ^ 16)
    (done : nodes.create n used cwd path type major minor = .ok (some (x, after))) :
    ((nodes x).type = T_FILE ∧ after = nodes) ∨ ∃ d name, nodes.Created n used cwd path x d name ∧
      after = ((nodes.make x type major minor).placed d name x type).reap (insert x used) d := by
  unfold create at done
  split at done
  next => cases done
  next => cases done
  next d name parent =>
    split at done
    next => cases done
    next i looked =>
      unfold createOld at done
      split at done
      · cases done
      split at done
      next file =>
        cases done
        exact .inl ⟨file.2, rfl⟩
      next => cases done
    next looked =>
      obtain ⟨missing, aligned⟩ := dirlookup_none looked
      rw [createNew_of_none small (resolve_dir parent) missing aligned] at done
      split at done
      next => cases done
      next made =>
        cases done
        split at made
        next => cases made
        next y taken =>
          split at made <;> cases made
          obtain ⟨positive, inside, free⟩ := ialloc_ok taken
          exact .inr ⟨d, name, ⟨parent, missing, aligned, positive, inside, free⟩, rfl⟩

end Nodes

namespace Nodes

/-- The file `x` has one more link, the entry `name` in `d`. -/
def linkAdded (nodes : Nodes) (x d : Nat) (name : List UInt8) : Nodes :=
  Function.update (nodes.relink x 1) d ((nodes.relink x 1 d).linked name x)

/-- The entry `i` of `d` is gone, and a link of its inode `x`. -/
def linkRemoved (nodes : Nodes) (d i x : Nat) : Nodes :=
  ((nodes.eraseEntry d i).unlinkParent d x).relink x (2 ^ 16 - 1)

theorem removeEntry_drift (nodes : Nodes) (used : Finset Nat) (i : Nat) (apart : x ≠ d) :
    (nodes.linkRemoved d i x).Drift (nodes.removeEntry used d i x) := by
  have commute : ((nodes.linkRemoved d i x).reap (insert x used) d) =
      ((((nodes.eraseEntry d i).unlinkParent d x).reap (insert x used) d).relink x (2 ^ 16 - 1)) := by
    have same : nodes.linkRemoved d i x d = (nodes.eraseEntry d i).unlinkParent d x d := by
      rw [linkRemoved, relink, update_of_ne apart.symm]
    unfold reap
    rw [same]
    split
    next =>
      rw [linkRemoved, relink, relink, update_comm apart.symm, update_of_ne apart]
    next => rfl
  have first := (nodes.linkRemoved d i x).drift_reap (insert x used) d
  rw [commute] at first
  exact first.trans (drift_reap ..)

end Nodes

/-- The call creates what is at `path` if it is not there. -/
inductive Call.Creates : Call → Path → Nat → Nat → Nat → Prop
  | mkdir (path : Path) : Creates (.mkdir (some path)) path T_DIR 0 0
  | mknod (path : Path) (major minor : Nat) : Creates (.mknod (some path) major minor) path T_DEV major minor
  | open (path : Path) (omode : Nat) (creates : omode &&& O_CREATE ≠ 0) : Creates (.open path omode) path T_FILE 0 0

/-- What the call of a process in `cwd` does to the nodes. -/
inductive Effect (s : State) (cwd : Nat) : Call → Nodes → Prop
  | drift {call : Call} {after : Nodes} (drift : s.nodes.Drift after) : Effect s cwd call after
  | link {old new : Path} {x d : Nat} {name : List UInt8} {after : Nodes}
      (linked : s.nodes.Linked (s.used 0) cwd old.bytes new.bytes x d name)
      (drift : (s.nodes.linkAdded x d name).Drift after) : Effect s cwd (.link old new) after
  | unlink {path : Path} {d i : Nat} {name : List UInt8} {after : Nodes}
      (unlinked : s.nodes.Unlinked (s.used 0) cwd path.bytes d i name)
      (drift : (s.nodes.linkRemoved d i ((s.nodes d).entry i).inum).Drift after) : Effect s cwd (.unlink path) after
  | create {call : Call} {path : Path} {type major minor x d : Nat} {name : List UInt8} {after : Nodes}
      (creates : call.Creates path type major minor)
      (created : s.nodes.Created s.sb.ninodes (s.used 0) cwd path.bytes x d name)
      (drift : ((s.nodes.make x type major minor).placed d name x type).Drift after) : Effect s cwd call after

section Effect

variable {s : State} {p : Fin NPROC} {call : Call} {r : Int} {after : Nodes}

theorem Effect.trans {later : Nodes} (effect : Effect s cwd call after) (drift : after.Drift later) :
    Effect s cwd call later := by
  cases effect with
  | drift first => exact .drift (first.trans drift)
  | link linked first => exact .link linked (first.trans drift)
  | unlink unlinked first => exact .unlink unlinked (first.trans drift)
  | create creates created first => exact .create creates created (first.trans drift)

variable {path : Path}

theorem Effect.of_create (small : s.sb.ninodes ≤ 2 ^ 16)
    (creates : call.Creates path type major minor)
    (done : s.nodes.create s.sb.ninodes (s.used 0) cwd path.bytes type major minor = .ok (some (x, after))) :
    Effect s cwd call after := by
  obtain ⟨-, rfl⟩ | ⟨d, name, created, rfl⟩ := Nodes.create_some small done
  · exact .drift (.refl _)
  · exact .create creates created (Nodes.drift_reap ..)

theorem Effect.of_createAndPut {path : Option Path} (small : s.sb.ninodes ≤ 2 ^ 16)
    (creates : ∀ q, path = some q → call.Creates q type major minor)
    (outcome : Outcome (s.nodes.createAndPut s.sb.ninodes (s.used 0) cwd (path.map Path.bytes) type major minor) r s.nodes
      after) : Effect s cwd call after := by
  obtain ⟨o, result, rfl, -⟩ := outcome
  cases path with
  | none =>
    cases result
    exact .drift (.refl _)
  | some path =>
  simp only [Option.map_some, Nodes.createAndPut] at result
  split at result
  next => cases result
  next =>
    cases result
    exact .drift (.refl _)
  next x made done =>
    cases result
    exact (Effect.of_create small (creates path rfl) done).trans (Nodes.drift_reap ..)

theorem Effect.of_open {omode : Nat} {room : Prop} (small : s.sb.ninodes ≤ 2 ^ 16)
    (opened : Opened (s.nodes.openInode s.sb.ninodes (s.used 0) cwd path.bytes omode) (s.used 0) room r s.nodes after) :
    Effect s cwd (.open path omode) after := by
  obtain ⟨-, -, rfl⟩ | ⟨x, made, result, opened⟩ := opened
  · exact .drift (.refl _)
  have first : Effect s cwd (.open path omode) made := by
    unfold Nodes.openInode at result
    split at result
    next creates => exact Effect.of_create small (.open path omode creates) result
    next =>
      split at result
      next => cases result
      next => cases result
      next =>
        split at result <;> cases result
        exact .drift (.refl _)
  obtain ⟨-, -, rfl⟩ | ⟨-, -, rfl⟩ := opened
  · exact first
  · exact first.trans (Nodes.drift_reap ..)

theorem Call.Change.effect (small : s.sb.ninodes ≤ 2 ^ 16) (change : call.Change s p r s.nodes after) :
    Effect s (s.cwdInum p) call after := by
  cases call with
  | «open» path omode => exact .of_open small change
  | mkdir path => exact .of_createAndPut small (fun q same => same ▸ .mkdir q) change
  | mknod path major minor => exact .of_createAndPut small (fun q same => same ▸ .mknod q major minor) change
  | link old new =>
    obtain ⟨o, result, rfl, -⟩ := change
    cases o with
    | none => exact .drift (.refl _)
    | some after =>
      obtain ⟨x, d, name, linked, rfl⟩ := Nodes.link_some result
      exact .link linked (Nodes.drift_reap ..)
  | unlink path =>
    obtain ⟨o, result, rfl, -⟩ := change
    cases o with
    | none => exact .drift (.refl _)
    | some after =>
      obtain ⟨d, i, name, unlinked, rfl⟩ := Nodes.unlink_some result
      exact .unlink unlinked (Nodes.removeEntry_drift _ _ _ unlinked.apart)
  | exec path vm =>
    obtain rfl : after = s.nodes := change
    exact .drift (.refl _)
  | chdir | read | write | fstat | dup | close | pipe | fork | exit | unfetched => exact .drift change

/-- What a step does while every inode without links is in use. -/
theorem step_effect {t : State} (rest : AtRest s) (covered : Covered s 0) (small : s.sb.ninodes ≤ 2 ^ 16)
    (taken : step s (p, call) = some t) :
    AtRest t ∧ Covered t 0 ∧ t.sb = s.sb ∧ Effect s (s.cwdInum p) call t.nodes := by
  obtain ⟨r, done⟩ := step_done rest taken
  obtain ⟨covered', change⟩ := done.covered covered
  exact ⟨done.rest, covered', done.returned.sb, change.effect small⟩

end Effect

def Image.nodes (image : Image) : Nodes := fun x =>
  if x < image.sb.ninodes then nodeOf image.disk (dinodeAt image.sb image.disk x) else Node.new 0

variable {image : Image}

theorem Image.nodes_of_not_lt (outside : ¬ x < image.sb.ninodes) : image.nodes x = Node.new 0 :=
  if_neg outside

theorem Image.lt_of_type (type : (image.nodes x).type ≠ 0) : x < image.sb.ninodes :=
  by_contra fun outside => type (by rw [nodes_of_not_lt outside]; rfl)

/-- A well-formed image on which every inode has links. -/
structure Image.Clean (image : Image) : Prop extends image.WellFormed where
  small : image.sb.ninodes ≤ 2 ^ 16
  linked : ∀ x, (image.nodes x).type ≠ 0 → (image.nodes x).nlink ≠ 0

theorem smallImage_clean : smallImage.Clean where
  toWellFormed := smallImage_wellFormed
  small := by decide
  linked := fun x => by
    have linked : ∀ x < 6, (nodeOf smallImage.disk (dinodeAt smallImage.sb smallImage.disk x)).type ≠ 0 →
        (nodeOf smallImage.disk (dinodeAt smallImage.sb smallImage.disk x)).nlink ≠ 0 := by decide +kernel
    unfold Image.nodes
    split
    next inside => exact linked x inside
    next => exact fun wrong => absurd rfl wrong

section Clean

variable {tty peer : List (Option (List UInt8))} {s : State} {calls : List (Fin NPROC × Call)}

/-- What holds of every state that is reached from a clean image. -/
structure Settled (image : Image) (s : State) : Prop where
  rest : AtRest s
  covered : Covered s 0
  sb : s.sb = image.sb
  small : s.sb.ninodes ≤ 2 ^ 16

theorem boot_settled (clean : image.Clean) : Settled image (image.boot tty peer) :=
  ⟨boot_atRest clean.toWellFormed, fun x type nlink => absurd nlink (clean.linked x type), rfl, clean.small⟩

theorem run_settled {good : State → Fin NPROC × Call → Prop} (holds : Nodes → Prop) (clean : image.Clean)
    (start : holds image.nodes)
    (preserved : ∀ s p call after, Settled image s → (s.procs p).cwd ≠ none → good s (p, call) → holds s.nodes →
      Effect s (s.cwdInum p) call after → holds after)
    (along : Transition.Along step good (image.boot tty peer) calls)
    (reached : Transition.run step (image.boot tty peer) calls = some s) : Settled image s ∧ holds s.nodes := by
  refine Transition.run_invariant_along step (fun s => Settled image s ∧ holds s.nodes) ?_ ⟨boot_settled clean, start⟩ along reached
  rintro s ⟨p, call⟩ t ⟨settled, here⟩ good taken
  obtain ⟨rest, covered, sb, effect⟩ := step_effect settled.rest settled.covered settled.small taken
  exact ⟨⟨rest, covered, sb.trans settled.sb, sb ▸ settled.small⟩, preserved s p call t.nodes settled (step_cases taken).1 good here effect⟩

theorem Settled.cwd_ne_zero (settled : Settled image s) {p : Fin NPROC} (alive : (s.procs p).cwd ≠ none) : s.cwdInum p ≠ 0 := by
  obtain ⟨cwd, here⟩ := Option.ne_none_iff_exists'.mp alive
  rw [State.cwdInum_eq here]
  exact Nat.pos_iff_ne_zero.mp (settled.rest.inv.cache.range cwd (settled.rest.inv.cwd_ref here)).1

/-- The system calls refine the functions on the table of nodes, in what they return and in why they stop, the panic of
`balloc` on a full disk apart. -/
theorem calls_refine_nodes (clean : image.Clean)
    (reached : Transition.run step (image.boot tty peer) calls = some s) {p : Fin NPROC} {call : Call}
    (alive : (s.procs p).cwd ≠ none) (granted : call.Granted s) :
    (∀ r t, (call.code p).run s = .ok (r, t) → call.Change s p r s.nodes t.nodes) ∧
    ∀ e, (call.code p).run s = .error e →
      e.Benign ∧ (call.OnPaths → call.Fails s p e ∨ e = .panic "balloc: out of blocks") := by
  have along : Transition.Along step (fun _ _ => True) (image.boot tty peer) calls := fun _ _ _ _ _ _ => trivial
  have settled := (run_settled (fun _ => True) clean trivial (fun _ _ _ _ _ _ _ _ _ => trivial) along reached).1
  have spec := wp_call settled.rest alive granted
  refine ⟨fun r t returned => ((wp.ok spec returned).covered settled.covered).2, fun e stopped => ?_⟩
  obtain ⟨benign, why⟩ := wp.error spec stopped
  exact ⟨benign, fun onPaths => why onPaths settled.covered⟩

theorem calls_refine_nodes_open : ∃ r t, ((Call.open pathF O_RDWR).code initproc).run (smallImage.boot [] []) = .ok (r, t) ∧
    (Call.open pathF O_RDWR).Change (smallImage.boot [] []) initproc r (smallImage.boot [] []).nodes t.nodes := by
  have returns : (((Call.open pathF O_RDWR).code initproc).run (smallImage.boot [] [])).toOption.isSome = true := by
    decide +kernel
  obtain ⟨⟨r, t⟩, ran⟩ := Option.isSome_iff_exists.mp returns
  have ran := Transition.ok_of_toOption ran
  have booted : Transition.run step (smallImage.boot [] []) [] = some (smallImage.boot [] []) := rfl
  have granted : (Call.open pathF O_RDWR).Granted (smallImage.boot [] []) := trivial
  exact ⟨r, t, ran, (calls_refine_nodes smallImage_clean booted (by decide) granted).1 r t ran⟩

end Clean

end Xv6.Fs
