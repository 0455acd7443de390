import Mathlib.Logic.Relation
import Xv6.Fs.Lifecycle

/-! The file system as a table of nodes, and what locking, unlocking and dropping references
do to it. -/

variable {node : Node}

namespace Xv6.Fs
open Lib List Nat

variable {name : List UInt8}

namespace Dirent

theorem inum_decode_encode (inum : Nat) (name : List UInt8) : (decode (encode ⟨inum, name⟩)).inum = inum % 2 ^ 16 := by
  change (UInt8.ofNat inum).toNat + 256 * (UInt8.ofNat (inum / 256)).toNat = _
  simp only [UInt8.toNat_ofNat']
  omega

variable {inum : Nat}

theorem name_decode_encode (length : name.length = DIRSIZ) :
    (decode (encode ⟨inum, name⟩)).name = name :=
  take_of_length_le (le_of_eq length)

theorem decode_replicate : decode (replicate SIZE 0) = ⟨0, replicate DIRSIZ 0⟩ := by decide

theorem length_encode (length : name.length = DIRSIZ) :
    (encode ⟨inum, name⟩).length = SIZE := by
  rw [encode, length_cons, length_cons, length]
  rfl

end Dirent

namespace Node

def count (node : Node) : Nat := node.size / Dirent.SIZE

def Aligned (node : Node) : Prop := node.size % Dirent.SIZE = 0

instance (node : Node) : Decidable node.Aligned := inferInstanceAs (Decidable (_ = _))

def Matches (node : Node) (name : List UInt8) (i : Nat) : Prop :=
  (node.entry i).inum ≠ 0 ∧ namecmp name (node.entry i).name = 0

instance (node : Node) (name : List UInt8) (i : Nat) : Decidable (node.Matches name i) :=
  inferInstanceAs (Decidable (_ ∧ _))

def lookup (node : Node) (name : List UInt8) : Option Nat :=
  (range node.count).find? fun i => decide (node.Matches name i)

def vacant (node : Node) : Nat :=
  ((range node.count).find? fun i => decide ((node.entry i).inum = 0)).getD node.count

/-- `isdirempty`: all entries after `.` and `..` are empty. -/
def Empty (node : Node) : Prop := ∀ i < node.count, 2 ≤ i → (node.entry i).inum = 0

instance (node : Node) : Decidable node.Empty := inferInstanceAs (Decidable (∀ i < node.count, _))

def setEntry (node : Node) (i : Nat) (bytes : List UInt8) : Node := node.write (Dirent.SIZE * i) bytes

variable {i : Nat} {bytes : List UInt8}

theorem entry_setEntry_self (length : bytes.length = Dirent.SIZE) :
    (node.setEntry i bytes).entry i = Dirent.decode bytes := by
  unfold entry
  congr 1
  apply ext_getElem
  · rw [length_map, length_range, length]
  · intro j inside bound
    rw [length_map, length_range] at inside
    rw [getElem_map, getElem_range, setEntry, write]
    change (if _ then _ else _) = _
    rw [if_pos (by omega), Nat.add_sub_cancel_left, getD_eq_getElem _ _ bound]

variable {l : Nat}

theorem entry_setEntry_of_ne (length : bytes.length = Dirent.SIZE) (apart : l ≠ i) :
    (node.setEntry i bytes).entry l = node.entry l := by
  unfold entry
  congr 1
  refine map_congr_left fun j member => ?_
  have inside := mem_range.mp member
  have outside : Dirent.SIZE * l + Dirent.SIZE ≤ Dirent.SIZE * i ∨ Dirent.SIZE * i + Dirent.SIZE ≤ Dirent.SIZE * l := by
    rcases lt_or_gt_of_ne apart with before | after
    · exact .inl (by rw [← mul_succ]; exact mul_le_mul_left _ before)
    · exact .inr (by rw [← mul_succ]; exact mul_le_mul_left _ after)
  rw [setEntry, write]
  exact if_neg (by omega)

theorem entry_setEntry (length : bytes.length = Dirent.SIZE) (l : Nat) :
    (node.setEntry i bytes).entry l = if l = i then Dirent.decode bytes else node.entry l := by
  split
  next same => rw [same, entry_setEntry_self length]
  next apart => rw [entry_setEntry_of_ne length apart]

theorem lookup_some (found : node.lookup name = some i) :
    i < node.count ∧ node.Matches name i := by
  have holds : decide (node.Matches name i) = true := find?_some (p := fun i => decide (node.Matches name i)) found
  exact ⟨mem_range.mp (mem_of_find?_eq_some found), of_decide_eq_true holds⟩

theorem lookup_none (missing : node.lookup name = none) (inside : i < node.count) :
    ¬ node.Matches name i :=
  fun here => find?_eq_none.mp missing i (mem_range.mpr inside) (decide_eq_true here)

theorem entry_le_size (inside : i < node.count) : Dirent.SIZE * (i + 1) ≤ node.size :=
  (mul_le_mul_left _ (succ_le_of_lt inside)).trans (mul_div_le node.size Dirent.SIZE)

theorem lt_count (whole : Dirent.SIZE * (i + 1) ≤ node.size) : i < node.count :=
  (le_div_iff_mul_le (by decide)).mpr (by rw [mul_comm]; exact whole)

theorem aligned_of_le (before : i ≤ node.count) (done : node.size ≤ Dirent.SIZE * i) :
    node.Aligned ∧ i = node.count := by
  have low := mul_div_le node.size Dirent.SIZE
  have order : Dirent.SIZE * i ≤ Dirent.SIZE * node.count := mul_le_mul_left _ before
  have whole : node.size = Dirent.SIZE * i := le_antisymm done (order.trans low)
  refine ⟨by rw [Aligned, whole, Nat.mul_mod_right], ?_⟩
  rw [count, whole, Nat.mul_div_cancel_left _ (by decide)]

theorem not_aligned (short : ¬ i < node.count) (inside : Dirent.SIZE * i < node.size) : ¬ node.Aligned := by
  intro aligned
  have whole : Dirent.SIZE * node.count = node.size := Nat.mul_div_cancel' (Nat.dvd_of_mod_eq_zero aligned)
  have order : Dirent.SIZE * node.count ≤ Dirent.SIZE * i := Nat.mul_le_mul_left _ (Nat.le_of_not_lt short)
  omega

theorem entry_setEntry_inum {bound : Nat} (length : bytes.length = Dirent.SIZE)
    (atMost : i ≤ node.count) (new : (Dirent.decode bytes).inum < bound)
    (old : ∀ l < node.count, (node.entry l).inum < bound)
    (inside : Dirent.SIZE * (l + 1) ≤ (node.setEntry i bytes).size) : ((node.setEntry i bytes).entry l).inum < bound := by
  rw [entry_setEntry length]
  split
  next => exact new
  next apart =>
    have size : (node.setEntry i bytes).size = max node.size (Dirent.SIZE * i + Dirent.SIZE) := by
      change max node.size (Dirent.SIZE * i + bytes.length) = _
      rw [length]
    rw [size, le_max_iff, ← mul_succ] at inside
    obtain before | here := inside
    · exact old l (lt_count before)
    · have : l + 1 ≤ i + 1 := le_of_mul_le_mul_left here (by decide)
      exact old l (by omega)

theorem vacant_le (node : Node) : node.vacant ≤ node.count := by
  unfold vacant
  cases found : (range node.count).find? fun i => decide ((node.entry i).inum = 0) with
  | none => exact le_refl _
  | some i => exact le_of_lt (mem_range.mp (mem_of_find?_eq_some found))

end Node

end Xv6.Fs

namespace Xv6.Fs
open Lib Function
open Multiset (count_cons_of_ne count_cons_self count_le_count_cons count_le_of_le le_cons_self mem_cons_self)

abbrev Nodes : Type := Nat → Node

/-- The inode `x` goes if it has no links and is not in use. -/
def Nodes.reap (nodes : Nodes) (used : Finset Nat) (x : Nat) : Nodes :=
  if (nodes x).type ≠ 0 ∧ (nodes x).nlink = 0 ∧ x ∉ used then update nodes x (nodes x).freed else nodes

/-- Files were written: directories, types and links are as before. -/
def Nodes.SameLinks (nodes after : Nodes) : Prop :=
  ∀ x, (after x).type = (nodes x).type ∧ (after x).nlink = (nodes x).nlink ∧ ((nodes x).type = T_DIR → after x = nodes x)

/-- Files were written, and inodes without links were freed. -/
def Nodes.Drift : Nodes → Nodes → Prop :=
  Relation.ReflTransGen fun nodes after => nodes.SameLinks after ∨ ∃ used x, after = nodes.reap used x

theorem Nodes.Drift.refl (nodes : Nodes) : nodes.Drift nodes := Relation.ReflTransGen.refl

theorem Nodes.Drift.trans {first second third : Nodes} (before : first.Drift second) (after : second.Drift third) :
    first.Drift third :=
  Relation.ReflTransGen.trans before after

theorem Nodes.drift_reap (nodes : Nodes) (used : Finset Nat) (x : Nat) : nodes.Drift (nodes.reap used x) :=
  .single (.inr ⟨used, x, rfl⟩)

theorem Nodes.reap_of_linked {nodes : Nodes} {y : Nat} (linked : (nodes y).nlink ≠ 0) (used : Finset Nat) (x : Nat) :
    nodes.reap used x y = nodes y := by
  unfold Nodes.reap
  split
  next gone =>
    have apart : y ≠ x := fun same => linked (same ▸ gone.2.1)
    exact update_of_ne apart ..
  next => rfl

def State.nodes (s : State) : Nodes := fun x => if x < s.sb.ninodes then s.node x else Node.new 0

variable {x : Nat} {s t : State} {temps : Multiset (Fin NINODE)} {locks : Finset (Fin NINODE)}
  {k : Fin NINODE}

section Table

theorem State.nodes_of_lt (inside : x < s.sb.ninodes) : s.nodes x = s.node x := if_pos inside

theorem State.lt_of_type (type : (s.nodes x).type ≠ 0) : x < s.sb.ninodes := by
  by_contra outside
  rw [State.nodes, if_neg outside] at type
  exact type rfl

theorem NodesSet.nodes (set : NodesSet s t x node) (sb : t.sb = s.sb) (inside : x < s.sb.ninodes) :
    t.nodes = update s.nodes x node := by
  funext y
  rw [State.nodes, sb]
  split
  next within =>
    rw [set y within]
    by_cases same : y = x
    · rw [same, update_self, update_self]
    · rw [update_of_ne same, update_of_ne same, State.nodes_of_lt within]
  next outside =>
    rw [update_of_ne (by omega), State.nodes, if_neg outside]

theorem Inv.inum_lt (inv : Inv s temps locks) (kept : k ∈ temps) : (s.icache k).inum < s.sb.ninodes :=
  (inv.cache.range k (inv.ref_pos kept)).2

end Table

section Quiet

variable {u : State} {more : Multiset (Fin NINODE)}

theorem Quiet.refl (s : State) (temps : Multiset (Fin NINODE)) : Quiet s s temps :=
  .of_icache s s.icache temps fun _ _ => ⟨rfl, id⟩

theorem Quiet.trans (first : Quiet s t temps) (second : Quiet t u temps) : Quiet s u temps :=
  ⟨first.toFrame.trans second.toFrame, second.disk.trans first.disk, second.silent.trans first.silent⟩

theorem Quiet.weaken (quiet : Quiet s t more) (less : temps ≤ more) : Quiet s t temps :=
  ⟨quiet.toFrame.weaken less, quiet.disk, quiet.silent⟩

theorem Frame.nodes (frame : Frame s t temps) (disk : t.disk = s.disk) : t.nodes = s.nodes := by
  funext x
  rw [State.nodes, frame.sb, State.node, State.dinode, frame.sb, disk]
  rfl

theorem Quiet.nodes (quiet : Quiet s t temps) : t.nodes = s.nodes := quiet.toFrame.nodes quiet.disk

/-- Every allocated inode without links is in use and has been read, so that dropping other
references frees nothing. -/
def Covered (s : State) (temps : Multiset (Fin NINODE)) : Prop :=
  ∀ x, (s.nodes x).type ≠ 0 → (s.nodes x).nlink = 0 →
    ∃ k, 0 < held s k + temps.count k ∧ (s.icache k).inum = x ∧ (s.icache k).valid = true

section

variable (covered : Covered s temps)
include covered

theorem Covered.mono (less : temps ≤ more) : Covered s more := fun x type nlink => by
  obtain ⟨k, used, rest⟩ := covered x type nlink
  have := count_le_of_le k less
  exact ⟨k, by omega, rest⟩

theorem Covered.cons (k : Fin NINODE) : Covered s (k ::ₘ temps) :=
  covered.mono (le_cons_self temps k)

theorem Covered.frame (frame : Frame s t temps)
    (orphans : ∀ x, (t.nodes x).type ≠ 0 → (t.nodes x).nlink = 0 → (s.nodes x).type ≠ 0 ∧ (s.nodes x).nlink = 0) :
    Covered t temps := fun x type nlink => by
  obtain ⟨type', nlink'⟩ := orphans x type nlink
  obtain ⟨k, used, inum, valid⟩ := covered x type' nlink'
  obtain ⟨inum', valid'⟩ := frame.kept k used
  exact ⟨k, by rwa [frame.held_eq], inum'.trans inum, valid' valid⟩

theorem Covered.same (frame : Frame s t temps) (nodes : t.nodes = s.nodes) :
    Covered t temps :=
  covered.frame frame fun x type nlink => by
    rw [nodes] at type nlink
    exact ⟨type, nlink⟩

theorem Covered.quiet (quiet : Quiet s t temps) : Covered t temps :=
  covered.same quiet.toFrame quiet.nodes

theorem Covered.mem_used (type : (s.nodes x).type ≠ 0)
    (nlink : (s.nodes x).nlink = 0) : x ∈ s.used temps := by
  obtain ⟨k, used, inum, -⟩ := covered x type nlink
  exact State.mem_used.mpr ⟨k, used, inum⟩

theorem Covered.reap (x : Nat) : s.nodes.reap (s.used temps) x = s.nodes :=
  if_neg fun ⟨type, nlink, unused⟩ => unused (covered.mem_used type nlink)

theorem Covered.kept
    (puts : Covered s (k ::ₘ temps) → Covered t temps ∧ t.nodes = s.nodes.reap (s.used temps) x) :
    Covered t temps ∧ t.nodes = s.nodes := by
  obtain ⟨after, nodes⟩ := puts (covered.cons k)
  exact ⟨after, nodes.trans (covered.reap x)⟩

end

end Quiet

/-- A stop that is not a sign of wrong books. -/
def Stop.Benign (e : Stop) : Prop :=
  e ∉ [.fault, .panic "freeing free block", .panic "bmap: out of range", .panic "filedup", .panic "fileclose",
    .panic "ilock", .panic "iunlock", .panic "log_write outside of trans", .panic "dirlookup not DIR"]

instance (e : Stop) : Decidable e.Benign := inferInstanceAs (Decidable (_ ∉ _))

def Stop.Pathless (e : Stop) : Prop := e.Benign ∧ e ≠ .panic "iget: no inodes"

instance (e : Stop) : Decidable e.Pathless := inferInstanceAs (Decidable (_ ∧ _))

section Locks

section

variable (inv : Inv s temps locks)
include inv

theorem Inv.type_nodes (ref : 0 < (s.icache k).ref) :
    (s.nodes (s.icache k).inum).type = (s.dinode (s.icache k).inum).type := by
  rw [State.nodes_of_lt (inv.cache.range k ref).2]
  rfl

theorem wp_ilock (ref : 0 < (s.icache k).ref) :
    wp (ilock k) (fun _ t => k ∉ locks ∧ (s.nodes (s.icache k).inum).type ≠ 0 ∧ Inv t temps (insert k locks) ∧
        ∀ kept, Quiet s t kept)
      (fun e => (e = .deadlock ∧ k ∈ locks) ∨
        (e = .panic "ilock: no type" ∧ k ∉ locks ∧ (s.nodes (s.icache k).inum).type = 0)) s := by
  rw [inv.type_nodes ref]
  refine wp_mono (wp_ilockEntry inv ref) ?_ fun _ stopped => stopped
  rintro _ t ⟨free, type, rfl, inv'⟩
  exact ⟨free, type, inv', fun kept => .of_icache _ _ _ fun j _ => update_kept (by rfl) (fun _ => by rfl) j⟩

theorem wp_iunlock (locked : k ∈ locks) :
    wp (iunlock k) (fun _ t => Inv t temps (locks.erase k) ∧ ∀ kept, Quiet s t kept) (fun _ => False) s := by
  refine wp_mono (wp_iunlockEntry inv locked) ?_ fun _ none => none
  rintro _ t ⟨rfl, inv'⟩
  exact ⟨inv', fun kept => .of_icache _ _ _ fun j _ => update_kept (by rfl) (by exact id) j⟩

end

end Locks

section Put

section

variable (covered : Covered s (k ::ₘ temps)) (inv : Inv s (k ::ₘ temps) locks)
include covered inv

theorem Covered.dropped_iff :
    Dropped s k ↔ (s.nodes (s.icache k).inum).type ≠ 0 ∧ (s.nodes (s.icache k).inum).nlink = 0 ∧
      (s.icache k).inum ∉ s.used temps := by
  have ref := inv.ref_pos (mem_cons_self k temps)
  have count := inv.refs.refs k
  rw [count_cons_self] at count
  have only : ∀ l, 0 < (s.icache l).ref → (s.icache l).inum = (s.icache k).inum → l = k :=
    fun l ref' same => inv.cache.unique l k ref' ref same
  rw [State.nodes_of_lt (inv.cache.range k ref).2]
  constructor
  · rintro ⟨valid, nlink, last⟩
    obtain ⟨same, type⟩ := inv.cache.cached k ref valid
    refine ⟨by rw [same] at type; exact type, by rw [same] at nlink; exact nlink, fun member => ?_⟩
    obtain ⟨l, used, here⟩ := State.mem_used.mp member
    have := inv.refs.refs l
    have := count_le_count_cons l k temps
    obtain rfl := only l (by omega) here
    omega
  · rintro ⟨type, nlink, unused⟩
    rw [← State.nodes_of_lt (inv.cache.range k ref).2] at type nlink
    obtain ⟨l, used, here, valid⟩ := covered _ type nlink
    obtain rfl := only l (by have := inv.refs.refs l; omega) here
    rw [State.nodes_of_lt (inv.cache.range l ref).2] at nlink
    have zero : ¬ 0 < held s l + temps.count l := fun more => unused (State.mem_used.mpr ⟨l, more, rfl⟩)
    exact ⟨valid, by rw [(inv.cache.cached l ref valid).1]; exact nlink, by omega⟩

theorem Covered.put (frame : Frame s t temps)
    (keeps : ¬ Dropped s k → t.disk = s.disk)
    (frees : Dropped s k → NodesSet s t (s.icache k).inum (s.node (s.icache k).inum).freed) :
    Covered t temps ∧ t.nodes = s.nodes.reap (s.used temps) (s.icache k).inum := by
  have inside := inv.inum_lt (mem_cons_self k temps)
  have iff := covered.dropped_iff inv
  have nodes : t.nodes = s.nodes.reap (s.used temps) (s.icache k).inum := by
    unfold Nodes.reap
    by_cases dropped : Dropped s k
    · rw [if_pos (iff.mp dropped), (frees dropped).nodes frame.sb inside, State.nodes_of_lt inside]
    · rw [if_neg fun here => dropped (iff.mpr here), frame.nodes (keeps dropped)]
  refine ⟨fun x type nlink => ?_, nodes⟩
  have orphan : (s.nodes x).type ≠ 0 ∧ (s.nodes x).nlink = 0 ∧ ¬ (Dropped s k ∧ x = (s.icache k).inum) := by
    rw [nodes, Nodes.reap] at type nlink
    split at type
    next goes =>
      rw [if_pos goes] at nlink
      by_cases same : x = (s.icache k).inum
      · rw [same, update_self] at type
        exact absurd rfl type
      · rw [update_of_ne same] at type nlink
        exact ⟨type, nlink, fun both => same both.2⟩
    next stays =>
      rw [if_neg stays] at nlink
      exact ⟨type, nlink, fun both => stays (iff.mp both.1)⟩
  obtain ⟨type', nlink', apart⟩ := orphan
  obtain ⟨l, used, inum, valid⟩ := covered x type' nlink'
  have more : 0 < held s l + temps.count l := by
    by_contra none
    by_cases same : l = k
    · subst same
      refine apart ⟨iff.mpr ⟨by rw [inum]; exact type', by rw [inum]; exact nlink', fun member => ?_⟩, inum.symm⟩
      obtain ⟨m, used', here⟩ := State.mem_used.mp member
      have ref := inv.ref_pos (mem_cons_self l temps)
      have := inv.refs.refs m
      have := count_le_count_cons m l temps
      obtain rfl := inv.cache.unique m l (by omega) ref here
      exact none used'
    · rw [count_cons_of_ne same] at used
      exact none used
  obtain ⟨inum', valid'⟩ := frame.kept l more
  exact ⟨l, by rwa [frame.held_eq], inum'.trans inum, valid' valid⟩

end

theorem Put.spec (put : Put s t k) (inv : Inv s (k ::ₘ temps) locks) (unlocked : k ∉ locks) :
    Inv t temps locks ∧ Frame s t temps ∧
      (Covered s (k ::ₘ temps) → Covered t temps ∧ t.nodes = s.nodes.reap (s.used temps) (s.icache k).inum) := by
  obtain ⟨inv', frame, keeps, frees⟩ := put.dropped inv unlocked
  exact ⟨inv', frame, fun covered => covered.put inv frame keeps frees⟩

theorem wp_iput (inv : Inv s (k ::ₘ temps) locks) (op : 0 < s.outstanding) :
    wp (iput k) (fun _ t => k ∉ locks ∧ Inv t temps locks ∧ Frame s t temps ∧
        (Covered s (k ::ₘ temps) → Covered t temps ∧ t.nodes = s.nodes.reap (s.used temps) (s.icache k).inum))
      (fun e => e = .deadlock ∧ k ∈ locks) s := by
  have ref := inv.ref_pos (mem_cons_self k temps)
  refine wp_mono (wp_iputPut inv.disk (inv.cache.range k ref).2 (fun valid => (inv.cache.cached k ref valid).1) op) ?_ ?_
  · rintro _ t ⟨free, put⟩
    have unlocked : k ∉ locks := fun member => by
      rw [(inv.refs.lock k).mpr member] at free
      cases free
    exact ⟨unlocked, put.spec inv unlocked⟩
  · exact fun e stopped => ⟨stopped.1, (inv.refs.lock k).mp stopped.2⟩

section

variable (inv : Inv s (k ::ₘ temps) locks) (locked : k ∈ locks) (op : 0 < s.outstanding)
include inv locked op

theorem wp_iunlockput :
    wp (iunlockput k) (fun _ t => Inv t temps (locks.erase k) ∧ Frame s t temps ∧
        (Covered s (k ::ₘ temps) → Covered t temps ∧ t.nodes = s.nodes.reap (s.used temps) (s.icache k).inum))
      (fun _ => False) s := by
  unfold iunlockput
  refine wp_then (wp_iunlock inv locked) ?_
  rintro _ t ⟨unlocked, quiet⟩
  refine wp_mono (wp_iput unlocked (by rw [(quiet 0).outstanding]; exact op)) ?_
    fun _ stopped => absurd stopped.2 (Finset.notMem_erase k locks)
  rintro _ u ⟨-, inv', frame, puts⟩
  refine ⟨inv', (quiet temps).toFrame.trans frame, fun covered => ?_⟩
  have result := puts (covered.quiet (quiet _))
  rwa [(quiet temps).nodes, (quiet temps).used_eq, (quiet (k ::ₘ temps)).inum (mem_cons_self k temps)] at result

theorem wp_iunlockput_others :
    wp (iunlockput k) (fun _ t => ∀ j, j ≠ k → t.icache j = s.icache j) (fun _ => True) s := by
  unfold iunlockput
  refine wp_seq (wp_iunlockEntry inv locked) (fun _ _ => trivial) ?_
  rintro _ t ⟨rfl, unlocked⟩
  have ref := unlocked.ref_pos (mem_cons_self k temps)
  refine wp_mono (wp_iputPut unlocked.disk (unlocked.cache.range k ref).2
    (fun valid => (unlocked.cache.cached k ref valid).1) op) ?_ fun _ _ => trivial
  rintro _ u ⟨-, disk, trace, ip, rfl, -⟩ j apart
  exact (update_of_ne apart ..).trans (update_of_ne apart ..)

end

end Put

end Xv6.Fs
