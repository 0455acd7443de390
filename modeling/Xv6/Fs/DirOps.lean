import Xv6.Fs.Nodes
import Xv6.Fs.Sysfile

/-! `dirlookup`, `dirlink` and `isdirempty` on a locked directory, and what they come to on
the table of nodes. -/

namespace Xv6.Fs
open Lib Function Nat List Dirent

namespace Nodes

/-- `dirlookup`, with the index of the entry found. -/
def dirlookup (nodes : Nodes) (used : Finset Nat) (d : Nat) (name : List UInt8) : Except Stop (Option Nat) :=
  match (nodes d).lookup name with
  | some i => if Full used ((nodes d).entry i).inum then .error (.panic "iget: no inodes") else .ok (some i)
  | none => if (nodes d).Aligned then .ok none else .error (.panic "dirlookup read")

def dirlink (nodes : Nodes) (used locked : Finset Nat) (d : Nat) (name : List UInt8) (inum : Nat) :
    Except Stop (Option Nodes) :=
  match nodes.dirlookup used d name with
  | .error e => .error e
  | .ok (some i) => if ((nodes d).entry i).inum ∈ locked then .error .deadlock else .ok none
  | .ok none =>
    if (nodes d).Accepts (Dirent.SIZE * (nodes d).vacant) Dirent.SIZE then
      .ok (some (update nodes d
        ((nodes d).setEntry (nodes d).vacant (encode ⟨inum, strncpy name DIRSIZ⟩))))
    else
      .error (.panic "dirlink")

end Nodes

section Lookup

variable {s : State} {temps : Multiset (Fin NINODE)} {locks : Finset (Fin NINODE)} {k : Fin NINODE} {node : Node}

def nodeAt (s : State) (k : Fin NINODE) : Node := s.nodes (s.icache k).inum

section

variable (inv : Inv s temps locks) (locked : k ∈ locks)
include inv locked

theorem Inv.nodeAt_eq : nodeAt s k = s.node (s.icache k).inum :=
  State.nodes_of_lt (inv.inum_range locked).2

theorem Inv.type_eq : (s.icache k).type = (nodeAt s k).type := by
  rw [inv.nodeAt_eq locked, (inv.dinode_eq locked).1]
  rfl

theorem Inv.size_eq : (s.icache k).size = (nodeAt s k).size := by
  rw [inv.nodeAt_eq locked, (inv.dinode_eq locked).1]
  rfl

theorem Inv.size_le (dir : (s.icache k).type = T_DIR) :
    (nodeAt s k).size ≤ MAXFILE * BSIZE := by
  obtain ⟨same, type⟩ := inv.dinode_eq locked
  rw [same] at dir type
  rw [inv.nodeAt_eq locked]
  exact (inv.disk.mapped _ (inv.inum_range locked).2 type (by rw [dir]; decide)).fits

theorem Inv.entry_lt (dir : (s.icache k).type = T_DIR) {i : Nat}
    (inside : i < (nodeAt s k).count) : ((nodeAt s k).entry i).inum < s.sb.ninodes := by
  have same := (inv.dinode_eq locked).1
  rw [inv.nodeAt_eq locked] at inside ⊢
  exact inv.disk.entries _ (inv.inum_range locked).2 (same ▸ dir) i (Node.entry_le_size inside)

end

structure Readable (s : State) (k : Fin NINODE) (node : Node) : Prop where
  size : (s.icache k).size = node.size
  bound : node.size ≤ MAXFILE * BSIZE
  reads : ∀ off n, wp (readi k off n) (fun r t => t = s ∧ r = node.read off n) (fun _ => False) s

theorem Inv.readable (inv : Inv s temps locks) (locked : k ∈ locks) (dir : (s.icache k).type = T_DIR) :
    Readable s k (nodeAt s k) where
  size := inv.size_eq locked
  bound := inv.size_le locked dir
  reads := fun off n => by
    refine wp_mono (wp_readi inv locked off n) ?_ fun _ none => none
    rintro r t ⟨-, result⟩
    rw [inv.nodeAt_eq locked]
    exact result (by rw [dir]; decide)

theorem wp_readDirent (readable : Readable s k node) (i : Nat) (message : String) :
    wp (readDirent k (Dirent.SIZE * i) message) (fun de t => t = s ∧ de = node.entry i ∧ i < node.count)
      (fun e => e = .panic message ∧ ¬ i < node.count) s := by
  have bound := readable.bound
  have limit : MAXFILE * BSIZE + Dirent.SIZE < 2 ^ 32 := by decide
  unfold readDirent
  refine wp_then (readable.reads _ _) ?_
  rintro r t ⟨rfl, rfl⟩
  unfold Node.read
  by_cases whole : i < node.count
  · have room := Node.entry_le_size whole
    rw [mul_succ] at room
    rw [if_neg (by rw [mod_eq_of_lt (by omega)]; omega), min_eq_left (by omega)]
    simp only [length_map, length_range, if_true]
    exact wp_pure.mpr ⟨rfl, rfl, whole⟩
  · have short : ¬ Dirent.SIZE * i + Dirent.SIZE ≤ node.size := fun room =>
      whole (Node.lt_count (by rw [mul_succ]; exact room))
    split
    next bytes found =>
      split at found
      · cases found
      next =>
        obtain rfl := Option.some.inj found
        rw [length_map, length_range, if_neg (by omega)]
        exact wp_panic.mpr ⟨rfl, whole⟩
    next => exact wp_panic.mpr ⟨rfl, whole⟩

theorem wp_dirlookupFrom (readable : Readable s k node)
    (name : List UInt8) (fuel i : Nat) (enough : node.size ≤ Dirent.SIZE * i + fuel)
    (before : i ≤ node.count) :
    wp (dirlookupFrom k name fuel (Dirent.SIZE * i)) (fun r t => t = s ∧
        r = ((range' i (node.count - i)).find? fun j => decide (node.Matches name j)).map
          (fun j => (Dirent.SIZE * j, (node.entry j).inum)) ∧ (r = none → node.Aligned))
      (fun e => e = .panic "dirlookup read" ∧ ¬ node.Aligned ∧
        ((range' i (node.count - i)).find? fun j => decide (node.Matches name j)) = none) s := by
  induction fuel generalizing i with
  | zero =>
    obtain ⟨aligned, rfl⟩ := Node.aligned_of_le before (by omega)
    unfold dirlookupFrom
    rw [wp_pure, Nat.sub_self]
    exact ⟨rfl, rfl, fun _ => aligned⟩
  | succ fuel ih =>
    unfold dirlookupFrom
    rw [wp_bind, wp_getInode, readable.size]
    split
    next inside =>
      refine wp_seq (wp_readDirent readable i _) ?_ ?_
      · rintro e ⟨message, short⟩
        refine ⟨message, Node.not_aligned short inside, ?_⟩
        rw [Nat.sub_eq_zero_of_le (Nat.le_of_not_lt short)]
        rfl
      rintro de t ⟨rfl, rfl, whole⟩
      have more : range' i (node.count - i) =
          i :: range' (i + 1) (node.count - (i + 1)) := by
        rw [show node.count - i = node.count - (i + 1) + 1 by omega, range'_succ]
      rw [more, find?_cons]
      split
      next here =>
        rw [decide_eq_true (show node.Matches name i from here)]
        exact wp_pure.mpr ⟨rfl, rfl, fun none => nomatch none⟩
      next other =>
        rw [decide_eq_false (show ¬ node.Matches name i from other)]
        exact ih (i + 1) (by rw [mul_succ, Dirent.SIZE] at *; omega) whole
    next outside =>
      obtain ⟨aligned, rfl⟩ := Node.aligned_of_le before (by omega)
      rw [wp_pure, Nat.sub_self]
      exact ⟨rfl, rfl, fun _ => aligned⟩

theorem Nodes.dirlookup_stops {nodes : Nodes} {used : Finset Nat} {d : Nat} {name : List UInt8} {e : Stop}
    (stopped : nodes.dirlookup used d name = .error e) : e = .panic "iget: no inodes" ∨ e = .panic "dirlookup read" := by
  unfold Nodes.dirlookup at stopped
  split at stopped
  · split at stopped <;> cases stopped
    exact .inl rfl
  · split at stopped <;> cases stopped
    exact .inr rfl

theorem wp_dirlookup (inv : Inv s temps locks) (locked : k ∈ locks) (dir : (s.icache k).type = T_DIR)
    (name : List UInt8) :
    wp (dirlookup k name) (fun r t =>
        match r with
        | some (l, off) => ∃ i, s.nodes.dirlookup (s.used temps) (s.icache k).inum name = .ok (some i) ∧
          off = Dirent.SIZE * i ∧ (t.icache l).inum = ((nodeAt s k).entry i).inum ∧
          Inv t (l ::ₘ temps) locks ∧ Quiet s t temps
        | none => s.nodes.dirlookup (s.used temps) (s.icache k).inum name = .ok none ∧ t = s)
      (fun e => s.nodes.dirlookup (s.used temps) (s.icache k).inum name = .error e) s := by
  unfold dirlookup
  rw [wp_bind, wp_getInode, if_neg (by rw [dir]; decide)]
  have scan := wp_dirlookupFrom (inv.readable locked dir) name (s.icache k).size 0
    (by rw [inv.size_eq locked]; omega) (Nat.zero_le _)
  rw [Nat.mul_zero, Nat.sub_zero, ← List.range_eq_range'] at scan
  refine wp_seq scan ?_ ?_
  · rintro e ⟨rfl, unaligned, missing⟩
    have none : (s.nodes (s.icache k).inum).lookup name = none := missing
    rw [Nodes.dirlookup, none]
    exact if_neg unaligned
  rintro r t ⟨rfl, result, aligned⟩
  change r = ((t.nodes (t.icache k).inum).lookup name).map _ at result
  cases found : (t.nodes (t.icache k).inum).lookup name with
  | none =>
    rw [found] at result
    subst result
    refine wp_pure.mpr ⟨?_, rfl⟩
    rw [Nodes.dirlookup, found]
    exact if_pos (aligned rfl)
  | some i =>
    rw [found] at result
    subst result
    obtain ⟨inside, nonzero, -⟩ := Node.lookup_some found
    refine wp_seq (wp_iget inv ⟨pos_of_ne_zero nonzero, inv.entry_lt locked dir inside⟩) ?_ ?_
    · rintro e ⟨rfl, full⟩
      rw [Nodes.dirlookup, found]
      exact if_pos full
    · rintro l u ⟨inv', quiet, inum, room⟩
      refine wp_pure.mpr ⟨i, ?_, rfl, inum, inv', quiet⟩
      rw [Nodes.dirlookup, found]
      exact if_neg room

theorem wp_emptyDirentFrom (readable : Readable s k node)
    (fuel i : Nat) (enough : node.size ≤ Dirent.SIZE * i + fuel) (before : i ≤ node.count) :
    wp (emptyDirentFrom k fuel (Dirent.SIZE * i)) (fun r t => t = s ∧
        r = Dirent.SIZE * ((range' i (node.count - i)).find? fun j =>
          decide ((node.entry j).inum = 0)).getD node.count)
      (fun e => e = .panic "dirlink read" ∧ ¬ node.Aligned) s := by
  induction fuel generalizing i with
  | zero =>
    obtain ⟨-, rfl⟩ := Node.aligned_of_le before (by omega)
    unfold emptyDirentFrom
    rw [wp_pure, Nat.sub_self]
    exact ⟨rfl, rfl⟩
  | succ fuel ih =>
    unfold emptyDirentFrom
    rw [wp_bind, wp_getInode, readable.size]
    split
    next inside =>
      refine wp_seq (wp_readDirent readable i _)
        (fun _ stopped => ⟨stopped.1, Node.not_aligned stopped.2 inside⟩) ?_
      rintro de t ⟨rfl, rfl, whole⟩
      have more : range' i (node.count - i) =
          i :: range' (i + 1) (node.count - (i + 1)) := by
        rw [show node.count - i = node.count - (i + 1) + 1 by omega, range'_succ]
      rw [more, find?_cons]
      split
      next here =>
        rw [decide_eq_true here]
        exact wp_pure.mpr ⟨rfl, rfl⟩
      next other =>
        rw [decide_eq_false other]
        exact ih (i + 1) (by rw [mul_succ, Dirent.SIZE] at *; omega) whole
    next outside =>
      obtain ⟨-, rfl⟩ := Node.aligned_of_le before (by omega)
      rw [wp_pure, Nat.sub_self]
      exact ⟨rfl, rfl⟩

theorem wp_writeEntry (inv : Inv s temps locks) (locked : k ∈ locks) (dir : (s.icache k).type = T_DIR)
    (op : 0 < s.outstanding) (i : Nat) (bytes : List UInt8) (length : bytes.length = Dirent.SIZE)
    (atMost : i ≤ (nodeAt s k).count) (inside : (decode bytes).inum < s.sb.ninodes) :
    wp (writei k bytes (Dirent.SIZE * i)) (fun r t => Inv t temps locks ∧ (∀ kept, Frame s t kept) ∧
        (∀ j, (t.icache j).type = (s.icache j).type) ∧
        ((nodeAt s k).Accepts (Dirent.SIZE * i) Dirent.SIZE → r = some Dirent.SIZE ∧
          t.nodes = update s.nodes (s.icache k).inum ((nodeAt s k).setEntry i bytes)) ∧
        (¬ (nodeAt s k).Accepts (Dirent.SIZE * i) Dirent.SIZE → r = none ∧ t = s))
      (fun e => e = .panic "balloc: out of blocks" ∧ (nodeAt s k).Accepts (Dirent.SIZE * i) Dirent.SIZE) s := by
  have file : (s.icache k).type ≠ T_DEV := by rw [dir]; decide
  have node := inv.nodeAt_eq locked
  refine wp_mono (wp_writei inv locked op bytes _ ?_) ?_ fun _ stopped => by rwa [← node, length] at stopped
  · intro _ _ l bound
    rw [← node] at bound ⊢
    exact Node.entry_setEntry_inum length atMost inside (fun l below => inv.entry_lt locked dir below) bound
  · rintro r t ⟨inv', change, -, accepted, refused⟩
    rw [← node, length] at accepted refused
    refine ⟨inv', fun kept => change.frame kept, change.type, fun accepts => ?_, refused file⟩
    obtain ⟨result, nodes⟩ := accepted file accepts
    exact ⟨result, nodes.nodes (change.frame 0).sb (inv.inum_range locked).2⟩

theorem Covered.setNode {t : State} {x : Nat} {node : Node} (covered : Covered s temps) (frame : Frame s t temps)
    (nodes : t.nodes = update s.nodes x node) (type : node.type = (s.nodes x).type)
    (nlink : node.nlink = 0 → (s.nodes x).nlink = 0) : Covered t temps := by
  refine covered.frame frame fun y type' nlink' => ?_
  rw [nodes] at type' nlink'
  by_cases same : y = x
  · rw [same, update_self] at type' nlink'
    rw [same]
    exact ⟨type ▸ type', nlink nlink'⟩
  · rw [update_of_ne same] at type' nlink'
    exact ⟨type', nlink'⟩

theorem Inv.mem_locks_iff {t : State} {l : Fin NINODE} (inv : Inv s temps locks) (inv' : Inv t (l ::ₘ temps) locks)
    (quiet : Quiet s t temps) : l ∈ locks ↔ (t.icache l).inum ∈ locks.image fun j => (s.icache j).inum := by
  have same : ∀ j ∈ locks, (t.icache j).inum = (s.icache j).inum := fun j member =>
    (quiet.kept j (by rw [← inv.refs.refs j]; exact (inv.refs.locked j member).1)).1
  rw [Finset.mem_image]
  constructor
  · exact fun member => ⟨l, member, (same l member).symm⟩
  · rintro ⟨j, member, here⟩
    rw [← same j member] at here
    have := inv'.cache.unique j l (inv'.refs.locked j member).1 (inv'.ref_pos (Multiset.mem_cons_self l temps)) here
    exact this ▸ member

theorem wp_dirlink (inv : Inv s temps locks) (locked : k ∈ locks) (dir : (s.icache k).type = T_DIR)
    (op : 0 < s.outstanding) (name : List UInt8) {inum : Nat} (inside : inum < s.sb.ninodes) :
    let link := s.nodes.dirlink (s.used temps) (locks.image fun j => (s.icache j).inum) (s.icache k).inum name inum
    wp (dirlink k name inum) (fun r t => Inv t temps locks ∧ Frame s t temps ∧
        (r = true → ∀ j, (t.icache j).type = (s.icache j).type) ∧ (Covered s temps → Covered t temps ∧
        link = .ok (if r then some t.nodes else none) ∧ (r = false → t.nodes = s.nodes)))
      (fun e => link = .error e ∨ (e = .panic "balloc: out of blocks" ∧ ∃ nodes, link = .ok (some nodes))) s := by
  intro link
  unfold dirlink
  refine wp_seq (wp_dirlookup inv locked dir name) ?_ ?_
  · intro e stopped
    exact .inl (by simp only [link, Nodes.dirlink, stopped])
  rintro (_ | ⟨l, off⟩) t result
  · obtain ⟨missing, rfl⟩ := result
    have absent : link = if (nodeAt t k).Accepts (Dirent.SIZE * (nodeAt t k).vacant) Dirent.SIZE then
        .ok (some (update t.nodes (t.icache k).inum ((nodeAt t k).setEntry (nodeAt t k).vacant
          (encode ⟨inum, strncpy name DIRSIZ⟩)))) else .error (.panic "dirlink") := by
      simp only [link, Nodes.dirlink, missing]
      rfl
    have aligned : (nodeAt t k).Aligned := by
      unfold Nodes.dirlookup at missing
      split at missing
      · split at missing <;> cases missing
      · split at missing
        next here => exact here
        next => cases missing
    have length : (encode ⟨inum, _⟩).length = _ := length_encode (length_strncpy name DIRSIZ)
    have scan := wp_emptyDirentFrom (inv.readable locked dir) (t.icache k).size 0
      (by rw [inv.size_eq locked]; omega) (Nat.zero_le _)
    rw [Nat.mul_zero, Nat.sub_zero, ← List.range_eq_range'] at scan
    rw [wp_bind, wp_getInode]
    refine wp_seq scan (fun _ stopped => absurd aligned stopped.2) ?_
    rintro _ u ⟨rfl, rfl⟩
    refine wp_seq (wp_writeEntry inv locked dir op _ _ length (Node.vacant_le _) ?_) ?_ ?_
    · rw [inum_decode_encode]
      exact lt_of_le_of_lt (mod_le _ _) inside
    · rintro e ⟨rfl, accepts⟩
      exact .inr ⟨rfl, _, absent.trans (if_pos accepts)⟩
    · rintro r t ⟨inv', frame, types, accepted, refused⟩
      by_cases accepts : (nodeAt u k).Accepts (Dirent.SIZE * (nodeAt u k).vacant) Dirent.SIZE
      · obtain ⟨rfl, nodes⟩ := accepted accepts
        rw [if_pos rfl]
        refine wp_pure.mpr ⟨inv', frame _, fun _ => types, fun covered => ⟨?_, ?_, fun wrong => nomatch wrong⟩⟩
        · exact covered.setNode (frame _) nodes rfl id
        · rw [absent, if_pos accepts, nodes]
          rfl
      · obtain ⟨rfl, rfl⟩ := refused accepts
        rw [if_neg (by simp)]
        exact wp_panic.mpr (.inl (absent.trans (if_neg accepts)))
  · obtain ⟨i, found, -, here, inv', quiet⟩ := result
    have present : link = if (t.icache l).inum ∈ locks.image (fun j => (s.icache j).inum) then .error .deadlock
        else .ok none := by
      simp only [link, Nodes.dirlink, found, here]
      rfl
    refine wp_seq (wp_iput inv' (by rw [quiet.outstanding]; exact op)) ?_ ?_
    · rintro e ⟨rfl, member⟩
      exact .inl (present.trans (if_pos ((inv.mem_locks_iff inv' quiet).mp member)))
    · rintro _ u ⟨unlocked, inv'', frame, puts⟩
      refine wp_pure.mpr ⟨inv'', quiet.toFrame.trans frame, fun wrong => (nomatch wrong), fun covered => ?_⟩
      have covered' := covered.quiet quiet
      obtain ⟨covered'', nodes⟩ := puts (covered'.cons l)
      rw [covered'.reap, quiet.nodes] at nodes
      refine ⟨covered'', present.trans (if_neg fun member => ?_), fun _ => nodes⟩
      exact unlocked ((inv.mem_locks_iff inv' quiet).mpr member)

theorem wp_isdirempty.loop (readable : Readable s k node)
    (fuel i : Nat) (enough : node.size ≤ Dirent.SIZE * i + fuel) :
    wp (isdirempty.loop k fuel (Dirent.SIZE * i)) (fun r t => t = s ∧
        (r = true ↔ (∀ j < node.count, i ≤ j → (node.entry j).inum = 0)) ∧
        (r = true → i ≤ node.count → node.Aligned))
      (fun e => e = .panic "isdirempty: readi" ∧ (i ≤ node.count ∧ ¬ node.Aligned) ∧
        ∀ j < node.count, i ≤ j → (node.entry j).inum = 0) s := by
  have finished : ∀ i, node.size ≤ Dirent.SIZE * i →
      ∀ j < node.count, i ≤ j → (node.entry j).inum = 0 := by
    intro i done j below past
    have whole := Node.entry_le_size below
    have order : Dirent.SIZE * i ≤ Dirent.SIZE * j := mul_le_mul_left _ past
    rw [mul_succ, Dirent.SIZE] at *
    omega
  induction fuel generalizing i with
  | zero =>
    unfold isdirempty.loop
    refine wp_pure.mpr ⟨rfl, ⟨fun _ => finished i enough, fun _ => rfl⟩, fun _ before => ?_⟩
    exact (Node.aligned_of_le before enough).1
  | succ fuel ih =>
    unfold isdirempty.loop
    rw [wp_bind, wp_getInode, readable.size]
    split
    next inside =>
      refine wp_seq (wp_readDirent readable i _) ?_ ?_
      · rintro e ⟨message, short⟩
        have atMost : i ≤ node.count :=
          (le_div_iff_mul_le (by decide)).mpr (by rw [mul_comm]; exact le_of_lt inside)
        refine ⟨message, ⟨atMost, Node.not_aligned short inside⟩, fun j below past => ?_⟩
        exact absurd (lt_of_le_of_lt past below) short
      rintro de t ⟨rfl, rfl, whole⟩
      split
      next taken =>
        refine wp_pure.mpr ⟨rfl, ⟨fun wrong => (nomatch wrong), fun none => ?_⟩, fun wrong => (nomatch wrong)⟩
        exact absurd (none i whole (le_refl i)) taken
      next vacant =>
        rw [not_not] at vacant
        have later : (∀ j < node.count, i + 1 ≤ j → (node.entry j).inum = 0) ↔
            ∀ j < node.count, i ≤ j → (node.entry j).inum = 0 := by
          refine ⟨fun later j below past => ?_, fun all j below past => all j below (by omega)⟩
          by_cases here : j = i
          · rw [here, vacant]
          · exact later j below (by omega)
        refine wp_mono (ih (i + 1) (by rw [mul_succ, Dirent.SIZE] at *; omega)) ?_ ?_
        · rintro r u ⟨rfl, iff, aligned⟩
          exact ⟨rfl, iff.trans later, fun done _ => aligned done whole⟩
        · exact fun e stopped => ⟨stopped.1, ⟨le_of_lt stopped.2.1.1, stopped.2.1.2⟩, later.mp stopped.2.2⟩
    next outside =>
      refine wp_pure.mpr ⟨rfl, ⟨fun _ => finished i (by omega), fun _ => rfl⟩, fun _ before => ?_⟩
      exact (Node.aligned_of_le before (by omega)).1

theorem wp_isdirempty (inv : Inv s temps locks) (locked : k ∈ locks) (dir : (s.icache k).type = T_DIR) :
    wp (isdirempty k) (fun r t => t = s ∧ (r = true ↔ (nodeAt s k).Empty) ∧
        (r = true → 2 ≤ (nodeAt s k).count → (nodeAt s k).Aligned))
      (fun e => e = .panic "isdirempty: readi" ∧ (2 ≤ (nodeAt s k).count ∧ ¬ (nodeAt s k).Aligned) ∧
        (nodeAt s k).Empty) s := by
  unfold isdirempty
  rw [wp_bind, wp_getInode]
  exact wp_isdirempty.loop (inv.readable locked dir) (s.icache k).size 2 (by rw [inv.size_eq locked]; omega)

end Lookup

end Xv6.Fs
