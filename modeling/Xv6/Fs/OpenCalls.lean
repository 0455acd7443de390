import Xv6.Fs.LinkCalls
import Xv6.Fs.ProcCalls

/-! `create`, and the system calls that open, make or enter something by its path. -/

namespace Xv6.Fs
open Lib Function
open Finset (erase_insert erase_insert_of_ne image_congr image_empty image_insert mem_insert_of_mem mem_insert_self mem_singleton notMem_empty)
open Multiset (cons_le_cons cons_swap count_cons_self count_le_count_cons mem_cons_of_mem mem_cons_self zero_le)

namespace Nodes

def ialloc (nodes : Nodes) (n : Nat) (used : Finset Nat) : Except Stop Nat :=
  match (List.range' 1 (n - 1)).find? fun x => decide ((nodes x).type = 0) with
  | none => .error (.panic "ialloc: no inodes")
  | some x => if Full used x then .error (.panic "iget: no inodes") else .ok x

def make (nodes : Nodes) (x type major minor : Nat) : Nodes :=
  Function.update nodes x { Node.new type with major := major % 2 ^ 16, minor := minor % 2 ^ 16, nlink := 1 }

def mustLink (nodes : Nodes) (used locked : Finset Nat) (d : Nat) (name : List UInt8) (inum : Nat) (message : String) :
    Except Stop Nodes :=
  match nodes.dirlink used locked d name inum with
  | .error e => .error e
  | .ok none => .error (.panic message)
  | .ok (some after) => .ok after

def dots (nodes : Nodes) (used : Finset Nat) (d x : Nat) : Except Stop Nodes :=
  match (nodes.relink d 1).mustLink used {x, d} x dot x "create dots" with
  | .error e => .error e
  | .ok after => after.mustLink used {x, d} x dotdot d "create dots"

/-- The entries that `create` writes for the new inode `x`. -/
def createLinks (nodes : Nodes) (used : Finset Nat) (d : Nat) (name : List UInt8) (x type : Nat) : Except Stop Nodes :=
  match if type = T_DIR then nodes.dots (insert x (insert d used)) d x else .ok nodes with
  | .error e => .error e
  | .ok made =>
    match made.mustLink (insert x (insert d used)) {x, d} d name x "create: dirlink" with
    | .error e => .error e
    | .ok after => .ok (after.reap (insert x used) d)

def createNew (nodes : Nodes) (n : Nat) (used : Finset Nat) (d : Nat) (name : List UInt8) (type major minor : Nat) :
    Except Stop (Nat × Nodes) :=
  match nodes.ialloc n (insert d used) with
  | .error e => .error e
  | .ok x =>
    match (nodes.make x type major minor).createLinks used d name x type with
    | .error e => .error e
    | .ok after => .ok (x, after)

def createOld (nodes : Nodes) (x type : Nat) : Except Stop (Option (Nat × Nodes)) :=
  if (nodes x).type = 0 then .error (.panic "ilock: no type")
  else if type = T_FILE ∧ (nodes x).type = T_FILE then .ok (some (x, nodes))
  else .ok none

/-- `create` on the nodes: the inode returned, and what has become of them. -/
def create (nodes : Nodes) (n : Nat) (used : Finset Nat) (cwd : Nat) (path : List UInt8) (type major minor : Nat) :
    Except Stop (Option (Nat × Nodes)) :=
  match nodes.resolve used cwd true path with
  | .error e => .error e
  | .ok none => .ok none
  | .ok (some (d, name)) =>
    match nodes.dirlookup (insert d used) d name with
    | .error e => .error e
    | .ok (some i) => nodes.createOld ((nodes d).entry i).inum type
    | .ok none =>
      match nodes.createNew n used d name type major minor with
      | .error e => .error e
      | .ok made => .ok (some made)

end Nodes

variable {stop : Stop → Prop} {type : Nat} {result : Except Stop (Option (Nat × Nodes))}

variable {s t : State} {temps : Multiset (Fin NINODE)} {locks : Finset (Fin NINODE)}
  {k cwd : Fin NINODE} {p : Fin NPROC} {α : Type}

section Create

variable {dp : Fin NINODE}

theorem firstFree_eq (s : State) : firstFree s 1 (s.sb.ninodes - 1) =
    (List.range' 1 (s.sb.ninodes - 1)).find? fun x => decide ((s.nodes x).type = 0) := by
  rw [firstFree, ← List.head?_filter, ← List.head?_filter]
  congr 1
  refine List.filter_congr fun x member => ?_
  have := List.mem_range'_1.mp member
  rw [State.nodes_of_lt (by omega)]

theorem Covered.addLocked {node : Node} (covered : Covered s temps) (frame : Frame s t temps) (inv : Inv t (k ::ₘ temps) locks)
    (locked : k ∈ locks) (nodes : t.nodes = update s.nodes (t.icache k).inum node) : Covered t (k ::ₘ temps) := by
  intro x type nlink
  by_cases same : x = (t.icache k).inum
  · exact ⟨k, by rw [count_cons_self]; omega, same.symm, (inv.refs.locked k locked).2⟩
  · rw [nodes, update_of_ne same] at type nlink
    obtain ⟨l, used, inum, valid⟩ := covered x type nlink
    obtain ⟨inum', valid'⟩ := frame.kept l used
    have more := count_le_count_cons l k temps
    exact ⟨l, by rw [frame.held_eq]; omega, inum'.trans inum, valid' valid⟩

variable {post : α → State → Prop}

theorem wp_mustLink {next : FsM α} {name : List UInt8} {inum : Nat}
    {message : String} {link : Except Stop Nodes} (inv : Inv s temps locks) (locked : k ∈ locks)
    (dir : (s.icache k).type = T_DIR) (op : 0 < s.outstanding) (inside : inum < s.sb.ninodes)
    (benign : (Stop.panic message).Benign)
    (same : link = s.nodes.mustLink (s.used temps) (locks.image fun j => (s.icache j).inum) (s.icache k).inum name inum message)
    (stops : ∀ e, e.Benign → (Covered s temps → link = .error e ∨ e = .panic "balloc: out of blocks") → stop e)
    (rest : ∀ t, Inv t temps locks → Frame s t temps → (∀ j, (t.icache j).type = (s.icache j).type) →
      (Covered s temps → Covered t temps ∧ link = .ok t.nodes) → wp next post stop t) :
    wp (do if ← dirlink k name inum then next else panic message) post stop s := by
  refine wp_seq (wp_dirlink inv locked dir op name inside) ?_ ?_
  · rintro e stopped
    refine stops e ?_ fun _ => ?_
    · obtain failed | ⟨rfl, -⟩ := stopped
      · exact Nodes.dirlink_benign failed
      · decide
    · obtain failed | ⟨rfl, -⟩ := stopped
      · exact .inl (by rw [same, Nodes.mustLink, failed])
      · exact .inr rfl
  · rintro r t ⟨inv', frame, types, result⟩
    refine wp_ite.mpr ⟨fun done => ?_, fun failed => ?_⟩
    · refine rest t inv' frame (types done) fun covered => ?_
      obtain ⟨covered', linked, -⟩ := result covered
      rw [if_pos done] at linked
      exact ⟨covered', by rw [same, Nodes.mustLink, linked]⟩
    · refine wp_panic.mpr (stops _ benign fun covered => ?_)
      obtain ⟨-, linked, -⟩ := result covered
      rw [if_neg failed] at linked
      exact .inl (by rw [same, Nodes.mustLink, linked])

theorem Frame.locked (frame : Frame s t temps) (inv : Inv s temps locks) :
    (locks.image fun j => (t.icache j).inum) = locks.image fun j => (s.icache j).inum := by
  refine image_congr fun j member => ?_
  have ref := (inv.refs.locked j member).1
  rw [inv.refs.refs j] at ref
  exact (frame.kept j ref).1

variable {x d : Nat}

theorem wp_createDots (inv : Inv s temps locks) (locked : k ∈ locks) (parent : dp ∈ locks) (memberK : k ∈ temps)
    (memberD : dp ∈ temps) (dir : (s.icache k).type = T_DIR) (op : 0 < s.outstanding)
    (here : (s.icache k).inum = x) (there : (s.icache dp).inum = d)
    (image : (locks.image fun j => (s.icache j).inum) = {x, d}) :
    let dots := s.nodes.dots (s.used temps) d x
    wp (createDots dp k) (fun _ t => Inv t temps locks ∧ Frame s t temps ∧ (∀ j, (t.icache j).type = (s.icache j).type) ∧
        (Covered s temps → Covered t temps ∧ dots = .ok t.nodes))
      (fun e => e.Benign ∧ (Covered s temps → dots = .error e ∨ e = .panic "balloc: out of blocks")) s := by
  intro dots
  have insideK : x < s.sb.ninodes := here ▸ inv.inum_lt memberK
  have insideD : d < s.sb.ninodes := there ▸ inv.inum_lt memberD
  unfold createDots
  rw [wp_bind, wp_getInode, wp_bind, wp_getInode]
  refine wp_relink inv parent op 1 fun t inv1 frame1 types1 nodes1 => ?_
  rw [there] at nodes1
  rw [here, there]
  have covered1 : Covered s temps → Covered t temps := fun covered =>
    covered.setLocked (frame1 _) memberD inv1 parent (by rw [there]; exact nodes1)
  have here1 : (t.icache k).inum = x := ((frame1 _).inum memberK).trans here
  have dir1 : (t.icache k).type = T_DIR := (types1 k).trans dir
  have first : (s.nodes.relink d 1).mustLink (s.used temps) {x, d} x dot x "create dots" =
      t.nodes.mustLink (t.used temps) (locks.image fun j => (t.icache j).inum) (t.icache k).inum dot x "create dots" := by
    rw [(frame1 _).locked inv, image, (frame1 _).used_eq, nodes1, here1]
  refine wp_mustLink inv1 locked dir1 (by rw [(frame1 0).outstanding]; exact op) (by rw [(frame1 0).sb]; exact insideK)
    (by decide) first ?_ ?_
  · intro e benign stopped
    refine ⟨benign, fun covered => (stopped (covered1 covered)).imp_left fun failed => ?_⟩
    simp only [dots, Nodes.dots, failed]
  · intro u inv2 frame2 types2 linked
    have frame12 := (frame1 _).trans frame2
    have here2 : (u.icache k).inum = x := (frame12.inum memberK).trans here
    have second : Covered s temps → dots = u.nodes.mustLink (u.used temps) (locks.image fun j => (u.icache j).inum)
        (u.icache k).inum dotdot d "create dots" := by
      intro covered
      obtain ⟨-, done⟩ := linked (covered1 covered)
      rw [frame12.locked inv, image, frame12.used_eq, here2]
      simp only [dots, Nodes.dots, done]
    refine wp_mustLink inv2 locked ((types2 k).trans dir1) (by rw [frame12.outstanding]; exact op)
      (by rw [frame12.sb]; exact insideD) (by decide) rfl ?_ ?_
    · intro e benign stopped
      refine ⟨benign, fun covered => ?_⟩
      rw [second covered]
      exact stopped (linked (covered1 covered)).1
    · intro v inv3 frame3 types3 linked'
      refine wp_pure.mpr ⟨inv3, frame12.trans frame3, fun j => (types3 j).trans ((types2 j).trans (types1 j)), fun covered => ?_⟩
      rw [second covered]
      exact linked' (linked (covered1 covered)).1

theorem wp_createLinks (name : List UInt8) (inv : Inv s (k ::ₘ dp ::ₘ 0) (insert k (insert dp ∅))) (apart : k ≠ dp)
    (op : 0 < s.outstanding) (new : (s.icache k).type = type) (dir : (s.icache dp).type = T_DIR)
    (here : (s.icache k).inum = x) (there : (s.icache dp).inum = d) :
    let links := s.nodes.createLinks (s.used 0) d name x type
    wp (do
        whenDir type (createDots dp k)
        if ← dirlink dp name x then
          iunlockput dp
        else
          panic "create: dirlink")
      (fun _ t => Inv t (k ::ₘ 0) (insert k ∅) ∧ Frame s t (k ::ₘ 0) ∧ (t.icache k).type = type ∧
        (Covered s (k ::ₘ dp ::ₘ 0) → Covered t (k ::ₘ 0) ∧ links = .ok t.nodes))
      (fun e => e.Benign ∧ (Covered s (k ::ₘ dp ::ₘ 0) → links = .error e ∨ e = .panic "balloc: out of blocks")) s := by
  intro links
  have memberK : k ∈ k ::ₘ dp ::ₘ (0 : Multiset (Fin NINODE)) := mem_cons_self ..
  have memberD : dp ∈ k ::ₘ dp ::ₘ (0 : Multiset (Fin NINODE)) := mem_cons_of_mem (mem_cons_self ..)
  have lockedK : k ∈ insert k (insert dp (∅ : Finset (Fin NINODE))) := mem_insert_self ..
  have lockedD : dp ∈ insert k (insert dp (∅ : Finset (Fin NINODE))) := mem_insert_of_mem (mem_insert_self ..)
  have used : s.used (k ::ₘ dp ::ₘ 0) = insert x (insert d (s.used 0)) := by
    rw [State.used_cons, State.used_cons, here, there]
  have image : ((insert k (insert dp (∅ : Finset (Fin NINODE)))).image fun j => (s.icache j).inum) = {x, d} := by
    rw [image_insert, image_insert, image_empty, here, there]
    rfl
  have first : wp (whenDir type (createDots dp k)) (fun _ t => Inv t (k ::ₘ dp ::ₘ 0) (insert k (insert dp ∅)) ∧
        Frame s t (k ::ₘ dp ::ₘ 0) ∧ (∀ j, (t.icache j).type = (s.icache j).type) ∧ (Covered s (k ::ₘ dp ::ₘ 0) →
          Covered t (k ::ₘ dp ::ₘ 0) ∧
          (if type = T_DIR then s.nodes.dots (insert x (insert d (s.used 0))) d x else .ok s.nodes) = .ok t.nodes))
      (fun e => e.Benign ∧ (Covered s (k ::ₘ dp ::ₘ 0) →
        (if type = T_DIR then s.nodes.dots (insert x (insert d (s.used 0))) d x else .ok s.nodes) = .error e ∨
          e = .panic "balloc: out of blocks")) s := by
    unfold whenDir
    split
    next isDir =>
      have dots := wp_createDots inv lockedK lockedD memberK memberD (new.trans isDir) op here there image
      rwa [used] at dots
    next =>
      exact wp_pure.mpr ⟨inv, (Quiet.refl ..).toFrame, fun _ => rfl, fun covered => ⟨covered, rfl⟩⟩
  refine wp_seq first ?_ ?_
  · rintro e ⟨benign, stopped⟩
    refine ⟨benign, fun covered => (stopped covered).imp_left fun failed => ?_⟩
    simp only [links, Nodes.createLinks, failed]
  rintro _ t ⟨inv1, frame1, types1, made⟩
  have inside : x < t.sb.ninodes := by
    rw [frame1.sb, ← here]
    exact inv.inum_lt memberK
  have there1 : (t.icache dp).inum = d := (frame1.inum memberD).trans there
  have next : Covered s (k ::ₘ dp ::ₘ 0) → links =
      match t.nodes.mustLink (t.used (k ::ₘ dp ::ₘ 0)) (Finset.image (fun j => (t.icache j).inum) (insert k (insert dp ∅)))
        (t.icache dp).inum name x "create: dirlink" with
      | .error e => .error e
      | .ok after => .ok (after.reap (insert x (s.used 0)) d) := by
    intro covered
    obtain ⟨-, done⟩ := made covered
    simp only [links, Nodes.createLinks, done]
    rw [frame1.used_eq, used, frame1.locked inv, image, there1]
  refine wp_mustLink inv1 lockedD ((types1 dp).trans dir) (by rw [frame1.outstanding]; exact op) inside (by decide) rfl ?_ ?_
  · intro e benign stopped
    refine ⟨benign, fun covered => (stopped (made covered).1).imp_left fun failed => ?_⟩
    rw [next covered, failed]
  · intro u inv2 frame2 types2 linked
    rw [cons_swap] at inv2
    have frame12 := frame1.trans frame2
    have op' : 0 < u.outstanding := by rw [frame12.outstanding]; exact op
    refine wp_mono (wp_and (wp_iunlockput inv2 lockedD op') (wp_iunlockput_others inv2 lockedD op')) ?_
      fun _ none => none.1.elim
    rintro _ v ⟨⟨inv3, frame3, puts⟩, others⟩
    have unlocked : (insert k (insert dp (∅ : Finset (Fin NINODE)))).erase dp = insert k ∅ := by
      rw [erase_insert_of_ne apart, erase_insert (notMem_empty dp)]
    rw [unlocked] at inv3
    have less : (k ::ₘ 0 : Multiset (Fin NINODE)) ≤ k ::ₘ dp ::ₘ 0 := cons_le_cons k (zero_le _)
    have type3 : (v.icache k).type = type := by rw [others k apart, types2, types1, new]
    refine ⟨inv3, (frame12.weaken less).trans frame3, type3, fun covered => ?_⟩
    obtain ⟨covered2, linked'⟩ := linked (made covered).1
    rw [cons_swap] at covered2
    obtain ⟨covered3, nodes3⟩ := puts covered2
    refine ⟨covered3, ?_⟩
    have used2 : u.used (k ::ₘ 0) = insert x (s.used 0) := by
      rw [(frame12.weaken less).used_eq, State.used_cons, here]
    rw [next covered, linked', nodes3, used2, frame12.inum memberD, there]

variable {major minor : Nat}

theorem wp_createFields {next : Inode → FsM α}
    (inv : Inv s temps locks) (member : k ∈ temps) (unlocked : k ∉ locks) (op : 0 < s.outstanding)
    (new : s.nodes (s.icache k).inum = Node.new type) (nonzero : type ≠ 0)
    (rest : ∀ ip t, ip.inum = (s.icache k).inum → Inv t temps (insert k locks) → Frame s t temps →
      (t.icache k).type = type → t.nodes = s.nodes.make (s.icache k).inum type major minor → wp (next ip) post stop t) :
    wp (do
      ilock k
      let ip ← getInode k
      setInode k { ip with major := major % 2 ^ 16, minor := minor % 2 ^ 16, nlink := 1 }
      iupdate k
      next ip) post stop s := by
  refine wp_seq (wp_ilock inv (inv.ref_pos member)) ?_ ?_
  · rintro e (⟨-, taken⟩ | ⟨-, -, zero⟩)
    · exact absurd taken unlocked
    · rw [new] at zero
      exact absurd zero nonzero
  rintro _ t ⟨-, -, inv1, quiet⟩
  have locked : k ∈ insert k locks := mem_insert_self ..
  have here : (t.icache k).inum = (s.icache k).inum := (quiet temps).inum member
  obtain ⟨same, -⟩ := inv1.dinode_eq locked
  have inside := (inv1.inum_range locked).2
  have typeK : (t.icache k).type = type := by
    rw [inv1.type_eq locked, nodeAt, (quiet 0).nodes, here, new]
    rfl
  have fits : ({ (t.icache k).toDinode with major := major % 2 ^ 16, minor := minor % 2 ^ 16, nlink := 1 } : Dinode).Fits := by
    have fits := fits_dinode t (t.icache k).inum
    rw [← same] at fits
    exact { fits with major := Nat.mod_lt _ (by decide), minor := Nat.mod_lt _ (by decide), nlink := Nat.one_lt_two_pow (by decide) }
  rw [wp_bind, wp_getInode, wp_bind, wp_setInode]
  refine wp_then (wp_iupdateFields inv1 locked (by rw [(quiet 0).outstanding]; exact op) fits rfl rfl rfl) ?_
  rintro _ u ⟨change, inv2, nodes⟩
  have nodes' : u.nodes = s.nodes.make (s.icache k).inum type major minor := by
    rw [nodes.nodes (change.frame 0).sb inside, ← State.nodes_of_lt inside, (quiet 0).nodes, here, new]
    rfl
  exact rest _ u here inv2 ((quiet temps).toFrame.trans (change.frame temps)) ((change.type k).trans typeK) nodes'

theorem wp_createNew (name : List UInt8) (inv : Inv s (dp ::ₘ 0) (insert dp ∅))
    (op : 0 < s.outstanding) (dir : (s.icache dp).type = T_DIR) (small : type < 2 ^ 16) (nonzero : type ≠ 0) :
    let made := s.nodes.createNew s.sb.ninodes (s.used 0) (s.icache dp).inum name type major minor
    wp (do
        let k ← ialloc type
        createEntry dp k name type major minor
        return some k)
      (fun r t => ∃ k, r = some k ∧ Inv t (k ::ₘ 0) (insert k ∅) ∧ Frame s t 0 ∧ (t.icache k).type = type ∧
        (Covered s (dp ::ₘ 0) → Covered t (k ::ₘ 0) ∧ made = .ok ((t.icache k).inum, t.nodes)))
      (fun e => e.Benign ∧ (Covered s (dp ::ₘ 0) → made = .error e ∨ e = .panic "balloc: out of blocks")) s := by
  intro made
  have lockedD : dp ∈ insert dp (∅ : Finset (Fin NINODE)) := mem_insert_self ..
  have memberD : dp ∈ dp ::ₘ (0 : Multiset (Fin NINODE)) := mem_cons_self ..
  have used := State.used_cons s 0 dp
  refine wp_seq (wp_ialloc inv op small) ?_ ?_
  · rw [firstFree_eq, used]
    rintro e (⟨rfl, missing⟩ | ⟨rfl, x, found, full⟩)
    · refine ⟨by decide, fun _ => .inl ?_⟩
      simp only [made, Nodes.createNew, Nodes.ialloc, missing]
    · refine ⟨by decide, fun _ => .inl ?_⟩
      simp only [made, Nodes.createNew, Nodes.ialloc, found, if_pos full]
  rintro k t ⟨x, found, room, inside, inv1, frame1, here, set1⟩
  have there : (t.icache dp).inum = (s.icache dp).inum := frame1.inum memberD
  have nodes1 := set1.nodes frame1.sb inside
  rw [firstFree_eq] at found
  rw [used] at room
  have taken : s.nodes.ialloc s.sb.ninodes (insert (s.icache dp).inum (s.used 0)) = .ok x := by
    simp only [Nodes.ialloc, found, if_neg room]
  have dirNode : (s.nodes (s.icache dp).inum).type = T_DIR := (inv.type_eq lockedD).symm.trans dir
  have apart : x ≠ (s.icache dp).inum := by
    rintro rfl
    have free := List.find?_some found
    rw [dirNode] at free
    cases free
  have distinct : k ≠ dp := by
    rintro rfl
    exact apart (here.symm.trans there)
  have memberK : k ∈ k ::ₘ dp ::ₘ (0 : Multiset (Fin NINODE)) := mem_cons_self ..
  have lockedK : k ∈ insert k (insert dp (∅ : Finset (Fin NINODE))) := mem_insert_self ..
  unfold createEntry
  rw [wp_bind]
  refine wp_createFields inv1 memberK (fun member => distinct (mem_singleton.mp member))
    (by rw [frame1.outstanding]; exact op) (by rw [here, nodes1, update_self]) nonzero ?_
  rintro ip u inum inv2 frame2 type2 nodes2
  have nodes2 : u.nodes = s.nodes.make x type major minor := by
    rw [nodes2, here, nodes1, Nodes.make, update_idem, Nodes.make]
  have here2 : (u.icache k).inum = x := (frame2.inum memberK).trans here
  have there2 : (u.icache dp).inum = (s.icache dp).inum := (frame2.inum (mem_cons_of_mem memberD)).trans there
  have typeD : (u.icache dp).type = T_DIR := by
    rw [inv2.type_eq (mem_insert_of_mem lockedD), nodeAt, nodes2, there2, Nodes.make, update_of_ne apart.symm]
    exact dirNode
  have frame : Frame s u (dp ::ₘ 0) := frame1.trans frame2.tail
  have covered2 : Covered s (dp ::ₘ 0) → Covered u (k ::ₘ dp ::ₘ 0) := fun covered =>
    covered.addLocked frame inv2 lockedK (by rw [here2]; exact nodes2)
  have links := wp_createLinks name inv2 distinct (by rw [frame.outstanding]; exact op) type2 typeD here2 there2
  rw [nodes2, frame.tail.used_eq] at links
  rw [inum, here]
  refine wp_mono links ?_ ?_
  · rintro _ v ⟨inv3, frame3, type3, linked⟩
    refine wp_pure.mpr ⟨k, rfl, inv3, frame.tail.trans frame3.tail, type3, fun covered => ?_⟩
    obtain ⟨covered3, done⟩ := linked (covered2 covered)
    refine ⟨covered3, ?_⟩
    have here3 : (v.icache k).inum = x := (frame3.inum (mem_cons_self ..)).trans here2
    simp only [made, Nodes.createNew, taken, done, here3]
  · rintro e ⟨benign, stopped⟩
    refine ⟨benign, fun covered => (stopped (covered2 covered)).imp_left fun failed => ?_⟩
    simp only [made, Nodes.createNew, taken, failed]

/-- What is left in `t` if `create` comes to `result` on the nodes of `s`. -/
def Created (s : State) (kind : Nat → Prop) (result : Except Stop (Option (Nat × Nodes))) : Option (Fin NINODE) → State → Prop
  | none, t => Inv t 0 ∅ ∧ Frame s t 0 ∧ (Covered s 0 → Covered t 0 ∧ t.nodes = s.nodes ∧ result = .ok none)
  | some k, t => Inv t (k ::ₘ 0) (insert k ∅) ∧ Frame s t 0 ∧ kind (t.icache k).type ∧
    (Covered s 0 → Covered t (k ::ₘ 0) ∧ result = .ok (some ((t.icache k).inum, t.nodes)))

theorem Created.after {u : State} {kind : Nat → Prop} {result' : Except Stop (Option (Nat × Nodes))} {r : Option (Fin NINODE)}
    (created : Created t kind result r u) (frame : Frame s t 0)
    (covered : Covered s 0 → Covered t 0 ∧ t.nodes = s.nodes ∧ result' = result) : Created s kind result' r u := by
  cases r with
  | none =>
    obtain ⟨inv, frame', failed⟩ := created
    refine ⟨inv, frame.trans frame', fun here => ?_⟩
    obtain ⟨there, nodes, same⟩ := covered here
    rw [same, ← nodes]
    exact failed there
  | some k =>
    obtain ⟨inv, frame', type, made⟩ := created
    refine ⟨inv, frame.trans frame', type, fun here => ?_⟩
    obtain ⟨there, -, same⟩ := covered here
    rw [same]
    exact made there

theorem Stops.after {result result' : Except Stop α} {e : Stop} (stops : Stops t result e)
    (covered : Covered s 0 → Covered t 0 ∧ result' = result) : Stops s result' e := by
  refine ⟨stops.1, fun here => ?_⟩
  obtain ⟨there, same⟩ := covered here
  rw [same]
  exact stops.2 there

theorem wp_createOld (inv : Inv s (dp ::ₘ k ::ₘ 0) (insert dp ∅)) (op : 0 < s.outstanding) :
    let result := s.nodes.createOld (s.icache k).inum type
    wp (do
        iunlockput dp
        ilock k
        let ip ← getInode k
        if type = T_FILE ∧ ip.type = T_FILE then
          return some k
        else do
          iunlockput k
          return none)
      (Created s (· = type) result) (Stops s result) s := by
  intro result
  have member : k ∈ k ::ₘ (0 : Multiset (Fin NINODE)) := mem_cons_self ..
  have locked : k ∈ insert k (∅ : Finset (Fin NINODE)) := mem_insert_self ..
  refine wp_then (wp_iunlockput inv (mem_insert_self ..) op) ?_
  rintro _ t ⟨inv1, frame1, puts1⟩
  rw [erase_insert (notMem_empty dp)] at inv1
  have still : Covered s 0 → Covered t (k ::ₘ 0) ∧ t.nodes = s.nodes := fun covered => (covered.cons k).kept puts1
  have here : (t.icache k).inum = (s.icache k).inum := frame1.inum member
  refine wp_seq (wp_ilock inv1 (inv1.ref_pos member)) ?_ ?_
  · rintro e (⟨-, taken⟩ | ⟨rfl, -, zero⟩)
    · exact absurd taken (notMem_empty k)
    · refine ⟨by decide, fun covered => .inl ?_⟩
      obtain ⟨-, nodes⟩ := still covered
      rw [here, nodes] at zero
      exact if_pos zero
  rintro _ u ⟨-, type1, inv2, quiet⟩
  have frame : Frame s u (k ::ₘ 0) := frame1.trans (quiet _).toFrame
  have still2 : Covered s 0 → Covered u (k ::ₘ 0) ∧ u.nodes = s.nodes := fun covered => by
    obtain ⟨covered', nodes⟩ := still covered
    exact ⟨covered'.quiet (quiet _), (quiet 0).nodes.trans nodes⟩
  have here2 : (u.icache k).inum = (s.icache k).inum := frame.inum member
  have type2 : (u.icache k).type = (u.nodes (s.icache k).inum).type := by
    rw [inv2.type_eq locked, nodeAt, here2]
  have nonzero : Covered s 0 → (s.nodes (s.icache k).inum).type ≠ 0 := fun covered => by
    rwa [here, (still covered).2] at type1
  rw [wp_bind, wp_getInode]
  refine wp_ite.mpr ⟨fun file => ?_, fun other => ?_⟩
  · refine wp_pure.mpr ⟨inv2, frame.tail, file.2.trans file.1.symm, fun covered => ?_⟩
    obtain ⟨covered', nodes⟩ := still2 covered
    rw [type2, nodes] at file
    rw [here2, nodes]
    exact ⟨covered', (if_neg (nonzero covered)).trans (if_pos file)⟩
  · refine wp_then (wp_iunlockput inv2 locked (by rw [frame.outstanding]; exact op)) ?_
    rintro _ v ⟨inv3, frame3, puts3⟩
    rw [erase_insert (notMem_empty k)] at inv3
    refine wp_pure.mpr ⟨inv3, frame.tail.trans frame3, fun covered => ?_⟩
    obtain ⟨-, nodes⟩ := still2 covered
    have covered2 : Covered u 0 := covered.same frame.tail nodes
    obtain ⟨covered3, nodes3⟩ := covered2.kept puts3
    rw [type2, nodes] at other
    exact ⟨covered3, nodes3.trans nodes, (if_neg (nonzero covered)).trans (if_neg other)⟩

theorem wp_create (inv : Inv s 0 ∅) (op : 0 < s.outstanding) (here : (s.procs p).cwd = some cwd) (path : Path)
    (major minor : Nat) (small : type < 2 ^ 16) (nonzero : type ≠ 0) :
    let result := s.nodes.create s.sb.ninodes (s.used 0) (s.icache cwd).inum path.bytes type major minor
    wp (create p path type major minor) (Created s (· = type) result) (Stops s result) s := by
  intro result
  unfold create
  refine wp_parentLock inv op here (fun _ _ => rfl) ?_ ?_ ?_
  · intro t inv1 frame missing
    refine wp_pure.mpr ⟨inv1, frame, fun covered => ?_⟩
    obtain ⟨covered', nodes, none⟩ := missing covered
    exact ⟨covered', nodes, by simp only [result, Nodes.create, none]⟩
  · intro dp name t inv1 frame dir found
    have locked : dp ∈ insert dp (∅ : Finset (Fin NINODE)) := mem_insert_self ..
    have member : dp ∈ dp ::ₘ (0 : Multiset (Fin NINODE)) := mem_cons_self ..
    have op1 : 0 < t.outstanding := by rw [frame.outstanding]; exact op
    have used : t.used (dp ::ₘ 0) = insert (t.icache dp).inum (s.used 0) := by
      rw [State.used_cons, frame.used_eq]
    refine wp_seq (wp_dirlookup inv1 locked dir name) ?_ ?_
    · intro e stopped
      refine ⟨by obtain rfl | rfl := Nodes.dirlookup_stops stopped <;> decide, fun covered => .inl ?_⟩
      obtain ⟨-, nodes, parent⟩ := found covered
      rw [used, nodes] at stopped
      simp only [result, Nodes.create, parent, stopped]
    · rintro (_ | ⟨k, off⟩) u looked
      · obtain ⟨absent, rfl⟩ := looked
        refine wp_mono (wp_createNew name inv1 op1 dir small nonzero) ?_ ?_
        · rintro _ v ⟨k, rfl, inv2, frame2, type2, made⟩
          refine ⟨inv2, frame.trans frame2, type2, fun covered => ?_⟩
          obtain ⟨covered', nodes, parent⟩ := found covered
          obtain ⟨covered2, done⟩ := made (covered'.cons dp)
          rw [used, nodes] at absent
          rw [nodes, frame.sb, frame.used_eq] at done
          exact ⟨covered2, by simp only [result, Nodes.create, parent, absent, done]⟩
        · rintro e ⟨benign, stopped⟩
          refine ⟨benign, fun covered => ?_⟩
          obtain ⟨covered', nodes, parent⟩ := found covered
          refine (stopped (covered'.cons dp)).imp_left fun failed => ?_
          rw [used, nodes] at absent
          rw [nodes, frame.sb, frame.used_eq] at failed
          simp only [result, Nodes.create, parent, absent, failed]
      · obtain ⟨i, present, -, inum, inv2, quiet⟩ := looked
        rw [cons_swap] at inv2
        have frame2 : Frame s u 0 := frame.trans quiet.toFrame.tail
        have old : Covered s 0 → Covered u 0 ∧ u.nodes = s.nodes ∧ result = u.nodes.createOld (u.icache k).inum type := by
          intro covered
          obtain ⟨covered', nodes, parent⟩ := found covered
          have nodes2 : u.nodes = s.nodes := quiet.nodes.trans nodes
          rw [used, nodes] at present
          refine ⟨covered'.same quiet.toFrame.tail quiet.nodes, nodes2, ?_⟩
          simp only [result, Nodes.create, parent, present]
          rw [inum, nodeAt, nodes, nodes2]
        refine wp_mono (wp_createOld inv2 (by rw [frame2.outstanding]; exact op)) ?_ ?_
        · exact fun r v created => created.after frame2 old
        · exact fun e stops => stops.after fun covered => ⟨(old covered).1, (old covered).2.2⟩
  · intro e benign stopped
    exact ⟨benign, fun covered => .inl (by simp only [result, Nodes.create, stopped covered])⟩

end Create

def Nodes.createAndPut (nodes : Nodes) (n : Nat) (used : Finset Nat) (cwd : Nat)
    (path : Option (List UInt8)) (type major minor : Nat) : Except Stop (Option Nodes) :=
  match path with
  | none => .ok none
  | some path =>
    match nodes.create n used cwd path type major minor with
    | .error e => .error e
    | .ok none => .ok none
    | .ok (some (x, after)) => .ok (some (after.reap used x))

section Mkdir

theorem wp_createAndPut (rest : AtRest s) (here : (s.procs p).cwd = some cwd) (path : Option Path)
    (major minor : Nat) (small : type < 2 ^ 16) (nonzero : type ≠ 0) :
    let made := s.nodes.createAndPut s.sb.ninodes (s.used 0) (s.icache cwd).inum (path.map Path.bytes) type
      major minor
    wp (createAndPut p path type major minor) (fun r t => Done s t (Outcome made r)) (Stops s made) s := by
  intro made
  unfold createAndPut
  rw [wp_bind, wp_beginOp]
  cases path with
  | none =>
    rw [wp_bind, wp_endOp, wp_pure]
    exact (Frame.refl ..).done rest rest.inv.begun fun covered => ⟨covered.begun, .fails rfl _⟩
  | some path =>
  have creates := wp_create rest.inv.begun (Nat.succ_pos _) here path major minor small nonzero
  simp only [begun_sb, begun_nodes, begun_used, begun_icache] at creates
  refine wp_seq creates ?_ ?_
  · rintro e ⟨benign, stopped⟩
    refine ⟨benign, fun covered => (stopped covered.begun).imp_left fun failed => ?_⟩
    simp only [made, Option.map_some, Nodes.createAndPut, failed]
  · rintro (_ | k) t created
    · obtain ⟨inv, frame, missing⟩ := created
      rw [wp_bind, wp_endOp, wp_pure]
      refine frame.done rest inv fun covered => ?_
      obtain ⟨covered', nodes, failed⟩ := missing covered.begun
      rw [nodes]
      exact ⟨covered', .fails (by simp only [made, Option.map_some, Nodes.createAndPut, failed]) _⟩
    · obtain ⟨inv, frame, -, done⟩ := created
      refine wp_then (wp_iunlockput inv (mem_insert_self ..) frame.op) ?_
      rintro _ u ⟨inv', frame', puts⟩
      rw [erase_insert (notMem_empty k)] at inv'
      rw [wp_bind, wp_endOp, wp_pure]
      refine (frame.trans frame').done rest inv' fun covered => ?_
      obtain ⟨covered', made'⟩ := done covered.begun
      obtain ⟨covered'', nodes⟩ := puts covered'
      refine ⟨covered'', .succeeds ?_⟩
      rw [nodes, frame.used_eq]
      simp only [made, Option.map_some, Nodes.createAndPut, made', begun_used]

theorem wp_sysMkdir (rest : AtRest s) (here : (s.procs p).cwd = some cwd) (path : Option Path) :
    let made := s.nodes.createAndPut s.sb.ninodes (s.used 0) (s.icache cwd).inum (path.map Path.bytes) T_DIR 0 0
    wp (sysMkdir p path) (fun r t => Done s t (Outcome made r)) (Stops s made) s :=
  wp_createAndPut rest here path 0 0 (by decide) (by decide)

theorem wp_sysMknod (rest : AtRest s) (here : (s.procs p).cwd = some cwd) (path : Option Path) (major minor : Nat) :
    let made := s.nodes.createAndPut s.sb.ninodes (s.used 0) (s.icache cwd).inum (path.map Path.bytes) T_DEV major
      minor
    wp (sysMknod p path major minor) (fun r t => Done s t (Outcome made r)) (Stops s made) s :=
  wp_createAndPut rest here path major minor (by decide) (by decide)

end Mkdir

def Nodes.openInode (nodes : Nodes) (n : Nat) (used : Finset Nat) (cwd : Nat) (path : List UInt8) (omode : Nat) :
    Except Stop (Option (Nat × Nodes)) :=
  if omode &&& O_CREATE ≠ 0 then
    nodes.create n used cwd path T_FILE 0 0
  else
    match nodes.namei used cwd path with
    | .error e => .error e
    | .ok none => .ok none
    | .ok (some x) => if (nodes x).type = T_DIR ∧ omode ≠ O_RDONLY then .ok none else .ok (some (x, nodes))

def Room (s : State) (p : Fin NPROC) : Prop := (∃ f, (s.ftable f).ref = 0) ∧ ∃ fd, (s.procs p).ofile fd = none

def Opened (result : Except Stop (Option (Nat × Nodes))) (used : Finset Nat) (room : Prop) (r : Int) (nodes after : Nodes) : Prop :=
  (result = .ok none ∧ r = -1 ∧ after = nodes) ∨
    ∃ x made, result = .ok (some (x, made)) ∧
      ((room ∧ 0 ≤ r ∧ after = made) ∨ (¬ room ∧ r = -1 ∧ after = made.reap used x))

/-- What is open and what the processes hold is for the same inodes as before. -/
structure Undisturbed (s t : State) : Prop where
  procs : t.procs = s.procs
  ftable : t.ftable = s.ftable
  inum : ∀ k, 0 < held s k → (t.icache k).inum = (s.icache k).inum

section Open

variable {f : Fin NFILE} {fd : Fin NOFILE}

theorem Frame.undisturbed (frame : Frame (begun s) t temps) : Undisturbed s (ended t) :=
  ⟨frame.procs, frame.ftable, fun k used => (frame.kept k (Nat.lt_of_lt_of_le used (Nat.le_add_right ..))).1⟩

theorem wp_openInode (inv : Inv s 0 ∅) (op : 0 < s.outstanding) (here : (s.procs p).cwd = some cwd) (path : Path) (omode : Nat) :
    let result := s.nodes.openInode s.sb.ninodes (s.used 0) (s.icache cwd).inum path.bytes omode
    wp (openInode p path omode) (Created s (fun type => type = T_DIR → omode = O_RDONLY) result) (Stops s result) s := by
  intro result
  unfold openInode
  split
  next creates =>
    have same : result = s.nodes.create s.sb.ninodes (s.used 0) (s.icache cwd).inum path.bytes T_FILE 0 0 := if_pos creates
    rw [same]
    refine wp_mono (wp_create inv op here path 0 0 (by decide) (by decide)) ?_ fun _ stops => stops
    rintro (_ | k) t created
    · exact created
    · obtain ⟨inv', frame, type, made⟩ := created
      refine ⟨inv', frame, fun dir => ?_, made⟩
      rw [type] at dir
      cases dir
  next plain =>
    have same : result = match s.nodes.namei (s.used 0) (s.icache cwd).inum path.bytes with
      | .error e => .error e
      | .ok none => .ok none
      | .ok (some x) => if (s.nodes x).type = T_DIR ∧ omode ≠ O_RDONLY then .ok none else .ok (some (x, s.nodes)) :=
      if_neg plain
    refine wp_nameiLock inv op here (fun _ => rfl) ?_ ?_ ?_
    · intro t inv' frame found
      refine wp_pure.mpr ⟨inv', frame, fun covered => ?_⟩
      obtain ⟨covered', nodes, missing⟩ := found covered
      exact ⟨covered', nodes, by rw [same, missing]⟩
    · intro k t inv' frame found
      have locked := mem_insert_self k ∅
      have type := inv'.type_eq locked
      rw [wp_bind, wp_getInode]
      refine wp_ite.mpr ⟨fun refused => ?_, fun allowed => ?_⟩
      · refine wp_then (wp_iunlockput inv' locked (by rw [frame.outstanding]; exact op)) ?_
        rintro _ u ⟨inv'', frame', puts⟩
        rw [erase_insert (notMem_empty k)] at inv''
        refine wp_pure.mpr ⟨inv'', frame.trans frame', fun covered => ?_⟩
        obtain ⟨covered', nodes, present⟩ := found covered
        obtain ⟨covered'', nodes'⟩ := covered'.kept puts
        rw [type, nodeAt, nodes] at refused
        refine ⟨covered'', nodes'.trans nodes, ?_⟩
        rw [same, present]
        exact if_pos refused
      · refine wp_pure.mpr ⟨inv', frame, fun dir => ?_, fun covered => ?_⟩
        · by_contra mode
          exact allowed ⟨dir, mode⟩
        · obtain ⟨covered', nodes, present⟩ := found covered
          rw [type, nodeAt, nodes] at allowed
          refine ⟨covered'.cons k, ?_⟩
          rw [same, present, nodes]
          exact if_neg allowed
    · intro e benign stopped
      exact ⟨benign, fun covered => .inl (by rw [same, stopped covered])⟩

theorem closedFile_withRef (type : (s.ftable f).type = .none) (ref : (s.ftable f).ref = 0) :
    closedFile (withRef s f 1) f = s := by
  have same : ({ s.ftable f with ref := 0, type := .none } : File) = s.ftable f := by rw [← type, ← ref]
  unfold closedFile withRef File.closed
  simp only [update_self, update_idem]
  rw [same, update_eq_self]

theorem wp_openUndo (rest : AtRest s) (inv : Inv t (k ::ₘ 0) (insert k ∅)) (frame : Frame (begun s) t 0)
    (full : ¬ Room s p)
    (made : Covered s 0 → Covered t (k ::ₘ 0) ∧ result = .ok (some ((t.icache k).inum, t.nodes))) :
    wp (do iunlockput k; endOp; return (-1 : Int))
      (fun r u => Done s u (Opened result (s.used 0) (Room s p) r) ∧ (r = -1 → Undisturbed s u)) (fun _ => False) t := by
  refine wp_then (wp_iunlockput inv (mem_insert_self ..) frame.op) ?_
  rintro _ u ⟨inv', frame', puts⟩
  rw [erase_insert (notMem_empty k)] at inv'
  rw [wp_bind, wp_endOp, wp_pure]
  refine ⟨(frame.trans frame').done rest inv' fun covered => ?_, fun _ => (frame.trans frame').undisturbed⟩
  obtain ⟨covered', opened⟩ := made covered
  obtain ⟨covered'', nodes⟩ := puts covered'
  rw [frame.used_eq, begun_used] at nodes
  exact ⟨covered'', .inr ⟨_, _, opened, .inr ⟨full, rfl, nodes⟩⟩⟩

def openedFile (file : File) (k : Fin NINODE) (omode : Nat) : File :=
  { file with
    type := .inode, ip := k, off := 0,
    readable := decide (omode &&& O_WRONLY = 0),
    writable := decide (omode &&& O_WRONLY ≠ 0 ∨ omode &&& O_RDWR ≠ 0) }

def openedAt (s : State) (f : Fin NFILE) (k : Fin NINODE) (omode : Nat) : State :=
  { s with ftable := Function.update s.ftable f (openedFile (s.ftable f) k omode) }

variable {omode : Nat}

theorem wp_setOpened {post : Unit → State → Prop} :
    wp (setFile f { s.ftable f with
        type := .inode, ip := k, off := 0,
        readable := decide (omode &&& O_WRONLY = 0),
        writable := decide (omode &&& O_WRONLY ≠ 0 ∨ omode &&& O_RDWR ≠ 0) }) post stop s ↔
      post () (openedAt s f k omode) := wp_of_ok rfl

theorem holds_openedFile {file : File} (type : file.type = .none) (k : Fin NINODE) (omode : Nat) (j : Fin NINODE) :
    (openedFile file k omode).holds j + (0 : Multiset (Fin NINODE)).count j = file.holds j + (k ::ₘ 0).count j := by
  have opened : (openedFile file k omode).type = .inode := rfl
  have before : file.holds j = 0 := File.holds_none (by rw [type]; decide) j
  rw [before, Nat.zero_add]
  exact (File.holds_cons opened j).symm

theorem Rebound.openFile (type : (s.ftable f).type = .none) (k : Fin NINODE) (omode : Nat) :
    Rebound s (openedAt s f k omode) (k ::ₘ 0) 0 := .setFile (holds_openedFile type k omode)

theorem Inv.openFile (inv : Inv s (k ::ₘ 0) ∅) (type : (s.ftable f).type = .none) (ref : (s.ftable f).ref ≠ 0)
    (allocated : (s.nodes (s.icache k).inum).type ≠ 0)
    (readOnly : (s.nodes (s.icache k).inum).type = T_DIR → omode = O_RDONLY) : Inv (openedAt s f k omode) 0 ∅ := by
  have same := inv.type_nodes (inv.ref_pos (mem_cons_self k 0))
  rw [same] at allocated readOnly
  refine inv.setFile (holds_openedFile type k omode) (fun _ => ⟨allocated, fun writable dir => ?_⟩)
    fun zero => absurd zero ref
  have writable := of_decide_eq_true writable
  rw [readOnly dir] at writable
  revert writable
  decide

theorem FileInv.openFile {count : Fin NFILE → Nat} (files : FileInv s count) (type : (s.ftable f).type = .none)
    (k : Fin NINODE) (omode : Nat) : FileInv (openedAt s f k omode) count := by
  have opened : FileInv (openedAt s f k omode) (update count f (openedFile (s.ftable f) k omode).ref) := by
    refine files.setFile fun page writable => ?_
    have none : ¬ ((s.ftable f).type = .pipe ∧ (s.ftable f).pipe = page ∧ (s.ftable f).writable = writable) := fun both => by
      rw [type] at both
      exact nomatch both.1
    exact (if_neg fun both => nomatch both.1).trans (if_neg none).symm
  have same : (openedFile (s.ftable f) k omode).ref = count f := files.refs f
  rw [same, update_eq_self] at opened
  exact opened

theorem wp_openFile (rest : AtRest s) (alive : (s.procs p).cwd ≠ none) (inv : Inv t (k ::ₘ 0) (insert k ∅))
    (frame : Frame (begun s) t 0) (readOnly : (t.icache k).type = T_DIR → omode = O_RDONLY) (type : (t.ftable f).type = .none)
    (zero : slots s f = 0) (free : ((withRef t f 1).procs p).ofile fd = none)
    (made : Covered s 0 → Covered t (k ::ₘ 0) ∧ result = .ok (some ((t.icache k).inum, t.nodes))) :
    wp (do
        iunlock k
        endOp
        let file ← getFile f
        setFile f { file with
          type := .inode, ip := k, off := 0,
          readable := decide (omode &&& O_WRONLY = 0),
          writable := decide (omode &&& O_WRONLY ≠ 0 ∨ omode &&& O_RDWR ≠ 0) }
        return (fd.val : Int))
      (fun r u => Done s u (Opened result (s.used 0) (Room s p) r) ∧ (r = -1 → Undisturbed s u)) (fun _ => False)
      (withSlot (withRef t f 1) p fd (some f)) := by
  have locked : k ∈ insert k (∅ : Finset (Fin NINODE)) := mem_insert_self ..
  have inv1 : Inv (withSlot (withRef t f 1) p fd (some f)) (k ::ₘ 0) (insert k ∅) :=
    (inv.withRef 1 fun wrong => nomatch wrong).withSlot _
  refine wp_then (wp_iunlock inv1 locked) ?_
  rintro _ u ⟨inv2, quiet⟩
  rw [erase_insert (notMem_empty k)] at inv2
  have file : (u.ftable f).type = .none ∧ (u.ftable f).ref = 1 := by
    rw [(quiet 0).ftable]
    simp only [withSlot, withRef, update_self, type, and_self]
  have nodes : u.nodes = t.nodes := (quiet 0).nodes
  have inum : (u.icache k).inum = (t.icache k).inum := (quiet _).inum (mem_cons_self k 0)
  have kind : (u.nodes (u.icache k).inum).type = (t.icache k).type := by
    rw [nodes, inum, inv.type_eq locked, nodeAt]
  have count : slots u = update (slots s) f 1 := by
    have same : slots (withRef t f 1) = slots s := slots_congr frame.procs
    rw [slots_congr (quiet 0).procs, slots_open free, same, zero]
  have files : FileInv t (slots s) := rest.files.same frame.ftable frame.pipes
  have files2 : FileInv u (slots u) := by
    rw [count]
    exact (files.withRef 1).same (quiet 0).ftable (quiet 0).pipes
  rw [wp_bind, wp_endOp, wp_bind, wp_getFile, wp_bind, wp_setOpened, wp_pure]
  have same : slots (openedAt (ended u) f k omode) = slots u := slots_congr rfl
  refine ⟨⟨⟨?_, ?_, ?_⟩, ⟨(quiet 0).sb.trans frame.sb, ?_, ?_⟩, fun covered => ?_⟩, fun wrong => by omega⟩
  · exact inv2.ended.openFile file.1 (by rw [show (ended u).ftable = u.ftable from rfl, file.2]; decide)
      (by rw [show (ended u).nodes = u.nodes from rfl]; exact kind ▸ (inv.dinode_eq locked).2) (kind ▸ readOnly)
  · rw [same]
    exact files2.ended.openFile file.1 k omode
  · change ∀ q, (u.procs q).cwd = none → ∀ i, (u.procs q).ofile i = none
    rw [(quiet 0).procs]
    refine idle_withSlot ?_ ?_ _
    · change ∀ q, (t.procs q).cwd = none → ∀ i, (t.procs q).ofile i = none
      rw [frame.procs]
      exact rest.idle
    · change (t.procs p).cwd ≠ none
      rw [frame.procs]
      exact alive
  · rw [← frame.returned.outstanding]
    exact congrArg (· - 1) (quiet 0).outstanding
  · have silent : Event.endOp :: u.trace = (ended t).trace := congrArg (Event.endOp :: ·) (quiet 0).silent
    change Traced false false s.trace (Event.endOp :: u.trace)
    rw [silent]
    exact frame.returned.trace
  · obtain ⟨covered1, opened⟩ := made covered
    have rebound : Rebound t (withSlot (withRef t f 1) p fd (some f)) (k ::ₘ 0) (k ::ₘ 0) :=
      (Rebound.withRef ..).trans (.withSlot ..)
    have room : Room s p := by
      refine ⟨⟨f, by rw [rest.files.refs, zero]⟩, fd, ?_⟩
      change (t.procs p).ofile fd = none at free
      rw [frame.procs] at free
      exact free
    have covered2 : Covered (ended u) (k ::ₘ 0) := ((rebound.covered covered1).quiet (quiet _)).ended
    refine ⟨(Rebound.openFile file.1 k omode).covered covered2, .inr ⟨_, _, opened, .inl ⟨room, ?_, nodes⟩⟩⟩
    exact Int.natCast_nonneg _

theorem wp_sysOpen (rest : AtRest s) (here : (s.procs p).cwd = some cwd) (path : Path) (omode : Nat) :
    let result := s.nodes.openInode s.sb.ninodes (s.used 0) (s.icache cwd).inum path.bytes omode
    wp (sysOpen p path omode)
      (fun r t => Done s t (Opened result (s.used 0) (Room s p) r) ∧ (r = -1 → Undisturbed s t)) (Stops s result) s := by
  intro result
  have opens := wp_openInode rest.inv.begun (Nat.succ_pos _) here path omode
  simp only [begun_sb, begun_nodes, begun_used, begun_icache] at opens
  unfold sysOpen
  rw [wp_bind, wp_beginOp]
  refine wp_seq opens (fun e stops => stops) ?_
  rintro (_ | k) t created
  · obtain ⟨inv, frame, missing⟩ := created
    rw [wp_bind, wp_endOp, wp_pure]
    refine ⟨frame.done rest inv fun covered => ?_, fun _ => frame.undisturbed⟩
    obtain ⟨covered', nodes, failed⟩ := missing covered.begun
    exact ⟨covered', .inl ⟨failed, rfl, nodes⟩⟩
  obtain ⟨inv, frame, readOnly, made⟩ := created
  have files : FileInv t (slots s) := rest.files.same frame.ftable frame.pipes
  refine wp_then (wp_filealloc inv files) ?_
  rintro (_ | f) u result'
  · obtain ⟨rfl, full⟩ := result'
    rw [frame.ftable] at full
    refine wp_mono (wp_openUndo rest inv frame (p := p) (fun room => ?_) made) (fun _ _ done => done) fun _ none => none.elim
    obtain ⟨f, zero⟩ := room.1
    exact full f zero
  obtain ⟨rfl, type, zero, inv1, files1⟩ := result'
  refine wp_then wp_fdalloc ?_
  rintro (_ | fd) u result'
  · obtain ⟨rfl, full⟩ := result'
    have ref1 : ((withRef t f 1).ftable f).ref = 1 := by simp only [withRef, update_self]
    have type1 : ((withRef t f 1).ftable f).type = .none := by simp only [withRef, update_self, type]
    refine wp_then (wp_filecloseNew type1 ref1) ?_
    rintro _ u rfl
    rw [closedFile_withRef type (by rw [files.refs, zero])]
    refine wp_mono (wp_openUndo rest inv frame (p := p) (fun room => ?_) made) (fun _ _ done => done) fun _ none => none.elim
    obtain ⟨fd, free⟩ := room.2
    refine full fd ?_
    change (t.procs p).ofile fd = none
    rw [frame.procs]
    exact free
  obtain ⟨free, rfl⟩ := result'
  refine wp_mono (wp_openFile rest (by rw [here]; exact Option.some_ne_none cwd) inv frame readOnly type zero free made)
    (fun _ _ done => done) fun _ none => none.elim

end Open

section Exec

variable {β : Type}

/-- The walk of `chdir`, if there is a path to walk. -/
def Nodes.chdir (nodes : Nodes) (used : Finset Nat) (cwd : Nat) (path : Option (List UInt8)) : Except Stop (Option Nat) :=
  match path with
  | none => .ok none
  | some path => nodes.namei used cwd path

theorem Frame.found {change : Nodes → Nodes → Prop} (frame : Frame (begun s) t 0) (rest : AtRest s) (inv : Inv t 0 ∅)
    (covered : Covered s 0 → Covered t 0 ∧ t.nodes = s.nodes) (same : ∀ nodes, change nodes nodes) :
    Done s (ended t) change := by
  refine frame.done rest inv fun here => ?_
  obtain ⟨there, nodes⟩ := covered here
  rw [nodes]
  exact ⟨there, same _⟩

theorem wp_sysChdir (rest : AtRest s) (here : (s.procs p).cwd = some cwd) (path : Option Path) :
    wp (sysChdir p path) (fun _ t => Done s t Nodes.Drift)
      (Stops s (s.nodes.chdir (s.used 0) (s.icache cwd).inum (path.map Path.bytes))) s := by
  unfold sysChdir
  rw [wp_bind, wp_beginOp]
  cases path with
  | none =>
    rw [wp_bind, wp_endOp, wp_pure]
    exact (Frame.refl ..).found rest rest.inv.begun (fun covered => ⟨covered.begun, rfl⟩) .refl
  | some path =>
  refine wp_nameiLock (p := p) rest.inv.begun (Nat.succ_pos _) here (fun _ => rfl) ?_ ?_ ?_
  · intro t inv frame found
    rw [wp_bind, wp_endOp, wp_pure]
    exact frame.found rest inv (fun covered => ⟨(found covered.begun).1, (found covered.begun).2.1⟩) .refl
  · intro k t inv frame found
    have locked := mem_insert_self k ∅
    have unlocked : (insert k (∅ : Finset (Fin NINODE))).erase k = ∅ := erase_insert (notMem_empty k)
    rw [wp_bind, wp_getInode]
    split
    next =>
      refine wp_then (wp_iunlockput inv locked frame.op) ?_
      rintro _ u ⟨inv', frame', puts⟩
      rw [unlocked] at inv'
      rw [wp_bind, wp_endOp, wp_pure]
      refine (frame.trans frame').found rest inv' (fun covered => ?_) .refl
      obtain ⟨covered', nodes, -⟩ := found covered.begun
      obtain ⟨covered'', nodes'⟩ := covered'.kept puts
      exact ⟨covered'', nodes'.trans nodes⟩
    next =>
      refine wp_then (wp_iunlock inv locked) ?_
      rintro _ u ⟨inv', quiet⟩
      rw [unlocked] at inv'
      have frame' : Frame (begun s) u 0 := frame.trans (quiet 0).toFrame
      have cwd' : (u.procs p).cwd = some cwd := by rw [frame'.procs]; exact here
      have ref := inv'.ref_pos (mem_cons_self k 0)
      have allocated : (u.dinode (u.icache k).inum).type ≠ 0 := by
        rw [← inv'.type_nodes ref, (quiet 0).nodes, (quiet _).inum (mem_cons_self k 0)]
        exact inv.type_eq locked ▸ (inv.dinode_eq locked).2
      rw [wp_bind, wp_getProc, cwd']
      have covers : Covered s 0 → Covered u (cwdRef (some k)) ∧ u.nodes = s.nodes := fun covered => by
        obtain ⟨covered', nodes, -⟩ := found covered.begun
        exact ⟨(covered'.cons k).quiet (quiet _), (quiet 0).nodes.trans nodes⟩
      have leaves := wp_leaveCwd rest here inv' frame' (fun l same => Option.some.inj same ▸ allocated)
        (fun wrong => nomatch wrong) covers
      have returns : ∀ v, Done s v Nodes.Drift → wp (return (0 : Int)) (fun _ t => Done s t Nodes.Drift)
          (Stops s (s.nodes.chdir (s.used 0) (s.icache cwd).inum (some path.bytes))) v := fun _ done => wp_pure.mpr done
      have whole := wp_then leaves fun _ v done => returns v done
      simp only [bind_assoc] at whole
      exact whole
  · intro e benign stopped
    exact ⟨benign, fun covered => .inl (stopped covered.begun)⟩

/-- `prog` only reads from the locked inode `k`. -/
def Reads (k : Fin NINODE) (prog : FsM α) : Prop :=
  ∀ s temps locks, Inv s temps locks → k ∈ locks → wp prog (fun _ t => t = { s with tty := t.tty }) (fun _ => False) s

theorem reads_pure (value : α) : Reads k (pure value : FsM α) := fun _ _ _ _ _ => wp_pure.mpr rfl

theorem Reads.bind {prog : FsM α} {next : α → FsM β} (first : Reads k prog) (second : ∀ value, Reads k (next value)) :
    Reads k (prog >>= next) := by
  intro s temps locks inv locked
  refine wp_then (first s temps locks inv locked) fun value t same => ?_
  have inv' : Inv t temps locks := by
    rw [same]
    exact inv.same rfl rfl rfl rfl rfl
  refine wp_mono (second value t temps locks inv' locked) ?_ fun _ none => none
  intro _ u same'
  rw [same'] at *
  rw [same]

theorem reads_readExactly (off n : Nat) : Reads k (readExactly k off n) := by
  refine Reads.bind (fun s temps locks inv locked => ?_) fun _ => reads_pure _
  exact wp_mono (wp_readi inv locked off n) (fun _ _ read => read.1) fun _ none => none

theorem reads_loaduvm (fuel off sz : Nat) : Reads k (loaduvm k fuel off sz) := by
  induction fuel generalizing off sz with
  | zero => exact reads_pure true
  | succ fuel ih =>
    unfold loaduvm
    split
    · exact reads_pure true
    · refine (reads_readExactly _ _).bind fun bytes => ?_
      cases bytes with
      | none => exact reads_pure false
      | some => exact ih _ _

theorem reads_loadSegments (vm : Vm) (phoff i count : Nat) : Reads k (loadSegments vm k phoff i count) := by
  induction count generalizing i with
  | zero => exact reads_pure true
  | succ count ih =>
    unfold loadSegments
    refine (reads_readExactly _ _).bind fun bytes => ?_
    cases bytes with
    | none => exact reads_pure false
    | some ph =>
      dsimp only
      split
      · exact ih _
      · split
        · exact reads_pure false
        · refine (reads_loaduvm _ _ _).bind fun loaded => ?_
          cases loaded
          · exact reads_pure false
          · exact ih _

theorem reads_loadImage (vm : Vm) : Reads k (loadImage vm k) := by
  unfold loadImage
  refine (reads_readExactly _ _).bind fun bytes => ?_
  cases bytes with
  | none => exact reads_pure false
  | some elf =>
    dsimp only
    split
    · exact reads_pure false
    · exact reads_loadSegments vm _ _ _

theorem wp_exec (rest : AtRest s) (here : (s.procs p).cwd = some cwd) (path : Path) (vm : Vm) :
    wp (exec p path vm) (fun _ t => (Done s t fun nodes after => after = nodes) ∧ Undisturbed s t)
      (Stops s (s.nodes.namei (s.used 0) (s.icache cwd).inum path.bytes)) s := by
  unfold exec
  rw [wp_bind, wp_beginOp]
  refine wp_nameiLock (p := p) rest.inv.begun (Nat.succ_pos _) here (fun _ => rfl) ?_ ?_ ?_
  · intro t inv frame found
    rw [wp_bind, wp_endOp, wp_pure]
    refine ⟨frame.found rest inv (fun covered => ?_) fun _ => rfl, frame.undisturbed⟩
    exact ⟨(found covered.begun).1, (found covered.begun).2.1⟩
  · intro k t inv frame found
    have locked := mem_insert_self k ∅
    refine wp_then (reads_loadImage vm t _ _ inv locked) fun loaded u same => ?_
    have inv' : Inv u (k ::ₘ 0) (insert k ∅) := by
      rw [same]
      exact inv.same rfl rfl rfl rfl rfl
    have quiet : Quiet t u 0 := by
      rw [same]
      exact ⟨⟨rfl, rfl, rfl, rfl, rfl, .refl .., fun _ _ => ⟨rfl, id⟩⟩, rfl, rfl⟩
    have frame' := frame.trans quiet.toFrame
    refine wp_then (wp_iunlockput inv' locked frame'.op) ?_
    rintro _ v ⟨inv'', frame'', puts⟩
    rw [erase_insert (notMem_empty k)] at inv''
    rw [wp_bind, wp_endOp, wp_pure]
    refine ⟨(frame'.trans frame'').found rest inv'' (fun covered => ?_) fun _ => rfl, (frame'.trans frame'').undisturbed⟩
    obtain ⟨covered', nodes, -⟩ := found covered.begun
    obtain ⟨covered'', nodes'⟩ := (covered'.quiet quiet).kept puts
    exact ⟨covered'', nodes'.trans (quiet.nodes.trans nodes)⟩
  · intro e benign stopped
    exact ⟨benign, fun covered => .inl (stopped covered.begun)⟩

end Exec

end Xv6.Fs
