import Xv6.Fs.FileCalls

/-! `sys_link` and `sys_unlink`, and what they come to on the table of nodes. -/

namespace Xv6.Fs
open Lib Function
open Finset (erase_insert image_singleton mem_erase mem_insert mem_insert_of_mem mem_insert_self notMem_empty)
open Multiset (cons_swap count_pos mem_cons_of_mem mem_cons_self zero_le)

namespace Nodes

/-- `delta` is added to the count of links of `x`, an unsigned short. -/
def relink (nodes : Nodes) (x delta : Nat) : Nodes :=
  Function.update nodes x { nodes x with nlink := ((nodes x).nlink + delta) % 2 ^ 16 }

def namei (nodes : Nodes) (used : Finset Nat) (cwd : Nat) (path : List UInt8) : Except Stop (Option Nat) :=
  match nodes.resolve used cwd false path with
  | .error e => .error e
  | .ok none => .ok none
  | .ok (some (x, _)) => if (nodes x).type = 0 then .error (.panic "ilock: no type") else .ok (some x)

def linkInto (nodes : Nodes) (used : Finset Nat) (cwd x : Nat) (new : List UInt8) : Except Stop (Option Nodes) :=
  match nodes.resolve (insert x used) cwd true new with
  | .error e => .error e
  | .ok none => .ok none
  | .ok (some (d, name)) =>
    match nodes.dirlink (insert d (insert x used)) {d} d name x with
    | .error e => .error e
    | .ok none => .ok none
    | .ok (some after) => .ok (some (after.reap used x))

def link (nodes : Nodes) (used : Finset Nat) (cwd : Nat) (old new : List UInt8) : Except Stop (Option Nodes) :=
  match nodes.namei used cwd old with
  | .error e => .error e
  | .ok none => .ok none
  | .ok (some x) => if (nodes x).type = T_DIR then .ok none else (nodes.relink x 1).linkInto used cwd x new

def eraseEntry (nodes : Nodes) (d i : Nat) : Nodes :=
  Function.update nodes d ((nodes d).setEntry i (List.replicate Dirent.SIZE 0))

def unlinkParent (nodes : Nodes) (d x : Nat) : Nodes :=
  if (nodes x).type = T_DIR then nodes.relink d (2 ^ 16 - 1) else nodes

/-- The entry `i` of `d`, which is for `x`, goes. -/
def removeEntry (nodes : Nodes) (used : Finset Nat) (d i x : Nat) : Nodes :=
  ((((nodes.eraseEntry d i).unlinkParent d x).reap (insert x used) d).relink x (2 ^ 16 - 1)).reap used x

def unlinkAt (nodes : Nodes) (used : Finset Nat) (d i : Nat) : Except Stop (Option Nodes) :=
  let x := ((nodes d).entry i).inum
  if x = d then .error .deadlock
  else if (nodes x).type = 0 then .error (.panic "ilock: no type")
  else if short (nodes x).nlink < 1 then .error (.panic "unlink: nlink < 1")
  else if (nodes x).type = T_DIR ∧ ¬ (nodes x).Empty then .ok none
  else if (nodes x).type = T_DIR ∧ 2 ≤ (nodes x).count ∧ ¬ (nodes x).Aligned then .error (.panic "isdirempty: readi")
  else .ok (some (nodes.removeEntry used d i x))

def unlink (nodes : Nodes) (used : Finset Nat) (cwd : Nat) (path : List UInt8) : Except Stop (Option Nodes) :=
  match nodes.resolve used cwd true path with
  | .error e => .error e
  | .ok none => .ok none
  | .ok (some (d, name)) =>
    if namecmp name dot = 0 ∨ namecmp name dotdot = 0 then .ok none
    else
      match nodes.dirlookup (insert d used) d name with
      | .error e => .error e
      | .ok none => .ok none
      | .ok (some i) => nodes.unlinkAt used d i

end Nodes

variable {nodes : Nodes} {x : Nat}

variable {temps : Multiset (Fin NINODE)} {locks : Finset (Fin NINODE)} {k cwd : Fin NINODE}
  {p : Fin NPROC}

section Locked

variable {α : Type} {s t : State}
  {post : α → State → Prop} {stop : Stop → Prop}

theorem wp_nameiLock {f : Option (Fin NINODE) → FsM α} {g : Fin NINODE → FsM α} {path : Path} (inv : Inv s temps ∅)
    (op : 0 < s.outstanding) (here : (s.procs p).cwd = some cwd) (locks : ∀ k, f (some k) = do ilock k; g k)
    (missing : ∀ t, Inv t temps ∅ → Frame s t temps → (Covered s temps → Covered t temps ∧ t.nodes = s.nodes ∧
      s.nodes.namei (s.used temps) (s.icache cwd).inum path.bytes = .ok none) → wp (f none) post stop t)
    (found : ∀ k t, Inv t (k ::ₘ temps) (insert k ∅) → Frame s t temps → (Covered s temps → Covered t temps ∧
      t.nodes = s.nodes ∧ s.nodes.namei (s.used temps) (s.icache cwd).inum path.bytes = .ok (some (t.icache k).inum)) →
      wp (g k) post stop t)
    (stops : ∀ e, e.Benign → (Covered s temps →
      s.nodes.namei (s.used temps) (s.icache cwd).inum path.bytes = .error e) → stop e) :
    wp (namei p path >>= f) post stop s := by
  unfold namei
  rw [wp_bind, wp_bind]
  refine wp_mono (wp_namex inv op here false path.bytes) ?_ ?_
  · rintro (_ | ⟨k, name⟩) t walked
    · refine wp_pure.mpr (missing t walked.inv walked.frame fun covered => ?_)
      obtain ⟨covered', nodes, result⟩ := walked.covered covered
      exact ⟨covered', nodes, by rw [Nodes.namei, result]; rfl⟩
    · rw [wp_pure, Option.map_some, locks]
      have member : k ∈ k ::ₘ temps := mem_cons_self k temps
      refine wp_seq (wp_ilock walked.inv (walked.inv.ref_pos member)) ?_ ?_
      · rintro e (⟨-, taken⟩ | ⟨rfl, -, zero⟩)
        · exact absurd taken (notMem_empty k)
        · refine stops _ (by decide) fun covered => ?_
          obtain ⟨-, nodes, result⟩ := walked.covered covered
          rw [nodes] at zero
          rw [Nodes.namei, result]
          exact if_pos zero
      · rintro _ u ⟨-, nonzero, inv', quiet⟩
        refine found k u inv' (walked.frame.trans (quiet temps).toFrame) fun covered => ?_
        obtain ⟨covered', nodes, result⟩ := walked.covered covered
        refine ⟨covered'.quiet (quiet temps), (quiet temps).nodes.trans nodes, ?_⟩
        rw [nodes] at nonzero
        rw [Nodes.namei, result, (quiet _).inum member]
        exact if_neg nonzero
  · rintro e ⟨benign, result⟩
    exact stops e benign fun covered => by rw [Nodes.namei, result covered]

theorem wp_parentLock {f : Option (Fin NINODE × List UInt8) → FsM α} {g : Fin NINODE → List UInt8 → FsM α} {path : Path}
    (inv : Inv s temps ∅) (op : 0 < s.outstanding) (here : (s.procs p).cwd = some cwd)
    (locks : ∀ k name, f (some (k, name)) = do ilock k; g k name)
    (missing : ∀ t, Inv t temps ∅ → Frame s t temps → (Covered s temps → Covered t temps ∧ t.nodes = s.nodes ∧
      s.nodes.resolve (s.used temps) (s.icache cwd).inum true path.bytes = .ok none) → wp (f none) post stop t)
    (found : ∀ k name t, Inv t (k ::ₘ temps) (insert k ∅) → Frame s t temps → (t.icache k).type = T_DIR →
      (Covered s temps → Covered t temps ∧ t.nodes = s.nodes ∧
        s.nodes.resolve (s.used temps) (s.icache cwd).inum true path.bytes = .ok (some ((t.icache k).inum, name))) →
      wp (g k name) post stop t)
    (stops : ∀ e, e.Benign → (Covered s temps →
      s.nodes.resolve (s.used temps) (s.icache cwd).inum true path.bytes = .error e) → stop e) :
    wp (nameiparent p path >>= f) post stop s := by
  unfold nameiparent
  refine wp_seq (wp_namex inv op here true path.bytes) (fun e stopped => stops e stopped.1 stopped.2) ?_
  rintro (_ | ⟨k, name⟩) t walked
  · exact missing t walked.inv walked.frame walked.covered
  · have member : k ∈ k ::ₘ temps := mem_cons_self k temps
    have dir := walked.dir rfl k name rfl
    rw [locks]
    refine wp_seq (wp_ilock walked.inv (walked.inv.ref_pos member)) ?_ ?_
    · rintro e (⟨-, taken⟩ | ⟨-, -, zero⟩)
      · exact absurd taken (notMem_empty k)
      · rw [zero] at dir
        cases dir
    · rintro _ u ⟨-, -, inv', quiet⟩
      have inum := (quiet _).inum member
      refine found k name u inv' (walked.frame.trans (quiet temps).toFrame) ?_ fun covered => ?_
      · rw [inv'.type_eq (mem_insert_self k ∅), nodeAt, inum, (quiet temps).nodes, dir]
      · obtain ⟨covered', nodes, result⟩ := walked.covered covered
        refine ⟨covered'.quiet (quiet temps), (quiet temps).nodes.trans nodes, ?_⟩
        rw [inum]
        exact result

theorem wp_setLinks (inv : Inv s temps locks) (locked : k ∈ locks) (op : 0 < s.outstanding) (delta : Nat) :
    wp (do
        setInode k { s.icache k with nlink := ((s.icache k).nlink + delta) % 2 ^ 16 }
        iupdate k)
      (fun _ t => Inv t temps locks ∧ (∀ kept, Frame s t kept) ∧ (∀ j, (t.icache j).type = (s.icache j).type) ∧
        t.nodes = s.nodes.relink (s.icache k).inum delta)
      (fun _ => False) s := by
  have same := (inv.dinode_eq locked).1
  have inside := (inv.inum_range locked).2
  have fits : ({ (s.icache k).toDinode with nlink := ((s.icache k).nlink + delta) % 2 ^ 16 } : Dinode).Fits := by
    have fits := fits_dinode s (s.icache k).inum
    rw [← same] at fits
    exact { fits with nlink := Nat.mod_lt _ (by decide) }
  rw [wp_bind, wp_setInode]
  refine wp_mono (wp_iupdateFields inv locked op fits rfl rfl rfl) ?_ fun _ none => none
  rintro _ t ⟨change, inv', nodes⟩
  refine ⟨inv', fun kept => change.frame kept, change.type, ?_⟩
  rw [nodes.nodes (change.frame 0).sb inside, Nodes.relink, State.nodes_of_lt inside]
  congr 1
  rw [State.node, ← same]
  rfl

theorem wp_relink {next : FsM α} (inv : Inv s temps locks) (locked : k ∈ locks) (op : 0 < s.outstanding) (delta : Nat)
    (rest : ∀ t, Inv t temps locks → (∀ kept, Frame s t kept) → (∀ j, (t.icache j).type = (s.icache j).type) →
      t.nodes = s.nodes.relink (s.icache k).inum delta → wp next post stop t) :
    wp (do
      setInode k { s.icache k with nlink := ((s.icache k).nlink + delta) % 2 ^ 16 }
      iupdate k
      next) post stop s := by
  rw [← bind_assoc]
  refine wp_then (wp_setLinks inv locked op delta) ?_
  rintro _ t ⟨inv', frame, types, nodes⟩
  exact rest t inv' frame types nodes

theorem Covered.setLocked {node : Node} (covered : Covered s temps) (frame : Frame s t temps) (member : k ∈ temps)
    (inv : Inv t temps locks) (locked : k ∈ locks) (nodes : t.nodes = update s.nodes (s.icache k).inum node) :
    Covered t temps := by
  intro x type nlink
  by_cases same : x = (s.icache k).inum
  · refine ⟨k, ?_, ?_, (inv.refs.locked k locked).2⟩
    · have := count_pos.mpr member
      omega
    · rw [frame.inum member, same]
  · rw [nodes, update_of_ne same] at type nlink
    obtain ⟨l, used, inum, valid⟩ := covered x type nlink
    obtain ⟨inum', valid'⟩ := frame.kept l used
    exact ⟨l, by rwa [frame.held_eq], inum'.trans inum, valid' valid⟩

theorem State.nlink_lt (s : State) (x : Nat) : (s.nodes x).nlink < 2 ^ 16 := by
  unfold State.nodes
  split
  · exact (fits_dinode s x).nlink
  · exact Nat.two_pow_pos 16

theorem Nodes.relink_undo (small : (nodes x).nlink < 2 ^ 16) :
    (nodes.relink x 1).relink x (2 ^ 16 - 1) = nodes := by
  unfold Nodes.relink
  simp only [update_self, update_idem]
  have back : (((nodes x).nlink + 1) % 2 ^ 16 + (2 ^ 16 - 1)) % 2 ^ 16 = (nodes x).nlink := by omega
  rw [back, update_eq_self]

theorem Frame.done {change : Nodes → Nodes → Prop} (frame : Frame (begun s) t 0) (rest : AtRest s) (inv : Inv t 0 ∅)
    (covered : Covered s 0 → Covered t 0 ∧ change s.nodes t.nodes) : Done s (ended t) change where
  rest := rest.of inv.ended (rest.files.same frame.ftable frame.pipes).ended frame.procs
  returned := frame.returned
  covered := covered

theorem Frame.sameCwd (frame : Frame s t temps) (here : (s.procs p).cwd = some cwd) :
    (t.procs p).cwd = some cwd ∧ (t.icache cwd).inum = (s.icache cwd).inum := by
  refine ⟨by rw [frame.procs, here], (frame.kept cwd ?_).1⟩
  have := held_of_cwd here
  omega

end Locked

/-- What a call that returns `0` or `-1` does to the nodes. -/
def Outcome (result : Except Stop (Option Nodes)) (r : Int) (nodes after : Nodes) : Prop :=
  ∃ o, result = .ok o ∧ after = o.getD nodes ∧ r = if o.isSome then 0 else -1

variable {result : Except Stop (Option Nodes)}

theorem Outcome.fails (failed : result = .ok none) (nodes : Nodes) :
    Outcome result (-1) nodes nodes := ⟨none, failed, rfl, rfl⟩

theorem Outcome.succeeds {after : Nodes} (succeeded : result = .ok (some after)) :
    Outcome result 0 nodes after := ⟨some after, succeeded, rfl, rfl⟩

/-- How a call stops that comes to `result`. -/
def Stops {α : Type} (s : State) (result : Except Stop α) (e : Stop) : Prop :=
  e.Benign ∧ (Covered s 0 → result = .error e ∨ e = .panic "balloc: out of blocks")

def StopsUnless (s : State) (result : Except Stop (Option Nodes)) (e : Stop) : Prop :=
  e.Benign ∧ (Covered s 0 → result = .error e ∨ (e = .panic "balloc: out of blocks" ∧ ∃ after, result = .ok (some after)))

variable {used : Finset Nat} {d : Nat} {name : List UInt8}

variable {dp : Fin NINODE}

section Link

variable {s t : State}

variable {locked : Finset Nat} {inum : Nat}

theorem Nodes.dirlink_benign {e : Stop}
    (stopped : nodes.dirlink used locked d name inum = .error e) : e.Benign := by
  unfold Nodes.dirlink at stopped
  split at stopped
  next e' failed =>
    cases stopped
    obtain rfl | rfl := Nodes.dirlookup_stops failed <;> decide
  next =>
    split at stopped <;> cases stopped
    decide
  next =>
    split at stopped <;> cases stopped
    decide

theorem Nodes.dirlink_some {after : Nodes}
    (linked : nodes.dirlink used locked d name inum = .ok (some after)) (x : Nat) :
    (after x).type = (nodes x).type ∧ (after x).nlink = (nodes x).nlink := by
  unfold Nodes.dirlink at linked
  split at linked
  · cases linked
  · split at linked <;> cases linked
  · split at linked
    next =>
      obtain rfl := Option.some.inj (Except.ok.inj linked)
      by_cases same : x = d
      · rw [same, update_self]
        exact ⟨rfl, rfl⟩
      · rw [update_of_ne same]
        exact ⟨rfl, rfl⟩
    next => cases linked

theorem wp_linkBad (inv : Inv s (k ::ₘ 0) ∅) (op : 0 < s.outstanding) :
    wp (linkBad k) (fun r t => r = -1 ∧ ∃ u, t = ended u ∧ Inv u 0 ∅ ∧ Frame s u 0 ∧ (Covered s (k ::ₘ 0) → Covered u 0 ∧
        u.nodes = (s.nodes.relink (s.icache k).inum (2 ^ 16 - 1)).reap (s.used 0) (s.icache k).inum))
      (fun e => e = .panic "ilock: no type" ∧ (s.nodes (s.icache k).inum).type = 0) s := by
  have member : k ∈ k ::ₘ (0 : Multiset (Fin NINODE)) := mem_cons_self k 0
  unfold linkBad
  refine wp_seq (wp_ilock inv (inv.ref_pos member)) ?_ ?_
  · rintro e (⟨-, taken⟩ | ⟨rfl, -, zero⟩)
    · exact absurd taken (notMem_empty k)
    · exact ⟨rfl, zero⟩
  rintro _ t ⟨-, -, inv', quiet⟩
  have locked := mem_insert_self k ∅
  have inum := (quiet _).inum member
  rw [wp_bind, wp_getInode]
  refine wp_relink inv' locked (by rw [(quiet 0).outstanding]; exact op) _ fun u inv'' frame _ nodes => ?_
  have whole : ∀ kept, Frame s u kept := fun kept => (quiet kept).toFrame.trans (frame kept)
  refine wp_then (wp_iunlockput inv'' locked (by rw [(whole 0).outstanding]; exact op)) ?_
  rintro _ v ⟨final, frame', puts⟩
  rw [erase_insert (notMem_empty k)] at final
  rw [wp_bind, wp_endOp, wp_pure]
  refine ⟨rfl, v, rfl, final, (whole 0).trans frame', fun covered => ?_⟩
  obtain ⟨covered', after⟩ := puts ((covered.quiet (quiet _)).setLocked (frame _) member inv'' locked nodes)
  refine ⟨covered', ?_⟩
  rw [after, nodes, (whole 0).used_eq, (whole _).inum member, (quiet 0).nodes, inum]

/-- What `sys_link` leaves in `u` if its second half, from `t` on, comes to `into`. -/
structure LinkedInto (t u : State) (k : Fin NINODE) (into : Except Stop (Option Nodes)) (o : Option Nodes) : Prop where
  inv : Inv u 0 ∅
  frame : Frame t u 0
  covered : Covered t (k ::ₘ 0) → Covered u 0 ∧ into = .ok o ∧
    u.nodes = o.getD ((t.nodes.relink (t.icache k).inum (2 ^ 16 - 1)).reap (t.used 0) (t.icache k).inum)

variable {into : Except Stop (Option Nodes)}

theorem wp_linkBadAfter (frame : Frame s t (k ::ₘ 0)) (inv : Inv t (k ::ₘ 0) ∅)
    (op : 0 < s.outstanding) (type : (s.nodes (s.icache k).inum).type ≠ 0)
    (covered : Covered s (k ::ₘ 0) → Covered t (k ::ₘ 0) ∧ t.nodes = s.nodes ∧ into = .ok none) :
    wp (linkBad k) (fun r t => ∃ u o, t = ended u ∧ r = (if o.isSome then 0 else -1) ∧ LinkedInto s u k into o)
      (fun e => e.Benign ∧ (Covered s (k ::ₘ 0) → into = .error e ∨
        (e = .panic "balloc: out of blocks" ∧ ∃ after, into = .ok (some after)))) t := by
  have member : k ∈ k ::ₘ (0 : Multiset (Fin NINODE)) := mem_cons_self k 0
  have used : t.used 0 = s.used 0 := frame.tail.used_eq
  refine wp_mono (wp_linkBad inv (by rw [frame.outstanding]; exact op)) ?_ ?_
  · rintro r _ ⟨rfl, u, rfl, inv', frame', bad⟩
    refine ⟨u, none, rfl, rfl, inv', frame.tail.trans frame', fun here => ?_⟩
    obtain ⟨there, nodes, failed⟩ := covered here
    obtain ⟨covered', after⟩ := bad there
    rw [nodes, used, frame.inum member] at after
    exact ⟨covered', failed, after⟩
  · rintro e ⟨rfl, zero⟩
    refine ⟨by decide, fun here => ?_⟩
    obtain ⟨-, nodes, -⟩ := covered here
    rw [nodes, frame.inum member] at zero
    exact absurd zero type

theorem wp_linkEntry
    (inv : Inv t (dp ::ₘ k ::ₘ 0) (insert dp ∅)) (frame : Frame s t (k ::ₘ 0)) (op : 0 < s.outstanding)
    (dir : (t.icache dp).type = T_DIR) (here : (s.icache k).inum = x) (type : (s.nodes x).type ≠ 0)
    (file : (s.nodes x).type ≠ T_DIR)
    (covered : Covered s (k ::ₘ 0) → Covered t (k ::ₘ 0) ∧ t.nodes = s.nodes ∧
      into = match s.nodes.dirlink (insert (t.icache dp).inum (insert x (s.used 0))) {(t.icache dp).inum}
          (t.icache dp).inum name x with
        | .error e => .error e
        | .ok none => .ok none
        | .ok (some after) => .ok (some (after.reap (s.used 0) x))) :
    wp (do
        if ← dirlink dp name x then do
          iunlockput dp
          iput k
          endOp
          return 0
        else do
          iunlockput dp
          linkBad k)
      (fun r t => ∃ u o, t = ended u ∧ r = (if o.isSome then (0 : Int) else -1) ∧ LinkedInto s u k into o)
      (fun e => e.Benign ∧ (Covered s (k ::ₘ 0) → into = .error e ∨
        (e = .panic "balloc: out of blocks" ∧ ∃ after, into = .ok (some after)))) t := by
  subst here
  have member : k ∈ k ::ₘ (0 : Multiset (Fin NINODE)) := mem_cons_self k 0
  have locked := mem_insert_self dp ∅
  have unlocked : (insert dp (∅ : Finset (Fin NINODE))).erase dp = ∅ := erase_insert (notMem_empty dp)
  have inside : (s.icache k).inum < t.sb.ninodes := by
    rw [← frame.inum member]
    exact inv.inum_lt (mem_cons_of_mem member)
  have used : t.used (dp ::ₘ k ::ₘ 0) = insert (t.icache dp).inum (insert (s.icache k).inum (s.used 0)) := by
    rw [State.used_cons, frame.used_eq, State.used_cons]
  have dirlink := wp_dirlink inv locked dir (by rw [frame.outstanding]; exact op) name inside
  rw [show (insert dp (∅ : Finset (Fin NINODE))).image (fun j => (t.icache j).inum) = {(t.icache dp).inum} from
    image_singleton .., used] at dirlink
  refine wp_seq dirlink ?_ ?_
  · intro e stopped
    refine ⟨?_, fun here => ?_⟩
    · obtain failed | ⟨rfl, -⟩ := stopped
      · exact Nodes.dirlink_benign failed
      · decide
    · obtain ⟨-, nodes, same⟩ := covered here
      rw [nodes] at stopped
      obtain failed | ⟨rfl, after, linked⟩ := stopped
      · exact .inl (by rw [same, failed])
      · exact .inr ⟨rfl, _, by rw [same, linked]⟩
  · rintro r u ⟨inv', frame', -, result⟩
    have op' : 0 < u.outstanding := by rw [frame'.outstanding, frame.outstanding]; exact op
    refine wp_ite.mpr ⟨fun done => ?_, fun failed => ?_⟩
    · refine wp_then (wp_iunlockput inv' locked op') ?_
      rintro _ v ⟨inv'', frame'', puts⟩
      rw [unlocked] at inv''
      refine wp_seq (wp_iput inv'' (by rw [frame''.outstanding]; exact op')) (fun _ stopped => absurd stopped.2 (notMem_empty k)) ?_
      rintro _ w ⟨-, final, frame3, puts'⟩
      have back : Frame s v (k ::ₘ 0) := frame.trans (frame'.tail.trans frame'')
      rw [wp_bind, wp_endOp, wp_pure]
      refine ⟨w, some w.nodes, rfl, rfl, final, back.tail.trans frame3, fun here => ?_⟩
      obtain ⟨covered', nodes, same⟩ := covered here
      obtain ⟨-, linked, -⟩ := result (covered'.cons dp)
      rw [done, if_pos rfl] at linked
      have keeps : Covered u (k ::ₘ 0) := covered'.frame frame'.tail fun y type nlink => by
        obtain ⟨sameType, sameLinks⟩ := Nodes.dirlink_some linked y
        exact ⟨sameType ▸ type, sameLinks ▸ nlink⟩
      obtain ⟨covered'', nodes''⟩ := keeps.kept puts
      obtain ⟨covered3, nodes3⟩ := puts' covered''
      refine ⟨covered3, ?_, rfl⟩
      rw [nodes] at linked
      rw [same, linked, nodes3, nodes'', back.inum member, back.tail.used_eq]
    · refine wp_then (wp_iunlockput inv' locked op') ?_
      rintro _ v ⟨inv'', frame'', puts⟩
      rw [unlocked] at inv''
      refine wp_linkBadAfter (frame.trans (frame'.tail.trans frame'')) inv'' op type fun here => ?_
      obtain ⟨covered', nodes, same⟩ := covered here
      obtain ⟨-, linked, unchanged⟩ := result (covered'.cons dp)
      have nodes' := unchanged (by simpa using failed)
      obtain ⟨covered'', nodes''⟩ := (covered'.same frame'.tail nodes').kept puts
      refine ⟨covered'', nodes''.trans (nodes'.trans nodes), ?_⟩
      rw [if_neg failed, nodes] at linked
      rw [same, linked]

theorem wp_linkInto (inv : Inv s (k ::ₘ 0) ∅) (op : 0 < s.outstanding) (here : (s.procs p).cwd = some cwd) (new : Path)
    (same : (s.icache k).inum = x) (type : (s.nodes x).type ≠ 0) (file : (s.nodes x).type ≠ T_DIR) :
    let into := s.nodes.linkInto (s.used 0) (s.icache cwd).inum x new.bytes
    wp (do
        match ← nameiparent p new with
        | none => linkBad k
        | some (dp, name) => do
          ilock dp
          if ← dirlink dp name x then do
            iunlockput dp
            iput k
            endOp
            return 0
          else do
            iunlockput dp
            linkBad k)
      (fun r t => ∃ u o, t = ended u ∧ r = (if o.isSome then (0 : Int) else -1) ∧ LinkedInto s u k into o)
      (fun e => e.Benign ∧ (Covered s (k ::ₘ 0) → into = .error e ∨
        (e = .panic "balloc: out of blocks" ∧ ∃ after, into = .ok (some after)))) s := by
  intro into
  have used : s.used (k ::ₘ 0) = insert x (s.used 0) := by rw [State.used_cons, same]
  refine wp_parentLock inv op here (fun _ _ => rfl) ?_ ?_ ?_
  · intro t inv' frame found
    rw [used] at found
    refine wp_linkBadAfter frame inv' op (by rw [same]; exact type) fun covered => ?_
    obtain ⟨covered', nodes, missing⟩ := found covered
    exact ⟨covered', nodes, by simp only [into, Nodes.linkInto, missing]⟩
  · intro dp name t inv' frame dir found
    rw [used] at found
    refine wp_linkEntry inv' frame op dir same type file fun covered => ?_
    obtain ⟨covered', nodes, present⟩ := found covered
    exact ⟨covered', nodes, by simp only [into, Nodes.linkInto, present]⟩
  · intro e benign stopped
    rw [used] at stopped
    exact ⟨benign, fun covered => .inl (by simp only [into, Nodes.linkInto, stopped covered])⟩

theorem wp_sysLink (rest : AtRest s) (here : (s.procs p).cwd = some cwd) (old new : Path) :
    let link := s.nodes.link (s.used 0) (s.icache cwd).inum old.bytes new.bytes
    wp (sysLink p old new) (fun r t => Done s t (Outcome link r)) (StopsUnless s link) s := by
  intro link
  unfold sysLink
  rw [wp_bind, wp_beginOp]
  refine wp_nameiLock (p := p) rest.inv.begun (Nat.succ_pos _) here (fun _ => rfl) ?_ ?_ ?_
  · intro t inv frame found
    simp only [begun_nodes, begun_used, begun_icache] at found
    rw [wp_bind, wp_endOp, wp_pure]
    refine frame.done rest inv fun covered => ?_
    obtain ⟨covered', nodes, missing⟩ := found covered.begun
    rw [nodes]
    exact ⟨covered', .fails (by simp only [link, Nodes.link, missing]) _⟩
  · intro k t inv frame found
    simp only [begun_nodes, begun_used, begun_icache] at found
    have member : k ∈ k ::ₘ (0 : Multiset (Fin NINODE)) := mem_cons_self k 0
    have locked := mem_insert_self k ∅
    have unlocked : (insert k (∅ : Finset (Fin NINODE))).erase k = ∅ := erase_insert (notMem_empty k)
    have type := inv.type_eq locked
    rw [wp_bind, wp_getInode]
    split
    next dir =>
      refine wp_then (wp_iunlockput inv locked frame.op) ?_
      rintro _ u ⟨inv', frame', puts⟩
      rw [unlocked] at inv'
      rw [wp_bind, wp_endOp, wp_pure]
      refine (frame.trans frame').done rest inv' fun covered => ?_
      obtain ⟨covered', nodes, present⟩ := found covered.begun
      obtain ⟨covered'', nodes'⟩ := covered'.kept puts
      rw [type, nodeAt, nodes] at dir
      rw [nodes', nodes]
      exact ⟨covered'', .fails (by simp only [link, Nodes.link, present, dir, if_true]) _⟩
    next file =>
      refine wp_relink inv locked frame.op 1 fun u inv' frame' _ nodes' => ?_
      refine wp_then (wp_iunlock inv' locked) ?_
      rintro _ v ⟨inv'', quiet⟩
      rw [unlocked] at inv''
      have whole : Frame (begun s) v 0 := frame.trans ((frame' 0).trans (quiet 0).toFrame)
      obtain ⟨here', inum'⟩ := whole.sameCwd (p := p) here
      have still : v.nodes = t.nodes.relink (t.icache k).inum 1 := (quiet 0).nodes.trans nodes'
      have inum : (v.icache k).inum = (t.icache k).inum := ((frame' _).trans (quiet _).toFrame).inum member
      have sameType : (v.nodes (t.icache k).inum).type = (t.icache k).type := by
        rw [still, type]
        simp only [Nodes.relink, update_self]
        rfl
      have second := wp_linkInto inv'' whole.op here' new inum (by rw [sameType]; exact (inv.dinode_eq locked).2)
        (by rw [sameType]; exact file)
      rw [inum', whole.used_eq, still] at second
      simp only [begun_used, begun_icache] at second
      have covers : Covered s 0 → Covered v (k ::ₘ 0) ∧ v.nodes = s.nodes.relink (t.icache k).inum 1 ∧
          link = (s.nodes.relink (t.icache k).inum 1).linkInto (s.used 0) (s.icache cwd).inum (t.icache k).inum new.bytes := by
        intro covered
        obtain ⟨covered', nodes, present⟩ := found covered.begun
        refine ⟨?_, by rw [still, nodes], ?_⟩
        · exact ((covered'.cons k).setLocked (frame' _) member inv' locked nodes').quiet (quiet _)
        · rw [type, nodeAt, nodes] at file
          simp only [link, Nodes.link, present, if_neg file]
      refine wp_mono second ?_ ?_
      · rintro r _ ⟨w, o, rfl, rfl, linked⟩
        refine (whole.trans linked.frame).done rest linked.inv fun covered => ?_
        obtain ⟨covered', nodes, same⟩ := covers covered
        obtain ⟨covered'', into, after⟩ := linked.covered covered'
        rw [nodes, inum, Nodes.relink_undo (s.nlink_lt _), whole.used_eq, begun_used, covered.reap] at after
        rw [← still, nodes] at into
        exact ⟨covered'', o, same.trans into, after, rfl⟩
      · rintro e ⟨benign, stopped⟩
        refine ⟨benign, fun covered => ?_⟩
        obtain ⟨covered', nodes, same⟩ := covers covered
        rw [same, ← nodes, still]
        exact stopped covered'
  · intro e benign stopped
    simp only [begun_nodes, begun_used, begun_icache] at stopped
    exact ⟨benign, fun covered => .inl (by simp only [link, Nodes.link, stopped covered.begun])⟩

end Link

section Unlink

variable {s t u : State}

/-- The operation ends in `t`, and on the nodes it comes to `result`. -/
def Ends (s : State) (result : Except Stop (Option Nodes)) (r : Int) (t : State) : Prop :=
  ∃ u, t = ended u ∧ Inv u 0 ∅ ∧ Frame s u 0 ∧ (Covered s 0 → Covered u 0 ∧ Outcome result r s.nodes u.nodes)

theorem Ends.after {result' : Except Stop (Option Nodes)} {r : Int} (ends : Ends t result r u) (frame : Frame s t 0)
    (covered : Covered s 0 → Covered t 0 ∧ t.nodes = s.nodes ∧ result' = result) : Ends s result' r u := by
  obtain ⟨v, rfl, inv, frame', outcome⟩ := ends
  refine ⟨v, rfl, inv, frame.trans frame', fun here => ?_⟩
  obtain ⟨there, nodes, same⟩ := covered here
  rw [same, ← nodes]
  exact outcome there

theorem Ends.done {r : Int} (ends : Ends (begun s) result r t) (rest : AtRest s) :
    Done s t (Outcome result r) := by
  obtain ⟨v, rfl, inv, frame, outcome⟩ := ends
  exact frame.done rest inv outcome

theorem wp_unlinkBad (inv : Inv s (dp ::ₘ 0) (insert dp ∅)) (op : 0 < s.outstanding)
    (failed : Covered s 0 → result = .ok none) : wp (unlinkBad dp) (Ends s result) (fun _ => False) s := by
  unfold unlinkBad
  refine wp_then (wp_iunlockput inv (mem_insert_self dp ∅) op) ?_
  rintro _ t ⟨inv', frame, puts⟩
  rw [erase_insert (notMem_empty dp)] at inv'
  rw [wp_bind, wp_endOp, wp_pure]
  refine ⟨t, rfl, inv', frame, fun covered => ?_⟩
  obtain ⟨covered', nodes⟩ := covered.kept puts
  rw [nodes]
  exact ⟨covered', .fails (failed covered) _⟩

theorem wp_unlinkable (inv : Inv s temps locks) (locked : k ∈ locks) :
    wp (unlinkable k) (fun r t => t = s ∧ (r = false ↔ (nodeAt s k).type = T_DIR ∧ ¬ (nodeAt s k).Empty) ∧
        (r = true → ¬ ((nodeAt s k).type = T_DIR ∧ 2 ≤ (nodeAt s k).count ∧ ¬ (nodeAt s k).Aligned)))
      (fun e => e = .panic "isdirempty: readi" ∧ (nodeAt s k).type = T_DIR ∧ (nodeAt s k).Empty ∧
        2 ≤ (nodeAt s k).count ∧ ¬ (nodeAt s k).Aligned) s := by
  have type := inv.type_eq locked
  unfold unlinkable
  rw [wp_bind, wp_getInode]
  split
  next dir =>
    refine wp_mono (wp_isdirempty inv locked dir) ?_ ?_
    · rintro r t ⟨rfl, empty, aligned⟩
      rw [type] at dir
      refine ⟨rfl, ?_, fun yes bad => bad.2.2 (aligned yes bad.2.1)⟩
      rw [← empty, and_iff_right dir, Bool.not_eq_true]
    · rintro e ⟨rfl, unaligned, empty⟩
      rw [type] at dir
      exact ⟨rfl, dir, empty, unaligned⟩
  next file =>
    rw [type] at file
    exact wp_pure.mpr ⟨rfl, ⟨fun wrong => (nomatch wrong), fun wrong => absurd wrong.1 file⟩, fun _ wrong => file wrong.1⟩

theorem Nodes.unlinkParent_eq (nodes : Nodes) (d x : Nat) : ∃ node, nodes.unlinkParent d x = update nodes d node := by
  unfold Nodes.unlinkParent
  split
  · exact ⟨_, rfl⟩
  · exact ⟨nodes d, (update_eq_self d nodes).symm⟩

theorem wp_unlinkParent (inv : Inv s temps locks) (locked : k ∈ locks) (parent : dp ∈ locks) (op : 0 < s.outstanding) :
    wp (unlinkParent dp k) (fun _ t => Inv t temps locks ∧ (∀ kept, Frame s t kept) ∧
      t.nodes = s.nodes.unlinkParent (s.icache dp).inum (s.icache k).inum) (fun _ => False) s := by
  have type := inv.type_eq locked
  unfold unlinkParent Nodes.unlinkParent
  rw [wp_bind, wp_getInode]
  split
  next dir =>
    rw [type] at dir
    rw [wp_bind, wp_getInode]
    refine wp_mono (wp_setLinks inv parent op _) ?_ fun _ none => none
    rintro _ t ⟨inv', frame, -, nodes⟩
    exact ⟨inv', frame, nodes.trans (if_pos dir).symm⟩
  next file =>
    rw [type] at file
    exact wp_pure.mpr ⟨inv, fun kept => (Quiet.refl s kept).toFrame, (if_neg file).symm⟩

variable {i : Nat}

theorem wp_unlinkEntry (inv : Inv s (k ::ₘ dp ::ₘ 0) (insert k (insert dp ∅))) (apart : k ≠ dp)
    (op : 0 < s.outstanding) (dir : (s.icache dp).type = T_DIR) (inside : i < (nodeAt s dp).count) :
    wp (unlinkEntry dp k (Dirent.SIZE * i))
      (Ends s (.ok (some (s.nodes.removeEntry (s.used 0) (s.icache dp).inum i (s.icache k).inum))))
      (fun e => e = .panic "balloc: out of blocks") s := by
  have memberK : k ∈ k ::ₘ dp ::ₘ (0 : Multiset (Fin NINODE)) := mem_cons_self ..
  have memberD : dp ∈ k ::ₘ dp ::ₘ (0 : Multiset (Fin NINODE)) := mem_cons_of_mem (mem_cons_self ..)
  have lockedK : k ∈ insert k (insert dp (∅ : Finset (Fin NINODE))) := mem_insert_self ..
  have lockedD : dp ∈ insert k (insert dp (∅ : Finset (Fin NINODE))) := mem_insert_of_mem (mem_insert_self ..)
  have size := inv.size_le lockedD dir
  have room := Node.entry_le_size inside
  have accepts : (nodeAt s dp).Accepts (Dirent.SIZE * i) Dirent.SIZE := by
    have limit : MAXFILE * BSIZE + Dirent.SIZE < 2 ^ 32 := by decide
    rw [Nat.mul_succ] at room
    refine ⟨by omega, ?_, by omega⟩
    rw [Nat.mod_eq_of_lt (by omega)]
    omega
  have write := wp_writeEntry inv lockedD dir op i (List.replicate Dirent.SIZE 0) List.length_replicate
    (Nat.le_of_lt inside) (by rw [Dirent.decode_replicate]; have := inv.disk.geometry.root; exact Nat.lt_of_le_of_lt (Nat.zero_le _) this)
  unfold unlinkEntry
  refine wp_seq write (fun _ stopped => stopped.1) ?_
  rintro r t ⟨inv1, frame1, -, accepted, -⟩
  obtain ⟨rfl, nodes1⟩ := accepted accepts
  rw [if_neg (by simp)]
  refine wp_then (wp_unlinkParent inv1 lockedK lockedD (by rw [(frame1 0).outstanding]; exact op)) ?_
  rintro _ u ⟨inv2, frame2, nodes2⟩
  have frame12 : ∀ kept, Frame s u kept := fun kept => (frame1 kept).trans (frame2 kept)
  rw [cons_swap] at inv2
  refine wp_then (wp_iunlockput inv2 lockedD (by rw [(frame12 0).outstanding]; exact op)) ?_
  rintro _ v ⟨inv3, frame3, puts3⟩
  have lockedK' : k ∈ (insert k (insert dp (∅ : Finset (Fin NINODE)))).erase dp := mem_erase.mpr ⟨apart, lockedK⟩
  have frame13 : Frame s v (k ::ₘ 0) := (frame12 _).trans frame3
  rw [wp_bind, wp_getInode]
  refine wp_relink inv3 lockedK' (by rw [frame13.outstanding]; exact op) _ fun w inv4 frame4 _ nodes4 => ?_
  have frame14 : Frame s w (k ::ₘ 0) := frame13.trans (frame4 _)
  refine wp_then (wp_iunlockput inv4 lockedK' (by rw [frame14.outstanding]; exact op)) ?_
  rintro _ x ⟨inv5, frame5, puts5⟩
  have empty : ((insert k (insert dp (∅ : Finset (Fin NINODE)))).erase dp).erase k = ∅ := by
    ext j
    simp only [mem_erase, mem_insert, notMem_empty, or_false, iff_false]
    tauto
  rw [empty] at inv5
  rw [wp_bind, wp_endOp, wp_pure]
  refine ⟨x, rfl, inv5, frame14.tail.trans frame5, fun covered => ?_⟩
  have memberD' : dp ∈ dp ::ₘ k ::ₘ (0 : Multiset (Fin NINODE)) := mem_cons_self ..
  have memberK' : k ∈ k ::ₘ (0 : Multiset (Fin NINODE)) := mem_cons_self ..
  have covered1 : Covered t (dp ::ₘ k ::ₘ 0) := ((covered.cons k).cons dp).setNode (frame1 _) nodes1 rfl id
  obtain ⟨node, parent⟩ := Nodes.unlinkParent_eq t.nodes (t.icache dp).inum (t.icache k).inum
  have covered2 := covered1.setLocked (frame2 _) memberD' inv2 lockedD (nodes2.trans parent)
  obtain ⟨covered3, nodes3⟩ := puts3 covered2
  have covered4 := covered3.setLocked (frame4 _) memberK' inv4 lockedK' nodes4
  obtain ⟨covered5, nodes5⟩ := puts5 covered4
  refine ⟨covered5, .succeeds ?_⟩
  have used2 : u.used (k ::ₘ 0) = insert (s.icache k).inum (s.used 0) := by
    rw [(frame12 _).used_eq, State.used_cons]
  rw [nodes5, nodes4, nodes3, nodes2, nodes1, used2, frame14.tail.used_eq, frame14.inum memberK', frame13.inum memberK',
    (frame12 _).inum memberD', (frame1 _).inum memberD', (frame1 _).inum memberK']
  rfl

theorem Nodes.dirlookup_some
    (found : nodes.dirlookup used d name = .ok (some i)) : (nodes d).lookup name = some i := by
  unfold Nodes.dirlookup at found
  split at found
  next j there =>
    split at found <;> cases found
    exact there
  next => split at found <;> cases found

theorem wp_unlinkFound (inv : Inv s (k ::ₘ dp ::ₘ 0) (insert dp ∅)) (op : 0 < s.outstanding)
    (dir : (s.icache dp).type = T_DIR) (inside : i < (nodeAt s dp).count)
    (entry : (s.icache k).inum = ((nodeAt s dp).entry i).inum) :
    let found := s.nodes.unlinkAt (s.used 0) (s.icache dp).inum i
    wp (do
        ilock k
        let ip ← getInode k
        if short ip.nlink < 1 then
          panic "unlink: nlink < 1"
        else if ← unlinkable k then
          unlinkEntry dp k (Dirent.SIZE * i)
        else do
          iunlockput k
          unlinkBad dp) (Ends s found) (Stops s found) s := by
  intro found
  have found_eq : found = if (s.icache k).inum = (s.icache dp).inum then .error .deadlock
      else if (s.nodes (s.icache k).inum).type = 0 then .error (.panic "ilock: no type")
      else if short (s.nodes (s.icache k).inum).nlink < 1 then .error (.panic "unlink: nlink < 1")
      else if (s.nodes (s.icache k).inum).type = T_DIR ∧ ¬ (s.nodes (s.icache k).inum).Empty then .ok none
      else if (s.nodes (s.icache k).inum).type = T_DIR ∧ 2 ≤ (s.nodes (s.icache k).inum).count ∧
        ¬ (s.nodes (s.icache k).inum).Aligned then .error (.panic "isdirempty: readi")
      else .ok (some (s.nodes.removeEntry (s.used 0) (s.icache dp).inum i (s.icache k).inum)) := by
    rw [entry]
    rfl
  have memberK : k ∈ k ::ₘ dp ::ₘ (0 : Multiset (Fin NINODE)) := mem_cons_self ..
  have memberD : dp ∈ k ::ₘ dp ::ₘ (0 : Multiset (Fin NINODE)) := mem_cons_of_mem (mem_cons_self ..)
  refine wp_seq (wp_ilock inv (inv.ref_pos memberK)) ?_ ?_
  · rintro e (⟨rfl, taken⟩ | ⟨rfl, free, zero⟩)
    · obtain rfl : k = dp := by simpa using taken
      exact ⟨by decide, fun _ => .inl (found_eq.trans (if_pos rfl))⟩
    · have apart : (s.icache k).inum ≠ (s.icache dp).inum := fun same =>
        free (by simp [inv.cache.unique k dp (inv.ref_pos memberK) (inv.ref_pos memberD) same])
      exact ⟨by decide, fun _ => .inl (by rw [found_eq, if_neg apart, if_pos zero])⟩
  rintro _ t ⟨free, nonzero, inv', quiet⟩
  have apart : k ≠ dp := fun same => free (by simp [same])
  have apart' : (s.icache k).inum ≠ (s.icache dp).inum := fun same =>
    apart (inv.cache.unique k dp (inv.ref_pos memberK) (inv.ref_pos memberD) same)
  have locked : k ∈ insert k (insert dp (∅ : Finset (Fin NINODE))) := mem_insert_self ..
  have inumK := (quiet _).inum memberK
  have inumD := (quiet _).inum memberD
  have node : nodeAt t k = s.nodes (s.icache k).inum := by rw [nodeAt, inumK, (quiet 0).nodes]
  have nodeD : nodeAt t dp = nodeAt s dp := by rw [nodeAt, inumD, (quiet 0).nodes, nodeAt]
  have dir' : (t.icache dp).type = T_DIR := by
    rw [inv'.type_eq (mem_insert_of_mem (mem_insert_self ..)), nodeD, ← inv.type_eq (mem_insert_self ..), dir]
  have links : (t.icache k).nlink = (s.nodes (s.icache k).inum).nlink := by
    rw [← node, inv'.nodeAt_eq locked, (inv'.dinode_eq locked).1]
    rfl
  rw [if_neg apart', if_neg nonzero] at found_eq
  rw [wp_bind, wp_getInode, links]
  split
  next few => exact wp_panic.mpr ⟨by decide, fun _ => .inl (found_eq.trans (if_pos few))⟩
  next enough =>
    rw [if_neg enough] at found_eq
    have able := wp_unlinkable inv' locked
    rw [node] at able
    refine wp_seq able ?_ ?_
    · rintro e ⟨rfl, isDir, empty, unaligned⟩
      refine ⟨by decide, fun _ => .inl ?_⟩
      rw [found_eq, if_neg (fun both => both.2 empty), if_pos ⟨isDir, unaligned⟩]
    rintro r u ⟨rfl, full, aligned⟩
    refine wp_ite.mpr ⟨fun can => ?_, fun cannot => ?_⟩
    · have done : found = .ok (some (s.nodes.removeEntry (s.used 0) (s.icache dp).inum i (s.icache k).inum)) := by
        rw [found_eq, if_neg (fun both => by rw [full.mpr both] at can; cases can), if_neg (aligned can)]
      have entry := wp_unlinkEntry inv' apart (by rw [(quiet 0).outstanding]; exact op) dir' (by rw [nodeD]; exact inside)
      rw [(quiet 0).nodes, (quiet 0).used_eq, inumK, inumD] at entry
      refine wp_mono entry ?_ ?_
      · exact fun r v ends => ends.after (quiet 0).toFrame fun covered => ⟨covered.quiet (quiet 0), (quiet 0).nodes, done⟩
      · rintro e rfl
        exact ⟨by decide, fun _ => .inr rfl⟩
    · have failed : found = .ok none := by
        rw [found_eq, if_pos (full.mp (by simpa using cannot))]
      refine wp_then (wp_iunlockput inv' locked (by rw [(quiet 0).outstanding]; exact op)) ?_
      rintro _ v ⟨inv'', frame, puts⟩
      rw [erase_insert free] at inv''
      have whole : Frame s v 0 := (quiet 0).toFrame.trans frame.tail
      refine wp_mono (wp_unlinkBad inv'' (by rw [whole.outstanding]; exact op) fun _ => rfl) ?_ fun _ none => none.elim
      refine fun r w ends => ends.after whole fun covered => ?_
      obtain ⟨covered', nodes⟩ := ((covered.quiet (quiet 0)).cons dp).kept puts
      exact ⟨(covered.quiet (quiet 0)).same frame.tail nodes, nodes.trans (quiet 0).nodes, failed⟩

theorem wp_sysUnlink (rest : AtRest s) (here : (s.procs p).cwd = some cwd) (path : Path) :
    let unlink := s.nodes.unlink (s.used 0) (s.icache cwd).inum path.bytes
    wp (sysUnlink p path) (fun r t => Done s t (Outcome unlink r)) (Stops s unlink) s := by
  intro unlink
  unfold sysUnlink
  rw [wp_bind, wp_beginOp]
  suffices body : wp _ (Ends (begun s) unlink) (Stops s unlink) (begun s) from
    wp_mono body (fun r t ends => ends.done rest) fun _ stopped => stopped
  refine wp_parentLock (p := p) rest.inv.begun (Nat.succ_pos _) here (fun _ _ => rfl) ?_ ?_ ?_
  · intro t inv frame found
    simp only [begun_nodes, begun_used, begun_icache] at found
    rw [wp_bind, wp_endOp, wp_pure]
    refine ⟨t, rfl, inv, frame, fun covered => ?_⟩
    obtain ⟨covered', nodes, missing⟩ := found covered
    rw [nodes]
    exact ⟨covered', .fails (by simp only [unlink, Nodes.unlink, missing]) _⟩
  · intro dp name t inv frame dir found
    simp only [begun_nodes, begun_used, begun_icache] at found
    have locked := mem_insert_self dp ∅
    -- every `goto bad` that comes right after the lookup
    have bad : (Covered s 0 → unlink = .ok none) → wp (unlinkBad dp) (Ends (begun s) unlink) (Stops s unlink) t := by
      intro failed
      refine wp_mono (wp_unlinkBad inv frame.op fun _ => rfl) ?_ fun _ none => none.elim
      refine fun r u ends => ends.after frame fun covered => ?_
      obtain ⟨covered', nodes, -⟩ := found covered
      exact ⟨covered', nodes, failed covered⟩
    split
    next dots =>
      refine bad fun covered => ?_
      obtain ⟨-, -, present⟩ := found covered
      simp only [unlink, Nodes.unlink, present, if_pos dots]
    next other =>
      have used : t.used (dp ::ₘ 0) = insert (t.icache dp).inum (s.used 0) := by
        rw [State.used_cons, frame.used_eq, begun_used]
      have next : Covered s 0 → unlink = match t.nodes.dirlookup (insert (t.icache dp).inum (s.used 0)) (t.icache dp).inum name with
          | .error e => .error e
          | .ok none => .ok none
          | .ok (some i) => s.nodes.unlinkAt (s.used 0) (t.icache dp).inum i := by
        intro covered
        obtain ⟨-, nodes, present⟩ := found covered
        simp only [unlink, Nodes.unlink, present, if_neg other, nodes]
      have lookup := wp_dirlookup inv locked dir name
      rw [used] at lookup
      refine wp_seq lookup ?_ ?_
      · intro e stopped
        refine ⟨?_, fun covered => .inl (by rw [next covered, stopped])⟩
        obtain rfl | rfl := Nodes.dirlookup_stops stopped <;> decide
      rintro (_ | ⟨k, off⟩) u result
      · obtain ⟨missing, rfl⟩ := result
        exact bad fun covered => by rw [next covered, missing]
      · obtain ⟨i, present, rfl, entry, inv', quiet⟩ := result
        have still : Quiet t u 0 := quiet.weaken (zero_le _)
        have whole : Frame (begun s) u 0 := frame.trans still.toFrame
        have inum := quiet.inum (mem_cons_self dp 0)
        have node : nodeAt u dp = nodeAt t dp := by rw [nodeAt, inum, still.nodes, nodeAt]
        have found' := wp_unlinkFound inv' whole.op
          (by rw [inv'.type_eq locked, node, ← inv.type_eq locked, dir])
          (by rw [node]; exact (Node.lookup_some (Nodes.dirlookup_some present)).1) (by rw [node]; exact entry)
        rw [still.nodes, still.used_eq, frame.used_eq, begun_used, inum] at found'
        have covers : Covered s 0 → Covered u 0 ∧ u.nodes = s.nodes ∧
            unlink = t.nodes.unlinkAt (s.used 0) (t.icache dp).inum i := by
          intro covered
          obtain ⟨covered', nodes, -⟩ := found covered
          exact ⟨covered'.quiet still, still.nodes.trans nodes, by rw [next covered, present, nodes]⟩
        refine wp_mono found' (fun r v ends => ends.after whole covers) ?_
        rintro e ⟨benign, stopped⟩
        refine ⟨benign, fun covered => ?_⟩
        obtain ⟨covered', -, same⟩ := covers covered
        rw [same]
        exact stopped covered'
  · intro e benign stopped
    simp only [begun_nodes, begun_used, begun_icache] at stopped
    exact ⟨benign, fun covered => .inl (by simp only [unlink, Nodes.unlink, stopped covered.begun])⟩

end Unlink

end Xv6.Fs
