import Xv6.Fs.Tree

/-! The links of every inode are exact in every state that calls with absolute paths lead to. -/

namespace Xv6.Fs
open Lib Function Nat List Transition Finset

variable {nodes after : Nodes} {n cwd d x type major minor : Nat}

namespace Nodes

variable {used : Finset Nat} {i y : Nat} {name : List UInt8}

theorem Exact.nlink_ne_zero (exact : nodes.Exact n) (live : nodes.Live d) {e : Link} (member : e ∈ (nodes d).entries)
    (occupied : e.1 ≠ 0) (type : (nodes e.1).type ≠ 0) : (nodes e.1).nlink ≠ 0 := by
  obtain ⟨rest, entries, -, plain⟩ := exact.shaped d live
  have dirs := exact.mem_dirs.mpr live
  have linked : e.1 ≠ d → (nodes.hierarchy n).share e.1 d ≠ 0 := by
    intro apart
    rw [entries, List.mem_cons, List.mem_cons] at member
    obtain rfl | rfl | later := member
    · exact absurd rfl apart
    · rw [Hierarchy.share, hierarchy_parent live, if_pos rfl]
      exact succ_ne_zero _
    · have counted : (nodes d).names e.1 ≠ 0 := by
        refine pos_iff_ne_zero.mp (countP_pos_iff.mpr ⟨e, ?_, decide_eq_true ⟨occupied, rfl, plain e later occupied⟩⟩)
        rw [entries]
        exact mem_cons_of_mem _ (mem_cons_of_mem _ later)
      rw [Hierarchy.share, hierarchy_names live]
      omega
  by_cases same : e.1 = d
  · rw [same]
    exact live.2
  · have least := Hierarchy.share_le_links (x := e.1) dirs
    have positive := linked same
    rw [exact.counts e.1 type]
    omega

theorem Exact.live_of_absolute (exact : nodes.Exact n) {path : List UInt8} (absolute : path.head? = some slash)
    (found : nodes.resolve used cwd true path = .ok (some (d, name))) : nodes.Live d := by
  have reach : (nodes d).type = T_DIR → nodes.Live d := by
    refine walk_mem (fun z => (nodes z).type = T_DIR → nodes.Live z) ?_ ?_ (resolve_walk found)
    · rw [if_pos absolute]
      exact fun _ => exact.mem_dirs.mp exact.tree.root_mem
    · intro c lives dir e member occupied dir'
      exact ⟨dir', exact.nlink_ne_zero (lives dir) member occupied (by rw [dir']; decide)⟩
  exact reach (resolve_dir found)

theorem Exact.linkAdded (exact : nodes.Exact n) (small : n ≤ 2 ^ 16) (live : nodes.Live d) (missing : (nodes d).lookup name = none)
    (aligned : (nodes d).Aligned) (allocated : (nodes x).type ≠ 0) (file : (nodes x).type ≠ T_DIR)
    (room : (nodes x).nlink + 1 < 2 ^ 16) : (nodes.linkAdded x d name).Exact n := by
  have nonzero : x ≠ 0 := fun same => allocated (same ▸ exact.null)
  have inside := exact.bounded x allocated
  have apart : d ≠ x := fun same => file (same ▸ live.1)
  have there : nodes.linkAdded x d name d = (nodes d).linked name x := by
    rw [Nodes.linkAdded, update_self, relink, update_of_ne apart]
  have elsewhere : ∀ y, y ≠ d → nodes.linkAdded x d name y = nodes.relink x 1 y := fun y other => update_of_ne other ..
  have unchanged : ∀ y, y ≠ x → y ≠ d → nodes.linkAdded x d name y = nodes y := fun y other other' => by
    rw [elsewhere y other', relink, update_of_ne other]
  have count : (nodes.linkAdded x d name x).nlink = (nodes x).nlink + 1 := by
    rw [elsewhere x apart.symm, relink_apply, if_pos rfl]
    exact mod_eq_of_lt room
  have kind : (nodes.linkAdded x d name x).type = (nodes x).type := by
    rw [elsewhere x apart.symm, relink_apply]
  have plain := (exact.shaped d live).plain_of_missing (exact.ne_zero live) missing
  obtain ⟨shaped, parent⟩ := (exact.shaped d live).linked (exact.ne_zero live) aligned plain x
  refine Exact.added live (by rw [there]; exact parent) (fun y => ?_) (fun y other lives => ?_) exact (by rw [there]; exact shaped)
    nonzero inside file (by rwa [kind]) (by rwa [kind]) (fun y other => ?_) (fun y other => ?_)
    (by rw [count, exact.counts x allocated])
  · rw [there]
    exact Node.names_linked aligned plain nonzero (lt_of_lt_of_le inside small) y
  · rw [elsewhere y other, relink_apply]
    rfl
  · by_cases same : y = d
    · rw [same, there]
      rfl
    · rw [unchanged y other same]
  · by_cases same : y = d
    · rw [same, there]
      rfl
    · rw [unchanged y other same]

theorem Exact.of_empty (exact : nodes.Exact n) (live : nodes.Live d) (dir : (nodes x).type = T_DIR) (name : (nodes d).names x ≠ 0)
    (empty : (nodes x).Empty) :
    nodes.Live x ∧ x ≠ ROOTINO ∧ (nodes x).parent = d ∧ (nodes x).nlink = 1 ∧ 2 ≤ (nodes d).nlink := by
  have type : (nodes x).type ≠ 0 := by
    rw [dir]
    decide
  have lives : nodes.Live x := by
    refine ⟨dir, ?_⟩
    have least := exact.names_le (x := x) live
    rw [exact.counts x type]
    omega
  have inside := exact.mem_dirs.mpr lives
  have bare : ∀ y, (nodes.hierarchy n).names x y = 0 := fun y =>
    (hierarchy_names lives).trans ((exact.shaped x lives).names_of_empty empty y)
  obtain ⟨other, above⟩ := exact.tree.eq_parent inside (exact.mem_dirs.mpr live) (by rwa [hierarchy_names live])
  have more := exact.tree.two_le_links inside other bare
  rw [← above, ← exact.counts d (by rw [live.1]; decide)] at more
  rw [hierarchy_parent lives] at above
  refine ⟨lives, other, above.symm, ?_, more⟩
  rw [exact.counts x type, exact.tree.links_of_empty inside other bare]

theorem names_of_lookup (found : (nodes d).lookup name = some i) (plain : component name ≠ dot ∧ component name ≠ dotdot) :
    (nodes d).names ((nodes d).entry i).inum ≠ 0 := by
  rw [Node.names_cleared found plain, if_pos rfl]
  exact succ_ne_zero _

theorem linkRemoved_dir (apart : x ≠ d) : nodes.linkRemoved d i x d = { (nodes d).cleared i with
    nlink := if (nodes x).type = T_DIR then ((nodes d).nlink + (2 ^ 16 - 1)) % 2 ^ 16 else (nodes d).nlink } := by
  have here : nodes.eraseEntry d i d = (nodes d).cleared i := update_self ..
  have there : nodes.eraseEntry d i x = nodes x := update_of_ne apart ..
  rw [linkRemoved, relink, update_of_ne apart.symm, unlinkParent, there]
  split
  next dir =>
    rw [relink, update_self, here]
    rfl
  next => exact here

theorem linkRemoved_of_ne (other : y ≠ d) : nodes.linkRemoved d i x y = nodes.relink x (2 ^ 16 - 1) y := by
  have there : (nodes.eraseEntry d i).unlinkParent d x y = nodes y := by
    unfold unlinkParent
    split
    · rw [relink, update_of_ne other, eraseEntry, update_of_ne other]
    · rw [eraseEntry, update_of_ne other]
  by_cases same : y = x
  · subst same
    rw [linkRemoved, relink, update_self, there, relink, update_self]
  · rw [linkRemoved, relink, update_of_ne same, there, relink, update_of_ne same]

theorem Exact.linkRemoved (exact : nodes.Exact n) (live : nodes.Live d) (found : (nodes d).lookup name = some i)
    (plain : component name ≠ dot ∧ component name ≠ dotdot) (apart : x ≠ d) (here : ((nodes d).entry i).inum = x)
    (few : (nodes x).nlink < 2 ^ 16) (few' : (nodes d).nlink < 2 ^ 16)
    (empty : (nodes x).type = T_DIR → (nodes x).Empty) : (nodes.linkRemoved d i x).Exact n := by
  have named : (nodes d).names x ≠ 0 := here ▸ names_of_lookup found plain
  have allocated := exact.sound d x live named
  have linked : (nodes x).nlink ≠ 0 := by
    have least := exact.names_le (x := x) live
    rw [exact.counts x allocated]
    omega
  have inside := (Node.listed_of_lookup found).1
  obtain ⟨shaped, parent⟩ := (exact.shaped d live).cleared inside ((exact.shaped d live).two_le found plain)
  have atDir : nodes.linkRemoved d i x d = _ := linkRemoved_dir apart
  have atInode : nodes.linkRemoved d i x x = { nodes x with nlink := (nodes x).nlink - 1 } := by
    have less : ((nodes x).nlink + (2 ^ 16 - 1)) % 2 ^ 16 = (nodes x).nlink - 1 := by omega
    rw [linkRemoved_of_ne apart, relink_apply, if_pos rfl, less]
  have unchanged : ∀ y, y ≠ d → y ≠ x → nodes.linkRemoved d i x y = nodes y := fun y other other' => by
    rw [linkRemoved_of_ne other, relink, update_of_ne other']
  have types : ∀ y, (nodes y).type = (nodes.linkRemoved d i x y).type := by
    intro y
    by_cases home : y = d
    · rw [home, atDir]
      rfl
    by_cases same : y = x
    · rw [same, atInode]
    · rw [unchanged y home same]
  have others : ∀ y, y ≠ d → (nodes y).entries = (nodes.linkRemoved d i x y).entries := by
    intro y home
    rw [linkRemoved_of_ne home, relink_apply]
    rfl
  have shaped' : (nodes.linkRemoved d i x d).Shaped d := by
    rw [atDir]
    exact shaped
  have parent' : (nodes d).parent = (nodes.linkRemoved d i x d).parent := by
    rw [atDir]
    exact parent.symm
  have names : ∀ y, (nodes d).names y = (nodes.linkRemoved d i x d).names y + if y = x then 1 else 0 := by
    intro y
    rw [atDir, Node.names_cleared found plain y, here]
    rfl
  by_cases dir : (nodes x).type = T_DIR
  · obtain ⟨lives, other, above, one, two⟩ := exact.of_empty live dir named (empty dir)
    have less : (nodes.linkRemoved d i x d).nlink = (nodes d).nlink - 1 := by
      rw [atDir, if_pos dir]
      change ((nodes d).nlink + (2 ^ 16 - 1)) % 2 ^ 16 = _
      omega
    have live' : (nodes.linkRemoved d i x).Live d := ⟨(types d).symm.trans live.1, by omega⟩
    refine Exact.pruned live' parent' names (fun y home _ => others y home) exact shaped' lives other above
      ((exact.shaped x lives).names_of_empty (empty dir)) types (by rw [atInode, one]) fun y other => ?_
    by_cases home : y = d
    · rw [home, less, if_pos rfl]
      omega
    · rw [unchanged y home other, if_neg home, add_zero]
  · have same : (nodes.linkRemoved d i x d).nlink = (nodes d).nlink := by
      rw [atDir, if_neg dir]
    have live' : (nodes.linkRemoved d i x).Live d := ⟨(types d).symm.trans live.1, by rw [same]; exact live.2⟩
    refine Exact.removed live' parent' names (fun y home _ => others y home) exact shaped' (by rwa [← types]) types (fun y other => ?_) ?_
    · by_cases home : y = d
      · rw [home, same]
      · rw [unchanged y home other]
    · rw [atInode]
      change (nodes x).nlink = (nodes x).nlink - 1 + 1
      omega

theorem Exact.placed (exact : nodes.Exact n) (small : n ≤ 2 ^ 16) (live : nodes.Live d)
    (missing : (nodes d).lookup name = none) (aligned : (nodes d).Aligned) (positive : 0 < x) (inside : x < n)
    (free : (nodes x).type = 0) (some : type ≠ 0) (room : (nodes d).nlink + 1 < 2 ^ 16) :
    ((nodes.make x type major minor).placed d name x type).Exact n := by
  have apart : d ≠ x := fun same => absurd (live.1.symm.trans (same ▸ free)) (by decide)
  have nonzero : x ≠ 0 := pos_iff_ne_zero.mp positive
  have number : x % 2 ^ 16 = x := mod_eq_of_lt (lt_of_lt_of_le inside small)
  have number' : d % 2 ^ 16 = d :=
    mod_eq_of_lt (lt_of_lt_of_le (exact.bounded d (by rw [live.1]; decide)) small)
  have old : ∀ y, y ≠ x → nodes.make x type major minor y = nodes y := fun y other => update_of_ne other ..
  have new : nodes.make x type major minor x =
      { Node.new type with major := major % 2 ^ 16, minor := minor % 2 ^ 16, nlink := 1 } := update_self ..
  have plain := (exact.shaped d live).plain_of_missing (exact.ne_zero live) missing
  obtain ⟨shaped, parent⟩ := (exact.shaped d live).linked (exact.ne_zero live) aligned plain x
  have names := Node.names_linked aligned plain nonzero (lt_of_lt_of_le inside small)
  unfold Nodes.placed
  split
  next dir =>
    have atDir : (nodes.make x type major minor).relink d 1 d = { nodes d with nlink := (nodes d).nlink + 1 } := by
      rw [relink, update_self, old d apart, mod_eq_of_lt room]
    rw [atDir]
    generalize made : update (update ((nodes.make x type major minor).relink d 1) x _) d _ = after
    have here : after d = Node.linked { nodes d with nlink := (nodes d).nlink + 1 } name x := by
      rw [← made, update_self]
    have there : after x = ((nodes.make x type major minor x).linked dot x).linked dotdot d := by
      rw [← made, update_of_ne apart.symm, update_self]
    have unchanged : ∀ y, y ≠ x → y ≠ d → after y = nodes y := fun y other home => by
      rw [← made, update_of_ne home, update_of_ne other, relink, update_of_ne home, old y other]
    refine Exact.grown live (by rw [here]; exact parent) (fun y => by rw [here]; exact names y) (fun y home lives => ?_) exact
      (by rw [here]; exact shaped) nonzero inside free ?_ ?_ ?_ (fun y other => ?_) fun y other => ?_
    · have other : y ≠ x := fun same => absurd (lives.1.symm.trans (same ▸ free)) (by decide)
      rw [unchanged y other home]
    · rw [there, (fresh_entries (by rw [new]; rfl) (by rwa [number])).2.2, number, number']
    · rw [there, new]
      exact dir
    · rw [there, new]
      rfl
    · by_cases home : y = d
      · rw [home, here]
        rfl
      · rw [unchanged y other home]
    · by_cases home : y = d
      · rw [home, here, if_pos rfl]
        rfl
      · rw [unchanged y other home, if_neg home, add_zero]
  next file =>
    rw [old d apart]
    generalize made : update (nodes.make x type major minor) d _ = after
    have here : after d = (nodes d).linked name x := by rw [← made, update_self]
    have there : after x = nodes.make x type major minor x := by rw [← made, update_of_ne apart.symm]
    have unchanged : ∀ y, y ≠ x → y ≠ d → after y = nodes y := fun y other home => by
      rw [← made, update_of_ne home, old y other]
    refine Exact.added live (by rw [here]; exact parent) (fun y => by rw [here]; exact names y) (fun y home lives => ?_) exact
      (by rw [here]; exact shaped) nonzero inside (by rw [free]; decide) ?_ ?_ (fun y other => ?_) (fun y other => ?_) ?_
    · have other : y ≠ x := fun same => absurd (lives.1.symm.trans (same ▸ free)) (by decide)
      rw [unchanged y other home]
    · rw [there, new]
      exact file
    · rw [there, new]
      exact some
    · by_cases home : y = d
      · rw [home, here]
        rfl
      · rw [unchanged y other home]
    · by_cases home : y = d
      · rw [home, here]
        rfl
      · rw [unchanged y other home]
    · rw [there, new, exact.links_of_free free]

end Nodes

def Path.Absolute (path : Path) : Prop := path.bytes.head? = some slash

instance (path : Path) : Decidable path.Absolute := inferInstanceAs (Decidable (_ = _))

/-- The paths of what is linked, unlinked or created are absolute. -/
def Call.Absolute : Call → Prop
  | .link old new => old.Absolute ∧ new.Absolute
  | .unlink path => path.Absolute
  | .mkdir path | .mknod path .. => ∀ q ∈ path, q.Absolute
  | .open path omode => omode &&& O_CREATE ≠ 0 → path.Absolute
  | .chdir .. | .exec .. | .read .. | .write .. | .fstat .. | .dup .. | .close .. | .pipe .. | .fork .. | .exit
  | .unfetched => True

instance (call : Call) : Decidable call.Absolute :=
  match call with
  | .link .. => inferInstanceAs (Decidable (_ ∧ _))
  | .unlink path => inferInstanceAs (Decidable path.Absolute)
  | .mkdir path | .mknod path .. => inferInstanceAs (Decidable (∀ q ∈ path, q.Absolute))
  | .open .. => inferInstanceAs (Decidable (_ → _))
  | .chdir .. | .exec .. | .read .. | .write .. | .fstat .. | .dup .. | .close .. | .pipe .. | .fork .. | .exit
  | .unfetched => .isTrue trivial

def Nodes.Countable (nodes : Nodes) : Prop := ∀ x, (nodes x).nlink ≤ 32767

theorem Call.Creates.absolute {call : Call} {path : Path} (creates : call.Creates path type major minor)
    (absolute : call.Absolute) : path.Absolute := by
  cases creates with
  | mkdir => exact absolute _ rfl
  | mknod => exact absolute _ rfl
  | «open» _ _ creates => exact absolute creates

/-- The call makes or removes a name in `d`. -/
inductive Call.WorksIn (s : State) (cwd : Nat) : Call → Nat → Prop
  | link {old new : Path} {x d : Nat} {name : List UInt8}
      (linked : s.nodes.Linked (s.used 0) cwd old.bytes new.bytes x d name) : WorksIn s cwd (.link old new) d
  | unlink {path : Path} {d i : Nat} {name : List UInt8}
      (unlinked : s.nodes.Unlinked (s.used 0) cwd path.bytes d i name) : WorksIn s cwd (.unlink path) d
  | create {call : Call} {path : Path} {type major minor x d : Nat} {name : List UInt8}
      (creates : call.Creates path type major minor)
      (created : s.nodes.Created s.sb.ninodes (s.used 0) cwd path.bytes x d name) : WorksIn s cwd call d

section Effect

variable {s : State} {call : Call}

theorem Call.WorksIn.live_of_absolute (works : call.WorksIn s cwd d) (exact : s.nodes.Exact s.sb.ninodes)
    (absolute : call.Absolute) : s.nodes.Live d := by
  cases works with
  | link linked => exact exact.live_of_absolute absolute.2 linked.parent
  | unlink unlinked => exact exact.live_of_absolute absolute unlinked.parent
  | create creates created => exact exact.live_of_absolute (creates.absolute absolute) created.parent

theorem Effect.exact (effect : Effect s cwd call after) (exact : s.nodes.Exact s.sb.ninodes) (small : s.sb.ninodes ≤ 2 ^ 16)
    (live : ∀ d, call.WorksIn s cwd d → s.nodes.Live d) (few : ∀ x, (s.nodes x).nlink + 1 < 2 ^ 16) : after.Exact s.sb.ninodes := by
  cases effect with
  | drift drift => exact exact.drift drift
  | @link old new x d name _ linked drift =>
    exact (exact.linkAdded small (live d (.link linked)) linked.missing linked.aligned (Nodes.namei_some linked.found).1 linked.file
      (few x)).drift drift
  | @unlink path d i name _ unlinked drift =>
    have few' := few d
    have few := few ((s.nodes d).entry i).inum
    exact (exact.linkRemoved (live d (.unlink unlinked)) unlinked.found ⟨unlinked.notDot, unlinked.notDotdot⟩ unlinked.apart rfl
      (by omega) (by omega) unlinked.empty).drift drift
  | @create _ path type major minor x d name _ creates created drift =>
    have kind : type ≠ 0 := by
      cases creates <;> decide
    exact (exact.placed small (live d (.create creates created)) created.missing created.aligned created.positive created.inside
      created.free kind (few d)).drift drift

end Effect

namespace Nodes

/-- How many entries for `x`, but for those named `.`, are in directories that have links. -/
def entriesFor (nodes : Nodes) (n x : Nat) : Nat :=
  ∑ d ∈ (Finset.range n).filter nodes.Live, (nodes d).entries.countP fun e => decide (e.1 = x ∧ e.2 ≠ dot)

def namesFor (nodes : Nodes) (n x : Nat) : Nat :=
  ∑ d ∈ (Finset.range n).filter nodes.Live, (nodes d).entries.countP fun e => decide (e.1 = x ∧ e.2 ≠ dot ∧ e.2 ≠ dotdot)

def up (nodes : Nodes) (d : Nat) : Nat := ((nodes d).lookup dotdot).elim 0 fun i => ((nodes d).entry i).inum

theorem countP_names (nonzero : x ≠ 0) (node : Node) :
    node.entries.countP (fun e => decide (e.1 = x ∧ e.2 ≠ dot ∧ e.2 ≠ dotdot)) = node.names x := by
  refine countP_congr fun e _ => ?_
  rw [Link.names, decide_eq_true_iff, decide_eq_true_iff]
  exact ⟨fun name => ⟨by rw [name.1]; exact nonzero, name⟩, fun name => name.2⟩

theorem Exact.up_eq (exact : nodes.Exact n) (live : nodes.Live d) : nodes.up d = (nodes.hierarchy n).parent d := by
  obtain ⟨rest, entries, above, plain⟩ := exact.shaped d live
  have member : ((nodes d).parent, dotdot) ∈ (nodes d).entries := by
    rw [entries]
    exact mem_cons_of_mem _ mem_cons_self
  obtain ⟨i, found⟩ := Node.lookup_of_mem member above (show dotdot = component dotdot by decide)
  obtain ⟨inside, occupied, same⟩ := Node.listed_of_lookup found
  have name : ((nodes d).listed i).2 = dotdot := same.trans (by decide)
  have here : (nodes d).listed i ∈ (nodes d).entries := Node.mem_entries.mpr ⟨i, inside, rfl⟩
  rw [hierarchy_parent live, up, found]
  change ((nodes d).listed i).1 = _
  rw [entries, List.mem_cons, List.mem_cons] at here
  obtain first | second | later := here
  · rw [first] at name
    exact absurd name (show dot ≠ dotdot by decide)
  · rw [second]
  · exact absurd name (plain _ later occupied).2

theorem Exact.entriesFor_eq (exact : nodes.Exact n) (nonzero : x ≠ 0) : nodes.entriesFor n x = (nodes.hierarchy n).links x := by
  refine Finset.sum_congr rfl fun d member => ?_
  have live := (Finset.mem_filter.mp member).2
  rw [Hierarchy.share, hierarchy_names live, hierarchy_parent live, ← countP_names nonzero]
  obtain ⟨rest, entries, above, plain⟩ := exact.shaped d live
  rw [entries]
  simp only [countP_cons]
  have same : rest.countP (fun e => decide (e.1 = x ∧ e.2 ≠ dot)) =
      rest.countP fun e => decide (e.1 = x ∧ e.2 ≠ dot ∧ e.2 ≠ dotdot) := by
    refine countP_congr fun e member => ?_
    rw [decide_eq_true_iff, decide_eq_true_iff]
    exact ⟨fun here => ⟨here.1, plain e member (by rw [here.1]; exact nonzero)⟩, fun here => ⟨here.1, here.2.1⟩⟩
  rw [same]
  simp [show dotdot ≠ dot by decide]

/-- A directory has one name, in the directory that its `..` is for, and `..` leads on to the root. -/
theorem Exact.named_once (exact : nodes.Exact n) (live : nodes.Live d) (other : d ≠ ROOTINO) :
    nodes.namesFor n d = 1 ∧ nodes.Live (nodes.up d) ∧
    (nodes (nodes.up d)).entries.countP (fun e => decide (e.1 = d ∧ e.2 ≠ dot ∧ e.2 ≠ dotdot)) = 1 ∧
    ∃ k, nodes.up^[k] d = ROOTINO := by
  have member := exact.mem_dirs.mpr live
  have nonzero := exact.ne_zero live
  have above := exact.tree.parent_mem d member
  have shares : ∀ e ∈ (nodes.hierarchy n).dirs,
      (nodes e).entries.countP (fun l => decide (l.1 = d ∧ l.2 ≠ dot ∧ l.2 ≠ dotdot)) =
        if e = (nodes.hierarchy n).parent d then 1 else 0 := by
    intro e inside
    rw [countP_names nonzero, ← hierarchy_names (exact.mem_dirs.mp inside)]
    exact exact.tree.named d member other e inside
  rw [exact.up_eq live]
  refine ⟨?_, exact.mem_dirs.mp above, by rw [shares _ above, if_pos rfl], ?_⟩
  · refine (Finset.sum_congr rfl shares).trans ?_
    exact (Finset.sum_ite_eq' _ _ _).trans (if_pos above)
  · obtain ⟨k, arrives⟩ := exact.tree.reaches d member
    refine ⟨k, (Hierarchy.IsTree.iterate_congr exact.tree.parent_mem (fun e inside => ?_) k member).trans arrives⟩
    exact exact.up_eq (exact.mem_dirs.mp inside)

end Nodes

section Links

variable {image : Image} {tty peer : List (Option (List UInt8))} {s : State} {calls : List (Fin NPROC × Call)}

theorem run_exact (clean : image.Clean) (exact : image.nodes.Exact image.sb.ninodes)
    (along : Transition.Along step (fun s l => l.2.Absolute ∧ s.nodes.Countable) (image.boot tty peer) calls)
    (reached : run step (image.boot tty peer) calls = some s) : Settled image s ∧ s.nodes.Exact s.sb.ninodes := by
  obtain ⟨settled, here⟩ := run_settled (Nodes.Exact image.sb.ninodes) clean exact
    (fun s p call after settled _ good exact effect => by
      rw [← settled.sb] at exact ⊢
      refine effect.exact exact settled.small (fun d works => works.live_of_absolute exact good.1) fun x => ?_
      have := good.2 x
      omega) along reached
  exact ⟨settled, by rw [settled.sb]; exact here⟩

theorem Settled.unlinks {p : Fin NPROC} {path : Path} {t : State} (settled : Settled image s) (alive : (s.procs p).cwd ≠ none)
    (returned : (sysUnlink p path).run s = .ok (0, t)) :
    ∃ d i name, s.nodes.Unlinked (s.used 0) (s.cwdInum p) path.bytes d i name := by
  have granted : (Call.unlink path).Granted s := trivial
  have done := wp.ok (wp_call settled.rest alive granted) returned
  obtain ⟨o, result, -, value⟩ := (done.covered settled.covered).2
  cases o with
  | none => cases value
  | some after =>
    obtain ⟨d, i, name, unlinked, -⟩ := Nodes.unlink_some result
    exact ⟨d, i, name, unlinked⟩

theorem link_counts_exact (clean : image.Clean) (exact : image.nodes.Exact image.sb.ninodes)
    (along : Transition.Along step (fun s l => l.2.Absolute ∧ s.nodes.Countable) (image.boot tty peer) calls)
    (reached : run step (image.boot tty peer) calls = some s) :
    (∀ x, (s.nodes x).type ≠ 0 → (s.nodes x).nlink = s.nodes.entriesFor s.sb.ninodes x) ∧
    (∀ d, s.nodes.Live d → d ≠ ROOTINO →
      s.nodes.namesFor s.sb.ninodes d = 1 ∧ s.nodes.Live (s.nodes.up d) ∧
      (s.nodes (s.nodes.up d)).entries.countP (fun e => decide (e.1 = d ∧ e.2 ≠ dot ∧ e.2 ≠ dotdot)) = 1 ∧
      ∃ k, s.nodes.up^[k] d = ROOTINO) ∧
    ∀ p path t, (s.procs p).cwd ≠ none → path.Absolute → (sysUnlink p path).run s = .ok (0, t) →
      ∃ d i name, s.nodes.Unlinked (s.used 0) (s.cwdInum p) path.bytes d i name ∧
        ((s.nodes ((s.nodes d).entry i).inum).type = T_DIR → (s.nodes ((s.nodes d).entry i).inum).nlink = 1) := by
  obtain ⟨settled, exact⟩ := run_exact clean exact along reached
  refine ⟨fun x type => ?_, fun d live other => exact.named_once live other, fun p path t alive absolute returned => ?_⟩
  · have nonzero : x ≠ 0 := fun same => type (same ▸ exact.null)
    rw [exact.counts x type, exact.entriesFor_eq nonzero]
  · obtain ⟨d, i, name, unlinked⟩ := settled.unlinks alive returned
    refine ⟨d, i, name, unlinked, fun dir => ?_⟩
    have live := exact.live_of_absolute absolute unlinked.parent
    have named := Nodes.names_of_lookup unlinked.found ⟨unlinked.notDot, unlinked.notDotdot⟩
    exact (exact.of_empty live dir named (unlinked.empty dir)).2.2.2.1

end Links

theorem smallImage_entries :
    (smallImage.nodes 1).entries = [(1, dot), (1, dotdot), (2, [97]), (4, [102])] ∧
    (smallImage.nodes 2).entries = [(2, dot), (1, dotdot), (3, [98])] ∧
    (smallImage.nodes 3).entries = [(3, dot), (2, dotdot)] := by decide +kernel

theorem smallImage_live (d : Nat) : smallImage.nodes.Live d ↔ d = 1 ∨ d = 2 ∨ d = 3 := by
  have few : ∀ d < 6, smallImage.nodes.Live d ↔ d = 1 ∨ d = 2 ∨ d = 3 := by decide +kernel
  constructor
  · intro live
    have inside : d < smallImage.sb.ninodes := Image.lt_of_type (by rw [live.1]; decide)
    exact (few d inside).mp live
  · intro small
    exact (few d (by omega)).mpr small

theorem smallImage_exact : smallImage.nodes.Exact smallImage.sb.ninodes where
  null := by decide +kernel
  bounded := fun x => Image.lt_of_type
  shaped := by
    intro d live
    obtain rfl | rfl | rfl := (smallImage_live d).mp live
    · exact (Node.shaped_of_entries smallImage_entries.1 (by decide) (by decide)).1
    · exact (Node.shaped_of_entries smallImage_entries.2.1 (by decide) (by decide)).1
    · exact (Node.shaped_of_entries smallImage_entries.2.2 (by decide) (by decide)).1
  sound := by
    have sound : ∀ d < 6, smallImage.nodes.Live d → ∀ e ∈ (smallImage.nodes d).entries, (smallImage.nodes e.1).type ≠ 0 := by
      decide +kernel
    intro d x live name
    obtain ⟨e, member, here⟩ := countP_pos_iff.mp (pos_iff_ne_zero.mpr name)
    have inside : d < smallImage.sb.ninodes := Image.lt_of_type (by rw [live.1]; decide)
    rw [← (of_decide_eq_true here).2.1]
    exact sound d inside live e member
  tree := by
    have reaches : ∀ d ∈ (smallImage.nodes.hierarchy 6).dirs, (smallImage.nodes.hierarchy 6).parent^[2] d = ROOTINO := by
      decide +kernel
    exact ⟨by decide +kernel, by decide +kernel, by decide +kernel, by decide +kernel, by decide +kernel,
      fun d member => ⟨2, reaches d member⟩⟩
  counts := by
    have counts : ∀ x < 6, (smallImage.nodes x).nlink = (smallImage.nodes.hierarchy 6).links x := by decide +kernel
    exact fun x type => counts x (Image.lt_of_type type)

theorem smallImage_countable : smallImage.nodes.Countable := by
  have few : ∀ x < 6, (smallImage.nodes x).nlink ≤ 32767 := by decide +kernel
  intro x
  by_cases inside : x < 6
  · exact few x inside
  · rw [smallImage.nodes_of_not_lt inside]
    decide

theorem link_counts_small : ∃ s, run step (smallImage.boot [] []) [(initproc, .unlink pathAB)] = some s ∧
    ∀ x, (s.nodes x).type ≠ 0 → (s.nodes x).nlink = s.nodes.entriesFor s.sb.ninodes x := by
  have returns : ∃ s, run step (smallImage.boot [] []) [(initproc, .unlink pathAB)] = some s :=
    Option.isSome_iff_exists.mp (by decide +kernel)
  obtain ⟨s, reached⟩ := returns
  have along : Transition.Along step (fun s l => l.2.Absolute ∧ s.nodes.Countable) (smallImage.boot [] [])
      [(initproc, .unlink pathAB)] :=
    (along_cons step).mpr ⟨⟨by decide, smallImage_countable⟩, fun t _ => along_nil _ _ t⟩
  exact ⟨s, reached, (link_counts_exact smallImage_clean smallImage_exact along reached).1⟩

end Xv6.Fs
