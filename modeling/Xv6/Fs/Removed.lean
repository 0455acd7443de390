import Xv6.Fs.Deadlock
import Xv6.Fs.Links

/-! Directories that were removed and are still in use. As long as no name is made in them they stay
empty. -/

namespace Xv6.Fs
open Lib Function Nat List Option Transition

variable {nodes after : Nodes} {n cwd d x y : Nat}

namespace Nodes

variable {used : Finset Nat} {i : Nat} {name : List UInt8}

def Detached (nodes : Nodes) (d : Nat) : Prop := (nodes d).type = T_DIR ∧ (nodes d).nlink = 0

def Names (nodes : Nodes) (d : Nat) (e : Link) : Prop :=
  (nodes d).type = T_DIR ∧ e ∈ (nodes d).entries ∧ e.1 ≠ 0 ∧ e.2 ≠ dot ∧ e.2 ≠ dotdot

instance (nodes : Nodes) (d : Nat) (e : Link) : Decidable (nodes.Names d e) := inferInstanceAs (Decidable (_ ∧ _))

def Bare (nodes : Nodes) : Prop := ∀ d, nodes.Detached d → (nodes d).Shaped d ∧ ∀ e, ¬ nodes.Names d e

/-- The `..` of a directory without links is for a directory with links. -/
def Anchored (nodes : Nodes) : Prop := ∀ d, nodes.Detached d → nodes.Live (nodes d).parent

theorem live_or_detached (dir : (nodes d).type = T_DIR) : nodes.Live d ∨ nodes.Detached d :=
  (em ((nodes d).nlink = 0)).symm.imp (fun links => ⟨dir, links⟩) fun none => ⟨dir, none⟩

theorem Live.not_detached (live : nodes.Live d) : ¬ nodes.Detached d := fun detached => live.2 detached.2

theorem names_iff (dir : (nodes d).type = T_DIR) : (nodes d).names x ≠ 0 ↔ ∃ e, nodes.Names d e ∧ e.1 = x := by
  rw [Node.names, ← pos_iff_ne_zero, countP_pos_iff]
  constructor
  · rintro ⟨e, member, here⟩
    obtain ⟨occupied, same, plain⟩ := of_decide_eq_true here
    exact ⟨e, ⟨dir, member, occupied, plain⟩, same⟩
  · rintro ⟨e, ⟨-, member, occupied, plain⟩, same⟩
    exact ⟨e, member, decide_eq_true ⟨occupied, same, plain⟩⟩

theorem Names.congr {e : Link} (names : nodes.Names d e) (type : (after d).type = (nodes d).type)
    (entries : (after d).entries = (nodes d).entries) : after.Names d e := by
  unfold Names
  rw [type, entries]
  exact names

theorem Drift.live (drift : nodes.Drift after) (live : nodes.Live d) : after d = nodes d := by
  induction drift with
  | refl => rfl
  | tail _ last ih =>
    obtain same | ⟨used, x, rfl⟩ := last
    · rw [(same d).2.2 (by rw [ih]; exact live.1), ih]
    · unfold Nodes.reap
      split
      next gone =>
        have apart : d ≠ x := by
          rintro rfl
          rw [ih] at gone
          exact live.2 gone.2.1
        rw [update_of_ne apart, ih]
      next => exact ih

theorem Drift.detached (drift : nodes.Drift after) (detached : after.Detached d) : after d = nodes d := by
  induction drift with
  | refl => rfl
  | @tail mid _ _ last ih =>
    obtain same | ⟨used, x, rfl⟩ := last
    · obtain ⟨type, nlink, dirs⟩ := same d
      unfold Detached at detached
      rw [type, nlink] at detached
      rw [dirs detached.1, ih detached]
    · unfold Detached Nodes.reap at detached
      unfold Nodes.reap
      split at detached
      next gone =>
        by_cases here : d = x
        · rw [here, update_self] at detached
          exact absurd detached.1 (show (0 : Nat) ≠ T_DIR by decide)
        · rw [update_of_ne here] at detached
          rw [if_pos gone, update_of_ne here, ih detached]
      next stays => rw [if_neg stays, ih detached]

theorem linkAdded_dir (apart : d ≠ x) : nodes.linkAdded x d name d = (nodes d).linked name x := by
  rw [Nodes.linkAdded, update_self, relink, update_of_ne apart]

theorem linkAdded_of_ne (home : y ≠ d) (other : y ≠ x) : nodes.linkAdded x d name y = nodes y := by
  rw [Nodes.linkAdded, update_of_ne home, relink, update_of_ne other]

section Placed

variable {type major minor : Nat}

theorem placed_of_ne (home : y ≠ d) (other : y ≠ x) : (nodes.make x type major minor).placed d name x type y = nodes y := by
  have old : nodes.make x type major minor y = nodes y := update_of_ne other ..
  unfold placed
  split
  · rw [update_of_ne home, update_of_ne other, relink, update_of_ne home, old]
  · rw [update_of_ne home, old]

theorem placed_dir (apart : d ≠ x) : (nodes.make x type major minor).placed d name x type d = { (nodes d).linked name x with
    nlink := if type = T_DIR then ((nodes d).nlink + 1) % 2 ^ 16 else (nodes d).nlink } := by
  have old : nodes.make x type major minor d = nodes d := update_of_ne apart ..
  unfold placed
  split
  · rw [update_self, relink, update_self, old]
    rfl
  · rw [update_self, old]
    rfl

theorem placed_new (apart : d ≠ x) : ((nodes.make x type major minor).placed d name x type x).nlink = 1 := by
  have new : (nodes.make x type major minor x).nlink = 1 := by
    rw [make, update_self]
  unfold placed
  split
  · rw [update_of_ne apart.symm, update_self]
    exact new
  · rw [update_of_ne apart.symm]
    exact new

end Placed

end Nodes

def Call.Removes (s : State) (cwd : Nat) (call : Call) (d : Nat) (e : Link) : Prop :=
  ∃ path i name, call = .unlink path ∧ s.nodes.Unlinked (s.used 0) cwd path.bytes d i name ∧ e = (s.nodes d).listed i

section Effect

variable {s : State} {call : Call} {e : Link}

theorem Call.Removes.unique {c : Nat} {l : Link} (first : call.Removes s cwd d e) (second : call.Removes s cwd c l) : c = d ∧ l = e := by
  obtain ⟨path, i, name, rfl, unlinked, rfl⟩ := first
  obtain ⟨_, j, other, same, unlinked', rfl⟩ := second
  cases same
  have parents := unlinked.parent.symm.trans unlinked'.parent
  cases parents
  have found := unlinked.found.symm.trans unlinked'.found
  cases found
  exact ⟨rfl, rfl⟩

inductive Moves (s : State) (cwd : Nat) (call : Call) (y : Nat) : Node → Prop
  | same : Moves s cwd call y (s.nodes y)
  | counted (file : (s.nodes y).type ≠ T_DIR) (nlink : Nat) : Moves s cwd call y { s.nodes y with nlink := nlink }
  | named (works : call.WorksIn s cwd y) (aligned : (s.nodes y).Aligned) (name : List UInt8) (x : Nat) {nlink : Nat}
      (links : nlink ≠ 0) : Moves s cwd call y { (s.nodes y).linked name x with nlink := nlink }
  | unnamed {i : Nat} (removes : call.Removes s cwd y ((s.nodes y).listed i)) (inside : i < (s.nodes y).count) {nlink : Nat}
      (links : nlink ≠ 0) : Moves s cwd call y { (s.nodes y).cleared i with nlink := nlink }
  | removed {d : Nat} {e : Link} (removes : call.Removes s cwd d e) (here : e.1 = y) (nlink : Nat) :
      Moves s cwd call y { s.nodes y with nlink := nlink }
  | new {node : Node} (free : (s.nodes y).type = 0) (links : node.nlink ≠ 0) : Moves s cwd call y node

variable {node : Node}

theorem Moves.live (moves : Moves s cwd call y node) (lives : s.nodes.Live y) :
    (node.type = T_DIR ∧ node.nlink ≠ 0) ∨ ∃ d e, call.Removes s cwd d e ∧ e.1 = y := by
  cases moves with
  | same => exact .inl lives
  | counted file => exact absurd lives.1 file
  | named _ _ _ _ links => exact .inl ⟨lives.1, links⟩
  | unnamed _ _ links => exact .inl ⟨lives.1, links⟩
  | removed removes here => exact .inr ⟨_, _, removes, here⟩
  | new free => exact absurd (lives.1.symm.trans free) (by decide)

theorem Moves.detached (moves : Moves s cwd call y node) (gone : node.type = T_DIR ∧ node.nlink = 0) :
    node.entries = (s.nodes y).entries ∧ (s.nodes y).type = T_DIR := by
  cases moves with
  | same => exact ⟨rfl, gone.1⟩
  | counted file => exact absurd gone.1 file
  | named _ _ _ _ links => exact absurd gone.2 links
  | unnamed _ _ links => exact absurd gone.2 links
  | removed => exact ⟨rfl, gone.1⟩
  | new _ links => exact absurd gone.2 links

theorem Moves.names (moves : Moves s cwd call y node) (names : s.nodes.Names y e) :
    (node.type = T_DIR ∧ e ∈ node.entries) ∨ call.Removes s cwd y e := by
  obtain ⟨dir, member, occupied, -⟩ := names
  cases moves with
  | same => exact .inl ⟨dir, member⟩
  | counted file => exact absurd dir file
  | named _ aligned name x =>
    refine .inl ⟨dir, ?_⟩
    change e ∈ ((s.nodes y).linked name x).entries
    rw [Node.entries_linked aligned]
    exact Slots.mem_place_of_mem member (Link.not_free occupied)
  | @unnamed i removes inside =>
    by_cases here : e = (s.nodes y).listed i
    · exact .inr (here ▸ removes)
    · refine .inl ⟨dir, ?_⟩
      change e ∈ ((s.nodes y).cleared i).entries
      rw [Node.entries_cleared inside]
      obtain ⟨j, bound, rfl⟩ := Node.mem_entries.mp member
      have apart : i ≠ j := fun same => here (by rw [same])
      refine mem_iff_getElem.mpr ⟨j, by rw [length_set, Node.length_entries]; exact bound, ?_⟩
      rw [getElem_set_of_ne apart, Node.getElem_entries]
  | removed => exact .inl ⟨dir, member⟩
  | new free => exact absurd (dir.symm.trans free) (by decide)

variable (exact : s.nodes.Exact s.sb.ninodes) (attached : ∀ d, call.WorksIn s cwd d → s.nodes.Live d)
  (few : ∀ x, (s.nodes x).nlink + 1 < 2 ^ 16)
include exact attached

theorem Call.Removes.of_dir (removes : call.Removes s cwd d e) (dir : (s.nodes e.1).type = T_DIR) :
    s.nodes.Live d ∧ s.nodes.Live e.1 ∧ (s.nodes e.1).parent = d ∧ (∀ l, ¬ s.nodes.Names e.1 l) ∧ e.1 ≠ d ∧ 2 ≤ (s.nodes d).nlink := by
  obtain ⟨path, i, name, rfl, unlinked, rfl⟩ := removes
  have here := attached d (.unlink unlinked)
  have named := Nodes.names_of_lookup unlinked.found ⟨unlinked.notDot, unlinked.notDotdot⟩
  obtain ⟨lives, -, above, -, more⟩ := exact.of_empty here dir named (unlinked.empty dir)
  refine ⟨here, lives, above, fun l names => ?_, unlinked.apart, more⟩
  have none := (exact.shaped _ lives).names_of_empty (unlinked.empty dir) l.1
  exact (Nodes.names_iff dir).mpr ⟨l, names, rfl⟩ none

include few

section

variable (effect : Effect s cwd call after)
include effect

theorem Effect.moves : ∃ mid : Nodes, mid.Drift after ∧ ∀ y, Moves s cwd call y (mid y) := by
  cases effect with
  | drift drift => exact ⟨s.nodes, drift, fun y => .same⟩
  | @link old new x d name _ linked drift =>
    have apart : d ≠ x := fun same => linked.file (same ▸ Nodes.resolve_dir linked.parent)
    refine ⟨_, drift, fun y => ?_⟩
    by_cases home : y = d
    · subst home
      rw [Nodes.linkAdded_dir apart]
      exact .named (.link linked) linked.aligned name x (attached y (.link linked)).2
    by_cases other : y = x
    · subst other
      rw [Nodes.linkAdded, update_of_ne home, Nodes.relink_apply]
      exact .counted linked.file _
    · rw [Nodes.linkAdded_of_ne home other]
      exact .same
  | @unlink path d i name _ unlinked drift =>
    have removes : (Call.unlink path).Removes s cwd d ((s.nodes d).listed i) := ⟨path, i, name, rfl, unlinked, rfl⟩
    refine ⟨_, drift, fun y => ?_⟩
    by_cases home : y = d
    · subst home
      rw [Nodes.linkRemoved_dir unlinked.apart]
      refine .unnamed removes (Node.listed_of_lookup unlinked.found).1 ?_
      split
      next dir =>
        have more := (removes.of_dir exact attached dir).2.2.2.2.2
        have bound := few y
        omega
      next => exact (attached y (.unlink unlinked)).2
    rw [Nodes.linkRemoved_of_ne home]
    by_cases gone : y = ((s.nodes d).entry i).inum
    · rw [Nodes.relink_apply]
      exact .removed removes gone.symm _
    · rw [Nodes.relink, update_of_ne gone]
      exact .same
  | @create _ path type major minor x d name _ creates created drift =>
    have apart : d ≠ x := fun same => absurd ((Nodes.resolve_dir created.parent).symm.trans (same ▸ created.free)) (by decide)
    refine ⟨_, drift, fun y => ?_⟩
    by_cases home : y = d
    · subst home
      rw [Nodes.placed_dir apart]
      refine .named (.create creates created) created.aligned name x ?_
      split
      · rw [mod_eq_of_lt (few y)]
        exact succ_ne_zero _
      · exact (attached y (.create creates created)).2
    by_cases other : y = x
    · subst other
      exact .new created.free (by rw [Nodes.placed_new apart]; exact one_ne_zero)
    · rw [Nodes.placed_of_ne home other]
      exact .same

theorem Effect.live (lives : s.nodes.Live y) :
    after.Live y ∨ ∃ d e, call.Removes s cwd d e ∧ e.1 = y := by
  obtain ⟨mid, drift, moves⟩ := effect.moves exact attached few
  refine ((moves y).live lives).imp_left fun here => ?_
  unfold Nodes.Live
  rw [drift.live here]
  exact here

theorem Effect.detached (gone : after.Detached y) :
    (after y).entries = (s.nodes y).entries ∧ (s.nodes y).type = T_DIR ∧
      (s.nodes.Detached y ∨ ∃ d e, call.Removes s cwd d e ∧ e.1 = y) := by
  obtain ⟨mid, drift, moves⟩ := effect.moves exact attached few
  have same := drift.detached gone
  have before : (mid y).type = T_DIR ∧ (mid y).nlink = 0 := by
    rw [← same]
    exact gone
  obtain ⟨entries, dir⟩ := (moves y).detached before
  refine ⟨by rw [same, entries], dir, ?_⟩
  obtain lives | detached := Nodes.live_or_detached dir
  · exact .inr ((effect.live exact attached few lives).resolve_left fun lives => lives.not_detached gone)
  · exact .inl detached

theorem Effect.bare (bare : s.nodes.Bare) : after.Bare := by
  intro y gone
  obtain ⟨entries, dir, why⟩ := effect.detached exact attached few gone
  have old : (s.nodes y).Shaped y ∧ ∀ e, ¬ s.nodes.Names y e := by
    obtain detached | ⟨d, e, removes, rfl⟩ := why
    · exact bare y detached
    · obtain ⟨-, lives, -, none, -⟩ := removes.of_dir exact attached dir
      exact ⟨exact.shaped _ lives, none⟩
  exact ⟨old.1.congr entries, fun e names => old.2 e (names.congr (dir.trans gone.1.symm) entries.symm)⟩

theorem Effect.anchored (anchored : s.nodes.Anchored)
    (spared : ∀ d e y, call.Removes s cwd d e → s.nodes.Detached y → (s.nodes y).parent ≠ e.1) : after.Anchored := by
  intro y gone
  obtain ⟨entries, dir, why⟩ := effect.detached exact attached few gone
  have same : (after y).parent = (s.nodes y).parent := by rw [Node.parent, entries, Node.parent]
  rw [same]
  obtain detached | ⟨d, e, removes, rfl⟩ := why
  · obtain lives | ⟨d, e, removes, here⟩ := effect.live exact attached few (anchored y detached)
    · exact lives
    · exact absurd here.symm (spared d e y removes detached)
  · obtain ⟨lives, -, above, -, apart, -⟩ := removes.of_dir exact attached dir
    rw [above]
    obtain lives | ⟨c, l, removes', here⟩ := effect.live exact attached few lives
    · exact lives
    · obtain ⟨-, rfl⟩ := removes.unique removes'
      exact absurd here apart

theorem Effect.names (lives : s.nodes.Live y) (names : s.nodes.Names y e) :
    (after.Live y ∧ after.Names y e) ∨ call.Removes s cwd y e := by
  obtain ⟨mid, drift, moves⟩ := effect.moves exact attached few
  obtain here | ⟨d, l, removes, rfl⟩ := (moves y).live lives
  · refine ((moves y).names names).imp_left fun kept => ?_
    have same := drift.live here
    unfold Nodes.Live Nodes.Names
    rw [same]
    exact ⟨here, kept.1, kept.2, names.2.2⟩
  · exact absurd names ((removes.of_dir exact attached lives.1).2.2.2.1 e)

end

end Effect

namespace Nodes

/-- Every count of links can be counted up. -/
def Uncrowded (nodes : Nodes) : Prop := ∀ x, (nodes x).nlink + 1 < 2 ^ 16

theorem Exact.named (exact : nodes.Exact n) (type : (nodes x).type ≠ 0) (links : (nodes x).nlink ≠ 0) (other : x ≠ ROOTINO) :
    ∃ d e, nodes.Names d e ∧ e.1 = x := by
  have counted : ∃ d, nodes.Live d ∧ (nodes d).names x ≠ 0 := by
    rw [exact.counts x type, Hierarchy.links] at links
    obtain ⟨d, member, share⟩ := Finset.exists_ne_zero_of_sum_ne_zero links
    have live := exact.mem_dirs.mp member
    by_cases dir : (nodes x).type = T_DIR
    · have inside := exact.mem_dirs.mpr (show nodes.Live x from ⟨dir, by rw [exact.counts x type]; exact links⟩)
      have above := exact.tree.parent_mem x inside
      have once := exact.tree.named x inside other _ above
      rw [if_pos rfl, hierarchy_names (exact.mem_dirs.mp above)] at once
      exact ⟨_, exact.mem_dirs.mp above, by rw [once]; exact one_ne_zero⟩
    · refine ⟨d, live, fun none => share ?_⟩
      have apart : (nodes.hierarchy n).parent d ≠ x := by
        intro same
        exact dir (exact.mem_dirs.mp (same ▸ exact.tree.parent_mem d member)).1
      rw [Hierarchy.share, hierarchy_names live, none, if_neg apart, add_zero]
  obtain ⟨d, live, names⟩ := counted
  obtain ⟨e, here, same⟩ := (names_iff live.1).mp names
  exact ⟨d, e, here, same⟩

theorem not_dangling (exact : nodes.Exact n) (bare : nodes.Bare) (anchored : nodes.Anchored) : ¬ nodes.Dangling := by
  rintro ⟨d, dir, e, member, occupied, free⟩
  have shaped : (nodes d).Shaped d ∧ nodes.Live (nodes d).parent ∧ (nodes.Names d e → (nodes e.1).type ≠ 0) := by
    obtain live | detached := live_or_detached dir
    · have above := exact.mem_dirs.mp (exact.tree.parent_mem d (exact.mem_dirs.mpr live))
      rw [hierarchy_parent live] at above
      exact ⟨exact.shaped d live, above, fun names => exact.sound d e.1 live ((names_iff dir).mpr ⟨e, names, rfl⟩)⟩
    · exact ⟨(bare d detached).1, anchored d detached, fun names => absurd names ((bare d detached).2 e)⟩
  obtain ⟨⟨rest, entries, -, plain⟩, above, sound⟩ := shaped
  have here := member
  rw [entries, mem_cons, mem_cons] at here
  obtain rfl | rfl | later := here
  · exact absurd (dir.symm.trans free) (by decide)
  · exact absurd (above.1.symm.trans free) (by decide)
  · exact sound ⟨dir, member, occupied, plain e later occupied⟩ free

end Nodes

/-- A call that makes a name does so in a directory that has links. -/
def Call.Attached (s : State) (p : Fin NPROC) (call : Call) : Prop :=
  ∀ d, call.WorksIn s (s.cwdInum p) d → (∀ path, call ≠ .unlink path) → (s.nodes d).nlink ≠ 0

/-- The call removes no directory that the `..` of a removed one is for. -/
def Call.Spares (s : State) (p : Fin NPROC) (call : Call) : Prop :=
  ∀ d e y, call.Removes s (s.cwdInum p) d e → s.nodes.Detached y → (s.nodes y).parent ≠ e.1

section Runs

variable {image : Image} {tty peer : List (Option (List UInt8))} {s t : State} {calls : List (Fin NPROC × Call)} {p : Fin NPROC}
  {call : Call}

theorem Call.Attached.live (attached : call.Attached s p) (bare : s.nodes.Bare) (d : Nat)
    (works : call.WorksIn s (s.cwdInum p) d) : s.nodes.Live d := by
  cases works with
  | link linked =>
    exact ⟨Nodes.resolve_dir linked.parent, attached d (.link linked) fun path wrong => nomatch wrong⟩
  | @unlink path _ i name unlinked =>
    have dir := Nodes.resolve_dir unlinked.parent
    refine (Nodes.live_or_detached dir).resolve_right fun detached => (bare d detached).2 ((s.nodes d).listed i) ?_
    obtain ⟨inside, occupied, same⟩ := Node.listed_of_lookup unlinked.found
    exact ⟨dir, Node.mem_entries.mpr ⟨i, inside, rfl⟩, occupied, by rw [same]; exact unlinked.notDot,
      by rw [same]; exact unlinked.notDotdot⟩
  | create creates created =>
    refine ⟨Nodes.resolve_dir created.parent, attached d (.create creates created) fun path wrong => ?_⟩
    subst wrong
    cases creates

section

variable (clean : image.Clean)
include clean

theorem boot_bare : image.nodes.Bare := fun d detached =>
  absurd detached.2 (clean.linked d (by rw [detached.1]; decide))

theorem boot_anchored : image.nodes.Anchored := fun d detached =>
  absurd detached.2 (clean.linked d (by rw [detached.1]; decide))

theorem run_bare (exact : image.nodes.Exact image.sb.ninodes)
    (along : Transition.Along step (fun s l => l.2.Attached s l.1 ∧ s.nodes.Uncrowded) (image.boot tty peer) calls)
    (reached : run step (image.boot tty peer) calls = some s) :
    Settled image s ∧ s.nodes.Exact s.sb.ninodes ∧ s.nodes.Bare := by
  obtain ⟨settled, exact', bare⟩ := run_settled (fun nodes => nodes.Exact image.sb.ninodes ∧ nodes.Bare) clean
    ⟨exact, boot_bare clean⟩ (fun s p call after settled _ good here effect => by
      rw [← settled.sb] at here ⊢
      have attached := good.1.live here.2
      exact ⟨effect.exact here.1 settled.small attached good.2, effect.bare here.1 attached good.2 here.2⟩) along reached
  exact ⟨settled, by rw [settled.sb]; exact exact', bare⟩

end

/-- Nothing is lost with a directory that is freed: it had no names, every other directory keeps
its names but for one that is unlinked, and what has links has a name. -/
theorem freed_directories_empty (clean : image.Clean) (exact : image.nodes.Exact image.sb.ninodes)
    (along : Transition.Along step (fun s l => l.2.Attached s l.1 ∧ s.nodes.Uncrowded) (image.boot tty peer) (calls ++ [(p, call)]))
    (reached : run step (image.boot tty peer) calls = some s) (taken : step s (p, call) = some t) :
    (∀ d, (s.nodes d).type = T_DIR → (t.nodes d).type ≠ T_DIR → ∀ e, ¬ s.nodes.Names d e) ∧
    (∀ d e, s.nodes.Names d e → t.nodes.Names d e ∨ call.Removes s (s.cwdInum p) d e) ∧
    ∀ x, (t.nodes x).type ≠ 0 → (t.nodes x).nlink ≠ 0 → x ≠ ROOTINO → ∃ d e, t.nodes.Names d e ∧ e.1 = x := by
  obtain ⟨settled, exact, bare⟩ := run_bare clean exact along.initial reached
  obtain ⟨attached, few⟩ := Transition.Along.last step along reached
  have attached := attached.live bare
  obtain ⟨-, -, -, effect⟩ := step_effect settled.rest settled.covered settled.small taken
  have kept : ∀ d e, s.nodes.Names d e → s.nodes.Live d := fun d e names =>
    (Nodes.live_or_detached names.1).resolve_right fun detached => (bare d detached).2 e names
  refine ⟨fun d dir freed e names => ?_, fun d e names => ?_, fun x type links other => ?_⟩
  · obtain lives | ⟨c, l, removes, rfl⟩ := effect.live exact attached few (kept d e names)
    · exact freed lives.1
    · exact (removes.of_dir exact attached dir).2.2.2.1 e names
  · exact (effect.names exact attached few (kept d e names) names).imp_left fun both => both.2
  · exact (effect.exact exact settled.small attached few).named type links other

theorem run_anchored (clean : image.Clean) (exact : image.nodes.Exact image.sb.ninodes)
    (along : Transition.Along step (fun s l => l.2.Attached s l.1 ∧ l.2.Spares s l.1 ∧ s.nodes.Uncrowded) (image.boot tty peer) calls)
    (reached : run step (image.boot tty peer) calls = some s) :
    Settled image s ∧ s.nodes.Exact s.sb.ninodes ∧ s.nodes.Bare ∧ s.nodes.Anchored := by
  obtain ⟨settled, exact', rest⟩ := run_settled (fun nodes => nodes.Exact image.sb.ninodes ∧ nodes.Bare ∧ nodes.Anchored) clean
    ⟨exact, boot_bare clean, boot_anchored clean⟩ (fun s p call after settled _ good here effect => by
      rw [← settled.sb] at here ⊢
      obtain ⟨attached, spares, few⟩ := good
      obtain ⟨exact, bare, anchored⟩ := here
      have attached := attached.live bare
      exact ⟨effect.exact exact settled.small attached few, effect.bare exact attached few bare,
        effect.anchored exact attached few anchored spares⟩) along reached
  exact ⟨settled, by rw [settled.sb]; exact exact', rest⟩

theorem Settled.cwd_type (settled : Settled image s) (alive : (s.procs p).cwd ≠ none) : (s.nodes (s.cwdInum p)).type ≠ 0 := by
  obtain ⟨cwd, here⟩ := ne_none_iff_exists'.mp alive
  have inv := settled.rest.inv
  rw [State.cwdInum_eq here, inv.type_nodes (inv.cwd_ref here)]
  exact inv.refs.allocated cwd (held_of_cwd here)

/-- Every entry of every directory is for an allocated inode, and so no path leads to a free one. -/
theorem entries_never_dangle (clean : image.Clean) (exact : image.nodes.Exact image.sb.ninodes)
    (along : Transition.Along step (fun s l => l.2.Attached s l.1 ∧ l.2.Spares s l.1 ∧ s.nodes.Uncrowded) (image.boot tty peer) calls)
    (reached : run step (image.boot tty peer) calls = some s) :
    (∀ d, (s.nodes d).type = T_DIR → ∀ e ∈ (s.nodes d).entries, e.1 ≠ 0 → (s.nodes e.1).type ≠ 0) ∧
    ∀ (p : Fin NPROC) (call : Call), (s.procs p).cwd ≠ none → call.Granted s → call.OnPaths →
      (call.code p).run s ≠ .error (.panic "ilock: no type") := by
  obtain ⟨settled, exact, bare, anchored⟩ := run_anchored clean exact along reached
  have sound := Nodes.not_dangling exact bare anchored
  refine ⟨fun d dir e member occupied free => sound ⟨d, dir, e, member, occupied, free⟩, fun p call alive granted onPaths stopped => ?_⟩
  have stop := wp.error (wp_call settled.rest alive granted) stopped
  obtain fails | starved := stop.2 onPaths settled.covered
  · obtain root | here | dangling := (fails.cause settled.small (by decide)).broken
    · exact absurd ((exact.mem_dirs.mp exact.tree.root_mem).1.symm.trans root) (by decide)
    · exact settled.cwd_type alive here
    · exact sound dangling
  · exact absurd starved (by decide)

end Runs

theorem smallImage_uncrowded : smallImage.nodes.Uncrowded := fun x => by
  have := smallImage_countable x
  omega

def pathA : Path := ⟨[47, 97], by decide⟩

def pathX : Path := ⟨[120], by decide⟩

def pathDotdot : Path := ⟨[46, 46], by decide⟩

theorem smallImage_attached (path : Path) : (Call.unlink path).Attached (smallImage.boot [] []) initproc :=
  fun _ _ other => absurd rfl (other path)

theorem freed_directories_small : ∃ t, step (smallImage.boot [] []) (initproc, .unlink pathAB) = some t ∧ (t.nodes 3).type = 0 ∧
    ∀ e, ¬ (smallImage.boot [] []).nodes.Names 3 e := by
  have outcome : (step (smallImage.boot [] []) (initproc, .unlink pathAB)).any (fun t => decide ((t.nodes 3).type = 0)) = true := by
    decide +kernel
  obtain ⟨t, taken, freed⟩ := (any_eq_true _ _).mp outcome
  have freed := of_decide_eq_true freed
  have booted : run step (smallImage.boot [] []) [] = some (smallImage.boot [] []) := rfl
  have along : Transition.Along step (fun s l => l.2.Attached s l.1 ∧ s.nodes.Uncrowded) (smallImage.boot [] [])
      ([] ++ [(initproc, .unlink pathAB)]) :=
    (along_cons step).mpr ⟨⟨smallImage_attached pathAB, smallImage_uncrowded⟩, fun t _ => along_nil _ _ t⟩
  have dir : ((smallImage.boot [] []).nodes 3).type = T_DIR := by decide +kernel
  exact ⟨t, taken, freed, (freed_directories_empty smallImage_clean smallImage_exact along booted taken).1 3 dir (by rw [freed]; decide)⟩

theorem entries_never_dangle_small : ∃ s, run step (smallImage.boot [] []) [(initproc, .unlink pathAB)] = some s ∧
    ∀ d, (s.nodes d).type = T_DIR → ∀ e ∈ (s.nodes d).entries, e.1 ≠ 0 → (s.nodes e.1).type ≠ 0 := by
  have returns : ∃ s, run step (smallImage.boot [] []) [(initproc, .unlink pathAB)] = some s :=
    isSome_iff_exists.mp (by decide +kernel)
  obtain ⟨s, reached⟩ := returns
  have spares : (Call.unlink pathAB).Spares (smallImage.boot [] []) initproc := fun _ _ y _ detached =>
    absurd detached.2 (smallImage_clean.linked y (by rw [show (smallImage.nodes y).type = _ from detached.1]; decide))
  have along : Transition.Along step (fun s l => l.2.Attached s l.1 ∧ l.2.Spares s l.1 ∧ s.nodes.Uncrowded) (smallImage.boot [] [])
      [(initproc, .unlink pathAB)] :=
    (along_cons step).mpr
      ⟨⟨smallImage_attached pathAB, spares, smallImage_uncrowded⟩, fun t _ => along_nil _ _ t⟩
  exact ⟨s, reached, (entries_never_dangle smallImage_clean smallImage_exact along reached).1⟩

/-- `x` is made in the directory `b` after `b` was removed, and is lost with it. -/
theorem removed_directory_loses_file : smallImage.Clean ∧ smallImage.nodes.Exact smallImage.sb.ninodes ∧
    ∃ s t, run step (smallImage.boot [] [])
        [(initproc, .chdir pathAB), (initproc, .unlink pathAB), (initproc, .open pathX O_CREATE)] = some s ∧
      step s (initproc, .chdir pathRoot) = some t ∧ s.nodes.Names 3 (5, [120]) ∧ (t.nodes 3).type = 0 ∧
      (t.nodes 5).type = T_FILE ∧ (t.nodes 5).nlink = 1 ∧ ∀ d e, t.nodes.Names d e → e.1 ≠ 5 := by
  have outcome : (run step (smallImage.boot [] [])
      [(initproc, .chdir pathAB), (initproc, .unlink pathAB), (initproc, .open pathX O_CREATE)]).any
      (fun s => decide (s.nodes.Names 3 (5, [120])) && (step s (initproc, .chdir pathRoot)).any fun t : State =>
        decide (t.sb.ninodes = 6 ∧ (t.nodes 3).type = 0 ∧ (t.nodes 5).type = T_FILE ∧ (t.nodes 5).nlink = 1) &&
          decide (∀ d : Nat, d < 6 → ∀ e ∈ (t.nodes d).entries, e.1 ≠ 5)) = true := by
    decide +kernel
  obtain ⟨s, reached, outcome⟩ := (any_eq_true _ _).mp outcome
  rw [Bool.and_eq_true] at outcome
  obtain ⟨t, taken, after⟩ := (any_eq_true _ _).mp outcome.2
  rw [Bool.and_eq_true] at after
  obtain ⟨bound, freed, file, links⟩ := of_decide_eq_true after.1
  refine ⟨smallImage_clean, smallImage_exact, s, t, reached, taken, of_decide_eq_true outcome.1, freed, file, links, ?_⟩
  intro d e names
  have inside := State.lt_of_type (x := d) (s := t) (by rw [names.1]; decide)
  exact of_decide_eq_true after.2 d (by omega) e names.2.1

theorem removed_parent_dangles : smallImage.Clean ∧ smallImage.nodes.Exact smallImage.sb.ninodes ∧
    ∃ s, run step (smallImage.boot [] [])
        [(initproc, .chdir pathAB), (initproc, .unlink pathAB), (initproc, .unlink pathA)] = some s ∧
      (s.nodes 3).type = T_DIR ∧ (2, dotdot) ∈ (s.nodes 3).entries ∧ (s.nodes 2).type = 0 ∧
      ((Call.chdir pathDotdot).code initproc).run s = .error (.panic "ilock: no type") := by
  have outcome : (run step (smallImage.boot [] [])
      [(initproc, .chdir pathAB), (initproc, .unlink pathAB), (initproc, .unlink pathA)]).any
      (fun s => decide ((s.nodes 3).type = T_DIR ∧ (2, dotdot) ∈ (s.nodes 3).entries ∧ (s.nodes 2).type = 0 ∧
        stopOf (((Call.chdir pathDotdot).code initproc).run s) = some (.panic "ilock: no type"))) = true := by
    decide +kernel
  obtain ⟨s, reached, outcome⟩ := (any_eq_true _ _).mp outcome
  obtain ⟨dir, member, free, stopped⟩ := of_decide_eq_true outcome
  exact ⟨smallImage_clean, smallImage_exact, s, reached, dir, member, free, stopOf_eq stopped⟩

end Xv6.Fs
