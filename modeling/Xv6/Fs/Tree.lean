import Xv6.Fs.Listing
import Xv6.Lib.Hierarchy

/-! The directories that have links are a tree, and the links of every inode are those that the
entries of these directories make. -/

namespace Xv6.Fs
open Lib Function Nat List Option Finset

def Link.names (x : Nat) (e : Link) : Bool := decide (e.1 ≠ 0 ∧ e.1 = x ∧ e.2 ≠ dot ∧ e.2 ≠ dotdot)

theorem Link.not_free {e : Link} (occupied : e.1 ≠ 0) : e.free = false := beq_eq_false_iff_ne.mpr occupied

theorem Link.names_of_free (x : Nat) (e : Link) (free : e.free = true) : e.names x = false :=
  decide_eq_false fun name => name.1 (beq_iff_eq.mp free)

namespace Node

variable {node : Node} {name : List UInt8} {d x y : Nat}

def names (node : Node) (x : Nat) : Nat := node.entries.countP (Link.names x)

def parent (node : Node) : Nat := (node.entries.getD 1 (0, [])).1

/-- The directory begins with its only entries named `.` and `..`. -/
def Shaped (node : Node) (d : Nat) : Prop :=
  ∃ rest, node.entries = (d, dot) :: (node.parent, dotdot) :: rest ∧ node.parent ≠ 0 ∧
    ∀ e ∈ rest, e.1 ≠ 0 → e.2 ≠ dot ∧ e.2 ≠ dotdot

theorem Shaped.congr {other : Node} (shaped : node.Shaped d) (entries : other.entries = node.entries) : other.Shaped d := by
  unfold Shaped parent at shaped ⊢
  rw [entries]
  exact shaped

theorem shaped_of_entries {p : Nat} {rest : List Link} (entries : node.entries = (d, dot) :: (p, dotdot) :: rest) (nonzero : p ≠ 0)
    (plain : ∀ e ∈ rest, e.1 ≠ 0 → e.2 ≠ dot ∧ e.2 ≠ dotdot) : node.Shaped d ∧ node.parent = p := by
  have parent : node.parent = p := by
    rw [Node.parent, entries]
    rfl
  exact ⟨⟨rest, by rw [parent]; exact entries, by rw [parent]; exact nonzero, plain⟩, parent⟩

theorem Shaped.plain_of_missing (shaped : node.Shaped d) (nonzero : d ≠ 0) (missing : node.lookup name = none) :
    component name ≠ dot ∧ component name ≠ dotdot := by
  obtain ⟨rest, entries, above, -⟩ := shaped
  have first : (d, dot) ∈ node.entries := by
    rw [entries]
    exact mem_cons_self
  have second : (node.parent, dotdot) ∈ node.entries := by
    rw [entries]
    exact mem_cons_of_mem _ mem_cons_self
  exact ⟨(absent_of_lookup missing first nonzero).symm, (absent_of_lookup missing second above).symm⟩

theorem Shaped.linked (shaped : node.Shaped d) (nonzero : d ≠ 0) (aligned : node.Aligned)
    (plain : component name ≠ dot ∧ component name ≠ dotdot) (x : Nat) :
    (node.linked name x).Shaped d ∧ (node.linked name x).parent = node.parent := by
  obtain ⟨rest, entries, above, others⟩ := shaped
  have shape : (node.linked name x).entries =
      (d, dot) :: (node.parent, dotdot) :: Slots.place Link.free rest (x % 2 ^ 16, component name) := by
    rw [entries_linked aligned, entries, Slots.place_cons (Link.not_free (e := (d, dot)) nonzero),
      Slots.place_cons (Link.not_free (e := (node.parent, dotdot)) above)]
  refine shaped_of_entries shape above ?_
  intro e member occupied
  obtain rfl | old := Slots.mem_of_mem_place member
  · exact plain
  · exact others e old occupied

theorem names_linked (aligned : node.Aligned) (plain : component name ≠ dot ∧ component name ≠ dotdot) (nonzero : x ≠ 0)
    (small : x < 2 ^ 16) (y : Nat) : (node.linked name x).names y = node.names y + if y = x then 1 else 0 := by
  rw [names, entries_linked aligned, Slots.countP_place (Link.names_of_free y), mod_eq_of_lt small]
  congr 2
  exact propext ⟨fun here => (of_decide_eq_true here).2.1.symm, fun same => decide_eq_true ⟨nonzero, same.symm, plain⟩⟩

theorem Shaped.two_le (shaped : node.Shaped d) {i : Nat} (found : node.lookup name = some i)
    (plain : component name ≠ dot ∧ component name ≠ dotdot) : 2 ≤ i := by
  obtain ⟨rest, entries, -⟩ := shaped
  obtain ⟨inside, -, same⟩ := listed_of_lookup found
  have listed : node.entries[i]? = some (node.listed i) := by
    rw [getElem?_eq_getElem (by rwa [length_entries]), getElem_entries]
  rw [entries] at listed
  match i, listed with
  | 0, listed =>
    rw [← some.inj listed] at same
    exact absurd same.symm plain.1
  | 1, listed =>
    rw [← some.inj listed] at same
    exact absurd same.symm plain.2
  | i + 2, _ => exact Nat.le_add_left ..

theorem Shaped.cleared (shaped : node.Shaped d) {i : Nat} (inside : i < node.count) (after : 2 ≤ i) :
    (node.cleared i).Shaped d ∧ (node.cleared i).parent = node.parent := by
  obtain ⟨rest, entries, above, others⟩ := shaped
  obtain ⟨j, rfl⟩ := Nat.exists_eq_add_of_le' after
  have shape : (node.cleared (j + 2)).entries = (d, dot) :: (node.parent, dotdot) :: rest.set j (0, []) := by
    rw [entries_cleared inside, entries, set_cons_succ, set_cons_succ]
  refine shaped_of_entries shape above ?_
  intro e member occupied
  obtain old | rfl := mem_or_eq_of_mem_set member
  · exact others e old occupied
  · exact absurd rfl occupied

theorem names_cleared {i : Nat} (found : node.lookup name = some i) (plain : component name ≠ dot ∧ component name ≠ dotdot)
    (y : Nat) : node.names y = (node.cleared i).names y + if y = (node.entry i).inum then 1 else 0 := by
  obtain ⟨inside, occupied, same⟩ := listed_of_lookup found
  have bound : i < node.entries.length := by rwa [length_entries]
  rw [names, names, entries_cleared inside, ← Slots.countP_vacate bound (Link.names_of_free y (0, []) rfl), getElem_entries]
  congr 2
  exact propext ⟨fun here => (of_decide_eq_true here).2.1.symm,
    fun here => decide_eq_true ⟨occupied, here.symm, same ▸ plain⟩⟩

theorem Shaped.names_of_empty (shaped : node.Shaped d) (empty : node.Empty) (y : Nat) : node.names y = 0 := by
  obtain ⟨rest, entries, -⟩ := shaped
  refine countP_eq_zero.mpr fun e member name => ?_
  obtain ⟨occupied, -, plain⟩ := of_decide_eq_true name
  obtain ⟨i, inside, rfl⟩ := mem_entries.mp member
  have listed : node.entries[i]? = some (node.listed i) := by
    rw [getElem?_eq_getElem (by rwa [length_entries]), getElem_entries]
  rw [entries] at listed
  match i, listed with
  | 0, listed => exact plain.1 (congrArg Prod.snd (some.inj listed)).symm
  | 1, listed => exact plain.2 (congrArg Prod.snd (Option.some.inj listed)).symm
  | i + 2, _ => exact occupied (empty (i + 2) inside (Nat.le_add_left ..))

end Node

namespace Nodes

variable {nodes after : Nodes} {used : Finset Nat} {n d x y : Nat} {name : List UInt8}

def Live (nodes : Nodes) (d : Nat) : Prop := (nodes d).type = T_DIR ∧ (nodes d).nlink ≠ 0

instance (nodes : Nodes) : DecidablePred nodes.Live := fun _ => inferInstanceAs (Decidable (_ ∧ _))

def hierarchy (nodes : Nodes) (n : Nat) : Hierarchy Nat where
  dirs := (Finset.range n).filter nodes.Live
  parent := fun d => if nodes.Live d then (nodes d).parent else 0
  names := fun d x => if nodes.Live d then (nodes d).names x else 0

structure Exact (n : Nat) (nodes : Nodes) : Prop where
  null : (nodes 0).type = 0
  bounded : ∀ x, (nodes x).type ≠ 0 → x < n
  shaped : ∀ d, nodes.Live d → (nodes d).Shaped d
  sound : ∀ d x, nodes.Live d → (nodes d).names x ≠ 0 → (nodes x).type ≠ 0
  tree : (nodes.hierarchy n).IsTree ROOTINO
  counts : ∀ x, (nodes x).type ≠ 0 → (nodes x).nlink = (nodes.hierarchy n).links x

theorem mem_dirs (bounded : ∀ x, (nodes x).type ≠ 0 → x < n) : d ∈ (nodes.hierarchy n).dirs ↔ nodes.Live d := by
  refine Finset.mem_filter.trans (and_iff_right_of_imp fun live => Finset.mem_range.mpr (bounded d ?_))
  rw [live.1]
  decide

theorem hierarchy_parent (live : nodes.Live d) : (nodes.hierarchy n).parent d = (nodes d).parent := if_pos live

theorem hierarchy_names (live : nodes.Live d) : (nodes.hierarchy n).names d x = (nodes d).names x := if_pos live

theorem parent_congr (live : after.Live y ↔ nodes.Live y) (same : nodes.Live y → (after y).parent = (nodes y).parent) :
    (after.hierarchy n).parent y = (nodes.hierarchy n).parent y := by
  by_cases lives : nodes.Live y
  · rw [hierarchy_parent lives, hierarchy_parent (live.mpr lives), same lives]
  · exact (if_neg (mt live.mp lives)).trans (if_neg lives).symm

theorem names_congr {z more : Nat} (live : after.Live y ↔ nodes.Live y)
    (same : nodes.Live y → (after y).names z = (nodes y).names z + more) (dead : ¬ nodes.Live y → more = 0) :
    (after.hierarchy n).names y z = (nodes.hierarchy n).names y z + more := by
  by_cases lives : nodes.Live y
  · rw [hierarchy_names lives, hierarchy_names (live.mpr lives), same lives]
  · rw [dead lives]
    exact (if_neg (mt live.mp lives)).trans (if_neg lives).symm

theorem hierarchy_congr (live : ∀ y, after.Live y ↔ nodes.Live y) (same : ∀ y, nodes.Live y → (after y).entries = (nodes y).entries) :
    after.hierarchy n = nodes.hierarchy n := by
  refine Hierarchy.ext (Finset.filter_congr fun y _ => live y) (funext fun y => ?_) (funext fun y => funext fun z => ?_)
  · exact parent_congr (live y) fun lives => by rw [Node.parent, same y lives, Node.parent]
  · exact names_congr (live y) (fun lives => by rw [Node.names, same y lives, Node.names, add_zero]) fun _ => rfl

section Change

variable (here : nodes.Live d) (parent : (after d).parent = (nodes d).parent)
  (names : ∀ y, (after d).names y = (nodes d).names y + if y = x then 1 else 0)
  (others : ∀ y ≠ d, nodes.Live y → (after y).entries = (nodes y).entries)
include here parent names others

omit here names in
theorem entry_parent (live : after.Live y ↔ nodes.Live y) : (after.hierarchy n).parent y = (nodes.hierarchy n).parent y :=
  parent_congr live fun lives => by
    by_cases same : y = d
    · rw [same, parent]
    · rw [Node.parent, others y same lives, Node.parent]

theorem entry_names (live : after.Live y ↔ nodes.Live y) (z : Nat) :
    (after.hierarchy n).names y z = ((nodes.hierarchy n).addName d x).names y z := by
  refine names_congr live (fun lives => ?_) fun dead => if_neg fun both : y = d ∧ z = x => dead (both.1 ▸ here)
  by_cases same : y = d
  · subst same
    simp only [names, true_and]
  · rw [Node.names, others y same lives, if_neg fun both => same both.1]
    rfl

theorem hierarchy_addName (live : ∀ y, after.Live y ↔ nodes.Live y) :
    after.hierarchy n = (nodes.hierarchy n).addName d x :=
  Hierarchy.ext (Finset.filter_congr fun y _ => live y) (funext fun y => entry_parent parent others (live y))
    (funext fun y => funext fun z => entry_names here parent names others (live y) z)

theorem hierarchy_grow (live : ∀ y, after.Live y ↔ y = x ∨ nodes.Live y) (dead : ¬ nodes.Live x) (inside : x < n)
    (above : (after x).parent = d) (bare : ∀ y, (after x).names y = 0) : after.hierarchy n = (nodes.hierarchy n).grow d x := by
  have apart : x ≠ d := fun same => dead (same ▸ here)
  have lives : after.Live x := (live x).mpr (.inl rfl)
  have live' : ∀ y, y ≠ x → (after.Live y ↔ nodes.Live y) := fun y other => (live y).trans (or_iff_right other)
  refine Hierarchy.ext (Finset.ext fun y => ?_) (funext fun y => ?_) (funext fun y => funext fun z => ?_)
  · change y ∈ (Finset.range n).filter after.Live ↔ y ∈ insert x ((Finset.range n).filter nodes.Live)
    rw [Finset.mem_insert, Finset.mem_filter, Finset.mem_filter, live, Finset.mem_range]
    constructor
    · rintro ⟨bound, same | lives⟩
      · exact .inl same
      · exact .inr ⟨bound, lives⟩
    · rintro (rfl | ⟨bound, lives⟩)
      · exact ⟨inside, .inl rfl⟩
      · exact ⟨bound, .inr lives⟩
  · by_cases new : y = x
    · rw [new, Hierarchy.grow_parent_self, hierarchy_parent lives, above]
    · rw [Hierarchy.grow_parent_of_ne _ _ new, entry_parent parent others (live' y new)]
  · rw [Hierarchy.grow_names]
    by_cases new : y = x
    · rw [new, hierarchy_names lives, bare, Hierarchy.addName_names, if_neg fun both => apart both.1]
      exact (if_neg dead).symm
    · exact entry_names here parent names others (live' y new) z

end Change

theorem Exact.mem_dirs (exact : nodes.Exact n) : d ∈ (nodes.hierarchy n).dirs ↔ nodes.Live d := Nodes.mem_dirs exact.bounded

theorem Exact.ne_zero (exact : nodes.Exact n) (live : nodes.Live d) : d ≠ 0 := by
  rintro rfl
  exact absurd (live.1.symm.trans exact.null) (by decide)

theorem Exact.names_le (exact : nodes.Exact n) (live : nodes.Live d) : (nodes d).names x ≤ (nodes.hierarchy n).links x := by
  rw [← hierarchy_names (n := n) live]
  exact (le_add_right ..).trans (Hierarchy.share_le_links (exact.mem_dirs.mpr live))

theorem Exact.links_of_free (exact : nodes.Exact n) (free : (nodes x).type = 0) : (nodes.hierarchy n).links x = 0 := by
  refine Hierarchy.links_eq_zero (fun e member => ?_) fun e member same => ?_
  · rw [hierarchy_names (exact.mem_dirs.mp member)]
    exact by_contra fun name => exact.sound e x (exact.mem_dirs.mp member) name free
  · have live := exact.mem_dirs.mp (same ▸ exact.tree.parent_mem e member)
    exact absurd (live.1.symm.trans free) (by decide)

theorem Exact.sameLinks (exact : nodes.Exact n) (same : nodes.SameLinks after) : after.Exact n := by
  have live : ∀ y, after.Live y ↔ nodes.Live y := fun y => by rw [Live, (same y).1, (same y).2.1, Live]
  have entries : ∀ y, nodes.Live y → after y = nodes y := fun y lives => (same y).2.2 lives.1
  have hierarchy : after.hierarchy n = nodes.hierarchy n := hierarchy_congr live fun y lives => by rw [entries y lives]
  refine ⟨(same 0).1.trans exact.null, fun x => ?_, fun d lives => ?_, fun d x lives => ?_, ?_, fun x => ?_⟩
  · rw [(same x).1]
    exact exact.bounded x
  · rw [entries d ((live d).mp lives)]
    exact exact.shaped d ((live d).mp lives)
  · rw [entries d ((live d).mp lives), (same x).1]
    exact exact.sound d x ((live d).mp lives)
  · rw [hierarchy]
    exact exact.tree
  · rw [hierarchy, (same x).1, (same x).2.1]
    exact exact.counts x

theorem Exact.reap (exact : nodes.Exact n) (used : Finset Nat) (x : Nat) : (nodes.reap used x).Exact n := by
  unfold Nodes.reap
  split
  next gone =>
    obtain ⟨type, nlink, -⟩ := gone
    have self : update nodes x (nodes x).freed x = (nodes x).freed := update_self ..
    have other : ∀ y, y ≠ x → update nodes x (nodes x).freed y = nodes y := fun y apart => update_of_ne apart ..
    have live : ∀ y, Live (update nodes x (nodes x).freed) y ↔ nodes.Live y := by
      intro y
      by_cases same : y = x
      · rw [same, Live, self, Live]
        exact ⟨fun wrong => absurd wrong.1 (by decide : (0 : Nat) ≠ T_DIR), fun wrong => absurd nlink wrong.2⟩
      · rw [Live, other y same, Live]
    have apart : ∀ y, nodes.Live y → y ≠ x := fun y lives same => lives.2 (same ▸ nlink)
    have hierarchy : hierarchy (update nodes x (nodes x).freed) n = nodes.hierarchy n :=
      hierarchy_congr live fun y lives => by rw [other y (apart y lives)]
    have types : ∀ y, (update nodes x (nodes x).freed y).type ≠ 0 → y ≠ x := by
      rintro y type rfl
      rw [self] at type
      exact type rfl
    refine ⟨?_, fun y type => ?_, fun d lives => ?_, fun d y lives name => ?_, ?_, fun y type => ?_⟩
    · by_cases zero : 0 = x
      · rw [← zero, update_self]
        rfl
      · rw [other 0 zero]
        exact exact.null
    · rw [other y (types y type)] at type
      exact exact.bounded y type
    · rw [other d (apart d ((live d).mp lives))]
      exact exact.shaped d ((live d).mp lives)
    · rw [other d (apart d ((live d).mp lives))] at name
      have alloc := exact.sound d y ((live d).mp lives) name
      have linked : y ≠ x := by
        rintro rfl
        have count := exact.counts y alloc
        have least := exact.names_le (x := y) ((live d).mp lives)
        omega
      rw [other y linked]
      exact alloc
    · rw [hierarchy]
      exact exact.tree
    · rw [hierarchy, other y (types y type)]
      exact exact.counts y (by rwa [other y (types y type)] at type)
  next => exact exact

theorem Exact.drift (exact : nodes.Exact n) (drift : nodes.Drift after) : after.Exact n := by
  induction drift with
  | refl => exact exact
  | tail _ last ih =>
    obtain same | ⟨used, x, rfl⟩ := last
    · exact ih.sameLinks same
    · exact ih.reap used x

section Change

variable (here : nodes.Live d) (parent : (after d).parent = (nodes d).parent)
  (names : ∀ y, (after d).names y = (nodes d).names y + if y = x then 1 else 0)
  (others : ∀ y ≠ d, nodes.Live y → (after y).entries = (nodes y).entries)
include here parent names others

theorem Exact.added (exact : nodes.Exact n) (shaped : (after d).Shaped d) (nonzero : x ≠ 0) (inside : x < n)
    (file : (nodes x).type ≠ T_DIR) (file' : (after x).type ≠ T_DIR) (allocated : (after x).type ≠ 0)
    (types : ∀ y ≠ x, (after y).type = (nodes y).type) (counts : ∀ y ≠ x, (after y).nlink = (nodes y).nlink)
    (count : (after x).nlink = (nodes.hierarchy n).links x + 1) : after.Exact n := by
  have live : ∀ y, after.Live y ↔ nodes.Live y := by
    intro y
    by_cases same : y = x
    · rw [same]
      exact ⟨fun lives => absurd lives.1 file', fun lives => absurd lives.1 file⟩
    · rw [Live, types y same, counts y same, Live]
  have hierarchy : after.hierarchy n = (nodes.hierarchy n).addName d x := hierarchy_addName here parent names others live
  refine ⟨(types 0 nonzero.symm).trans exact.null, fun y type => ?_, fun c lives => ?_, fun c y lives name => ?_, ?_, fun y type => ?_⟩
  · by_cases same : y = x
    · exact same ▸ inside
    · exact exact.bounded y (types y same ▸ type)
  · by_cases same : c = d
    · exact same ▸ shaped
    · exact (exact.shaped c ((live c).mp lives)).congr (others c same ((live c).mp lives))
  · by_cases same : y = x
    · exact same ▸ allocated
    rw [types y same]
    refine exact.sound c y ((live c).mp lives) ?_
    by_cases home : c = d
    · rwa [home, names, if_neg same, add_zero, ← home] at name
    · rwa [Node.names, others c home ((live c).mp lives)] at name
  · rw [hierarchy]
    exact (Hierarchy.IsTree.addName_iff fun member => file (exact.mem_dirs.mp member).1).mpr exact.tree
  · rw [hierarchy, Hierarchy.links_addName (exact.mem_dirs.mpr here)]
    by_cases same : y = x
    · rw [same, count, if_pos rfl]
    · rw [counts y same, if_neg same, add_zero]
      exact exact.counts y (types y same ▸ type)

theorem Exact.removed (exact : after.Exact n) (shaped : (nodes d).Shaped d) (file : (nodes x).type ≠ T_DIR)
    (types : ∀ y, (after y).type = (nodes y).type) (counts : ∀ y ≠ x, (after y).nlink = (nodes y).nlink)
    (count : (after x).nlink = (nodes x).nlink + 1) : nodes.Exact n := by
  have live : ∀ y, after.Live y ↔ nodes.Live y := by
    intro y
    by_cases same : y = x
    · rw [same]
      exact ⟨fun lives => absurd (types x ▸ lives.1) file, fun lives => absurd lives.1 file⟩
    · rw [Live, types y, counts y same, Live]
  have hierarchy : after.hierarchy n = (nodes.hierarchy n).addName d x := hierarchy_addName here parent names others live
  have bounded : ∀ y, (nodes y).type ≠ 0 → y < n := fun y type => exact.bounded y (by rwa [types])
  refine ⟨(types 0).symm.trans exact.null, bounded, fun c lives => ?_, fun c y lives name => ?_, ?_, fun y type => ?_⟩
  · by_cases same : c = d
    · exact same ▸ shaped
    · exact (exact.shaped c ((live c).mpr lives)).congr (others c same lives).symm
  · rw [← types y]
    refine exact.sound c y ((live c).mpr lives) ?_
    by_cases home : c = d
    · rw [home] at name ⊢
      rw [names]
      omega
    · rwa [Node.names, others c home lives]
  · have tree := exact.tree
    rw [hierarchy] at tree
    exact (Hierarchy.IsTree.addName_iff fun member => file ((Nodes.mem_dirs bounded).mp member).1).mp tree
  · have total := exact.counts y (by rwa [types])
    rw [hierarchy, Hierarchy.links_addName ((Nodes.mem_dirs bounded).mpr here)] at total
    by_cases same : y = x
    · rw [same, count, if_pos rfl] at total
      rw [same]
      omega
    · rwa [counts y same, if_neg same, add_zero] at total

theorem Exact.grown (exact : nodes.Exact n) (shaped : (after d).Shaped d) (nonzero : x ≠ 0) (inside : x < n)
    (free : (nodes x).type = 0) (entries : (after x).entries = [(x, dot), (d, dotdot)]) (dir : (after x).type = T_DIR)
    (one : (after x).nlink = 1) (types : ∀ y ≠ x, (after y).type = (nodes y).type)
    (counts : ∀ y ≠ x, (after y).nlink = (nodes y).nlink + if y = d then 1 else 0) : after.Exact n := by
  have dead : ¬ nodes.Live x := fun lives => absurd (lives.1.symm.trans free) (by decide)
  have apart : x ≠ d := fun same => dead (same ▸ here)
  have live : ∀ y, after.Live y ↔ y = x ∨ nodes.Live y := by
    intro y
    by_cases same : y = x
    · rw [same]
      exact ⟨fun _ => .inl rfl, fun _ => ⟨dir, by rw [one]; decide⟩⟩
    · rw [or_iff_right same, Live, types y same, counts y same, Live]
      by_cases home : y = d
      · rw [home]
        exact ⟨fun _ => here, fun lives => ⟨lives.1, by rw [if_pos rfl]; omega⟩⟩
      · rw [if_neg home, add_zero]
  obtain ⟨shaped', above⟩ := Node.shaped_of_entries entries (exact.ne_zero here) fun e member => nomatch member
  have bare : ∀ y, (after x).names y = 0 := fun y => by
    rw [Node.names, entries]
    simp [Link.names]
  have hierarchy : after.hierarchy n = (nodes.hierarchy n).grow d x :=
    hierarchy_grow here parent names others live dead inside above bare
  have outside : x ∉ (nodes.hierarchy n).dirs := fun member => dead (exact.mem_dirs.mp member)
  have empty : ∀ y, (nodes.hierarchy n).names x y = 0 := fun y => if_neg dead
  refine ⟨(types 0 nonzero.symm).trans exact.null, fun y type => ?_, fun c lives => ?_, fun c y lives name => ?_, ?_, fun y type => ?_⟩
  · by_cases same : y = x
    · exact same ▸ inside
    · exact exact.bounded y (types y same ▸ type)
  · obtain rfl | old := (live c).mp lives
    · exact shaped'
    by_cases same : c = d
    · exact same ▸ shaped
    · exact (exact.shaped c old).congr (others c same old)
  · obtain rfl | old := (live c).mp lives
    · exact absurd (bare y) name
    by_cases same : y = x
    · rw [same, dir]
      decide
    rw [types y same]
    refine exact.sound c y old ?_
    by_cases home : c = d
    · rwa [home, names, if_neg same, add_zero, ← home] at name
    · rwa [Node.names, others c home old] at name
  · rw [hierarchy]
    refine exact.tree.grow outside (exact.mem_dirs.mpr here) (fun e member => ?_) empty
    rw [hierarchy_names (exact.mem_dirs.mp member)]
    exact by_contra fun name => exact.sound e x (exact.mem_dirs.mp member) name free
  · rw [hierarchy, Hierarchy.links_grow outside (exact.mem_dirs.mpr here) empty]
    by_cases same : y = x
    · rw [same, one, exact.links_of_free free, if_pos rfl, if_neg apart]
    · rw [counts y same, if_neg same, add_zero, exact.counts y (types y same ▸ type)]

theorem Exact.pruned (exact : after.Exact n) (shaped : (nodes d).Shaped d) (lives : after.Live x) (other : x ≠ ROOTINO)
    (above : (after x).parent = d) (bare : ∀ y, (after x).names y = 0) (types : ∀ y, (after y).type = (nodes y).type)
    (none : (nodes x).nlink = 0) (counts : ∀ y ≠ x, (after y).nlink = (nodes y).nlink + if y = d then 1 else 0) : nodes.Exact n := by
  have dead : ¬ nodes.Live x := fun lives => lives.2 none
  have apart : x ≠ d := fun same => dead (same ▸ here)
  have live : ∀ y, after.Live y ↔ y = x ∨ nodes.Live y := by
    intro y
    by_cases same : y = x
    · rw [same]
      exact ⟨fun _ => .inl rfl, fun _ => lives⟩
    · rw [or_iff_right same, Live, types y, counts y same, Live]
      by_cases home : y = d
      · rw [home]
        exact ⟨fun _ => here, fun lives => ⟨lives.1, by rw [if_pos rfl]; omega⟩⟩
      · rw [if_neg home, add_zero]
  have stays : ∀ {y}, nodes.Live y → after.Live y := fun lives => (live _).mpr (.inr lives)
  have hierarchy : after.hierarchy n = (nodes.hierarchy n).grow d x :=
    hierarchy_grow here parent names others live dead (exact.bounded x (by rw [lives.1]; decide)) above bare
  have bounded : ∀ y, (nodes y).type ≠ 0 → y < n := fun y type => exact.bounded y (by rwa [types])
  have outside : x ∉ (nodes.hierarchy n).dirs := fun member => dead ((Nodes.mem_dirs bounded).mp member)
  have empty : ∀ y, (nodes.hierarchy n).names x y = 0 := fun y => if_neg dead
  refine ⟨(types 0).symm.trans exact.null, bounded, fun c lives => ?_, fun c y lives name => ?_, ?_, fun y type => ?_⟩
  · by_cases same : c = d
    · exact same ▸ shaped
    · exact (exact.shaped c (stays lives)).congr (others c same lives).symm
  · rw [← types y]
    refine exact.sound c y (stays lives) ?_
    by_cases home : c = d
    · rw [home] at name ⊢
      rw [names]
      omega
    · rwa [Node.names, others c home lives]
  · have tree := exact.tree
    rw [hierarchy] at tree
    exact tree.prune outside other empty apart
  · have total := exact.counts y (by rwa [types])
    rw [hierarchy, Hierarchy.links_grow outside ((Nodes.mem_dirs bounded).mpr here) empty] at total
    by_cases same : y = x
    · have single := exact.tree.links_of_empty (exact.mem_dirs.mpr lives) other fun y => (hierarchy_names lives).trans (bare y)
      rw [hierarchy, Hierarchy.links_grow outside ((Nodes.mem_dirs bounded).mpr here) empty, if_pos rfl] at single
      rw [same, none]
      omega
    · rw [counts y same, if_neg same] at total
      omega

end Change

end Nodes

end Xv6.Fs
