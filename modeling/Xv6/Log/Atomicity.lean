import Xv6.Log.Crash

/-! A commit group holds all updates of each of its operations, which have ended. With what recovery
makes of the disk this is the atomicity of operations. -/

namespace Xv6.Log.Machine
open Lib Lib.RedoLog Lib.Transition List Option
open Function (update update_of_ne update_self)

variable {ι : Type} [DecidableEq ι]

def History.whole (past : History ι) : List Update := past.groups.flatten ++ past.current

def History.first (past : History ι) (n : Nat) : List Update := (past.groups.take n).flatten

/-- Operations are numbered as they begin, and a group is closed only when all that have begun have
ended. -/
structure Ops (s : State ι) : Prop where
  numbered : ∀ u ∈ s.past.whole, u.op < s.past.nextOp
  begun : ∀ i, (s.pc i).inside = true → s.past.op i < s.past.nextOp ∧
    ∀ u ∈ s.past.groups.flatten, u.op < s.past.op i
  later : ∀ u ∈ s.past.groups.flatten, ∀ v ∈ s.past.current, u.op < v.op
  ordered : s.past.groups.Pairwise fun g h => ∀ u ∈ g, ∀ v ∈ h, u.op < v.op
  ended : ∀ u ∈ s.past.groups.flatten, u.op ∈ s.past.ended
  running : s.phase = .on → ∀ u ∈ s.past.current, u.op ∈ s.past.ended ∨
    ∃ i, (s.pc i).inside = true ∧ s.past.op i = u.op

section Steps
variable {s t : State ι} {i : ι} {k : Fin NBUF}

omit [DecidableEq ι] in
theorem Ops.congr (ops : Ops s) (groups : t.past.groups = s.past.groups) (current : t.past.current = s.past.current)
    (op : t.past.op = s.past.op) (nextOp : t.past.nextOp = s.past.nextOp) (ended : t.past.ended = s.past.ended)
    (inside : ∀ j, (t.pc j).inside = true → (s.pc j).inside = true)
    (running : t.phase = .on → s.phase = .on ∧ ∀ j, (s.pc j).inside = true → (t.pc j).inside = true) : Ops t where
  numbered := by
    rw [History.whole, groups, current, nextOp]
    exact ops.numbered
  begun j here := by
    rw [op, nextOp, groups]
    exact ops.begun j (inside j here)
  later := by
    rw [groups, current]
    exact ops.later
  ordered := by
    rw [groups]
    exact ops.ordered
  ended := by
    rw [groups, ended]
    exact ops.ended
  running on u member := by
    rw [ended, op]
    rw [current] at member
    obtain ⟨before, kept⟩ := running on
    exact (ops.running before u member).imp_right fun ⟨j, here, same⟩ => ⟨j, kept j here, same⟩

theorem Ops.stay (ops : Ops s) {pc : Pc} (pcs : t.pc = update s.pc i pc) (role : pc.role = (s.pc i).role)
    (phase : t.phase = s.phase) (groups : t.past.groups = s.past.groups) (current : t.past.current = s.past.current)
    (op : t.past.op = s.past.op) (nextOp : t.past.nextOp = s.past.nextOp) (ended : t.past.ended = s.past.ended) :
    Ops t := by
  have inside : ∀ j, (t.pc j).inside = (s.pc j).inside := fun j => by
    rw [pcs]
    rcases eq_or_ne j i with rfl | apart
    · rw [update_self, Pc.inside, Pc.inside, role]
    · rw [update_of_ne apart]
  exact ops.congr groups current op nextOp ended (fun j here => inside j ▸ here)
    fun on => ⟨phase ▸ on, fun j here => (inside j).trans here⟩

theorem Ops.enter (ops : Ops s) (pcs : t.pc = update s.pc i .op) (phase : t.phase = s.phase)
    (past : t.past = { s.past with
      op := update s.past.op i s.past.nextOp, nextOp := s.past.nextOp + 1 })
    (here : (s.pc i).inside = false) : Ops t := by
  have groups : t.past.groups = s.past.groups := by rw [past]
  have current : t.past.current = s.past.current := by rw [past]
  have ended : t.past.ended = s.past.ended := by rw [past]
  have next : t.past.nextOp = s.past.nextOp + 1 := by rw [past]
  have mine : t.past.op i = s.past.nextOp := by rw [past]; exact update_self _ _ _
  have others : ∀ j, j ≠ i → t.past.op j = s.past.op j := fun j apart => by
    rw [past]
    exact update_of_ne apart _ _
  constructor
  · rw [History.whole, groups, current, next]
    exact fun u member => Nat.lt_succ_of_lt (ops.numbered u member)
  · intro j inside
    rw [groups, next]
    rcases eq_or_ne j i with rfl | apart
    · rw [mine]
      exact ⟨Nat.lt_succ_self _, fun u member => ops.numbered u (mem_append_left _ member)⟩
    · rw [pcs, update_of_ne apart] at inside
      rw [others j apart]
      obtain ⟨small, above⟩ := ops.begun j inside
      exact ⟨Nat.lt_succ_of_lt small, above⟩
  · rw [groups, current]
    exact ops.later
  · rw [groups]
    exact ops.ordered
  · rw [groups, ended]
    exact ops.ended
  · intro on u member
    rw [current] at member
    rw [ended]
    refine (ops.running (phase ▸ on) u member).imp_right fun ⟨j, inside, same⟩ => ⟨j, ?_⟩
    have apart : j ≠ i := fun same => by
      rw [same, here] at inside
      cases inside
    rw [pcs, update_of_ne apart, others j apart]
    exact ⟨inside, same⟩

omit [DecidableEq ι] in
theorem Ops.modify (ops : Ops s) {b : Nat} {data : Block} (here : (s.pc i).inside = true) (pcs : t.pc = s.pc)
    (phase : t.phase = s.phase)
    (past : t.past = { s.past with current := s.past.current ++ [⟨s.past.op i, b, data⟩] }) : Ops t := by
  have groups : t.past.groups = s.past.groups := by rw [past]
  have current : t.past.current = s.past.current ++ [⟨s.past.op i, b, data⟩] := by rw [past]
  have same : t.past.ended = s.past.ended ∧ t.past.op = s.past.op ∧ t.past.nextOp = s.past.nextOp := by
    rw [past]
    exact ⟨rfl, rfl, rfl⟩
  obtain ⟨small, above⟩ := ops.begun i here
  constructor
  · rw [History.whole, groups, current, same.2.2, ← append_assoc]
    intro u member
    rcases mem_append.mp member with old | new
    · exact ops.numbered u old
    · rw [mem_singleton.mp new]
      exact small
  · rw [pcs, groups, same.2.1, same.2.2]
    exact ops.begun
  · rw [groups, current]
    intro u first v member
    rcases mem_append.mp member with old | new
    · exact ops.later u first v old
    · rw [mem_singleton.mp new]
      exact above u first
  · rw [groups]
    exact ops.ordered
  · rw [groups, same.1]
    exact ops.ended
  · rw [phase, current, same.1, same.2.1, pcs]
    intro on u member
    rcases mem_append.mp member with old | new
    · exact ops.running on u old
    · rw [mem_singleton.mp new]
      exact .inr ⟨i, here, rfl⟩

theorem Ops.leave (ops : Ops s) {pc : Pc} (pcs : t.pc = update s.pc i pc) (outside : pc.inside = false)
    (phase : t.phase = s.phase) (past : t.past = { s.past with ended := s.past.op i :: s.past.ended }) : Ops t := by
  have same : t.past.groups = s.past.groups ∧ t.past.current = s.past.current ∧ t.past.op = s.past.op ∧
      t.past.nextOp = s.past.nextOp ∧ t.past.ended = s.past.op i :: s.past.ended := by
    rw [past]
    exact ⟨rfl, rfl, rfl, rfl, rfl⟩
  obtain ⟨groups, current, op, next, ended⟩ := same
  constructor
  · rw [History.whole, groups, current, next]
    exact ops.numbered
  · intro j inside
    rcases eq_or_ne j i with rfl | apart
    · rw [pcs, update_self, outside] at inside
      cases inside
    · rw [pcs, update_of_ne apart] at inside
      rw [groups, op, next]
      exact ops.begun j inside
  · rw [groups, current]
    exact ops.later
  · rw [groups]
    exact ops.ordered
  · rw [groups, ended]
    exact fun u member => mem_cons_of_mem _ (ops.ended u member)
  · intro on u member
    rw [current] at member
    rw [ended, op]
    rcases ops.running (phase ▸ on) u member with old | ⟨j, inside, same⟩
    · exact .inl (mem_cons_of_mem _ old)
    · rcases eq_or_ne j i with rfl | apart
      · exact .inl (same ▸ mem_cons_self)
      · exact .inr ⟨j, by rw [pcs, update_of_ne apart]; exact inside, same⟩

omit [DecidableEq ι] in
theorem Ops.close (ops : Ops s) (on : s.phase = .on) (outside : ∀ j, (s.pc j).inside = false) (pcs : t.pc = s.pc)
    (past : t.past = s.past.close) : Ops t := by
  have same : t.past.groups = s.past.groups ++ [s.past.current] ∧ t.past.current = [] ∧
      t.past.nextOp = s.past.nextOp ∧ t.past.ended = s.past.ended := by
    rw [past]
    exact ⟨rfl, rfl, rfl, rfl⟩
  obtain ⟨groups, current, next, ended⟩ := same
  have flat : t.past.groups.flatten = s.past.whole := by
    rw [groups, flatten_append, flatten_singleton]
    rfl
  constructor
  · rw [History.whole, flat, current, append_nil, next]
    exact ops.numbered
  · intro j inside
    rw [pcs, outside] at inside
    cases inside
  · rw [current]
    exact fun _ _ _ none => nomatch none
  · rw [groups, pairwise_append]
    refine ⟨ops.ordered, pairwise_singleton _ _, fun g member h single u first v second => ?_⟩
    rw [mem_singleton.mp single] at second
    exact ops.later u (mem_flatten_of_mem member first) v second
  · rw [flat, ended]
    intro u member
    rcases mem_append.mp member with old | new
    · exact ops.ended u old
    · refine (ops.running on u new).resolve_right fun ⟨j, inside, _⟩ => ?_
      rw [outside] at inside
      cases inside
  · rw [current]
    exact fun _ _ none => nomatch none

omit [DecidableEq ι] in
theorem Ops.restart (outside : ∀ j, (t.pc j).inside = false) (groups : t.past.groups = [])
    (current : t.past.current = []) : Ops t := by
  constructor
  · rw [History.whole, groups, current]
    exact fun _ none => nomatch none
  · intro j inside
    rw [outside] at inside
    cases inside
  · rw [groups]
    exact fun _ none => nomatch none
  · rw [groups]
    exact .nil
  · rw [groups]
    exact fun _ none => nomatch none
  · rw [current]
    exact fun _ _ none => nomatch none

theorem Ops.bread {b : Nat} {pc : Pc} (ops : Ops s) (taken : bread s i b k pc = some t)
    (role : pc.role = (s.pc i).role) : Ops t := by
  obtain ⟨cache, -, rfl⟩ := bread_eq taken
  exact ops.stay rfl role rfl rfl rfl rfl rfl rfl

theorem Ops.brelse {pc : Pc} (ops : Ops s) (taken : brelse s i k pc = some t)
    (role : pc.role = (s.pc i).role) : Ops t := by
  obtain ⟨cache, -, rfl⟩ := brelse_eq taken
  exact ops.stay rfl role rfl rfl rfl rfl rfl rfl

theorem Ops.bwrite {data : Block} {pc : Pc} (ops : Ops s) (taken : bwrite s i k data pc = some t)
    (role : pc.role = (s.pc i).role) : Ops t := by
  obtain ⟨out, -, rfl⟩ := bwrite_eq taken
  exact ops.stay rfl role rfl rfl rfl rfl rfl rfl

theorem Ops.go [Fintype ι] (ops : Ops s) (ctl : Ctl s) {pc : Pc} (here : s.pc i = pc)
    (taken : go s i k pc = some t) : Ops t := by
  cases pc with
  | user => cases taken
  | op => cases taken
  | «begin» =>
    simp only [Machine.go] at taken
    split at taken
    · cases taken
    · cases taken
      exact ops.enter rfl rfl rfl (by rw [here]; rfl)
  | logging l =>
    cases taken
    exact ops.stay rfl (by rw [here]; rfl) rfl rfl rfl rfl rfl rfl
  | commit =>
    simp only [Machine.go] at taken
    split at taken <;> cases taken
    · exact ops.stay rfl (by rw [here]; rfl) rfl rfl rfl rfl rfl rfl
    · exact ops.stay rfl (by rw [here]; rfl) rfl rfl rfl rfl rfl rfl
  | finish =>
    cases taken
    refine ops.congr rfl rfl rfl rfl rfl (fun j inside => ?_) fun on => ⟨on, fun j inside => ?_⟩
    · rcases eq_or_ne j i with rfl | apart
      · rw [goto_pc_self] at inside
        cases inside
      · rwa [goto_pc_of_ne apart] at inside
    · rcases eq_or_ne j i with rfl | apart
      · rw [here] at inside
        cases inside
      · rwa [goto_pc_of_ne apart]
  | loop which tail =>
    simp only [Machine.go] at taken
    split at taken
    · exact ops.bread taken (by rw [here]; rfl)
    · cases which <;> cases taken
      · exact ops.stay rfl (by rw [here]; rfl) rfl rfl rfl rfl rfl rfl
      · exact ops.stay rfl (by rw [here]; rfl) rfl rfl rfl rfl rfl rfl
  | second which tail l =>
    simp only [Machine.go] at taken
    split at taken
    · exact ops.bread taken (by rw [here]; rfl)
    · cases taken
  | copy which tail l d =>
    cases which
    · exact ops.bwrite taken (by rw [here]; rfl)
    · exact ops.bwrite taken (by rw [here]; rfl)
  | release which tail l d =>
    cases which
    · exact ops.brelse taken (by rw [here]; rfl)
    · exact ops.brelse taken (by rw [here]; rfl)
  | releaseLast which tail l => exact ops.brelse taken (by rw [here]; rfl)
  | head clear => exact ops.bread taken (by rw [here]; rfl)
  | writeHead clear l =>
    obtain ⟨u, wrote, rfl⟩ := map_eq_some_iff.mp taken
    have kept := ops.bwrite wrote (by rw [here]; rfl)
    cases clear
    · exact kept.congr rfl rfl rfl rfl rfl (fun _ inside => inside) fun on => ⟨on, fun _ inside => inside⟩
    · exact kept
  | releaseHead clear l =>
    cases clear
    · exact ops.brelse taken (by rw [here]; rfl)
    · exact ops.brelse taken (by rw [here]; rfl)
  | returned =>
    simp only [Machine.go] at taken
    split at taken <;> cases taken
    · refine Ops.restart (fun j => ?_) rfl rfl
      rcases eq_or_ne j i with rfl | apart
      · rw [goto_pc_self]
        rfl
      · rw [goto_pc_of_ne apart]
        exact ctl.outside_of_busy (i := i) (decide_eq_true (by rw [here]; rfl)) j
    · exact ops.stay rfl (by rw [here]; rfl) rfl rfl rfl rfl rfl rfl
  | readsb l =>
    obtain ⟨u, released, rfl⟩ := map_eq_some_iff.mp taken
    exact (ops.brelse released (by rw [here]; rfl)).congr rfl rfl rfl rfl rfl (fun _ inside => inside)
      fun on => ⟨on, fun _ inside => inside⟩
  | readHead => exact ops.bread taken (by rw [here]; rfl)
  | gotHead l =>
    obtain ⟨u, released, rfl⟩ := map_eq_some_iff.mp taken
    exact (ops.brelse released (by rw [here]; rfl)).congr rfl rfl rfl rfl rfl (fun _ inside => inside)
      fun on => ⟨on, fun _ inside => inside⟩

theorem Ops.preserved [Fintype ι] {l : Label ι} (ops : Ops s) (ctl : Ctl s) (taken : step s l = some t) : Ops t := by
  have after : Ctl t := ctl.preserved taken
  cases l with
  | crash =>
    cases taken
    exact ops.congr rfl rfl rfl rfl rfl (fun _ inside => nomatch inside) fun on => nomatch on
  | initlog i k =>
    obtain ⟨off, taken⟩ := ite_none_right_eq_some.mp taken
    obtain ⟨u, got, rfl⟩ := map_eq_some_iff.mp taken
    obtain ⟨cache, -, rfl⟩ := bread_eq got
    refine ops.congr rfl rfl rfl rfl rfl (fun j inside => ?_) fun on => nomatch on
    rcases eq_or_ne j i with rfl | apart
    · simp only [goto_pc_self] at inside
      cases inside
    · simpa only [goto_pc_of_ne apart] using inside
  | begin_op i =>
    obtain ⟨⟨-, here, -⟩, rfl⟩ := Transition.of_guard taken
    refine ops.congr rfl rfl rfl rfl rfl (fun j inside => ?_) fun on => ⟨on, fun j inside => ?_⟩
    · rcases eq_or_ne j i with rfl | apart
      · rw [goto_pc_self] at inside
        cases inside
      · rwa [goto_pc_of_ne apart] at inside
    · rcases eq_or_ne j i with rfl | apart
      · rw [here] at inside
        cases inside
      · rwa [goto_pc_of_ne apart]
  | bread i b k =>
    exact ops.bread (ite_none_right_eq_some.mp taken).2 rfl
  | modify i k data =>
    obtain ⟨⟨here, -⟩, rfl⟩ := Transition.of_guard taken
    exact ops.modify (i := i) (by rw [here]; rfl) rfl rfl rfl
  | log_write i k =>
    obtain ⟨⟨here, -⟩, rfl⟩ := Transition.of_guard taken
    exact ops.stay rfl (by rw [here]; rfl) rfl rfl rfl rfl rfl rfl
  | brelse i k =>
    exact ops.brelse (ite_none_right_eq_some.mp taken).2 rfl
  | end_op i =>
    obtain ⟨⟨here, -⟩, taken⟩ := ite_none_right_eq_some.mp taken
    have on := (ctl.on_of_inside (i := i) (by rw [here]; rfl)).1
    split at taken
    next last =>
      cases taken
      have left : Ops ({ s with past := { s.past with ended := s.past.op i :: s.past.ended } }.goto i .commit) :=
        ops.leave rfl rfl rfl rfl
      have outside := after.outside_of_zero last
      exact left.close on (fun j => outside j) rfl rfl
    next =>
      cases taken
      exact ops.leave rfl rfl rfl rfl
  | acquiresleep i =>
    obtain ⟨out, -, rfl⟩ := map_eq_some_iff.mp taken
    exact ops.congr rfl rfl rfl rfl rfl (fun _ inside => inside) fun on => ⟨on, fun _ inside => inside⟩
  | drop i =>
    obtain ⟨cache, -, rfl⟩ := map_eq_some_iff.mp taken
    exact ops.congr rfl rfl rfl rfl rfl (fun _ inside => inside) fun on => ⟨on, fun _ inside => inside⟩
  | go i k =>
    simp only [step, ite_none_right_eq_some] at taken
    exact ops.go ctl rfl taken.2

omit [DecidableEq ι] in
/-- Of every operation the first groups have all updates or none. -/
theorem Ops.all_or_none (ops : Ops s) (n op : Nat) :
    (s.past.first n).filter (fun u => u.op = op) = [] ∨
      (s.past.first n).filter (fun u => u.op = op) = s.past.whole.filter (fun u => u.op = op) := by
  have split : s.past.whole = s.past.first n ++ ((s.past.groups.drop n).flatten ++ s.past.current) := by
    rw [History.whole, History.first, ← append_assoc, ← flatten_append, take_append_drop]
  have apart : ∀ u ∈ s.past.first n, ∀ v ∈ (s.past.groups.drop n).flatten ++ s.past.current, u.op < v.op := by
    intro u first v rest
    obtain ⟨g, early, member⟩ := mem_flatten.mp first
    rcases mem_append.mp rest with later | current
    · obtain ⟨h, late, other⟩ := mem_flatten.mp later
      have ordered := ops.ordered
      rw [← take_append_drop n s.past.groups, pairwise_append] at ordered
      exact ordered.2.2 g early h late u member v other
    · exact ops.later u (mem_flatten_of_mem (mem_of_mem_take early) member) v current
  by_cases visible : ∃ u ∈ s.past.first n, u.op = op
  · right
    obtain ⟨u, first, same⟩ := visible
    rw [split, filter_append]
    have none : ((s.past.groups.drop n).flatten ++ s.past.current).filter (fun v => v.op = op) = [] := by
      refine filter_eq_nil_iff.mpr fun v rest => ?_
      have := apart u first v rest
      rw [decide_eq_true_eq]
      omega
    rw [none, append_nil]
  · left
    refine filter_eq_nil_iff.mpr fun u first => ?_
    rw [decide_eq_true_eq]
    exact fun same => visible ⟨u, first, same⟩

end Steps

/-- The machine is switched on with an empty log that lies inside of the disk. -/
structure Initial (start size : Nat) (s : State ι) : Prop where
  phase : s.phase = .off
  cache : s.cache = .zero
  log : s.log = { start := 0, size := 0, outstanding := 0, committing := false, block := [] }
  pc : ∀ i, s.pc i = .user
  super : sbLogstart (s.disk (root 1)) = start ∧ sbNlog (s.disk (root 1)) = size
  heads : headBlocks (s.disk (root start)) = []
  init : s.past.init = fun b => s.disk (root b)
  groups : s.past.groups = []
  current : s.past.current = []
  counts : s.past.durable = 0 ∧ s.past.returned = 0

section Theorem
variable [Fintype ι] {start size : Nat} {s t : State ι}

omit [DecidableEq ι] in
theorem Initial.inv (geo : Geometry start size) (initial : Initial start size s) : Inv start size s := by
  have down : s.phase ≠ .on := by rw [initial.phase]; exact Phase.noConfusion
  have clear : Machine.heads start s = [] := initial.heads
  constructor
  · constructor
    · simp [initial.log, initial.pc, Pc.inside, Pc.role]
    · simp [initial.log, initial.pc, initial.phase, Pc.busy, Pc.role]
    · exact fun _ => by rw [initial.log]
    · exact fun _ => by rw [initial.log]; exact ⟨rfl, rfl⟩
    · exact fun _ i => .inl (by rw [initial.pc]; rfl)
    · intro i p only
      rw [initial.pc] at only
      cases only
  · intro i either
    rw [initial.pc] at either
    exact either.elim (fun on => absurd on down) fun known => by cases known
  · exact initial.super
  · rw [view_down down, initial.cache]
    exact Cache.coherent_zero _
  · intro i k waits
    rw [initial.cache] at waits
    cases waits
  · intro k change
    rw [initial.cache] at change
    cases change
  · rw [initial.log]
    exact ⟨nodup_nil, fun b member => by cases member⟩
  · rw [clear]
    exact ⟨nodup_nil, fun b member => by cases member⟩
  · rw [clear]
    exact (by decide : 0 < NBUF).trans_le geo.nbuf_le
  · intro b _
    rw [clear, redo_nil, History.safe, initial.groups, initial.init, take_nil]
    rfl
  · rw [initial.counts.1, initial.counts.2]
    omega
  · exact fun on => absurd on down
  · exact fun on => absurd on down
  · exact fun on => absurd on down
  · intro i
    rw [initial.pc]
    trivial

omit [DecidableEq ι] [Fintype ι] in
theorem Initial.ops (initial : Initial start size s) : Ops s :=
  Ops.restart (fun j => by rw [initial.pc]; rfl) initial.groups initial.current

theorem go_down {i : ι} {k : Fin NBUF} {pc : Pc} (ctl : Ctl s) (down : s.phase ≠ .on) (here : s.pc i = pc)
    (taken : go s i k pc = some t) : (t.phase = s.phase ∧ t.past = s.past) ∨ pc = .returned := by
  have only : pc.only ≠ some .on := fun same => down (ctl.only i .on (here ▸ same))
  have role : pc.role = .user ∨ pc.role = .busy := here ▸ ctl.offline down i
  have read : ∀ {b : Nat} {next : Pc}, bread s i b k next = some t → t.phase = s.phase ∧ t.past = s.past := by
    intro b next got
    obtain ⟨cache, -, rfl⟩ := bread_eq got
    exact ⟨rfl, rfl⟩
  have release : ∀ {l : Fin NBUF} {next : Pc} {u : State ι}, brelse s i l next = some u →
      u.phase = s.phase ∧ u.past = s.past := by
    intro l next u got
    obtain ⟨cache, -, rfl⟩ := brelse_eq got
    exact ⟨rfl, rfl⟩
  have write : ∀ {l : Fin NBUF} {data : Block} {next : Pc} {u : State ι}, bwrite s i l data next = some u →
      u.phase = s.phase ∧ u.past = s.past := by
    intro l data next u got
    obtain ⟨out, -, rfl⟩ := bwrite_eq got
    exact ⟨rfl, rfl⟩
  cases pc with
  | user | op => cases taken
  | «begin» | logging l => rcases role with wrong | wrong <;> cases wrong
  | commit | finish => exact absurd rfl only
  | loop which tail =>
    simp only [Machine.go] at taken
    split at taken
    · exact .inl (read taken)
    · cases which <;> cases taken <;> exact .inl ⟨rfl, rfl⟩
  | second which tail l =>
    simp only [Machine.go] at taken
    split at taken
    · exact .inl (read taken)
    · cases taken
  | copy which tail l d => cases which <;> exact .inl (write taken)
  | release which tail l d => cases which <;> exact .inl (release taken)
  | releaseLast which tail l => exact .inl (release taken)
  | head clear => exact .inl (read taken)
  | writeHead clear l =>
    cases clear with
    | false => exact absurd rfl only
    | true =>
      obtain ⟨u, wrote, rfl⟩ := map_eq_some_iff.mp taken
      exact .inl (write wrote)
  | releaseHead clear l => exact .inl (release taken)
  | returned => exact .inr rfl
  | readsb l =>
    obtain ⟨u, released, rfl⟩ := map_eq_some_iff.mp taken
    have kept := release released
    exact .inl ⟨kept.1, kept.2⟩
  | readHead => exact .inl (read taken)
  | gotHead l =>
    obtain ⟨u, released, rfl⟩ := map_eq_some_iff.mp taken
    have kept := release released
    exact .inl ⟨kept.1, kept.2⟩

theorem step_down {l : Label ι} (inv : Inv start size s) (down : s.phase ≠ .on) (taken : step s l = some t) :
    (t.phase ≠ .on ∧ t.past = s.past) ∨
      (t.phase = .on ∧ ∀ b, Home start size b → t.disk (root b) = s.past.safe b) := by
  have outside : ∀ i, s.pc i ≠ .op := fun i here =>
    down (inv.ctl.on_of_inside (i := i) (by rw [here]; rfl)).1
  cases l with
  | crash =>
    cases taken
    exact .inl ⟨Phase.noConfusion, rfl⟩
  | initlog i k =>
    obtain ⟨off, taken⟩ := ite_none_right_eq_some.mp taken
    obtain ⟨u, got, rfl⟩ := map_eq_some_iff.mp taken
    obtain ⟨cache, -, rfl⟩ := bread_eq got
    exact .inl ⟨Phase.noConfusion, rfl⟩
  | begin_op i | bread i b k | brelse i k =>
    simp only [step, ite_none_right_eq_some] at taken
    exact absurd taken.1.1 down
  | modify i k data | log_write i k | end_op i =>
    simp only [step, ite_none_right_eq_some] at taken
    exact absurd taken.1.1 (outside i)
  | acquiresleep i | drop i =>
    obtain ⟨out, -, rfl⟩ := map_eq_some_iff.mp taken
    exact .inl ⟨down, rfl⟩
  | go i k =>
    obtain ⟨-, taken⟩ := ite_none_right_eq_some.mp taken
    rcases go_down inv.ctl down rfl taken with ⟨phase, past⟩ | here
    · exact .inl ⟨phase ▸ down, past⟩
    · have booting : s.phase = .booting := by
        rcases inv.ctl.phase_of_busy (i := i) (by rw [here]; rfl) with there | there
        · exact absurd there.1 down
        · exact there.1
      have stage := inv.stage i
      rw [here] at stage taken
      simp only [Machine.go, if_pos booting] at taken
      cases taken
      refine .inr ⟨rfl, fun b home => ?_⟩
      rw [← inv.safe b home, stage.2.2, redo_nil]
      rfl

/-- Crash atomicity: after any crashes and a recovery that completes, the home blocks are those of
the last boot with the updates of all commit groups that had returned, and of at most one more. Of
each operation all updates are visible or none, and those that are visible have reached `end_op`. -/
theorem crash_atomicity (geo : Geometry start size) {fresh crashed up : State ι} {ls rs : List (Label ι)}
    (initial : Initial start size fresh) (ran : run step fresh ls = some s)
    (crash : step s .crash = some crashed) (recovery : run step crashed rs = some up)
    (down : Along step (fun v _ => v.phase ≠ .on) crashed rs) (complete : up.phase = .on) :
    ∃ n, s.past.returned ≤ n ∧ n ≤ s.past.returned + 1 ∧ n ≤ s.past.groups.length ∧
      (∀ b, Home start size b →
        up.disk (root b) = apply ((s.past.first n).map Update.write) s.past.init b) ∧
      (∀ op, (s.past.first n).filter (fun u => u.op = op) = [] ∨
        (s.past.first n).filter (fun u => u.op = op) = s.past.whole.filter (fun u => u.op = op)) ∧
      ∀ u ∈ s.past.first n, u.op ∈ s.past.ended := by
  have both : Inv start size s ∧ Ops s := by
    refine run_invariant step (fun v => Inv start size v ∧ Ops v) (fun v l w here taken => ?_)
      ⟨initial.inv geo, initial.ops⟩ ran
    exact ⟨here.1.preserved geo taken, here.2.preserved here.1.ctl taken⟩
  obtain ⟨inv, ops⟩ := both
  have fallen : Inv start size crashed := inv.preserved geo crash
  have same : crashed.past = s.past ∧ crashed.phase = .off := by
    cases crash
    exact ⟨rfl, rfl⟩
  have track : Inv start size up ∧ ((up.phase ≠ .on ∧ up.past = crashed.past) ∨
      (up.phase = .on ∧ ∀ b, Home start size b → up.disk (root b) = crashed.past.safe b)) := by
    refine run_invariant_along step (fun v => Inv start size v ∧ ((v.phase ≠ .on ∧ v.past = crashed.past) ∨
      (v.phase = .on ∧ ∀ b, Home start size b → v.disk (root b) = crashed.past.safe b)))
      (fun v l w here off taken => ⟨here.1.preserved geo taken, ?_⟩)
      ⟨fallen, .inl ⟨by rw [same.2]; exact Phase.noConfusion, rfl⟩⟩ down recovery
    have kept : v.past = crashed.past := by
      rcases here.2 with ⟨-, past⟩ | ⟨on, -⟩
      · exact past
      · exact absurd on off
    rw [← kept]
    exact step_down here.1 off taken
  refine ⟨s.past.durable, inv.counts.1, inv.counts.2.1, inv.counts.2.2, fun b home => ?_,
    ops.all_or_none s.past.durable, fun u member => ?_⟩
  · rcases track.2 with ⟨off, -⟩ | ⟨-, disk⟩
    · exact absurd complete off
    · rw [disk b home, same.1]
      rfl
  · obtain ⟨g, early, here⟩ := mem_flatten.mp member
    exact ops.ended u (mem_flatten_of_mem (mem_of_mem_take early) here)

end Theorem

section Run

/-- A disk of zeros but for a superblock like that of `mkfs`. -/
def formatted : Addr → Block := fun a =>
  if a = root 1 then (Bytes.zero.setWord 12 4 LOGSIZE).setWord 16 4 2 else Bytes.zero

def poweredOn (ι : Type) : State ι where
  disk := formatted
  cache := .zero
  log := { start := 0, size := 0, outstanding := 0, committing := false, block := [] }
  phase := .off
  pc := fun _ => .user
  past := { init := fun b => formatted (root b), groups := [], current := [], durable := 0, returned := 0,
            op := fun _ => 0, nextOp := 0, ended := [] }

theorem poweredOn_initial (ι : Type) : Initial 2 LOGSIZE (poweredOn ι) := by
  constructor
  · rfl
  · rfl
  · rfl
  · exact fun _ => rfl
  · change sbLogstart (formatted (root 1)) = 2 ∧ sbNlog (formatted (root 1)) = LOGSIZE
    decide +kernel
  · change headBlocks (formatted (root 2)) = []
    decide +kernel
  · rfl
  · rfl
  · rfl
  · exact ⟨rfl, rfl⟩

def readLog : List (Label (Fin 1)) :=
  [.initlog 0 0, .acquiresleep 0, .go 0 0, .drop 0, .go 0 1, .acquiresleep 0, .go 0 1, .drop 0]

def clearLog : List (Label (Fin 1)) :=
  [.go 0 1, .go 0 1, .acquiresleep 0, .go 0 1, .go 0 1, .drop 0, .go 0 0]

def operation : List (Label (Fin 1)) :=
  [.begin_op 0, .go 0 0, .bread 0 50 2, .acquiresleep 0, .modify 0 2 (Bytes.zero.put 7 1), .log_write 0 2, .go 0 0,
    .brelse 0 2, .drop 0, .end_op 0]

def turn : List (Label (Fin 1)) :=
  [.go 0 3, .acquiresleep 0, .go 0 2, .acquiresleep 0, .go 0 0, .go 0 0, .drop 0, .go 0 0, .drop 0]

def commitPoint : List (Label (Fin 1)) :=
  [.go 0 0] ++ turn ++ [.go 0 0, .go 0 1, .acquiresleep 0, .go 0 1]

/-- The crash falls between the header write and the first write of `install_trans`. -/
theorem crash_atomicity_commitPoint : ∃ s crashed up : State (Fin 1),
    run step (poweredOn (Fin 1)) (readLog ++ clearLog ++ operation ++ commitPoint) = some s ∧
      step s .crash = some crashed ∧ run step crashed (readLog ++ turn ++ clearLog) = some up ∧ up.phase = .on ∧
      ∃ n, s.past.returned ≤ n ∧ ∀ b, Home 2 LOGSIZE b →
        up.disk (root b) = apply ((s.past.first n).map Update.write) s.past.init b := by
  have outcome : (run step (poweredOn (Fin 1)) (readLog ++ clearLog ++ operation ++ commitPoint)).any
      (fun s => (step s .crash).any fun crashed =>
        decide (Along step (fun v _ => v.phase ≠ .on) crashed (readLog ++ turn ++ clearLog)) &&
          (run step crashed (readLog ++ turn ++ clearLog)).any fun up => decide (up.phase = .on)) = true := by
    decide +kernel
  obtain ⟨s, ran, outcome⟩ := (any_eq_true _ _).mp outcome
  obtain ⟨crashed, crash, outcome⟩ := (any_eq_true _ _).mp outcome
  rw [Bool.and_eq_true] at outcome
  obtain ⟨up, recovery, complete⟩ := (any_eq_true _ _).mp outcome.2
  obtain ⟨n, least, -, -, disk, -, -⟩ := crash_atomicity ⟨by decide, by decide, by decide⟩ (poweredOn_initial _) ran crash
    recovery (of_decide_eq_true outcome.1) (of_decide_eq_true complete)
  exact ⟨s, crashed, up, ran, crash, recovery, of_decide_eq_true complete, n, least, disk⟩

end Run

end Xv6.Log.Machine
