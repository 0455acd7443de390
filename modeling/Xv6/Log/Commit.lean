import Xv6.Log.Recovery

/-! The disk writes of `commit` and `recover_from_log`. Only the header write of a commit changes
what the disk would be recovered to. -/

namespace Xv6.Log.Machine
open Lib Lib.RedoLog
open Function (update update_apply update_of_ne update_self)

variable {ι : Type} [Fintype ι] [DecidableEq ι] {start size : Nat} {s t : State ι} {i : ι} {k : Fin NBUF}

omit [Fintype ι] [DecidableEq ι] in
theorem after_of_role_ne {pc : Pc} (calm : pc.role ≠ .busy) : pc.after = false := by
  cases pc <;> first | rfl | exact absurd rfl calm

omit [Fintype ι] [DecidableEq ι] in
theorem stage_of_role_ne {pc : Pc} (calm : pc.role ≠ .busy) (outside : pc.inside = false) :
    Stage start size s i pc := by
  cases pc <;> trivial

theorem Ctl.role_ne_of_ne (ctl : Ctl s) (busy : (s.pc i).role = .busy) {j : ι} (apart : j ≠ i) :
    (s.pc j).role ≠ .busy := fun there =>
  apart (ctl.busy_unique (decide_eq_true there) (decide_eq_true busy))

omit [DecidableEq ι] in
theorem Inv.unchanged (inv : Inv start size s) (busy : (s.pc i).role = .busy) (l : Fin NBUF) :
    (s.cache.buf l).changed = false := by
  cases change : (s.cache.buf l).changed with
  | false => rfl
  | true =>
    obtain ⟨j, -, inside⟩ := inv.changed l change
    rw [inv.ctl.outside_of_busy (decide_eq_true busy) j] at inside
    cases inside

theorem Inv.afters (inv : Inv start size s) (busy : (s.pc i).role = .busy) (none : (s.pc i).after = false) (j : ι) :
    (s.pc j).after = false := by
  rcases eq_or_ne j i with rfl | apart
  · exact none
  · exact after_of_role_ne (inv.ctl.role_ne_of_ne busy apart)

theorem Inv.now_eq_block (inv : Inv start size s) (busy : (s.pc i).role = .busy) (on : s.phase = .on)
    (none : (s.pc i).after = false) {b : Nat} (home : Home start size b) (absent : b ∉ s.log.block) :
    s.past.now b = s.block b := by
  rcases inv.covered on (inv.afters busy none) b home with same | member | ⟨l, -, change⟩
  · exact same
  · exact absurd member absent
  · rw [inv.unchanged busy l] at change
    cases change

theorem Inv.written {x : Nat} {data : Block} {out : (Addr → Block) × Cache ι Block} (inv : Inv start size s)
    (busy : (s.pc i).role = .busy) (known : (s.pc i).located = true)
    (got : s.cache.bwrite s.disk i k data = some out) (addr : (s.cache.buf k).addr = root x) (super : x ≠ 1)
    (disk : t.disk = out.1) (cache : t.cache = out.2) (log : t.log = s.log) (phase : t.phase = s.phase) (ctl : Ctl t)
    (others : ∀ j, j ≠ i → t.pc j = s.pc j) (role : (t.pc i).role = .busy)
    (views : view start size t = update (view start size s) (root x) data)
    (headed : Heads start size (heads start t)) (fits : (heads start t).length < size)
    (safe : ∀ b, Home start size b → redo (heads start t) (saved start t) t.block b = t.past.safe b)
    (counts : t.past.returned ≤ t.past.durable ∧ t.past.durable ≤ t.past.returned + 1 ∧
      t.past.durable ≤ t.past.groups.length)
    (covered : t.phase = .on → (t.pc i).after = false → ∀ b, Home start size b → b ∉ t.log.block →
      t.past.now b = t.block b)
    (pinned : t.phase = .on → (t.pc i).after = false → s.log.block = [] ∨
      ((s.pc i).after = false ∧ x ∉ s.log.block))
    (stage : Stage start size t i (t.pc i)) : Inv start size t := by
  obtain ⟨idle, own, range, rfl⟩ := Cache.bwrite_eq got
  have bufs : ∀ l, l ≠ k → t.cache.buf l = s.cache.buf l := fun l apart => by
    rw [cache]
    exact Cache.set_buf_of_ne apart
  have here : (t.cache.buf k).addr = (s.cache.buf k).addr ∧ (t.cache.buf k).changed = false := by
    rw [cache]
    exact ⟨by rw [Cache.set_buf_self], by rw [Cache.set_buf_self]⟩
  have addrs : ∀ l, (t.cache.buf l).addr = (s.cache.buf l).addr := fun l => by
    rcases eq_or_ne l k with rfl | apart
    · exact here.1
    · rw [bufs l apart]
  have still : ∀ l, (t.cache.buf l).changed = false := fun l => by
    rcases eq_or_ne l k with rfl | apart
    · exact here.2
    · rw [bufs l apart]
      exact inv.unchanged busy l
  constructor
  · exact ctl
  · intro j _
    rw [Located, log]
    exact inv.located i (.inr known)
  · have same : t.block 1 = s.block 1 := by
      rw [State.block, disk, addr]
      exact update_of_ne (root_ne super.symm) _ _
    rw [same]
    exact inv.super
  · have dev : (s.cache.buf k).addr.1 ≠ 0 := by rw [addr]; exact Nat.one_ne_zero
    rw [views, disk, cache, ← addr]
    exact inv.coherent.bwrite dev got
  · intro j l waits
    rw [addrs]
    rw [cache] at waits
    exact inv.waits j l waits
  · intro l change
    rw [still l] at change
    cases change
  · rw [log]
    exact inv.logged
  · exact headed
  · exact fits
  · exact safe
  · exact counts
  · intro on calm
    rw [log] at calm
    rw [phase] at on
    rcases inv.ctl.phase_of_busy busy with there | there
    · rw [calm] at there; cases there.2
    · rw [on] at there; cases there.1
  · intro on none b home
    by_cases member : b ∈ t.log.block
    · exact .inr (.inl member)
    · exact .inl (covered on (none i) b home member)
  · intro on none b member
    rw [log] at member
    rcases pinned on (none i) with empty | ⟨before, absent⟩
    · rw [empty] at member
      cases member
    · obtain ⟨l, place, dirty⟩ := inv.pinned (phase ▸ on) (inv.afters busy before) b member
      have apart : l ≠ k := fun same => by
        rw [same, addr] at place
        exact absent (root_injective place ▸ member)
      exact ⟨l, by rw [addrs]; exact place, by rw [bufs l apart]; exact dirty⟩
  · intro j
    rcases eq_or_ne j i with rfl | apart
    · exact stage
    · rw [others j apart]
      exact stage_of_role_ne (inv.ctl.role_ne_of_ne busy apart) (inv.ctl.outside_of_busy (decide_eq_true busy) j)

section Written
omit [Fintype ι] [DecidableEq ι]
variable {x : Nat} {data : Block} (disk : t.disk = Function.update s.disk (root x) data)
include disk

theorem block_written (y : Nat) : t.block y = if y = x then data else s.block y := by
  rw [State.block, disk]
  split
  next same => rw [same, update_self]
  next apart => exact update_of_ne (root_ne apart) _ _

theorem block_of_ne {y : Nat} (apart : y ≠ x) : t.block y = s.block y := by
  rw [block_written disk, if_neg apart]

theorem view_written (phase : t.phase = s.phase) (now : t.past.now = s.past.now)
    (value : s.phase = .on → Home start size x → s.past.now x = data) :
    view start size t = update (view start size s) (root x) data := by
  funext a
  rcases eq_or_ne a (root x) with rfl | apart
  · rw [update_self, view]
    split
    next here => rw [now]; exact value (phase ▸ here.1) here.2.2
    next => rw [disk, update_self]
  · rw [update_of_ne apart, view, view, phase, now, disk, update_of_ne apart]

end Written

theorem Inv.copyLog (geo : Geometry start size) (inv : Inv start size s) {tail : Nat} {l d : Fin NBUF}
    (here : s.pc i = .copy .write_log tail l d) (idle : s.cache.call i = .idle)
    (taken : bwrite s i l (s.cache.buf d).data (.release .write_log tail l d) = some t) (ctl : Ctl t) :
    Inv start size t := by
  have busy : (s.pc i).role = .busy := by rw [here]; rfl
  have on : s.phase = .on := inv.ctl.only i .on (by rw [here]; rfl)
  have stage := inv.stage i
  rw [here] at stage
  obtain ⟨before, logged, fits, mine, b, entry, other⟩ := stage
  obtain ⟨bound, entry⟩ := List.getElem?_eq_some_iff.mp entry
  have loggable := inv.logged.loggable b (entry ▸ List.getElem_mem bound)
  have low := geo.low
  have room := geo.nbuf_le
  have inLog : ¬Home start size (start + tail + 1) := by
    rw [Log.n] at fits
    rw [Home]
    omega
  have data : (s.cache.buf d).data = s.past.now b := by
    have read := inv.coherent.data_eq (other.owner_of_idle idle) (by rw [other.1]; exact Nat.one_ne_zero)
    rw [read, other.1, view_home on loggable.home]
  rw [data] at taken
  obtain ⟨out, got, rfl⟩ := bwrite_eq taken
  obtain ⟨-, -, -, same⟩ := Cache.bwrite_eq got
  rw [mine.1] at same
  have disk : ({ s with disk := out.1, cache := out.2 }.goto i (.release .write_log tail l d)).disk =
      update s.disk (root (start + tail + 1)) (s.past.now b) := by rw [goto_disk, same]
  have head : heads start ({ s with disk := out.1, cache := out.2 }.goto i (.release .write_log tail l d)) =
      heads start s := heads_congr (block_of_ne disk (by omega))
  refine inv.written busy (by rw [here]; rfl) got mine.1 (by omega) rfl rfl rfl rfl ctl
    (fun j apart => goto_pc_of_ne apart) (by rw [goto_pc_self]; rfl)
    (view_written disk rfl rfl fun _ home => absurd home inLog) (head ▸ inv.headed) (head ▸ inv.fits)
    (fun c home => ?_) inv.counts (fun _ _ c home absent => ?_) (fun _ _ => .inr ⟨by rw [here]; rfl, fun member =>
      inLog (inv.logged.loggable _ member).home⟩) ?_
  · have apart : c ≠ start + tail + 1 := fun same => inLog (same ▸ home)
    have old := inv.safe c home
    rw [before.heads, redo_nil] at old
    rw [head, before.heads, redo_nil, block_of_ne disk apart]
    exact old
  · have apart : c ≠ start + tail + 1 := fun same => inLog (same ▸ home)
    rw [block_of_ne disk apart]
    exact inv.now_eq_block busy on (by rw [here]; rfl) home absent
  · rw [goto_pc_self]
    refine ⟨⟨head.trans before.heads, before.durable, before.groups, before.current⟩, fun u bound low => ?_, fits⟩
    rw [saved, block_written disk]
    split
    next same =>
      obtain rfl : u = tail := by omega
      exact congrArg s.past.now entry.symm
    next apart => exact logged u bound (by omega)

theorem Inv.copyHome (geo : Geometry start size) (inv : Inv start size s) {tail : Nat} {l d : Fin NBUF}
    (here : s.pc i = .copy .install_trans tail l d) (idle : s.cache.call i = .idle)
    (taken : bwrite s i d (s.cache.buf l).data (.release .install_trans tail l d) = some t) (ctl : Ctl t) :
    Inv start size t := by
  have busy : (s.pc i).role = .busy := by rw [here]; rfl
  have stage := inv.stage i
  rw [here] at stage
  obtain ⟨same, counted, installed, mine, b, entry, other⟩ := stage
  rw [← same] at entry
  obtain ⟨bound, entry⟩ := List.getElem?_eq_some_iff.mp entry
  have loggable := inv.headed.loggable b (entry ▸ List.getElem_mem bound)
  have low := geo.low
  have fits := inv.fits
  have inLog : ∀ u, u < (heads start s).length → ¬Home start size (start + u + 1) := fun u small home => by
    rw [Home] at home
    omega
  have data : (s.cache.buf l).data = saved start s tail := by
    have read := inv.coherent.data_eq (mine.owner_of_idle idle) (by rw [mine.1]; exact Nat.one_ne_zero)
    rw [read, mine.1, view_log (inLog tail bound)]
    rfl
  have value : s.phase = .on → s.past.now b = saved start s tail := fun on => by
    have redone := inv.safe b loggable.home
    obtain ⟨durable, -, current⟩ := counted on
    rw [History.safe_eq_now durable current, ← entry, redo_of_mem inv.headed.distinct _ _ bound] at redone
    rw [redone, entry]
  rw [data] at taken
  obtain ⟨out, got, rfl⟩ := bwrite_eq taken
  obtain ⟨-, -, -, wrote⟩ := Cache.bwrite_eq got
  rw [other.1] at wrote
  have disk : ({ s with disk := out.1, cache := out.2 }.goto i (.release .install_trans tail l d)).disk =
      update s.disk (root b) (saved start s tail) := by rw [goto_disk, wrote]
  have notHead : start ≠ b := fun same => by
    have home := loggable.home
    rw [Home] at home
    omega
  have head : heads start ({ s with disk := out.1, cache := out.2 }.goto i (.release .install_trans tail l d)) =
      heads start s := heads_congr (block_of_ne disk notHead)
  have save : ∀ u, u < (heads start s).length → saved start
      ({ s with disk := out.1, cache := out.2 }.goto i (.release .install_trans tail l d)) u = saved start s u :=
    fun u small => block_of_ne disk fun same => inLog u small (same ▸ loggable.home)
  refine inv.written busy (by rw [here]; rfl) got other.1 loggable.super rfl rfl rfl rfl ctl
    (fun j apart => goto_pc_of_ne apart) (by rw [goto_pc_self]; rfl)
    (view_written disk rfl rfl fun on _ => value on) (head ▸ inv.headed) (head ▸ inv.fits)
    (fun c home => ?_) inv.counts (fun _ none => ?_) (fun _ none => ?_) ?_
  · rw [head]
    have blocks : State.block ({ s with disk := out.1, cache := out.2 }.goto i (.release .install_trans tail l d)) =
        update s.block (heads start s)[tail] (saved start s tail) := by
      funext y
      rw [block_written disk, entry, update_apply]
    rw [redo_congr save (congrFun blocks c), redo_install]
    exact inv.safe c home
  · rw [goto_pc_self] at none; cases none
  · rw [goto_pc_self] at none; cases none
  · rw [goto_pc_self]
    refine ⟨head.trans same, counted, fun u small low => ?_⟩
    rw [head] at small
    simp only [head]
    rw [save u small, block_written disk]
    split
    next again =>
      have first : u = tail := (List.Nodup.getElem_inj_iff inv.headed.distinct).mp (again.trans entry.symm)
      rw [first]
    next apart =>
      have before : u ≠ tail := fun same => apart (by simp only [same]; exact entry)
      exact installed u small (by omega)

omit [Fintype ι] [DecidableEq ι] in
theorem heads_putHead (geo : Geometry start size) {blocks : List Nat} {old : Block} (good : Heads start size blocks)
    (few : blocks.length < NBUF) (here : t.block start = putHead old blocks) : heads start t = blocks := by
  have room := geo.room
  rw [heads, here]
  apply headBlocks_putHead
  · intro b member
    have range := (good.loggable b member).range
    simp only [FSSIZE] at range
    omega
  · simp only [NBUF, MAXOPBLOCKS, BSIZE] at few ⊢
    omega

section Head
variable {h : Fin NBUF} {clear : Bool} {u : State ι}

theorem Inv.writeHead (geo : Geometry start size) (inv : Inv start size s) (here : s.pc i = .writeHead false h)
    (taken : bwrite s i h (putHead (s.cache.buf h).data s.log.block) (.releaseHead false h) = some u)
    (disk : t.disk = u.disk) (cache : t.cache = u.cache) (log : t.log = u.log) (phase : t.phase = u.phase)
    (pcs : t.pc = u.pc) (past : t.past = { u.past with durable := u.past.durable + 1 }) (ctl : Ctl t) :
    Inv start size t := by
  have busy : (s.pc i).role = .busy := by rw [here]; rfl
  have on : s.phase = .on := inv.ctl.only i .on (by rw [here]; rfl)
  have stage := inv.stage i
  rw [here] at stage
  obtain ⟨before, logged, few, mine⟩ := stage
  have low := geo.low
  have enough := geo.nbuf_le
  have inLog : ¬Home start size start := fun home => by
    rw [Home] at home
    omega
  obtain ⟨out, got, rfl⟩ := bwrite_eq taken
  obtain ⟨-, -, -, wrote⟩ := Cache.bwrite_eq got
  rw [mine.1] at wrote
  have now : t.past.now = s.past.now := by rw [past]; rfl
  have written : t.disk = update s.disk (root start) (putHead (s.cache.buf h).data s.log.block) := by
    rw [disk, goto_disk, wrote]
  have head : heads start t = s.log.block :=
    heads_putHead geo inv.logged few (by rw [block_written written, if_pos rfl])
  have point : t.pc i = .releaseHead false h := by rw [pcs, goto_pc_self]
  have counted : t.past.durable = t.past.groups.length ∧ t.past.groups.length = t.past.returned + 1 ∧
      t.past.current = [] := by
    rw [past]
    refine ⟨?_, before.groups, before.current⟩
    change s.past.durable + 1 = s.past.groups.length
    rw [before.groups, before.durable]
  refine inv.written busy (by rw [here]; rfl) got mine.1 (by omega) disk cache log phase ctl
    (fun j apart => by rw [pcs, goto_pc_of_ne apart]) (by rw [point]; rfl)
    (view_written written phase now fun _ home => absurd home inLog) (head ▸ inv.logged)
    (by rw [head]; exact few.trans_le enough) (fun c home => ?_) ?_ (fun _ none => ?_) (fun _ none => ?_) ?_
  · rw [head, History.safe_eq_now counted.1 counted.2.2, now]
    refine redo_saved (fun u bound => ?_) fun absent => ?_
    · rw [saved, block_of_ne written (by omega)]
      exact logged u bound bound
    · rw [block_of_ne written fun same => inLog (by rwa [same] at home)]
      exact (inv.now_eq_block busy on (by rw [here]; rfl) home absent).symm
  · obtain ⟨durable, groups, -⟩ := counted
    omega
  · rw [point] at none; cases none
  · rw [point] at none; cases none
  · rw [point, Stage, head, log]
    exact ⟨rfl, fun _ => counted⟩

theorem Inv.clearHead (geo : Geometry start size) (inv : Inv start size s) (here : s.pc i = .writeHead true h)
    (taken : bwrite s i h (putHead (s.cache.buf h).data s.log.block) (.releaseHead true h) = some t) (ctl : Ctl t) :
    Inv start size t := by
  have busy : (s.pc i).role = .busy := by rw [here]; rfl
  have stage := inv.stage i
  rw [here] at stage
  obtain ⟨empty, counted, installed, mine⟩ := stage
  have low := geo.low
  have enough := geo.nbuf_le
  have inLog : ¬Home start size start := fun home => by
    rw [Home] at home
    have positive := h.pos
    omega
  obtain ⟨out, got, rfl⟩ := bwrite_eq taken
  obtain ⟨-, -, -, wrote⟩ := Cache.bwrite_eq got
  rw [mine.1, empty] at wrote
  have written : ({ s with disk := out.1, cache := out.2 }.goto i (.releaseHead true h)).disk =
      update s.disk (root start) (putHead (s.cache.buf h).data []) := by rw [goto_disk, wrote]
  have none : Heads start size [] := ⟨List.nodup_nil, fun b member => nomatch member⟩
  have head : heads start ({ s with disk := out.1, cache := out.2 }.goto i (.releaseHead true h)) = [] :=
    heads_putHead geo none h.pos (by rw [block_written written, if_pos rfl])
  have home : ∀ c, Home start size c →
      State.block ({ s with disk := out.1, cache := out.2 }.goto i (.releaseHead true h)) c = s.past.safe c := by
    intro c home
    rw [block_of_ne written fun same => inLog (by rwa [same] at home), ← inv.safe c home,
      redo_installed fun t bound => installed t bound bound]
  refine inv.written busy (by rw [here]; rfl) got mine.1 (by omega) rfl rfl rfl rfl ctl
    (fun j apart => goto_pc_of_ne apart) (by rw [goto_pc_self]; rfl)
    (view_written (by rw [written, empty]) rfl rfl fun _ home => absurd home inLog) (head ▸ none)
    (by rw [head]; exact h.pos.trans_le enough) (fun c there => ?_) inv.counts (fun on _ c there _ => ?_)
    (fun _ _ => .inl empty) ?_
  · rw [head, redo_nil]
    exact home c there
  · obtain ⟨durable, -, current⟩ := counted on
    rw [home c there, History.safe_eq_now durable current]
    rfl
  · rw [goto_pc_self]
    exact ⟨empty, counted, head⟩

end Head

theorem Inv.alone (inv : Inv start size s) (busy : (s.pc i).role = .busy) (ctl : Ctl t)
    (others : ∀ j, j ≠ i → t.pc j = s.pc j) (disk : t.disk = s.disk) (cache : t.cache = s.cache)
    (views : view start size t = view start size s)
    (located : t.phase = .on ∨ (t.pc i).located = true → Located start size t)
    (logged : Heads start size t.log.block)
    (safe : ∀ b, Home start size b → redo (heads start s) (saved start s) s.block b = t.past.safe b)
    (counts : t.past.returned ≤ t.past.durable ∧ t.past.durable ≤ t.past.returned + 1 ∧
      t.past.durable ≤ t.past.groups.length)
    (idle : t.phase = .on → t.log.committing = false → heads start s = [] ∧ t.past.durable = t.past.returned ∧
      t.past.groups.length = t.past.returned)
    (covered : t.phase = .on → (t.pc i).after = false → ∀ b, Home start size b → b ∉ t.log.block →
      t.past.now b = s.block b)
    (pinned : t.phase = .on → (t.pc i).after = false → t.log.block = [])
    (stage : Stage start size t i (t.pc i)) : Inv start size t := by
  have blocks := blocks_of_disk disk
  have head : heads start t = heads start s := heads_of_disk disk
  have save : saved start t = saved start s := saved_of_disk disk
  have calm : ∀ j, j ≠ i → (t.pc j).role ≠ .busy ∧ (t.pc j).inside = false := fun j apart => by
    rw [others j apart]
    exact ⟨inv.ctl.role_ne_of_ne busy apart, inv.ctl.outside_of_busy (decide_eq_true busy) j⟩
  constructor
  · exact ctl
  · intro j either
    rcases either with on | known
    · exact located (.inl on)
    · rcases eq_or_ne j i with rfl | apart
      · exact located (.inr known)
      · refine absurd ?_ (calm j apart).1
        have busy : (t.pc j).busy = true := by
          revert known
          cases t.pc j <;> first | exact id | exact fun none => nomatch none
        exact of_decide_eq_true busy
  · rw [blocks]
    exact inv.super
  · rw [views, disk, cache]
    exact inv.coherent
  · rw [cache]
    exact inv.waits
  · intro l change
    rw [cache, inv.unchanged busy l] at change
    cases change
  · exact logged
  · rw [head]
    exact inv.headed
  · rw [head]
    exact inv.fits
  · rw [head, save, blocks]
    exact safe
  · exact counts
  · rw [head]
    exact idle
  · intro on none b home
    by_cases member : b ∈ t.log.block
    · exact .inr (.inl member)
    · exact .inl ((covered on (none i) b home member).trans (congrFun blocks b).symm)
  · intro on none b member
    rw [pinned on (none i)] at member
    cases member
  · intro j
    rcases eq_or_ne j i with rfl | apart
    · exact stage
    · exact stage_of_role_ne (calm j apart).1 (calm j apart).2

end Xv6.Log.Machine
