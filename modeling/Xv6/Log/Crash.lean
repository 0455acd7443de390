import Xv6.Log.Commit

/-! The log survives a crash after any disk write: every step keeps `Inv`, and a recovery that
completes has made the home blocks what the disk was to be recovered to. -/

namespace Xv6.Log.Machine
open Lib Lib.RedoLog Lib.Transition List Option
open Function (update update_of_ne update_self)

section Steps
variable {ι : Type} [Fintype ι] [DecidableEq ι] {start size : Nat} {s t : State ι} {i : ι} {k : Fin NBUF}

theorem Inv.few (geo : Geometry start size) (inv : Inv start size s) (busy : (s.pc i).role = .busy)
    (on : s.phase = .on) (none : (s.pc i).after = false) {cache : Cache ι Block}
    (steady : s.cache.Steady cache) (here : (cache.buf k).addr = root (start + 1)) : s.log.n < NBUF := by
  have enough := geo.enough
  have inLog : ¬Home start size (start + 1) := fun home => by
    rw [Home] at home
    simp only [LOGSIZE, MAXOPBLOCKS] at enough
    omega
  have distinct : (s.log.block.map root).Nodup := inv.logged.distinct.map root_injective
  have count := Cache.pinned_lt (c := cache) distinct (fun a member => ?_) k fun member => ?_
  · rwa [length_map] at count
  · obtain ⟨b, logged, rfl⟩ := mem_map.mp member
    obtain ⟨l, addr, dirty⟩ := inv.pinned on (inv.afters busy none) b logged
    obtain ⟨still, same⟩ := steady.dirty l dirty
    exact ⟨l, same.trans addr, still⟩
  · rw [here] at member
    obtain ⟨b, logged, same⟩ := mem_map.mp member
    exact inLog (root_injective same ▸ (inv.logged.loggable b logged).home)

omit [Fintype ι] in
theorem brelse_log {pc : Pc} (log : Log) (taken : brelse s i k pc = some t) :
    brelse { s with log := log } i k pc = some { t with log := log } := by
  obtain ⟨cache, got, rfl⟩ := brelse_eq taken
  rw [brelse, got]
  rfl

theorem Inv.commitNothing (inv : Inv start size s) (here : s.pc i = .commit) (none : s.log.block = [])
    (pcs : t.pc = update s.pc i .finish) (disk : t.disk = s.disk) (cache : t.cache = s.cache)
    (log : t.log = s.log) (phase : t.phase = s.phase)
    (past : t.past = { s.past with returned := s.past.returned + 1, durable := s.past.durable + 1 }) (ctl : Ctl t) :
    Inv start size t := by
  have busy : (s.pc i).role = .busy := by rw [here]; rfl
  have on : s.phase = .on := inv.ctl.only i .on (by rw [here]; rfl)
  have before : Before start s := by
    have stage := inv.stage i
    rwa [here] at stage
  have point : t.pc i = .finish := by rw [pcs, update_self]
  have durable : t.past.durable = t.past.groups.length := by
    rw [past]
    rw [before.groups, before.durable]
  have current : t.past.current = [] := by rw [past]; exact before.current
  have now : t.past.now = s.past.now := by rw [past]; rfl
  have same : ∀ b, Home start size b → s.past.now b = s.block b := fun b home =>
    inv.now_eq_block busy on (by rw [here]; rfl) home (by rw [none]; exact not_mem_nil)
  have counts : t.past.durable = t.past.returned := by
    rw [past]
    rw [before.durable]
  refine inv.alone busy ctl (fun j apart => by rw [pcs, update_of_ne apart]) disk cache
    (view_congr disk (by rw [phase]) now) (fun _ => ?_) (by rw [log]; exact inv.logged) (fun b home => ?_) (by omega)
    (fun _ calm => ?_) (fun _ _ b home _ => by rw [now]; exact same b home) (fun _ _ => by rw [log]; exact none) ?_
  · rw [Located, log]
    exact inv.located i (.inl on)
  · rw [before.heads, redo_nil, History.safe_eq_now durable current, now, same b home]
  · rw [log] at calm
    rcases inv.ctl.phase_of_busy busy with there | there
    · rw [calm] at there; cases there.2
    · rw [on] at there; cases there.1
  · rw [point]
    exact ⟨by rw [log]; exact none, (heads_congr (by rw [State.block, disk]; rfl)).trans before.heads, counts,
      by rw [← durable, counts], current⟩

theorem Inv.loop (geo : Geometry start size) (inv : Inv start size s) {which : Loop} {tail : Nat}
    (here : s.pc i = .loop which tail) (taken : go s i k (.loop which tail) = some t) (ctl : Ctl t) :
    Inv start size t := by
  have busy : (s.pc i).role = .busy := by rw [here]; rfl
  have place : Located start size s := inv.located i (.inr (by rw [here]; rfl))
  have stage : Stage start size s i (.loop which tail) := here ▸ inv.stage i
  simp only [Machine.go] at taken
  split at taken
  next more =>
    rw [place.1] at taken
    cases which with
    | write_log =>
      have on : s.phase = .on := inv.ctl.only i .on (by rw [here]; rfl)
      obtain ⟨before, logged, positive, fits⟩ := stage
      have few : s.log.n < NBUF := by
        rcases Nat.eq_zero_or_pos tail with rfl | later
        · obtain ⟨cache, got, -⟩ := bread_eq taken
          exact inv.few geo busy on (by rw [here]; rfl) (inv.coherent.steady_bget got) (Cache.bget_has got).1
        · exact fits later
      exact inv.bread here taken ctl rfl (fun _ => rfl) (fun _ => place) fun same _ has _ =>
        ⟨before.congr same, logged.congr same, same.n ▸ few, has⟩
    | install_trans =>
      obtain ⟨headed, counted, installed⟩ := stage
      exact inv.bread here taken ctl rfl (fun _ => rfl) (fun _ => place) fun same _ has _ =>
        ⟨same.headed headed, counted.congr same, installed.congr same, has⟩
  next done =>
    cases which with
    | write_log =>
      cases taken
      obtain ⟨before, logged, positive, fits⟩ := stage
      have same : SameData (s.goto i (.head false)) s := ⟨rfl, rfl, .rfl, .refl _⟩
      exact inv.goto here ctl rfl rfl same ⟨rfl, rfl⟩ (fun inside => by cases inside)
        (fun _ => rfl) (fun _ => place) .inl
        ⟨before.congr same, fun u bound _ => logged u bound (bound.trans_le (Nat.not_lt.mp done)), fits (by omega)⟩
    | install_trans =>
      cases taken
      obtain ⟨headed, counted, installed⟩ := stage
      have bound : (heads start s).length ≤ tail := by
        rw [headed]
        exact Nat.not_lt.mp done
      refine inv.alone busy ctl (fun j apart => goto_pc_of_ne apart) rfl rfl rfl (fun _ => place)
        ⟨nodup_nil, fun b member => by cases member⟩ inv.safe inv.counts (fun on calm => ?_)
        (fun _ none => ?_) (fun _ _ => rfl) ?_
      · rcases inv.ctl.phase_of_busy busy with there | there
        · exact absurd (there.2.symm.trans calm) Bool.noConfusion
        · exact absurd (there.1.symm.trans on) Phase.noConfusion
      · rw [goto_pc_self] at none
        cases none
      · rw [goto_pc_self]
        exact ⟨rfl, counted, fun u small _ => installed u small (small.trans_le bound)⟩

theorem Inv.returned (inv : Inv start size s) (here : s.pc i = .returned) (taken : go s i k .returned = some t)
    (ctl : Ctl t) : Inv start size t := by
  have busy : (s.pc i).role = .busy := by rw [here]; rfl
  have place : Located start size s := inv.located i (.inr (by rw [here]; rfl))
  have stage : Stage start size s i .returned := here ▸ inv.stage i
  obtain ⟨empty, counted, clear⟩ := stage
  simp only [Machine.go] at taken
  split at taken
  next booting =>
    cases taken
    have views : view start size ({ s with phase := .on, past := s.past.restart s.disk }.goto i .user) =
        view start size s := by
      rw [view_down (s := s) (by rw [booting]; exact Phase.noConfusion)]
      funext a
      rw [view]
      split
      next home =>
        have same : root a.2 = a := Prod.ext home.2.1.symm rfl
        exact congrArg s.disk same
      next => rfl
    refine inv.alone busy ctl (fun j apart => goto_pc_of_ne apart) rfl rfl views (fun _ => place)
      inv.logged (fun b _ => ?_) ⟨le_rfl, Nat.zero_le _, le_rfl⟩ (fun _ _ => ⟨clear, rfl, rfl⟩) (fun _ _ b _ _ => rfl)
      (fun _ _ => empty) ?_
    · rw [clear]
      rfl
    · rw [goto_pc_self]
      trivial
  next running =>
    cases taken
    have on : s.phase = .on := by
      rcases inv.ctl.phase_of_busy busy with there | there
      · exact there.1
      · exact absurd there.1 running
    obtain ⟨durable, groups, current⟩ := counted on
    refine inv.alone busy ctl (fun j apart => goto_pc_of_ne apart) rfl rfl rfl (fun _ => place) inv.logged
      inv.safe ?_ (fun _ calm => ?_)
      (fun _ _ b home absent => inv.now_eq_block busy on (by rw [here]; rfl) home absent) (fun _ _ => empty) ?_
    · change s.past.returned + 1 ≤ s.past.durable ∧ s.past.durable ≤ s.past.returned + 1 + 1 ∧
        s.past.durable ≤ s.past.groups.length
      omega
    · rcases inv.ctl.phase_of_busy busy with there | there
      · exact absurd (there.2.symm.trans calm) Bool.noConfusion
      · exact absurd there.1 running
    · rw [goto_pc_self]
      exact ⟨empty, clear, durable.trans groups, groups, current⟩

theorem Inv.readsb (inv : Inv start size s) {l : Fin NBUF} (here : s.pc i = .readsb l)
    (idle : s.cache.call i = .idle) (taken : go s i k (.readsb l) = some t) (ctl : Ctl t) : Inv start size t := by
  have busy : (s.pc i).role = .busy := by rw [here]; rfl
  have booting : s.phase = .booting := inv.ctl.only i .booting (by rw [here]; rfl)
  have down : s.phase ≠ .on := by rw [booting]; exact Phase.noConfusion
  have mine : s.cache.Has i l (root 1) := by
    have stage := inv.stage i
    rwa [here] at stage
  have data : (s.cache.buf l).data = s.block 1 := by
    rw [inv.coherent.data_eq (mine.owner_of_idle idle) (by rw [mine.1]; exact Nat.one_ne_zero), mine.1, view_down down]
    rfl
  obtain ⟨u, released, rfl⟩ := map_eq_some_iff.mp taken
  obtain ⟨cache, -, rfl⟩ := brelse_eq released
  have known := brelse_log { s.log with
    start := sbLogstart (s.cache.buf l).data, size := sbNlog (s.cache.buf l).data } released
  have place : Located start size { s with log := { s.log with
      start := sbLogstart (s.cache.buf l).data, size := sbNlog (s.cache.buf l).data } } := by
    rw [data]
    exact inv.super
  have told : Inv start size { s with log := { s.log with
      start := sbLogstart (s.cache.buf l).data, size := sbNlog (s.cache.buf l).data } } := by
    refine inv.alone busy (inv.ctl.congr rfl rfl rfl rfl) (fun _ _ => rfl) rfl rfl rfl (fun _ => place) inv.logged
      inv.safe inv.counts (fun on => absurd on down) (fun on => absurd on down) (fun on => absurd on down) ?_
    rw [here]
    exact mine
  exact told.brelse here known ctl (inv.unchanged busy l) rfl (fun on => absurd on down)
    (fun _ => place) fun _ _ => trivial

theorem Inv.gotHead (inv : Inv start size s) {l : Fin NBUF} (here : s.pc i = .gotHead l)
    (idle : s.cache.call i = .idle) (taken : go s i k (.gotHead l) = some t) (ctl : Ctl t) : Inv start size t := by
  have busy : (s.pc i).role = .busy := by rw [here]; rfl
  have booting : s.phase = .booting := inv.ctl.only i .booting (by rw [here]; rfl)
  have down : s.phase ≠ .on := by rw [booting]; exact Phase.noConfusion
  have place : Located start size s := inv.located i (.inr (by rw [here]; rfl))
  have mine : s.cache.Has i l (root start) := by
    have stage := inv.stage i
    rwa [here] at stage
  have data : headBlocks (s.cache.buf l).data = heads start s := by
    rw [inv.coherent.data_eq (mine.owner_of_idle idle) (by rw [mine.1]; exact Nat.one_ne_zero), mine.1, view_down down]
    rfl
  obtain ⟨u, released, rfl⟩ := map_eq_some_iff.mp taken
  obtain ⟨cache, -, rfl⟩ := brelse_eq released
  have known := brelse_log { s.log with block := headBlocks (s.cache.buf l).data } released
  have told : Inv start size { s with log := { s.log with block := headBlocks (s.cache.buf l).data } } := by
    refine inv.alone busy (inv.ctl.congr rfl rfl rfl rfl) (fun _ _ => rfl) rfl rfl rfl (fun _ => place)
      (data ▸ inv.headed) inv.safe inv.counts (fun on => absurd on down) (fun on => absurd on down)
      (fun on => absurd on down) ?_
    rw [here]
    exact mine
  exact told.brelse here known ctl (inv.unchanged busy l) rfl (fun on => absurd on down)
    (fun _ => place) fun same _ => ⟨same.headed data.symm, fun on => absurd on down, fun _ _ none => nomatch none⟩

theorem Inv.go (geo : Geometry start size) (inv : Inv start size s) {pc : Pc} (here : s.pc i = pc)
    (idle : s.cache.call i = .idle) (taken : go s i k pc = some t) (inside : pc.inside = false) : Inv start size t := by
  have ctl : Ctl t := inv.ctl.go here taken
  have stage : Stage start size s i pc := here ▸ inv.stage i
  have place : pc.located = true → Located start size s := fun known => inv.located i (.inr (here ▸ known))
  have unchanged : pc.role = .busy → ∀ l, (s.cache.buf l).changed = false := fun busy =>
    inv.unchanged (i := i) (here ▸ busy)
  cases pc with
  | user => cases taken
  | op => cases inside
  | logging l => cases inside
  | «begin» =>
    simp only [Machine.go] at taken
    split at taken
    · cases taken
    · cases taken
      exact inv.goto here ctl rfl rfl ⟨rfl, rfl, .rfl, rfl, rfl, rfl, rfl, rfl⟩ ⟨rfl, rfl⟩ (fun _ => .inl rfl)
        (fun _ => rfl) (fun known => by cases known) .inl trivial
  | commit =>
    simp only [Machine.go] at taken
    split at taken
    next some =>
      cases taken
      have same : SameData (s.goto i (.loop .write_log 0)) s := ⟨rfl, rfl, .rfl, .refl _⟩
      have before : Before start s := stage
      exact inv.goto here ctl rfl rfl same ⟨rfl, rfl⟩ (fun inside => by cases inside)
        (fun _ => rfl) (fun _ => place rfl) .inl
        ⟨before.congr same, fun _ _ none => absurd none (Nat.not_lt_zero _), fun _ => some, fun none => by cases none⟩
    next none =>
      cases taken
      have empty : s.log.block = [] := eq_nil_of_length_eq_zero (Nat.eq_zero_of_not_pos none)
      exact inv.commitNothing here empty rfl rfl rfl rfl rfl rfl ctl
  | finish =>
    cases taken
    obtain ⟨empty, clear, durable, groups, current⟩ := stage
    exact inv.goto here ctl rfl rfl ⟨rfl, rfl, .rfl, .refl _⟩ ⟨rfl, rfl⟩ (fun inside => by cases inside)
      (fun _ => rfl) (fun known => by cases known) (fun _ => .inr ⟨clear, durable, groups⟩) trivial
  | loop which tail => exact inv.loop geo here taken ctl
  | second which tail l =>
    simp only [Machine.go] at taken
    split at taken
    next b entry =>
      cases which with
      | write_log =>
        obtain ⟨before, logged, few, mine⟩ := stage
        exact inv.bread here taken ctl rfl (fun _ => rfl) (fun _ => place rfl)
          fun same _ has frame => ⟨before.congr same, logged.congr same, same.n ▸ few, frame _ _ mine, b,
            same.block ▸ entry, has⟩
      | install_trans =>
        obtain ⟨headed, counted, installed, mine⟩ := stage
        exact inv.bread here taken ctl rfl (fun _ => rfl) (fun _ => place rfl)
          fun same _ has frame => ⟨same.headed headed, counted.congr same, installed.congr same, frame _ _ mine, b,
            same.block ▸ entry, has⟩
    next => cases taken
  | copy which tail l d =>
    cases which with
    | write_log => exact inv.copyLog geo here idle taken ctl
    | install_trans => exact inv.copyHome geo here idle taken ctl
  | release which tail l d =>
    cases which with
    | write_log =>
      obtain ⟨before, logged, few⟩ := stage
      exact inv.brelse here taken ctl (unchanged rfl d) rfl (fun _ => rfl)
        (fun _ => place rfl) fun same _ => ⟨before.congr same, logged.congr same, same.n ▸ few⟩
    | install_trans =>
      obtain ⟨headed, counted, installed⟩ := stage
      exact inv.brelse here taken ctl (unchanged rfl l) rfl (fun _ => rfl)
        (fun _ => place rfl) fun same _ => ⟨same.headed headed, counted.congr same, installed.congr same⟩
  | releaseLast which tail l =>
    cases which with
    | write_log =>
      obtain ⟨before, logged, few⟩ := stage
      exact inv.brelse here taken ctl (unchanged rfl l) rfl (fun _ => rfl)
        (fun _ => place rfl) fun same _ =>
          ⟨before.congr same, logged.congr same, (fun none => by cases none), fun _ => same.n ▸ few⟩
    | install_trans =>
      obtain ⟨headed, counted, installed⟩ := stage
      exact inv.brelse here taken ctl (unchanged rfl l) rfl (fun _ => rfl)
        (fun _ => place rfl) fun same _ => ⟨same.headed headed, counted.congr same, installed.congr same⟩
  | head clear =>
    have known := place rfl
    simp only [Machine.go, known.1] at taken
    cases clear with
    | false =>
      obtain ⟨before, logged, few⟩ := stage
      exact inv.bread here taken ctl rfl (fun _ => rfl) (fun _ => known)
        fun same _ has _ => ⟨before.congr same, same.n ▸ logged.congr same, same.n ▸ few, has⟩
    | true =>
      obtain ⟨empty, counted, installed⟩ := stage
      exact inv.bread here taken ctl rfl (fun _ => rfl) (fun _ => known)
        fun same _ has _ => ⟨same.block.trans empty, counted.congr same, same.heads ▸ installed.congr same, has⟩
  | writeHead clear l =>
    obtain ⟨u, wrote, rfl⟩ := map_eq_some_iff.mp taken
    cases clear with
    | false => exact inv.writeHead geo here wrote rfl rfl rfl rfl rfl rfl ctl
    | true => exact inv.clearHead geo here wrote ctl
  | releaseHead clear l =>
    cases clear with
    | false =>
      obtain ⟨headed, counted⟩ := stage
      exact inv.brelse here taken ctl (unchanged rfl l) rfl (fun _ => rfl)
        (fun _ => place rfl) fun same _ =>
          ⟨same.headed headed, counted.congr same, fun _ _ none => absurd none (Nat.not_lt_zero _)⟩
    | true =>
      obtain ⟨empty, counted, clear⟩ := stage
      exact inv.brelse here taken ctl (unchanged rfl l) rfl (fun _ => rfl)
        (fun _ => place rfl) fun same _ => ⟨same.block.trans empty, counted.congr same, same.heads.trans clear⟩
  | returned => exact inv.returned here taken ctl
  | readsb l => exact inv.readsb here idle taken ctl
  | readHead =>
    have known := place rfl
    simp only [Machine.go, known.1] at taken
    exact inv.bread here taken ctl rfl (fun _ => rfl) (fun _ => known)
      fun _ _ has _ => has
  | gotHead l => exact inv.gotHead here idle taken ctl

omit [DecidableEq ι] in
theorem Inv.modify (inv : Inv start size s) (data : Block) (here : s.pc i = .op) (own : (s.cache.buf k).owner = some i)
    (writable : Writable s.log (s.cache.buf k).addr) (ctl : Ctl t) (disk : t.disk = s.disk)
    (cache : t.cache = s.cache.modify k data) (log : t.log = s.log) (phase : t.phase = s.phase) (pcs : t.pc = s.pc)
    (past : t.past = { s.past with
      current := s.past.current ++ [⟨s.past.op i, (s.cache.buf k).addr.2, data⟩] }) : Inv start size t := by
  have inside : (s.pc i).inside = true := by rw [here]; rfl
  obtain ⟨on, calm⟩ := inv.ctl.on_of_inside inside
  have place := inv.located i (.inl on)
  obtain ⟨dev, home, super⟩ := writable
  rw [place.1, place.2] at home
  have addr : (s.cache.buf k).addr = root (s.cache.buf k).addr.2 := Prod.ext dev rfl
  generalize (s.cache.buf k).addr.2 = b at home super addr past
  have now : t.past.now = update s.past.now b data := by
    rw [past, History.now, History.now]
    simp only [← append_assoc, map_append, map_cons, map_nil, apply_snoc]
    rfl
  have views : view start size t = update (view start size s) (root b) data := by
    funext a
    rcases eq_or_ne a (root b) with rfl | apart
    · rw [update_self, view_home (phase.trans on) home, now, update_self]
    · rw [update_of_ne apart, view, view, phase, disk]
      split
      next there =>
        have other : a.2 ≠ b := fun same => apart (Prod.ext there.2.1 same)
        rw [now, update_of_ne other]
      next => rfl
  have blocks := blocks_of_disk disk
  have head : heads start t = heads start s := heads_of_disk disk
  have save : saved start t = saved start s := saved_of_disk disk
  have bufs : ∀ l, l ≠ k → t.cache.buf l = s.cache.buf l := fun l apart => by
    rw [cache]
    exact Cache.set_buf_of_ne apart
  have mine : t.cache.buf k = { s.cache.buf k with data := data, changed := true } := by
    rw [cache]
    exact Cache.set_buf_self _ _ _
  have addrs : ∀ l, (t.cache.buf l).addr = (s.cache.buf l).addr ∧ (t.cache.buf l).owner = (s.cache.buf l).owner ∧
      (t.cache.buf l).dirty = (s.cache.buf l).dirty := fun l => by
    rcases eq_or_ne l k with rfl | apart
    · rw [mine]
      exact ⟨rfl, rfl, rfl⟩
    · rw [bufs l apart]
      exact ⟨rfl, rfl, rfl⟩
  constructor
  · exact ctl
  · intro j _
    rw [Located, log]
    exact place
  · rw [blocks]
    exact inv.super
  · rw [views, disk, cache, ← addr]
    exact inv.coherent.modify own (by rw [addr]; exact Nat.one_ne_zero) data
  · intro j l waits
    rw [(addrs l).1]
    rw [cache] at waits
    exact inv.waits j l waits
  · intro l change
    rw [(addrs l).2.1, pcs]
    rcases eq_or_ne l k with rfl | apart
    · exact ⟨i, own, inside⟩
    · rw [bufs l apart] at change
      exact inv.changed l change
  · rw [log]
    exact inv.logged
  · rw [head]
    exact inv.headed
  · rw [head]
    exact inv.fits
  · rw [head, save, blocks, past]
    exact inv.safe
  · rw [past]
    exact inv.counts
  · rw [head, past, log, phase]
    exact inv.idle
  · rw [phase, pcs, log, blocks]
    intro up none c there
    rcases eq_or_ne c b with rfl | apart
    · exact .inr (.inr ⟨k, by rw [(addrs k).1, addr], by rw [mine]⟩)
    · rw [now, update_of_ne apart]
      refine (inv.covered up none c there).imp_right (Or.imp_right ?_)
      rintro ⟨l, place, change⟩
      refine ⟨l, ?_, ?_⟩
      · rw [(addrs l).1, place]
      · have other : l ≠ k := fun same => apart (root_injective (by rw [← place, same, addr]))
        rw [bufs l other, change]
  · rw [phase, pcs, log]
    intro up none c member
    obtain ⟨l, place, dirty⟩ := inv.pinned up none c member
    exact ⟨l, by rw [(addrs l).1, place], by rw [(addrs l).2.2, dirty]⟩
  · intro j
    have quiet : (s.pc j).role ≠ .busy :=
      of_decide_eq_false (inv.ctl.not_busy_of_idle calm (by rw [on]; exact Phase.noConfusion) j)
    rw [pcs]
    exact (inv.stage j).calm quiet fun l a has => by rw [cache]; exact has.set rfl rfl

theorem Inv.record (inv : Inv start size s) (here : s.pc i = .logging k) (idle : s.cache.call i = .idle) (ctl : Ctl t)
    (disk : t.disk = s.disk) (cache : t.cache = s.cache.pin k)
    (log : t.log = s.log.record (s.cache.buf k).addr.2) (phase : t.phase = s.phase)
    (pcs : t.pc = update s.pc i .op) (past : t.past = s.past) : Inv start size t := by
  have inside : (s.pc i).inside = true := by rw [here]; rfl
  obtain ⟨on, calm⟩ := inv.ctl.on_of_inside inside
  have place := inv.located i (.inl on)
  have stage := inv.stage i
  rw [here] at stage
  obtain ⟨a, has, dev, home, super⟩ := stage
  have own := has.owner_of_idle idle
  obtain rfl := has.1
  have addr : (s.cache.buf k).addr = root (s.cache.buf k).addr.2 := Prod.ext dev rfl
  have range := (inv.coherent.ok k).range ((inv.coherent.ok k).locked (by rw [own]; exact some_ne_none i))
  generalize (s.cache.buf k).addr.2 = b at home super addr range log
  have blocks := blocks_of_disk disk
  have head : heads start t = heads start s := heads_of_disk disk
  have save : saved start t = saved start s := saved_of_disk disk
  have bufs : ∀ l, l ≠ k → t.cache.buf l = s.cache.buf l := fun l apart => by
    rw [cache]
    exact Cache.set_buf_of_ne apart
  have mine : t.cache.buf k = { s.cache.buf k with dirty := true, changed := false } := by
    rw [cache]
    exact Cache.set_buf_self _ _ _
  have addrs : ∀ l, (t.cache.buf l).addr = (s.cache.buf l).addr ∧ (t.cache.buf l).owner = (s.cache.buf l).owner :=
    fun l => by
    rcases eq_or_ne l k with rfl | apart
    · rw [mine]
      exact ⟨rfl, rfl⟩
    · rw [bufs l apart]
      exact ⟨rfl, rfl⟩
  have quiet : ∀ j, (s.pc j).role ≠ .busy := fun j =>
    of_decide_eq_false (inv.ctl.not_busy_of_idle calm (by rw [on]; exact Phase.noConfusion) j)
  have afters : ∀ j, (s.pc j).after = false := fun j => after_of_role_ne (quiet j)
  constructor
  · exact ctl
  · intro j _
    rw [Located, log, Log.record_start, Log.record_size]
    exact place
  · rw [blocks]
    exact inv.super
  · rw [view_congr disk (by rw [phase]) (by rw [past]), disk, cache]
    exact inv.coherent.pin own (by rw [addr]; exact Nat.one_ne_zero)
  · intro j l waits
    rw [(addrs l).1]
    rw [cache] at waits
    exact inv.waits j l waits
  · intro l change
    rcases eq_or_ne l k with rfl | apart
    · rw [mine] at change
      cases change
    · rw [bufs l apart] at change ⊢
      obtain ⟨j, owner, there⟩ := inv.changed l change
      refine ⟨j, owner, ?_⟩
      rcases eq_or_ne j i with rfl | other
      · rw [pcs, update_self]
        rfl
      · rw [pcs, update_of_ne other]
        exact there
  · rw [log]
    refine ⟨Log.nodup_record _ _ inv.logged.distinct, fun c member => ?_⟩
    rcases (Log.mem_record _ _ _).mp member with rfl | old
    · exact ⟨home, super, range⟩
    · exact inv.logged.loggable c old
  · rw [head]
    exact inv.headed
  · rw [head]
    exact inv.fits
  · rw [head, save, blocks, past]
    exact inv.safe
  · rw [past]
    exact inv.counts
  · rw [head, past, log, phase, Log.record_committing]
    exact inv.idle
  · intro _ _ c there
    rw [log, blocks, past, Log.mem_record]
    rcases inv.covered on afters c there with same | member | ⟨l, place, change⟩
    · exact .inl same
    · exact .inr (.inl (.inr member))
    · rcases eq_or_ne l k with rfl | other
      · exact .inr (.inl (.inl (root_injective (place.symm.trans addr))))
      · exact .inr (.inr ⟨l, by rw [(addrs l).1, place], by rw [bufs l other, change]⟩)
  · intro _ _ c member
    rw [log, Log.mem_record] at member
    rcases member with rfl | old
    · exact ⟨k, by rw [(addrs k).1, addr], by rw [mine]⟩
    · obtain ⟨l, place, dirty⟩ := inv.pinned on afters c old
      refine ⟨l, by rw [(addrs l).1, place], ?_⟩
      rcases eq_or_ne l k with rfl | other
      · rw [mine]
      · rw [bufs l other, dirty]
  · intro j
    rcases eq_or_ne j i with rfl | other
    · rw [pcs, update_self]
      trivial
    · rw [pcs, update_of_ne other]
      exact (inv.stage j).calm (quiet j) fun l a has => by rw [cache]; exact has.set rfl rfl

theorem Inv.close (inv : Inv start size s) (here : s.pc i = .op)
    (logged : ∀ l, (s.cache.buf l).owner = some i → (s.cache.buf l).changed = false)
    (last : s.log.leave.outstanding = 0) (ctl : Ctl t) (disk : t.disk = s.disk) (cache : t.cache = s.cache)
    (log : t.log = { s.log.leave with committing := true }) (phase : t.phase = s.phase)
    (pcs : t.pc = update s.pc i .commit)
    (past : t.past = { s.past with ended := s.past.op i :: s.past.ended }.close) : Inv start size t := by
  have inside : (s.pc i).inside = true := by rw [here]; rfl
  obtain ⟨on, calm⟩ := inv.ctl.on_of_inside inside
  obtain ⟨clear, durable, groups⟩ := inv.idle on calm
  have point : t.pc i = .commit := by rw [pcs, update_self]
  have others : ∀ j, j ≠ i → t.pc j = s.pc j := fun j apart => by rw [pcs, update_of_ne apart]
  have blocks := blocks_of_disk disk
  have head : heads start t = heads start s := heads_of_disk disk
  have save : saved start t = saved start s := saved_of_disk disk
  have block : t.log.block = s.log.block := by rw [log]; rfl
  have now : t.past.now = s.past.now := by
    rw [past]
    simp only [History.now, History.close, flatten_append, flatten_cons, flatten_nil,
      append_nil]
  have safe : t.past.safe = s.past.safe := by
    rw [past]
    change apply (((s.past.groups ++ [s.past.current]).take s.past.durable).flatten.map Update.write) s.past.init = _
    rw [take_append_of_le_length (by omega)]
    rfl
  have quiet : ∀ j, (s.pc j).role ≠ .busy := fun j =>
    of_decide_eq_false (inv.ctl.not_busy_of_idle calm (by rw [on]; exact Phase.noConfusion) j)
  have afters : ∀ j, (s.pc j).after = false := fun j => after_of_role_ne (quiet j)
  constructor
  · exact ctl
  · intro j _
    rw [Located, log]
    exact inv.located j (.inl on)
  · rw [blocks]
    exact inv.super
  · rw [view_congr disk (by rw [phase]) now, disk, cache]
    exact inv.coherent
  · rw [cache]
    exact inv.waits
  · intro l change
    rw [cache] at change
    obtain ⟨j, owner, there⟩ := inv.changed l change
    rcases eq_or_ne j i with rfl | apart
    · rw [logged l owner] at change
      cases change
    · have outside := ctl.outside_of_zero (by rw [log]; exact last) j
      rw [others j apart, there] at outside
      cases outside
  · rw [block]
    exact inv.logged
  · rw [head]
    exact inv.headed
  · rw [head]
    exact inv.fits
  · rw [head, save, blocks, safe]
    exact inv.safe
  · rw [past]
    have length : (s.past.groups ++ [s.past.current]).length = s.past.groups.length + 1 := length_append
    have counts := inv.counts
    refine ⟨counts.1, counts.2.1, ?_⟩
    change s.past.durable ≤ (s.past.groups ++ [s.past.current]).length
    omega
  · intro _ running
    rw [log] at running
    cases running
  · intro _ _ c there
    rw [now, blocks, block, cache]
    exact inv.covered on afters c there
  · intro _ _ c member
    rw [cache]
    exact inv.pinned on afters c (block ▸ member)
  · intro j
    rcases eq_or_ne j i with rfl | apart
    · rw [point]
      refine ⟨head.trans clear, by rw [past]; exact durable, ?_, by rw [past]; rfl⟩
      rw [past]
      exact (length_append).trans (by rw [groups]; rfl)
    · rw [others j apart]
      exact (inv.stage j).calm (quiet j) fun l a has => by rw [cache]; exact has

omit [DecidableEq ι] in
theorem Inv.crash (inv : Inv start size s) (ctl : Ctl t) (disk : t.disk = s.disk) (cache : t.cache = .zero)
    (block : t.log.block = []) (phase : t.phase = .off) (pcs : ∀ j, t.pc j = .user) (past : t.past = s.past) :
    Inv start size t := by
  have down : t.phase ≠ .on := by rw [phase]; exact Phase.noConfusion
  have blocks := blocks_of_disk disk
  have head : heads start t = heads start s := heads_of_disk disk
  have save : saved start t = saved start s := saved_of_disk disk
  constructor
  · exact ctl
  · intro j either
    rw [pcs j] at either
    exact either.elim (fun on => absurd on down) fun known => nomatch known
  · rw [blocks]
    exact inv.super
  · rw [view_down down, cache]
    exact Cache.coherent_zero _
  · intro j l waits
    rw [cache] at waits
    cases waits
  · intro l change
    rw [cache] at change
    cases change
  · rw [block]
    exact ⟨nodup_nil, fun b member => nomatch member⟩
  · rw [head]
    exact inv.headed
  · rw [head]
    exact inv.fits
  · rw [head, save, blocks, past]
    exact inv.safe
  · rw [past]
    exact inv.counts
  · exact fun on => absurd on down
  · exact fun on => absurd on down
  · exact fun on => absurd on down
  · intro j
    rw [pcs j]
    trivial

theorem Inv.initlog (inv : Inv start size s) {u : State ι} (off : s.phase = .off)
    (taken : Machine.bread s i 1 k (.readsb k) = some u) (ctl : Ctl { u with phase := .booting }) :
    Inv start size { u with phase := .booting } := by
  obtain ⟨cache, got, rfl⟩ := bread_eq taken
  have down : s.phase ≠ .on := by rw [off]; exact Phase.noConfusion
  have outside := inv.ctl.outside_of_zero (inv.ctl.down down).1 i
  have gained := Cache.bget_has got
  have phase : Phase.booting = .on ↔ s.phase = .on := ⟨(fun none => nomatch none), fun on => absurd on down⟩
  refine inv.steady i ctl (fun j apart => goto_pc_of_ne apart) ⟨rfl, rfl, phase, .refl _⟩ ⟨rfl, rfl⟩
    (inv.coherent.bget got) (inv.coherent.steady_bget got) (fun j l a _ mine => inv.coherent.has_bget mine got)
    (inv.waits_bget got) (fun inside => ?_) (fun on => absurd on down) ?_ .inl ?_
  · rw [outside] at inside
    cases inside
  · simp only [goto_pc_self]
    exact fun known => nomatch known
  · simp only [goto_pc_self]
    exact gained

theorem Inv.preserved (geo : Geometry start size) {l : Label ι} (inv : Inv start size s) (taken : step s l = some t) :
    Inv start size t := by
  have ctl : Ctl t := inv.ctl.preserved taken
  cases l with
  | crash =>
    cases taken
    exact inv.crash ctl rfl rfl rfl rfl (fun _ => rfl) rfl
  | initlog i k =>
    obtain ⟨off, taken⟩ := ite_none_right_eq_some.mp taken
    obtain ⟨u, got, rfl⟩ := map_eq_some_iff.mp taken
    exact inv.initlog off got ctl
  | begin_op i =>
    obtain ⟨⟨-, here, -⟩, rfl⟩ := Transition.of_guard taken
    exact inv.goto here ctl rfl rfl ⟨rfl, rfl, .rfl, .refl _⟩ ⟨rfl, rfl⟩ (fun inside => nomatch inside)
      (fun _ => rfl) (fun known => nomatch known) .inl trivial
  | bread i b k =>
    obtain ⟨⟨on, -⟩, taken⟩ := ite_none_right_eq_some.mp taken
    exact inv.bread rfl taken ctl rfl (fun _ => rfl) (fun _ => inv.located i (.inl on)) fun same _ _ frame =>
      (inv.stage i).congr same frame
  | modify i k data =>
    obtain ⟨⟨here, -, own, writable⟩, rfl⟩ := Transition.of_guard taken
    exact inv.modify data here own writable ctl rfl rfl rfl rfl rfl rfl
  | log_write i k =>
    obtain ⟨⟨here, -, own, writable, -⟩, rfl⟩ := Transition.of_guard taken
    have on := (inv.ctl.on_of_inside (i := i) (by rw [here]; rfl)).1
    obtain ⟨dev, home, super⟩ := writable
    rw [(inv.located i (.inl on)).1, (inv.located i (.inl on)).2] at home
    exact inv.goto here ctl rfl rfl ⟨rfl, rfl, .rfl, .refl _⟩ ⟨rfl, rfl⟩ (fun _ => .inl rfl)
      (fun _ => rfl) (fun known => nomatch known) .inl ⟨_, ⟨rfl, .inl own⟩, dev, home, super⟩
  | brelse i k =>
    obtain ⟨⟨on, either, unchanged⟩, taken⟩ := ite_none_right_eq_some.mp taken
    refine inv.brelse rfl taken ctl unchanged rfl (fun _ => rfl) (fun _ => inv.located i (.inl on)) fun _ _ => ?_
    rcases either with here | here <;> rw [here] <;> trivial
  | end_op i =>
    obtain ⟨⟨here, -, calm, logged⟩, taken⟩ := ite_none_right_eq_some.mp taken
    split at taken
    next last =>
      cases taken
      exact inv.close here logged last ctl rfl rfl rfl rfl rfl rfl
    next more =>
      cases taken
      exact inv.goto here ctl rfl rfl ⟨rfl, rfl, .rfl, rfl, rfl, rfl, rfl, rfl⟩ ⟨rfl, rfl⟩ (fun _ => .inr logged)
        (fun _ => rfl) (fun known => nomatch known) (fun _ => .inl calm) trivial
  | acquiresleep i =>
    obtain ⟨out, got, rfl⟩ := map_eq_some_iff.mp taken
    have dev : ∀ l, s.cache.call i = .waiting l → (s.cache.buf l).addr.1 ≠ 0 := fun l waits => by
      rw [inv.waits i l waits]
      exact Nat.one_ne_zero
    obtain ⟨disk, coherent⟩ := inv.coherent.acquiresleep dev got
    have call : out.2.call i = .idle ∧ ∀ j, j ≠ i → out.2.call j = s.cache.call j := by
      obtain ⟨l, -, -, ⟨-, rfl⟩ | ⟨-, -, rfl⟩⟩ := Cache.acquiresleep_cases got
      · exact ⟨Cache.goto_call_self _ _ _, fun j apart => Cache.goto_call_of_ne _ _ apart⟩
      · exact ⟨Cache.goto_call_self _ _ _, fun j apart => Cache.goto_call_of_ne _ _ apart⟩
    have same : ({ s with disk := out.1, cache := out.2 } : State ι) = { s with cache := out.2 } := by rw [disk]
    rw [same]
    rw [same] at ctl
    exact inv.finishCall i ctl coherent (inv.coherent.steady_acquiresleep got)
      (fun j l a has => Cache.has_acquiresleep has got) call.1 call.2
  | drop i =>
    obtain ⟨cache, got, rfl⟩ := map_eq_some_iff.mp taken
    have call : cache.call i = .idle ∧ ∀ j, j ≠ i → cache.call j = s.cache.call j := by
      obtain ⟨l, -, rfl⟩ := Cache.drop_eq got
      exact ⟨Cache.goto_call_self _ _ _, fun j apart => Cache.goto_call_of_ne _ _ apart⟩
    exact inv.finishCall i ctl (inv.coherent.drop got) (Cache.steady_drop got)
      (fun j l a has => Cache.has_drop has got) call.1 call.2
  | go i k =>
    obtain ⟨idle, taken⟩ := ite_none_right_eq_some.mp taken
    cases here : s.pc i with
    | logging l =>
      rw [here] at taken
      cases taken
      exact inv.record here idle ctl rfl rfl rfl rfl rfl rfl
    | op =>
      rw [here] at taken
      cases taken
    | _ => exact inv.go geo rfl idle taken (by rw [here]; rfl)

end Steps

end Xv6.Log.Machine
