import Xv6.Log.Machine

/-! Who is where: the operations that `log.outstanding` counts, and the one process that commits or
recovers. -/

namespace Xv6.Log.Machine
open Lib Option

/-- Outside of operations, in `begin_op`, in an operation, or in `commit` or `initlog`. -/
inductive Role where
  | user | waiting | inside | busy
  deriving DecidableEq

def Pc.role : Pc → Role
  | .user => .user
  | .begin => .waiting
  | .op | .logging _ => .inside
  | _ => .busy

/-- The phase that the point belongs to, if only one. -/
def Pc.only : Pc → Option Phase
  | .commit | .finish | .loop .write_log _ | .second .write_log _ _ | .copy .write_log _ _ _
  | .release .write_log _ _ _ | .releaseLast .write_log _ _ | .head false | .writeHead false _
  | .releaseHead false _ => some .on
  | .readsb _ | .readHead | .gotHead _ => some .booting
  | _ => none

def Pc.inside (pc : Pc) : Bool := pc.role = .inside

def Pc.busy (pc : Pc) : Bool := pc.role = .busy

variable {k : Fin NBUF} {pc : Pc} {data : Block}

section Steps
variable {ι : Type} [DecidableEq ι] {s t : State ι} {i : ι}

@[simp] theorem goto_pc_self (s : State ι) (i : ι) (pc : Pc) : (s.goto i pc).pc i = pc := by simp [State.goto]

theorem goto_pc_of_ne {s : State ι} {i j : ι} {pc : Pc} (apart : j ≠ i) : (s.goto i pc).pc j = s.pc j := by
  simp [State.goto, apart]

@[simp] theorem goto_disk (s : State ι) (i : ι) (pc : Pc) : (s.goto i pc).disk = s.disk := rfl
@[simp] theorem goto_cache (s : State ι) (i : ι) (pc : Pc) : (s.goto i pc).cache = s.cache := rfl
@[simp] theorem goto_log (s : State ι) (i : ι) (pc : Pc) : (s.goto i pc).log = s.log := rfl
@[simp] theorem goto_phase (s : State ι) (i : ι) (pc : Pc) : (s.goto i pc).phase = s.phase := rfl
@[simp] theorem goto_past (s : State ι) (i : ι) (pc : Pc) : (s.goto i pc).past = s.past := rfl

theorem bread_eq {b : Nat} (taken : bread s i b k pc = some t) :
    ∃ cache, s.cache.bget i (root b) k = some cache ∧ t = { s with cache := cache }.goto i pc := by
  obtain ⟨cache, got, same⟩ := map_eq_some_iff.mp taken
  exact ⟨cache, got, same.symm⟩

theorem brelse_eq (taken : brelse s i k pc = some t) :
    ∃ cache, s.cache.releasesleep i k = some cache ∧ t = { s with cache := cache }.goto i pc := by
  obtain ⟨cache, got, same⟩ := map_eq_some_iff.mp taken
  exact ⟨cache, got, same.symm⟩

theorem bwrite_eq (taken : bwrite s i k data pc = some t) :
    ∃ out, s.cache.bwrite s.disk i k data = some out ∧
      t = { s with disk := out.1, cache := out.2 }.goto i pc := by
  obtain ⟨out, got, same⟩ := map_eq_some_iff.mp taken
  exact ⟨out, got, same.symm⟩

end Steps

section Control
variable {ι : Type} [Fintype ι]

structure Ctl (s : State ι) : Prop where
  inside : s.log.outstanding = ∑ i, (s.pc i).inside.toNat
  busy : ∑ i, (s.pc i).busy.toNat = s.log.committing.toNat + (decide (s.phase = .booting)).toNat
  quiet : s.log.committing = true → s.log.outstanding = 0
  down : s.phase ≠ .on → s.log.outstanding = 0 ∧ s.log.committing = false
  offline : s.phase ≠ .on → ∀ i, (s.pc i).role = .user ∨ (s.pc i).role = .busy
  only : ∀ i p, (s.pc i).only = some p → s.phase = p

variable {s t : State ι} {i j : ι}

theorem Ctl.outstanding_pos (inv : Ctl s) (here : (s.pc i).inside = true) : 0 < s.log.outstanding := by
  have one := le_sum (fun j => (s.pc j).inside.toNat) i
  rw [here, ← inv.inside] at one
  exact one

theorem Ctl.outside_of_zero (inv : Ctl s) (none : s.log.outstanding = 0) (i : ι) : (s.pc i).inside = false := by
  cases here : (s.pc i).inside with
  | false => rfl
  | true => have := inv.outstanding_pos here; omega

theorem Ctl.on_of_inside (inv : Ctl s) (here : (s.pc i).inside = true) :
    s.phase = .on ∧ s.log.committing = false := by
  have some := inv.outstanding_pos here
  constructor
  · by_contra off
    have := (inv.down off).1
    omega
  · cases running : s.log.committing with
    | false => rfl
    | true => have := inv.quiet running; omega

theorem Ctl.not_busy_of_idle (inv : Ctl s) (calm : s.log.committing = false) (phase : s.phase ≠ .booting) (i : ι) :
    (s.pc i).busy = false := by
  have one := le_sum (fun j => (s.pc j).busy.toNat) i
  rw [inv.busy, calm, decide_eq_false phase] at one
  cases here : (s.pc i).busy with
  | false => rfl
  | true => rw [here] at one; cases one

theorem Ctl.outside_of_busy (inv : Ctl s) (here : (s.pc i).busy = true) (j : ι) : (s.pc j).inside = false := by
  cases there : (s.pc j).inside with
  | false => rfl
  | true =>
    obtain ⟨on, calm⟩ := inv.on_of_inside there
    have idle := inv.not_busy_of_idle calm (by rw [on]; exact Phase.noConfusion) i
    rw [here] at idle
    cases idle

theorem Ctl.busy_unique [DecidableEq ι] (inv : Ctl s) (first : (s.pc i).busy = true) (second : (s.pc j).busy = true) :
    i = j := by
  by_contra apart
  have one : s.log.committing.toNat + (decide (s.phase = .booting)).toNat ≤ 1 := by
    by_cases phase : s.phase = .booting
    · rw [(inv.down (by rw [phase]; exact Phase.noConfusion)).2, phase]
      exact le_rfl
    · rw [decide_eq_false phase]
      exact Bool.toNat_le _
  have two : (s.pc i).busy.toNat + (s.pc j).busy.toNat ≤ ∑ l, (s.pc l).busy.toNat := by
    rw [← Finset.sum_pair apart (f := fun l => (s.pc l).busy.toNat)]
    exact Finset.sum_le_sum_of_subset (Finset.subset_univ _)
  rw [first, second, inv.busy] at two
  exact absurd (two.trans one) (by decide)

variable [DecidableEq ι]

theorem Ctl.move (inv : Ctl s) (i : ι) (others : ∀ j, j ≠ i → t.pc j = s.pc j)
    (inside : t.log.outstanding + (s.pc i).inside.toNat = s.log.outstanding + (t.pc i).inside.toNat)
    (busy : t.log.committing.toNat + (decide (t.phase = .booting)).toNat + (s.pc i).busy.toNat =
      s.log.committing.toNat + (decide (s.phase = .booting)).toNat + (t.pc i).busy.toNat)
    (quiet : t.log.committing = true → t.log.outstanding = 0)
    (down : t.phase ≠ .on → t.log.outstanding = 0 ∧ t.log.committing = false)
    (offline : t.phase ≠ .on → s.phase ≠ .on ∧ ((t.pc i).role = .user ∨ (t.pc i).role = .busy))
    (only : ∀ p, (t.pc i).only = some p → t.phase = p)
    (phase : t.phase = s.phase ∨ ∀ j, j ≠ i → (s.pc j).only = none) : Ctl t where
  inside := by
    have total := sum_change (f := fun j => (t.pc j).inside.toNat) (g := fun j => (s.pc j).inside.toNat) i
      fun j apart => by rw [others j apart]
    have before := inv.inside
    omega
  busy := by
    have total := sum_change (f := fun j => (t.pc j).busy.toNat) (g := fun j => (s.pc j).busy.toNat) i
      fun j apart => by rw [others j apart]
    have before := inv.busy
    omega
  quiet := quiet
  down := down
  offline off j := by
    rcases eq_or_ne j i with rfl | apart
    · exact (offline off).2
    · rw [others j apart]
      exact inv.offline (offline off).1 j
  only j p here := by
    rcases eq_or_ne j i with rfl | apart
    · exact only p here
    · rw [others j apart] at here
      rcases phase with same | free
      · rw [same]
        exact inv.only j p here
      · rw [free j apart] at here
        cases here

theorem Ctl.stay (inv : Ctl s) (pcs : t.pc = Function.update s.pc i pc) (role : pc.role = (s.pc i).role)
    (only : ∀ p, pc.only = some p → s.phase = p)
    (outstanding : t.log.outstanding = s.log.outstanding) (committing : t.log.committing = s.log.committing)
    (phase : t.phase = s.phase) : Ctl t := by
  have here : t.pc i = pc := by rw [pcs, Function.update_self]
  refine inv.move i (fun j apart => by rw [pcs, Function.update_of_ne apart])
    (by rw [outstanding, here, Pc.inside, Pc.inside, role]) (by rw [committing, phase, here, Pc.busy, Pc.busy, role])
    (by rw [committing, outstanding]; exact inv.quiet) (by rw [phase, outstanding, committing]; exact inv.down)
    (fun off => ?_) (by rw [here, phase]; exact only) (.inl phase)
  rw [phase] at off
  rw [here, role]
  exact ⟨off, inv.offline off i⟩

omit [DecidableEq ι] in
theorem Ctl.congr (inv : Ctl s) (pcs : t.pc = s.pc) (outstanding : t.log.outstanding = s.log.outstanding)
    (committing : t.log.committing = s.log.committing) (phase : t.phase = s.phase) : Ctl t := by
  constructor
  · rw [outstanding, pcs]; exact inv.inside
  · rw [committing, pcs, phase]; exact inv.busy
  · rw [committing, outstanding]; exact inv.quiet
  · rw [phase, outstanding, committing]; exact inv.down
  · rw [phase, pcs]; exact inv.offline
  · rw [phase, pcs]; exact inv.only

theorem Ctl.bread {b : Nat} (inv : Ctl s) (taken : bread s i b k pc = some t)
    (role : pc.role = (s.pc i).role) (only : ∀ p, pc.only = some p → s.phase = p) : Ctl t := by
  obtain ⟨cache, -, rfl⟩ := bread_eq taken
  exact inv.stay rfl role only rfl rfl rfl

theorem Ctl.brelse (inv : Ctl s) (taken : brelse s i k pc = some t)
    (role : pc.role = (s.pc i).role) (only : ∀ p, pc.only = some p → s.phase = p) : Ctl t := by
  obtain ⟨cache, -, rfl⟩ := brelse_eq taken
  exact inv.stay rfl role only rfl rfl rfl

theorem Ctl.bwrite (inv : Ctl s) (taken : bwrite s i k data pc = some t)
    (role : pc.role = (s.pc i).role) (only : ∀ p, pc.only = some p → s.phase = p) : Ctl t := by
  obtain ⟨out, -, rfl⟩ := bwrite_eq taken
  exact inv.stay rfl role only rfl rfl rfl

omit [DecidableEq ι] in
theorem Ctl.phase_of_busy (inv : Ctl s) (here : (s.pc i).role = .busy) :
    (s.phase = .on ∧ s.log.committing = true) ∨ (s.phase = .booting ∧ s.log.committing = false) := by
  have busy : (s.pc i).busy = true := decide_eq_true here
  by_cases phase : s.phase = .booting
  · exact .inr ⟨phase, (inv.down (by rw [phase]; exact Phase.noConfusion)).2⟩
  · left
    have running : s.log.committing = true := by
      cases calm : s.log.committing with
      | true => rfl
      | false => rw [inv.not_busy_of_idle calm phase i] at busy; cases busy
    refine ⟨?_, running⟩
    by_contra off
    rw [(inv.down off).2] at running
    cases running

theorem only_of_role_ne (calm : pc.role ≠ .busy) : pc.only = none := by
  cases pc <;> first | rfl | exact absurd rfl calm

theorem Ctl.go (inv : Ctl s) (here : s.pc i = pc) (taken : go s i k pc = some t) : Ctl t := by
  have phase : ∀ p, pc.only = some p → s.phase = p := fun p same => inv.only i p (here ▸ same)
  cases pc with
  | user => cases taken
  | op => cases taken
  | «begin» =>
    simp only [Machine.go] at taken
    split at taken
    · cases taken
    next free =>
      cases taken
      have calm : s.log.committing = false := (Bool.or_eq_false_iff.mp (Bool.eq_false_iff.mpr free)).1
      have on : s.phase = .on := by
        by_contra off
        rcases inv.offline off i with user | busy
        · rw [here] at user; cases user
        · rw [here] at busy; cases busy
      refine inv.move i (fun j other => goto_pc_of_ne other) ?_ ?_ ?_ ?_ ?_ ?_ (.inl rfl)
      · simp only [goto_log, goto_pc_self, here]; rfl
      · simp only [goto_log, goto_phase, goto_pc_self, here]; rfl
      · intro running
        simp only [goto_log, Log.enter, calm] at running
        cases running
      · intro off; exact absurd on off
      · intro off; exact absurd on off
      · simp only [goto_pc_self]; exact fun _ none => nomatch none
  | logging k =>
    cases taken
    exact inv.stay rfl (by rw [here]; rfl) (fun _ none => nomatch none) (Log.record_outstanding _ _)
      (Log.record_committing _ _) rfl
  | commit =>
    simp only [Machine.go] at taken
    split at taken <;> cases taken
    · exact inv.stay rfl (by rw [here]; rfl) phase rfl rfl rfl
    · exact inv.stay rfl (by rw [here]; rfl) phase rfl rfl rfl
  | finish =>
    cases taken
    have on := phase .on rfl
    have running : s.log.committing = true := by
      rcases inv.phase_of_busy (i := i) (by rw [here]; rfl) with there | there
      · exact there.2
      · rw [on] at there; cases there.1
    refine inv.move i (fun j other => goto_pc_of_ne other) ?_ ?_ ?_ ?_ ?_ ?_ (.inl rfl)
    · simp only [goto_log, goto_pc_self, here]; rfl
    · simp only [goto_log, goto_phase, goto_pc_self, here, running, on]; rfl
    · exact fun still => nomatch still
    · intro off; exact absurd on off
    · intro off; exact absurd on off
    · simp only [goto_pc_self]; exact fun _ none => nomatch none
  | loop which tail =>
    simp only [Machine.go] at taken
    split at taken
    · exact inv.bread taken (by rw [here]; rfl) (by cases which <;> exact phase)
    · cases which <;> cases taken
      · exact inv.stay rfl (by rw [here]; rfl) phase rfl rfl rfl
      · exact inv.stay rfl (by rw [here]; rfl) phase rfl rfl rfl
  | second which tail log =>
    simp only [Machine.go] at taken
    split at taken
    · exact inv.bread taken (by rw [here]; rfl) (by cases which <;> exact phase)
    · cases taken
  | copy which tail log home =>
    cases which
    · exact inv.bwrite taken (by rw [here]; rfl) phase
    · exact inv.bwrite taken (by rw [here]; rfl) phase
  | release which tail log home =>
    cases which
    · exact inv.brelse taken (by rw [here]; rfl) phase
    · exact inv.brelse taken (by rw [here]; rfl) phase
  | releaseLast which tail k => exact inv.brelse taken (by rw [here]; rfl) (by cases which <;> exact phase)
  | head clear => exact inv.bread taken (by rw [here]; rfl) (by cases clear <;> exact phase)
  | writeHead clear k =>
    obtain ⟨u, wrote, rfl⟩ := map_eq_some_iff.mp taken
    have stays := inv.bwrite wrote (by rw [here]; rfl) (by cases clear <;> exact phase)
    cases clear
    · exact stays.congr rfl rfl rfl rfl
    · exact stays
  | releaseHead clear k =>
    cases clear
    · exact inv.brelse taken (by rw [here]; rfl) (fun _ none => nomatch none)
    · exact inv.brelse taken (by rw [here]; rfl) phase
  | returned =>
    simp only [Machine.go] at taken
    split at taken
    next booting =>
      cases taken
      have calm := (inv.down (by rw [booting]; exact Phase.noConfusion)).2
      refine inv.move i (fun j other => goto_pc_of_ne other) ?_ ?_ ?_ ?_ ?_ ?_ (.inr fun j other => ?_)
      · simp only [goto_log, goto_pc_self, here]; rfl
      · simp only [goto_log, goto_phase, goto_pc_self, here, calm, booting]; rfl
      · exact inv.quiet
      · intro off; exact absurd rfl off
      · intro off; exact absurd rfl off
      · simp only [goto_pc_self]; exact fun _ none => nomatch none
      · refine only_of_role_ne fun there => other ?_
        exact inv.busy_unique (decide_eq_true there) (decide_eq_true (by rw [here]; rfl))
    next running =>
      cases taken
      have on : s.phase = .on := by
        rcases inv.phase_of_busy (i := i) (by rw [here]; rfl) with there | there
        · exact there.1
        · exact absurd there.1 running
      exact inv.stay rfl (by rw [here]; rfl) (fun p same => by cases same; exact on) rfl rfl rfl
  | readsb k =>
    obtain ⟨u, released, rfl⟩ := map_eq_some_iff.mp taken
    exact (inv.brelse released (by rw [here]; rfl) phase).congr rfl rfl rfl rfl
  | readHead => exact inv.bread taken (by rw [here]; rfl) phase
  | gotHead k =>
    obtain ⟨u, released, rfl⟩ := map_eq_some_iff.mp taken
    exact (inv.brelse released (by rw [here]; rfl) (fun _ none => nomatch none)).congr rfl rfl rfl rfl

theorem Ctl.preserved {l : Label ι} (inv : Ctl s) (taken : step s l = some t) : Ctl t := by
  cases l with
  | crash =>
    cases taken
    constructor
    · simp [Pc.inside, Pc.role]
    · simp [Pc.busy, Pc.role]
    · exact fun _ => rfl
    · exact fun _ => ⟨rfl, rfl⟩
    · exact fun _ _ => .inl rfl
    · exact fun _ _ none => nomatch none
  | initlog i k =>
    obtain ⟨off, taken⟩ := ite_none_right_eq_some.mp taken
    obtain ⟨u, got, rfl⟩ := map_eq_some_iff.mp taken
    obtain ⟨cache, -, rfl⟩ := bread_eq got
    have down := inv.down (by rw [off]; exact Phase.noConfusion)
    have idle := inv.not_busy_of_idle down.2 (by rw [off]; exact Phase.noConfusion)
    have outside := inv.outside_of_zero down.1 i
    refine inv.move i (fun j other => goto_pc_of_ne other) ?_ ?_ inv.quiet (fun _ => down) (fun _ => ?_) ?_
      (.inr fun j _ => ?_)
    · simp only [goto_log, goto_pc_self, outside]; rfl
    · simp only [goto_log, goto_pc_self, idle i, off]; rfl
    · simp only [goto_pc_self]
      exact ⟨by rw [off]; exact Phase.noConfusion, .inr rfl⟩
    · simp only [goto_pc_self]
      exact fun p same => by cases same; rfl
    · exact only_of_role_ne (of_decide_eq_false (idle j))
  | begin_op i =>
    obtain ⟨⟨on, here, -⟩, rfl⟩ := Transition.of_guard taken
    refine inv.move i (fun j other => goto_pc_of_ne other) ?_ ?_ inv.quiet inv.down ?_ ?_ (.inl rfl)
    · simp only [goto_log, goto_pc_self, here]; rfl
    · simp only [goto_log, goto_phase, goto_pc_self, here]; rfl
    · intro off; exact absurd on off
    · simp only [goto_pc_self]; exact fun _ none => nomatch none
  | bread i b k =>
    exact inv.bread (ite_none_right_eq_some.mp taken).2 rfl (inv.only i)
  | modify i k data =>
    obtain ⟨-, rfl⟩ := Transition.of_guard taken
    exact inv.congr rfl rfl rfl rfl
  | log_write i k =>
    obtain ⟨⟨here, -⟩, rfl⟩ := Transition.of_guard taken
    exact inv.stay rfl (by rw [here]; rfl) (fun _ none => nomatch none) rfl rfl rfl
  | brelse i k =>
    exact inv.brelse (ite_none_right_eq_some.mp taken).2 rfl (inv.only i)
  | end_op i =>
    obtain ⟨⟨here, -, calm, -⟩, taken⟩ := ite_none_right_eq_some.mp taken
    have inside : (s.pc i).inside = true := by rw [here]; rfl
    have some := inv.outstanding_pos inside
    have on := (inv.on_of_inside inside).1
    split at taken
    next last =>
      cases taken
      refine inv.move i (fun j other => goto_pc_of_ne other) ?_ ?_ (fun _ => last) ?_ ?_ ?_ (.inl rfl)
      · simp only [goto_log, goto_pc_self, inside, Log.leave]
        change _ - 1 + 1 = _ + 0
        omega
      · simp only [goto_log, goto_phase, goto_pc_self, here, on, calm]; rfl
      · intro off; exact absurd on off
      · intro off; exact absurd on off
      · simp only [goto_pc_self]
        exact fun p same => by cases same; exact on
    next more =>
      cases taken
      refine inv.move i (fun j other => goto_pc_of_ne other) ?_ ?_ (fun running => ?_) ?_ ?_ ?_ (.inl rfl)
      · simp only [goto_log, goto_pc_self, inside, Log.leave]
        change _ - 1 + 1 = _ + 0
        omega
      · simp only [goto_log, goto_phase, goto_pc_self, here, on, calm, Log.leave]; rfl
      · simp only [goto_log, Log.leave, calm] at running; cases running
      · intro off; exact absurd on off
      · intro off; exact absurd on off
      · simp only [goto_pc_self]; exact fun _ none => nomatch none
  | acquiresleep i =>
    obtain ⟨out, -, rfl⟩ := map_eq_some_iff.mp taken
    exact inv.congr rfl rfl rfl rfl
  | drop i =>
    obtain ⟨cache, -, rfl⟩ := map_eq_some_iff.mp taken
    exact inv.congr rfl rfl rfl rfl
  | go i k =>
    simp only [step, ite_none_right_eq_some] at taken
    exact inv.go rfl taken.2

end Control

end Xv6.Log.Machine
