import Xv6.Proc.Lifecycle

/-! What `wait` returns, over a whole run: every process once, after its exit, and to its parent
of that moment. -/

namespace Xv6.Ptable
open Lib Lib.Transition

/-- What must have happened before an event. The first process has number 0. -/
def Event.Allowed : Event → List Event → Prop
  | .forked child _, before => ∀ c, .forked child c ∉ before
  | .exited _, _ => True
  | .waited child parent, before => (∀ p, .waited child p ∉ before) ∧ .exited child ∈ before ∧
    ∃ creator, .forked child creator ∈ before ∧ (parent = creator ∨ (parent = 0 ∧ .exited creator ∈ before))

def Legal : List Event → Prop
  | [] => True
  | e :: before => e.Allowed before ∧ Legal before

theorem Legal.allowed {history after before : List Event} {e : Event} (legal : Legal history)
    (split : history = after ++ e :: before) : e.Allowed before := by
  induction after generalizing history with
  | nil =>
    subst split
    exact legal.1
  | cons _ after ih =>
    subst split
    exact ih legal.2 rfl

def Slot.Held (slot : Slot) : Prop := slot.state ≠ .unused ∧ slot.state ≠ .embryo

structure Record (s : State) : Prop where
  legal : Legal s.history
  root : (s.proc initproc).id = 0
  forked : ∀ c p, .forked c p ∈ s.history → c < s.births
  waited : ∀ c p, .waited c p ∈ s.history → c < s.births
  ids : ∀ i, (s.proc i).Held → (s.proc i).id < s.births
  distinct : ∀ i j, (s.proc i).Held → (s.proc j).Held → (s.proc i).id = (s.proc j).id → i = j
  unwaited : ∀ i, (s.proc i).Held → ∀ p, .waited (s.proc i).id p ∉ s.history
  exited : ∀ i, (s.proc i).state = .zombie → .exited (s.proc i).id ∈ s.history
  creator : ∀ i, (s.proc i).Held → i ≠ initproc → ∃ c, .forked (s.proc i).id c ∈ s.history ∧
    ∀ q, (s.proc i).parent = some q → (s.proc q).id = c ∨ (q = initproc ∧ .exited c ∈ s.history)

section Preserved

variable {s t : State} {p np i : Fin NPROC}

theorem Slot.Live.held {slot : Slot} (live : slot.Live) : slot.Held := ⟨live.ne_unused, live.ne_embryo⟩

theorem Slot.held_of_zombie {slot : Slot} (zombie : slot.state = .zombie) : slot.Held := by
  rw [Slot.Held, zombie]
  exact ⟨by decide, by decide⟩

theorem Record.lose (record : Record s) (legal : Legal t.history) (births : t.births = s.births) (root : (t.proc initproc).id = 0)
    (held : ∀ j, (t.proc j).Held → (s.proc j).Held ∧ (t.proc j).id = (s.proc j).id)
    (grown : ∀ e ∈ s.history, e ∈ t.history) (forked : ∀ c q, .forked c q ∈ t.history → .forked c q ∈ s.history)
    (waited : ∀ c q, .waited c q ∈ t.history →
      .waited c q ∈ s.history ∨ ∃ i, (s.proc i).Held ∧ (s.proc i).id = c ∧ ¬ (t.proc i).Held)
    (exited : ∀ j, (t.proc j).state = .zombie → (s.proc j).state = .zombie ∨ .exited (s.proc j).id ∈ t.history)
    (parent : ∀ j q, (t.proc j).Held → (t.proc j).parent = some q →
      ((s.proc j).parent = some q ∧ (t.proc q).id = (s.proc q).id) ∨
      (q = initproc ∧ ∃ p, p ≠ initproc ∧ (s.proc j).parent = some p ∧ .exited (s.proc p).id ∈ t.history)) : Record t := by
  constructor
  case legal => exact legal
  case root => exact root
  case forked => exact fun c q there => births ▸ record.forked c q (forked c q there)
  case waited =>
    intro c q there
    rw [births]
    rcases waited c q there with before | ⟨i, own, rfl, -⟩
    · exact record.waited c q before
    · exact record.ids i own
  case ids =>
    intro j here
    rw [(held j here).2, births]
    exact record.ids j (held j here).1
  case distinct =>
    intro j k first second same
    rw [(held j first).2, (held k second).2] at same
    exact record.distinct j k (held j first).1 (held k second).1 same
  case unwaited =>
    intro j here q there
    rw [(held j here).2] at there
    rcases waited _ q there with before | ⟨i, own, same, gone⟩
    · exact record.unwaited j (held j here).1 q before
    · exact gone (record.distinct i j own (held j here).1 same ▸ here)
  case exited =>
    intro j zombie
    rw [(held j (Slot.held_of_zombie zombie)).2]
    rcases exited j zombie with before | now
    · exact grown _ (record.exited j before)
    · exact now
  case creator =>
    intro j here other
    obtain ⟨c, made, parents⟩ := record.creator j (held j here).1 other
    rw [(held j here).2]
    refine ⟨c, grown _ made, fun q child => ?_⟩
    rcases parent j q here child with ⟨before, same⟩ | ⟨init, p, apart, before, gone⟩
    · rw [same]
      exact (parents q before).imp_right fun both => ⟨both.1, grown _ both.2⟩
    · rcases parents p before with same | ⟨wrong, -⟩
      · exact .inr ⟨init, same ▸ gone⟩
      · exact absurd wrong apart

theorem Record.still (record : Record s) (still : Still s t) : Record t := by
  refine record.lose (still.history ▸ record.legal) still.births ((still.id _).trans record.root) (fun j here => ⟨?_, still.id j⟩)
    (fun e there => still.history ▸ there) (fun c q there => still.history ▸ there) (fun c q there => .inl (still.history ▸ there))
    (fun j zombie => .inl ?_) fun j q _ child => .inl ⟨still.parent j ▸ child, still.id q⟩
  · rcases still.state j with same | both
    · rwa [Slot.Held, ← same]
    · exact both.1.held
  · rcases still.state j with same | both
    · rw [← same, zombie]
    · exact absurd zombie both.2.ne_zombie

theorem Record.forkMove {pc : Pc} (record : Record s) (inv : Inv s) (forks : Forks s t p np pc) : Record t := by
  have notLive : ¬ (s.proc np).Live := fun live => forks.vacant.elim live.ne_unused live.ne_embryo
  have notInit : initproc ≠ np := fun same => notLive (same ▸ inv.init.1)
  have fields := fun j (other : j ≠ np) => fields_of_kept forks.kept forks.caller other
  have held : ∀ j, j ≠ np → (t.proc j).Held → (s.proc j).Held := fun j other here => by
    rwa [Slot.Held, ← (fields j other).1]
  have parentId : ∀ j q, (s.proc j).parent = some q → (t.proc q).id = (s.proc q).id := fun j q child =>
    (fields q fun same => inv.childless notLive (same ▸ child)).2.2
  by_cases born : (t.proc np).state = .runnable
  · obtain ⟨number, births, history⟩ := forks.born born
    have parent : (t.proc np).parent = some p := by
      rcases forks.after with ⟨state, -⟩ | ⟨state, -⟩ | ⟨-, parent, -⟩
      · rw [state] at born; cases born
      · rw [state] at born; cases born
      · exact parent
    have caller : (t.proc p).id = (s.proc p).id := by rw [forks.caller]
    have fresh : ∀ c, .forked s.births c ∉ s.history := fun c there => Nat.lt_irrefl _ (record.forked _ _ there)
    constructor
    case legal => rw [history]; exact ⟨fresh, record.legal⟩
    case root => rw [(fields _ notInit).2.2, record.root]
    case forked =>
      intro c q there
      rw [history, List.mem_cons] at there
      rw [births]
      rcases there with here | there
      · cases here
        exact Nat.lt_succ_self _
      · exact Nat.lt_succ_of_lt (record.forked c q there)
    case waited =>
      intro c q there
      rw [history, List.mem_cons] at there
      rw [births]
      rcases there with here | there
      · cases here
      · exact Nat.lt_succ_of_lt (record.waited c q there)
    case ids =>
      intro j here
      rw [births]
      by_cases own : j = np
      · rw [own, number]
        exact Nat.lt_succ_self _
      · rw [(fields j own).2.2]
        exact Nat.lt_succ_of_lt (record.ids j (held j own here))
    case distinct =>
      intro j k first second same
      have new : ∀ l, l ≠ np → (t.proc l).Held → (t.proc l).id ≠ s.births := fun l own here => by
        rw [(fields l own).2.2]
        exact Nat.ne_of_lt (record.ids l (held l own here))
      by_cases own : j = np
      · by_cases own' : k = np
        · rw [own, own']
        · rw [own, number] at same
          exact absurd same.symm (new k own' second)
      · by_cases own' : k = np
        · rw [own', number] at same
          exact absurd same (new j own first)
        · rw [(fields j own).2.2, (fields k own').2.2] at same
          exact record.distinct j k (held j own first) (held k own' second) same
    case unwaited =>
      intro j here q there
      rw [history, List.mem_cons] at there
      rcases there with wrong | there
      · cases wrong
      · by_cases own : j = np
        · rw [own, number] at there
          exact Nat.lt_irrefl _ (record.waited _ _ there)
        · rw [(fields j own).2.2] at there
          exact record.unwaited j (held j own here) q there
    case exited =>
      intro j zombie
      have own : j ≠ np := fun same => by rw [same, born] at zombie; cases zombie
      rw [(fields j own).1] at zombie
      rw [history, (fields j own).2.2]
      exact List.mem_cons_of_mem _ (record.exited j zombie)
    case creator =>
      intro j here other
      rw [history]
      by_cases own : j = np
      · refine ⟨(s.proc p).id, by rw [own, number]; exact List.mem_cons_self, fun q child => ?_⟩
        rw [own, parent] at child
        cases child
        exact .inl caller
      · obtain ⟨c, made, parents⟩ := record.creator j (held j own here) other
        refine ⟨c, by rw [(fields j own).2.2]; exact List.mem_cons_of_mem _ made, fun q child => ?_⟩
        rw [(fields j own).2.1] at child
        rw [parentId j q child]
        exact (parents q child).imp_right fun both => ⟨both.1, List.mem_cons_of_mem _ both.2⟩
  · obtain ⟨births, history⟩ := forks.unborn born
    have vacant : ¬ (t.proc np).Held := fun here => by
      rcases forks.after with ⟨state, -⟩ | ⟨state, -⟩ | ⟨state, -⟩
      · exact here.1 state
      · exact here.2 state
      · exact born state
    have other : ∀ j, (t.proc j).Held → j ≠ np := fun j here same => vacant (same ▸ here)
    refine record.lose (history ▸ record.legal) births ((fields _ notInit).2.2.trans record.root)
      (fun j here => ⟨held j (other j here) here, (fields j (other j here)).2.2⟩) (fun e there => history ▸ there)
      (fun c q there => history ▸ there) (fun c q there => .inl (history ▸ there)) (fun j zombie => .inl ?_)
      fun j q here child => .inl ?_
    · rw [← (fields j (other j (Slot.held_of_zombie zombie))).1, zombie]
    · rw [(fields j (other j here)).2.1] at child
      exact ⟨child, parentId j q child⟩

theorem Record.exit (record : Record s) (exits : Exits s t p) : Record t := by
  have slot := fun j => (congrFun exits.proc j).trans (exit_slot exits.other j)
  have ids : ∀ j, (t.proc j).id = (s.proc j).id := fun j => by rw [slot]
  have running := Slot.live_of_running exits.running.1
  have held : ∀ j, (t.proc j).Held → (s.proc j).Held := fun j here => by
    by_cases same : j = p
    · rw [same]
      exact running.held
    · rw [slot, Slot.Held] at here
      dsimp only at here
      rw [if_neg same] at here
      split at here
      next asleep => exact Slot.Live.held (.inl asleep.1)
      next => exact here
  have old : ∀ e, e ∈ t.history → e = .exited (s.proc p).id ∨ e ∈ s.history := fun e there => by
    rwa [exits.history, List.mem_cons] at there
  have now : .exited (s.proc p).id ∈ t.history := by rw [exits.history]; exact List.mem_cons_self
  refine record.lose (by rw [exits.history]; exact ⟨trivial, record.legal⟩) exits.births ((ids _).trans record.root)
    (fun j here => ⟨held j here, ids j⟩) (fun e there => by rw [exits.history]; exact List.mem_cons_of_mem _ there)
    (fun c q there => (old _ there).resolve_left fun wrong => nomatch wrong)
    (fun c q there => .inl ((old _ there).resolve_left fun wrong => nomatch wrong)) (fun j zombie => ?_) fun j q _ child => ?_
  · by_cases same : j = p
    · exact .inr (same ▸ now)
    · rw [slot] at zombie
      dsimp only at zombie
      rw [if_neg same] at zombie
      split at zombie
      next => cases zombie
      next => exact .inl zombie
  · rw [slot] at child
    dsimp only at child
    split at child
    next mine => exact .inr ⟨(Option.some.inj child).symm, p, exits.other, mine, now⟩
    next => exact .inl ⟨child, ids q⟩

theorem Record.reap (record : Record s) (inv : Inv s) (reaps : Reaps s t p i) : Record t := by
  have notLive : ¬ (s.proc i).Live := fun live => live.ne_zombie reaps.state
  have notInit : i ≠ initproc := fun same => notLive (same ▸ inv.init.1)
  have fields := fun j (other : j ≠ i) => fields_of_kept reaps.kept reaps.caller other
  have other : ∀ j, (t.proc j).Held → j ≠ i := fun j here same => here.1 (same ▸ reaps.freed.1)
  have own := Slot.held_of_zombie reaps.state
  have old : ∀ e, e ∈ t.history → e = .waited (s.proc i).id (s.proc p).id ∨ e ∈ s.history := fun e there => by
    rwa [reaps.history, List.mem_cons] at there
  refine record.lose ?_ reaps.births ((fields _ notInit.symm).2.2.trans record.root) (fun j here => ⟨?_, (fields j (other j here)).2.2⟩)
    (fun e there => by rw [reaps.history]; exact List.mem_cons_of_mem _ there)
    (fun c q there => (old _ there).resolve_left fun wrong => nomatch wrong) (fun c q there => ?_) (fun j zombie => .inl ?_)
    fun j q here child => .inl ?_
  · rw [reaps.history]
    refine ⟨⟨record.unwaited i own, record.exited i reaps.state, ?_⟩, record.legal⟩
    obtain ⟨c, made, parents⟩ := record.creator i own notInit
    exact ⟨c, made, (parents p reaps.child).imp_right fun ⟨same, gone⟩ => ⟨by rw [same, record.root], gone⟩⟩
  · rwa [Slot.Held, ← (fields j (other j here)).1]
  · rcases old _ there with now | before
    · injection now with same
      exact .inr ⟨i, own, same.symm, fun here => here.1 reaps.freed.1⟩
    · exact .inl before
  · rw [← (fields j (other j (Slot.held_of_zombie zombie))).1, zombie]
  · rw [(fields j (other j here)).2.1] at child
    exact ⟨child, (fields q fun same => inv.childless notLive (same ▸ child)).2.2⟩

end Preserved

theorem boot_slot (i : Fin NPROC) : boot.proc i =
    if i = initproc then ⟨.runnable, 1, none, none, false, .user, 0⟩ else ⟨.unused, 0, none, none, false, .user, 0⟩ := by
  simp only [boot, Function.update_apply]

theorem Inv.boot : Inv boot := by
  have none : ∀ i, (Ptable.boot.proc i).parent = none := fun i => by rw [boot_slot]; split <;> rfl
  have user : ∀ i, (Ptable.boot.proc i).pc = .user := fun i => by rw [boot_slot]; split <;> rfl
  have forks : ∀ i, (Ptable.boot.proc i).pc.forks = Option.none := fun i => by rw [user]; rfl
  constructor
  case init => exact ⟨.inr (.inl rfl), rfl⟩
  case unused => exact fun i _ => none i
  case idle => exact fun i _ => user i
  case taken => intro p np here; rw [forks] at here; cases here
  case apart => intro p q np here; rw [forks] at here; cases here
  case ready => intro p np here; rw [user] at here; cases here
  case embryo => intro p np _ here; rw [none] at here; cases here
  case parent =>
    intro i unused _ other
    rw [boot_slot, if_neg other] at unused
    exact absurd rfl unused
  case self => intro i; rw [none]; exact fun wrong => nomatch wrong
  case waiting => intro i here; rw [user] at here; cases here

theorem Record.boot : Record boot := by
  have only : ∀ i, (Ptable.boot.proc i).Held → i = initproc := fun i held => by
    by_contra other
    rw [boot_slot, if_neg other] at held
    exact held.1 rfl
  constructor
  case legal => trivial
  case root => rfl
  case forked => exact fun _ _ there => nomatch there
  case waited => exact fun _ _ there => nomatch there
  case ids => intro i held; rw [only i held]; exact Nat.zero_lt_one
  case distinct => exact fun i j first second _ => (only i first).trans (only j second).symm
  case unwaited => exact fun _ _ _ there => nomatch there
  case exited =>
    intro i zombie
    rw [boot_slot] at zombie
    split at zombie <;> cases zombie
  case creator => exact fun i held other => absurd (only i held) other

theorem step_inv {s t : State} {l : Label} (inv : Inv s) (taken : step s l = some t) : Inv t := by
  rcases step_cases inv taken with still | ⟨p, np, pc, forks⟩ | ⟨p, exits⟩ | ⟨p, i, reaps⟩
  · exact inv.still still
  · exact inv.forkMove forks
  · exact inv.exit exits
  · exact inv.reap reaps

theorem step_record {s t : State} {l : Label} (inv : Inv s) (record : Record s) (taken : step s l = some t) : Record t := by
  rcases step_cases inv taken with still | ⟨p, np, pc, forks⟩ | ⟨p, exits⟩ | ⟨p, i, reaps⟩
  · exact record.still still
  · exact record.forkMove inv forks
  · exact record.exit exits
  · exact record.reap inv reaps

theorem run_inv {s : State} {ls : List Label} (reached : run step boot ls = some s) : Inv s ∧ Record s :=
  run_invariant step (fun s => Inv s ∧ Record s)
    (fun _ _ _ both taken => ⟨step_inv both.1 taken, step_record both.1 both.2 taken⟩) ⟨.boot, .boot⟩ reached

/-- Free slots have no parent, every other process but `init` has one that is alive, nobody sleeps
in `wait` beside a zombie of its own, and `wait` has returned processes once, after their exit, to
the creator or, that having exited, to `init`. -/
theorem process_lifecycle {s : State} {ls : List Label} (reached : run step boot ls = some s) :
    (∀ i, (s.proc i).state = .unused → (s.proc i).parent = none) ∧
    (∀ i, (s.proc i).state ≠ .unused → (s.proc i).state ≠ .embryo → i ≠ initproc → ∃ q, (s.proc i).parent = some q ∧
      (s.proc q).state ≠ .unused ∧ (s.proc q).state ≠ .embryo ∧ (s.proc q).state ≠ .zombie) ∧
    (∀ i j, (s.proc i).pc = .wait → (s.proc i).state = .sleeping → (s.proc j).parent = some i →
      (s.proc j).state ≠ .zombie) ∧
    ∀ after child parent before, s.history = after ++ .waited child parent :: before →
      (∀ p, .waited child p ∉ before) ∧ .exited child ∈ before ∧ ∃ creator, .forked child creator ∈ before ∧
        (parent = creator ∨ (parent = (s.proc initproc).id ∧ .exited creator ∈ before)) := by
  obtain ⟨inv, record⟩ := run_inv reached
  refine ⟨inv.unused, fun i unused embryo other => ?_, fun i j here asleep => (inv.waiting i here asleep).2 j, ?_⟩
  · obtain ⟨q, parent, live⟩ := inv.parent i unused embryo other
    exact ⟨q, parent, live.ne_unused, live.ne_embryo, live.ne_zombie⟩
  · intro after child parent before split
    rw [record.root]
    exact record.legal.allowed split

def orphanRun : List Label :=
  [.schedule 0, .fork 0, .forkStack 0 true, .forkCopy 0 true, .forkDone 0, .schedule 1, .fork 1, .forkStack 1 true,
    .forkCopy 1 true, .forkDone 1, .wait 0, .exit 1, .schedule 0, .wait 0, .schedule 2, .exit 2, .wait 0]

theorem process_lifecycle_orphan : ∃ s, run step boot orphanRun = some s ∧
    s.history = [.waited 2 0, .exited 2, .waited 1 0, .exited 1, .forked 2 1, .forked 1 0] ∧
    ∀ i, (s.proc i).state = .unused → (s.proc i).parent = none := by
  have ends : (run step boot orphanRun).map State.history =
      some [.waited 2 0, .exited 2, .waited 1 0, .exited 1, .forked 2 1, .forked 1 0] := by decide +kernel
  obtain ⟨s, reached, history⟩ := Option.map_eq_some_iff.mp ends
  exact ⟨s, reached, history, (process_lifecycle reached).1⟩

end Xv6.Ptable
