import Xv6.Proc.Table

/-! Who is whose parent, through `fork`, `exit` and `wait`. -/

namespace Xv6.Ptable
open Lib Lib.Transition
open State (set_self set_of_ne goto_of_ne goto_self)

def Slot.Live (slot : Slot) : Prop := slot.state = .sleeping ∨ slot.state = .runnable ∨ slot.state = .running

/-- The slot that a call of `fork` in progress has taken. -/
def Pc.forks : Pc → Option (Fin NPROC)
  | .forkStack np | .forkCopy np | .forkReady np => some np
  | _ => none

structure Inv (s : State) : Prop where
  init : (s.proc initproc).Live ∧ (s.proc initproc).parent = none
  unused : ∀ i, (s.proc i).state = .unused → (s.proc i).parent = none
  idle : ∀ i, ¬ (s.proc i).Live → (s.proc i).pc = .user
  taken : ∀ p np, (s.proc p).pc.forks = some np → (s.proc np).state = .embryo
  apart : ∀ p q np, (s.proc p).pc.forks = some np → (s.proc q).pc.forks = some np → p = q
  ready : ∀ p np, (s.proc p).pc = .forkReady np → (s.proc np).parent = some p
  embryo : ∀ p np, (s.proc np).state = .embryo → (s.proc np).parent = some p → (s.proc p).pc = .forkReady np
  parent : ∀ i, (s.proc i).state ≠ .unused → (s.proc i).state ≠ .embryo → i ≠ initproc →
    ∃ q, (s.proc i).parent = some q ∧ (s.proc q).Live
  self : ∀ i, (s.proc i).parent ≠ some i
  waiting : ∀ i, (s.proc i).pc = .wait → (s.proc i).state = .sleeping → (s.proc i).chan = some (.proc i) ∧
    ∀ j, (s.proc j).parent = some i → (s.proc j).state ≠ .zombie

section Slots

variable {slot : Slot} {s : State} {p np i : Fin NPROC}

theorem Slot.Live.ne_unused (live : slot.Live) : slot.state ≠ .unused := by
  rcases live with h | h | h <;> simp [h]

theorem Slot.Live.ne_embryo (live : slot.Live) : slot.state ≠ .embryo := by
  rcases live with h | h | h <;> simp [h]

theorem Slot.Live.ne_zombie (live : slot.Live) : slot.state ≠ .zombie := by
  rcases live with h | h | h <;> simp [h]

theorem Slot.live_of_running (running : slot.state = .running) : slot.Live := .inr (.inr running)

theorem Inv.live_of_pc (inv : Inv s) (busy : (s.proc p).pc ≠ .user) : (s.proc p).Live :=
  by_contra fun dead => busy (inv.idle p dead)

theorem Inv.childless (inv : Inv s) (dead : ¬ (s.proc p).Live) : (s.proc i).parent ≠ some p := by
  intro child
  by_cases none : (s.proc i).state = .unused
  · rw [inv.unused i none] at child
    cases child
  · by_cases embryo : (s.proc i).state = .embryo
    · have busy := inv.embryo p i embryo child
      exact dead (inv.live_of_pc (by rw [busy]; exact fun wrong => nomatch wrong))
    · by_cases isInit : i = initproc
      · rw [isInit, inv.init.2] at child
        cases child
      · obtain ⟨q, parent, live⟩ := inv.parent i none embryo isInit
        rw [parent, Option.some.injEq] at child
        exact dead (child ▸ live)

end Slots

/-- A step that makes no process and ends none. -/
structure Still (s t : State) : Prop where
  parent : ∀ j, (t.proc j).parent = (s.proc j).parent
  state : ∀ j, (t.proc j).state = (s.proc j).state ∨ ((s.proc j).Live ∧ (t.proc j).Live)
  pc : ∀ j, (t.proc j).pc = (s.proc j).pc ∨
    ((s.proc j).pc.forks = none ∧ (t.proc j).pc.forks = none ∧ (t.proc j).Live)
  waiting : ∀ i, (t.proc i).pc = .wait → (t.proc i).state = .sleeping → (t.proc i).chan = some (.proc i) ∧
    ∀ j, (s.proc j).parent = some i → (s.proc j).state ≠ .zombie
  id : ∀ j, (t.proc j).id = (s.proc j).id
  births : t.births = s.births
  history : t.history = s.history

/-- A step of `fork`: the caller `p` moves to `pc`, and the slot `np` changes. -/
structure Forks (s t : State) (p np : Fin NPROC) (pc : Pc) : Prop where
  running : (s.proc p).state = .running
  vacant : (s.proc np).state = .unused ∨ (s.proc np).state = .embryo
  mine : ∀ q, (s.proc q).pc.forks = some np → q = p
  before : (s.proc p).pc.forks = none ∨ (s.proc p).pc.forks = some np
  kept : ∀ j, j ≠ p → j ≠ np → t.proc j = s.proc j
  caller : t.proc p = { s.proc p with pc := pc }
  awake : pc ≠ .wait
  idle : (t.proc np).pc = .user
  after : ((t.proc np).state = .unused ∧ (t.proc np).parent = none ∧ pc.forks = none) ∨
    ((t.proc np).state = .embryo ∧ pc.forks = some np ∧
      ((t.proc np).parent = some p ∧ pc = .forkReady np ∨ (t.proc np).parent = none ∧ pc ≠ .forkReady np)) ∨
    ((t.proc np).state = .runnable ∧ (t.proc np).parent = some p ∧ pc.forks = none)
  unborn : (t.proc np).state ≠ .runnable → t.births = s.births ∧ t.history = s.history
  born : (t.proc np).state = .runnable → (t.proc np).id = s.births ∧ t.births = s.births + 1 ∧
    t.history = .forked s.births (s.proc p).id :: s.history

structure Exits (s t : State) (p : Fin NPROC) : Prop where
  running : s.At p .user
  other : p ≠ initproc
  proc : t.proc = exit s.proc p
  births : t.births = s.births
  history : t.history = .exited (s.proc p).id :: s.history

/-- `wait` by `p` takes the zombie `i` out of the table. -/
structure Reaps (s t : State) (p i : Fin NPROC) : Prop where
  running : (s.proc p).state = .running
  quiet : (s.proc p).pc.forks = none
  child : (s.proc i).parent = some p
  state : (s.proc i).state = .zombie
  kept : ∀ j, j ≠ p → j ≠ i → t.proc j = s.proc j
  caller : t.proc p = { s.proc p with pc := .user }
  freed : (t.proc i).state = .unused ∧ (t.proc i).parent = none ∧ (t.proc i).killed = false
  idle : (s.proc i).pc = .user → (t.proc i).pc = .user
  births : t.births = s.births
  history : t.history = .waited (s.proc i).id (s.proc p).id :: s.history

section Preserved

variable {s t : State} {p np : Fin NPROC}

theorem Inv.still (inv : Inv s) (still : Still s t) : Inv t := by
  obtain ⟨parent, state, pc, waiting, -, -, -⟩ := still
  have live : ∀ j, (t.proc j).Live ↔ (s.proc j).Live := fun j => by
    rcases state j with same | both
    · rw [Slot.Live, Slot.Live, same]
    · exact iff_of_true both.2 both.1
  have dead : ∀ j (st : ProcState), ¬ (⟨st, 0, none, none, false, .user, 0⟩ : Slot).Live →
      ((t.proc j).state = st ↔ (s.proc j).state = st) := fun j st not => by
    rcases state j with same | both
    · rw [same]
    · refine iff_of_false (fun here => not ?_) fun here => not ?_
      · rw [← here]; exact both.2
      · rw [← here]; exact both.1
  have unused : ∀ j, (t.proc j).state = .unused ↔ (s.proc j).state = .unused := fun j => dead j .unused (by simp [Slot.Live])
  have embryo : ∀ j, (t.proc j).state = .embryo ↔ (s.proc j).state = .embryo := fun j => dead j .embryo (by simp [Slot.Live])
  have zombie : ∀ j, (t.proc j).state = .zombie ↔ (s.proc j).state = .zombie := fun j => dead j .zombie (by simp [Slot.Live])
  have forks : ∀ j np, (t.proc j).pc.forks = some np → (s.proc j).pc.forks = some np := fun j np here => by
    rcases pc j with same | ⟨-, none, -⟩
    · rwa [same] at here
    · rw [none] at here; cases here
  have ready : ∀ j np, (t.proc j).pc = .forkReady np ↔ (s.proc j).pc = .forkReady np := fun j np => by
    rcases pc j with same | ⟨before, after, -⟩
    · rw [same]
    · refine iff_of_false (fun here => ?_) fun here => ?_
      · rw [here] at after; cases after
      · rw [here] at before; cases before
  constructor
  case init => rw [live, parent]; exact inv.init
  case unused => intro i none; rw [parent]; exact inv.unused i ((unused i).mp none)
  case idle =>
    intro i not
    rcases pc i with same | ⟨-, -, now⟩
    · rw [same]; exact inv.idle i fun here => not ((live i).mpr here)
    · exact absurd now not
  case taken => exact fun p np here => (embryo np).mpr (inv.taken p np (forks p np here))
  case apart => exact fun p q np first second => inv.apart p q np (forks p np first) (forks q np second)
  case ready => intro p np here; rw [parent]; exact inv.ready p np ((ready p np).mp here)
  case embryo =>
    intro p np isEmbryo child
    rw [parent] at child
    exact (ready p np).mpr (inv.embryo p np ((embryo np).mp isEmbryo) child)
  case parent =>
    intro i notUnused notEmbryo other
    obtain ⟨q, here, alive⟩ := inv.parent i (fun h => notUnused ((unused i).mpr h)) (fun h => notEmbryo ((embryo i).mpr h)) other
    exact ⟨q, by rw [parent, here], (live q).mpr alive⟩
  case self => intro i; rw [parent]; exact inv.self i
  case waiting =>
    intro i here asleep
    obtain ⟨chan, none⟩ := waiting i here asleep
    refine ⟨chan, fun j child => ?_⟩
    rw [parent] at child
    rw [Ne, zombie]
    exact none j child

theorem fields_of_kept {pc : Pc} (kept : ∀ j, j ≠ p → j ≠ np → t.proc j = s.proc j) (caller : t.proc p = { s.proc p with pc := pc })
    {j : Fin NPROC} (other : j ≠ np) :
    (t.proc j).state = (s.proc j).state ∧ (t.proc j).parent = (s.proc j).parent ∧ (t.proc j).id = (s.proc j).id := by
  by_cases same : j = p
  · rw [same, caller]
    exact ⟨rfl, rfl, rfl⟩
  · rw [kept j same other]
    exact ⟨rfl, rfl, rfl⟩

theorem Inv.change {pc : Pc} (inv : Inv s) (running : (s.proc p).state = .running) (notLive : ¬ (s.proc np).Live)
    (mine : ∀ q, (s.proc q).pc.forks = some np → q = p)
    (before : (s.proc p).pc.forks = none ∨ (s.proc p).pc.forks = some np)
    (kept : ∀ j, j ≠ p → j ≠ np → t.proc j = s.proc j) (caller : t.proc p = { s.proc p with pc := pc }) (awake : pc ≠ .wait)
    (idle : (t.proc np).pc = .user)
    (after : ((t.proc np).state = .unused ∧ (t.proc np).parent = none ∧ pc.forks = none) ∨
      ((t.proc np).state = .embryo ∧ pc.forks = some np ∧
        ((t.proc np).parent = some p ∧ pc = .forkReady np ∨ (t.proc np).parent = none ∧ pc ≠ .forkReady np)) ∨
      ((t.proc np).state = .runnable ∧ (t.proc np).parent = some p ∧ pc.forks = none)) : Inv t := by
  have distinct : p ≠ np := by
    rintro rfl
    exact notLive (Slot.live_of_running running)
  have runs : (t.proc p).state = .running := by rw [caller]; exact running
  have states : ∀ j, j ≠ np → (t.proc j).state = (s.proc j).state := fun _ other => (fields_of_kept kept caller other).1
  have parents : ∀ j, j ≠ np → (t.proc j).parent = (s.proc j).parent := fun _ other => (fields_of_kept kept caller other).2.1
  have live : ∀ j, (s.proc j).Live → (t.proc j).Live := fun j here => by
    have other : j ≠ np := fun same => notLive (same ▸ here)
    rwa [Slot.Live, states j other]
  have quiet : (s.proc np).pc = .user := inv.idle np notLive
  -- the slot that a fork in progress has taken, in the new state
  have forks : ∀ q x, (t.proc q).pc.forks = some x →
      (q = p ∧ x = np ∧ pc.forks = some np) ∨ (q ≠ p ∧ x ≠ np ∧ x ≠ p ∧ q ≠ np ∧ (s.proc q).pc.forks = some x) := by
    intro q x here
    by_cases first : q = p
    · rw [first, caller] at here
      change pc.forks = some x at here
      have own : x = np := by
        rcases after with ⟨-, -, none⟩ | ⟨-, taken, -⟩ | ⟨-, -, none⟩
        · rw [none] at here; cases here
        · rw [taken] at here; cases here; rfl
        · rw [none] at here; cases here
      exact .inl ⟨first, own, own ▸ here⟩
    · by_cases second : q = np
      · rw [second, idle] at here
        cases here
      · rw [kept q first second] at here
        refine .inr ⟨first, fun same => first (mine q (same ▸ here)), fun same => ?_, second, here⟩
        have := inv.taken q x here
        rw [same, running] at this
        cases this
  constructor
  case init =>
    have other : initproc ≠ np := fun same => notLive (same ▸ inv.init.1)
    exact ⟨live _ inv.init.1, by rw [parents _ other]; exact inv.init.2⟩
  case unused =>
    intro i none
    by_cases own : i = np
    · subst own
      rcases after with ⟨-, parent, -⟩ | ⟨state, -⟩ | ⟨state, -⟩
      · exact parent
      · rw [state] at none; cases none
      · rw [state] at none; cases none
    · rw [states i own] at none
      rw [parents i own]
      exact inv.unused i none
  case idle =>
    intro i not
    by_cases own : i = np
    · rw [own, idle]
    · by_cases same : i = p
      · exact absurd (Slot.live_of_running (same ▸ runs)) not
      · rw [kept i same own] at not ⊢
        exact inv.idle i not
  case taken =>
    intro q x here
    rcases forks q x here with ⟨-, rfl, own⟩ | ⟨-, other, -, -, old⟩
    · rcases after with ⟨-, -, none⟩ | ⟨state, -⟩ | ⟨-, -, none⟩
      · rw [none] at own; cases own
      · exact state
      · rw [none] at own; cases own
    · rw [states x other]
      exact inv.taken q x old
  case apart =>
    intro q r x first second
    rcases forks q x first with ⟨rfl, rfl, -⟩ | ⟨-, other, -, -, old⟩
    · rcases forks r x second with ⟨rfl, -, -⟩ | ⟨-, other, -⟩
      · rfl
      · exact absurd rfl other
    · rcases forks r x second with ⟨-, same, -⟩ | ⟨-, -, -, -, old'⟩
      · exact absurd same other
      · exact inv.apart q r x old old'
  case ready =>
    intro q x here
    rcases forks q x (by rw [here]; rfl) with ⟨rfl, rfl, own⟩ | ⟨first, other, -, second, old⟩
    · rw [caller] at here
      change pc = .forkReady x at here
      rcases after with ⟨-, -, none⟩ | ⟨-, -, ⟨parent, -⟩ | ⟨-, not⟩⟩ | ⟨-, -, none⟩
      · rw [none] at own; cases own
      · exact parent
      · exact absurd here not
      · rw [none] at own; cases own
    · rw [kept q first second] at here
      rw [parents x other]
      exact inv.ready q x here
  case embryo =>
    intro q x state child
    by_cases own : x = np
    · subst own
      rcases after with ⟨unused, -⟩ | ⟨-, -, ⟨parent, ready⟩ | ⟨none, -⟩⟩ | ⟨runnable, -⟩
      · rw [unused] at state; cases state
      · rw [parent, Option.some.injEq] at child
        rw [← child, caller]
        exact ready
      · rw [none] at child; cases child
      · rw [runnable] at state; cases state
    · rw [states x own] at state
      rw [parents x own] at child
      have ready := inv.embryo q x state child
      have first : q ≠ p := by
        rintro rfl
        rw [ready] at before
        rcases before with none | same
        · cases none
        · exact own (Option.some.inj same)
      have second : q ≠ np := by
        rintro rfl
        rw [ready] at quiet
        cases quiet
      rw [kept q first second]
      exact ready
  case parent =>
    intro i notUnused notEmbryo other
    by_cases own : i = np
    · subst own
      rcases after with ⟨unused, -⟩ | ⟨embryo, -⟩ | ⟨-, parent, -⟩
      · exact absurd unused notUnused
      · exact absurd embryo notEmbryo
      · exact ⟨p, parent, Slot.live_of_running runs⟩
    · rw [states i own] at notUnused notEmbryo
      obtain ⟨q, parent, alive⟩ := inv.parent i notUnused notEmbryo other
      exact ⟨q, by rw [parents i own, parent], live q alive⟩
  case self =>
    intro i
    by_cases own : i = np
    · subst own
      have child : ∀ q, (t.proc i).parent = some q → q = p := by
        intro q here
        rcases after with ⟨-, none, -⟩ | ⟨-, -, ⟨parent, -⟩ | ⟨none, -⟩⟩ | ⟨-, parent, -⟩
        · rw [none] at here; cases here
        · rw [parent] at here; cases here; rfl
        · rw [none] at here; cases here
        · rw [parent] at here; cases here; rfl
      exact fun here => distinct (child i here).symm
    · rw [parents i own]
      exact inv.self i
  case waiting =>
    intro i here asleep
    have first : i ≠ p := by
      rintro rfl
      rw [caller] at here
      exact awake here
    have second : i ≠ np := by
      rintro rfl
      rw [idle] at here
      cases here
    rw [kept i first second] at here asleep ⊢
    obtain ⟨chan, none⟩ := inv.waiting i here asleep
    refine ⟨chan, fun j child => ?_⟩
    by_cases own : j = np
    · subst own
      rcases after with ⟨state, -⟩ | ⟨state, -⟩ | ⟨state, -⟩ <;> rw [state] <;> exact fun wrong => nomatch wrong
    · rw [states j own]
      rw [parents j own] at child
      exact none j child

theorem Inv.exit (inv : Inv s) (exits : Exits s t p) : Inv t := by
  obtain ⟨running, other, proc, -, -⟩ := exits
  have slot := fun j => (congrFun proc j).trans (exit_slot other j)
  have parents : ∀ j, (t.proc j).parent = if (s.proc j).parent = some p then some initproc else (s.proc j).parent :=
    fun j => by rw [slot]
  have pcs : ∀ j, (t.proc j).pc = (s.proc j).pc := fun j => by rw [slot]
  have chans : ∀ j, (t.proc j).chan = (s.proc j).chan := fun j => by rw [slot]
  have gone : (t.proc p).state = .zombie := by rw [slot]; exact if_pos rfl
  have states : ∀ j, j ≠ p → (t.proc j).state = (s.proc j).state ∨
      ((s.proc j).state = .sleeping ∧ (t.proc j).state = .runnable) := by
    intro j apart
    rw [slot]
    dsimp only
    rw [if_neg apart]
    split
    next asleep => exact .inr ⟨asleep.1, rfl⟩
    next => exact .inl rfl
  have live : ∀ j, j ≠ p → ((t.proc j).Live ↔ (s.proc j).Live) := fun j apart => by
    rcases states j apart with same | ⟨before, after⟩
    · rw [Slot.Live, Slot.Live, same]
    · exact iff_of_true (.inr (.inl after)) (.inl before)
  have dead : ∀ j, j ≠ p → ∀ st, st ≠ .sleeping → st ≠ .runnable → ((t.proc j).state = st ↔ (s.proc j).state = st) := by
    intro j apart st notSleeping notRunnable
    rcases states j apart with same | ⟨before, after⟩
    · rw [same]
    · rw [before, after]
      exact iff_of_false notRunnable.symm notSleeping.symm
  have alive : (t.proc initproc).Live := (live _ other.symm).mpr inv.init.1
  have notEmbryo : ∀ j, (s.proc j).parent = some p → (s.proc j).state ≠ .embryo := fun j child state => by
    have := inv.embryo p j state child
    rw [running.2] at this
    cases this
  constructor
  case init =>
    refine ⟨alive, ?_⟩
    rw [parents, inv.init.2, if_neg fun wrong => nomatch wrong]
  case unused =>
    intro i none
    have apart : i ≠ p := fun same => by rw [same, gone] at none; cases none
    have before := inv.unused i ((dead i apart _ (by decide) (by decide)).mp none)
    rw [parents, before, if_neg fun wrong => nomatch wrong]
  case idle =>
    intro i not
    rw [pcs]
    by_cases same : i = p
    · rw [same, running.2]
    · exact inv.idle i fun here => not ((live i same).mpr here)
  case taken =>
    intro q x here
    rw [pcs] at here
    have state := inv.taken q x here
    have apart : x ≠ p := fun same => by rw [same, running.1] at state; cases state
    exact (dead x apart _ (by decide) (by decide)).mpr state
  case apart =>
    intro q r x first second
    rw [pcs] at first second
    exact inv.apart q r x first second
  case ready =>
    intro q x here
    rw [pcs] at here
    have child := inv.ready q x here
    have apart : q ≠ p := fun same => by rw [same, running.2] at here; cases here
    rw [parents, child, if_neg fun same => apart (Option.some.inj same)]
  case embryo =>
    intro q x state child
    have apart : x ≠ p := fun same => by rw [same, gone] at state; cases state
    have before := (dead x apart _ (by decide) (by decide)).mp state
    rw [parents] at child
    split at child
    next mine => exact absurd before (notEmbryo x mine)
    next =>
      rw [pcs]
      exact inv.embryo q x before child
  case parent =>
    intro i notUnused notEmbryo' apart
    rw [parents]
    split
    next => exact ⟨initproc, rfl, alive⟩
    next notMine =>
      have before : (s.proc i).state ≠ .unused ∧ (s.proc i).state ≠ .embryo := by
        by_cases same : i = p
        · rw [same, running.1]
          exact ⟨(fun wrong => nomatch wrong), fun wrong => nomatch wrong⟩
        · exact ⟨fun h => notUnused ((dead i same _ (by decide) (by decide)).mpr h),
            fun h => notEmbryo' ((dead i same _ (by decide) (by decide)).mpr h)⟩
      obtain ⟨q, parent, here⟩ := inv.parent i before.1 before.2 apart
      have distinct : q ≠ p := fun same => notMine (same ▸ parent)
      exact ⟨q, parent, (live q distinct).mpr here⟩
  case self =>
    intro i
    rw [parents]
    split
    next mine =>
      intro same
      rw [← Option.some.inj same, inv.init.2] at mine
      cases mine
    next => exact inv.self i
  case waiting =>
    intro i here asleep
    rw [pcs] at here
    have apart : i ≠ p := fun same => by rw [same, gone] at asleep; cases asleep
    have before : (s.proc i).state = .sleeping := by
      rcases states i apart with same | ⟨before, -⟩
      · rw [← same, asleep]
      · exact before
    obtain ⟨chan, none⟩ := inv.waiting i here before
    -- it has not been woken, so it is not the parent and no zombie has come to it
    have notWoken : ¬ ((s.proc i).chan = (s.proc p).parent.map .proc ∨
        ((s.proc i).chan = some (.proc initproc) ∧ Leaves s.proc p (List.finRange NPROC))) := by
      intro woken
      have now : (t.proc i).state = .runnable := by
        rw [slot]
        dsimp only
        rw [if_neg apart, if_pos ⟨before, woken⟩]
      rw [now] at asleep
      cases asleep
    rw [not_or] at notWoken
    refine ⟨by rw [chans, chan], fun j child state => ?_⟩
    rw [parents] at child
    split at child
    next mine =>
      obtain rfl : initproc = i := Option.some.inj child
      refine notWoken.2 ⟨chan, j, List.mem_finRange j, mine, ?_⟩
      have distinct : j ≠ p := fun same => inv.self p (same ▸ mine)
      exact (dead j distinct _ (by decide) (by decide)).mp state
    next =>
      by_cases same : j = p
      · refine notWoken.1 ?_
        rw [chan, ← same, child]
        rfl
      · exact none j child ((dead j same _ (by decide) (by decide)).mp state)

theorem Inv.forkMove {pc : Pc} (inv : Inv s) (forks : Forks s t p np pc) : Inv t := by
  have notLive : ¬ (s.proc np).Live := fun live => forks.vacant.elim live.ne_unused live.ne_embryo
  exact inv.change forks.running notLive forks.mine forks.before forks.kept forks.caller forks.awake forks.idle forks.after

theorem Inv.reap {i : Fin NPROC} (inv : Inv s) (reaps : Reaps s t p i) : Inv t := by
  have notLive : ¬ (s.proc i).Live := fun live => live.ne_zombie reaps.state
  refine inv.change reaps.running notLive (fun q taken => ?_) (.inl reaps.quiet) reaps.kept reaps.caller
    (fun wrong => nomatch wrong) (reaps.idle (inv.idle i notLive)) (.inl ⟨reaps.freed.1, reaps.freed.2.1, rfl⟩)
  have embryo := inv.taken q i taken
  rw [reaps.state] at embryo
  cases embryo

end Preserved

section Steps

variable {s t : State} {p np : Fin NPROC}

theorem Still.refl (inv : Inv s) : Still s s where
  parent _ := rfl
  state _ := .inl rfl
  pc _ := .inl rfl
  waiting := inv.waiting
  id _ := rfl
  births := rfl
  history := rfl

theorem Still.set (inv : Inv s) {slot : Slot} (state : slot.state = (s.proc p).state ∨ ((s.proc p).Live ∧ slot.Live))
    (parent : slot.parent = (s.proc p).parent) (id : slot.id = (s.proc p).id)
    (pc : slot.pc = (s.proc p).pc ∨ ((s.proc p).pc.forks = none ∧ slot.pc.forks = none ∧ slot.Live))
    (waiting : slot.pc = .wait → slot.state = .sleeping → slot.chan = some (.proc p) ∧
      ∀ j, (s.proc j).parent = some p → (s.proc j).state ≠ .zombie) : Still s (s.set p slot) where
  parent j := by
    by_cases same : j = p
    · rw [same, set_self, parent]
    · rw [set_of_ne _ _ same]
  state j := by
    by_cases same : j = p
    · rw [same, set_self]
      exact state
    · rw [set_of_ne _ _ same]
      exact .inl rfl
  pc j := by
    by_cases same : j = p
    · rw [same, set_self]
      exact pc
    · rw [set_of_ne _ _ same]
      exact .inl rfl
  waiting i := by
    by_cases same : i = p
    · rw [same, set_self]
      exact waiting
    · rw [set_of_ne _ _ same]
      exact inv.waiting i
  id j := by
    by_cases same : j = p
    · rw [same, set_self, id]
    · rw [set_of_ne _ _ same]
  births := rfl
  history := rfl

theorem Still.wakeup1 (inv : Inv s) (chan : Option Chan) : Still s { s with proc := Ptable.wakeup1 s.proc chan } := by
  have slot : ∀ j, Ptable.wakeup1 s.proc chan j = s.proc j ∨
      ((s.proc j).state = .sleeping ∧ Ptable.wakeup1 s.proc chan j = { s.proc j with state := .runnable }) := by
    intro j
    unfold Ptable.wakeup1
    split
    next asleep => exact .inr ⟨asleep.1, rfl⟩
    next => exact .inl rfl
  constructor
  case parent => intro j; rcases slot j with here | ⟨-, here⟩ <;> simp only [here]
  case state =>
    intro j
    rcases slot j with same | ⟨asleep, woken⟩
    · exact .inl (by simp only [same])
    · exact .inr ⟨.inl asleep, .inr (.inl (by simp only [woken]))⟩
  case pc => intro j; rcases slot j with here | ⟨-, here⟩ <;> exact .inl (by simp only [here])
  case waiting =>
    intro i here asleep
    rcases slot i with same | ⟨-, woken⟩
    · simp only [same] at here asleep ⊢
      exact inv.waiting i here asleep
    · simp only [woken] at asleep
      cases asleep
  case id => intro j; rcases slot j with here | ⟨-, here⟩ <;> simp only [here]
  case births => rfl
  case history => rfl

theorem Still.kill (inv : Inv s) (i : Fin NPROC) : Still s (s.set i { s.proc i with
    killed := true
    state := if (s.proc i).state = .sleeping then .runnable else (s.proc i).state }) := by
  by_cases asleep : (s.proc i).state = .sleeping
  · rw [if_pos asleep]
    exact .set inv (.inr ⟨.inl asleep, .inr (.inl rfl)⟩) rfl rfl (.inl rfl) fun _ wrong => nomatch wrong
  · rw [if_neg asleep]
    exact .set inv (.inl rfl) rfl rfl (.inl rfl) (inv.waiting i)

theorem Inv.unready (inv : Inv s) (own : (s.proc p).pc.forks = some np) (early : (s.proc p).pc ≠ .forkReady np) :
    (s.proc np).parent = none := by
  cases parent : (s.proc np).parent with
  | none => rfl
  | some q =>
    have ready := inv.embryo q np (inv.taken p np own) parent
    obtain rfl := inv.apart q p np (by rw [ready]; rfl) own
    exact absurd ready early

theorem Forks.giveUp (inv : Inv s) (running : (s.proc p).state = .running) (own : (s.proc p).pc.forks = some np)
    (early : (s.proc p).pc ≠ .forkReady np) : Forks s (s.giveUp p np) p np .user := by
  have embryo := inv.taken p np own
  have notLive : ¬ (s.proc np).Live := fun live => live.ne_embryo embryo
  have distinct : np ≠ p := fun same => by rw [same, running] at embryo; cases embryo
  have slot : (s.giveUp p np).proc np = { s.proc np with state := .unused } := by
    rw [State.giveUp, goto_of_ne _ _ distinct, set_self]
  have orphan := inv.unready own early
  constructor
  case running => exact running
  case vacant => exact .inr embryo
  case mine => exact fun q here => inv.apart q p np here own
  case before => exact .inr own
  case kept => exact fun j first second => by rw [State.giveUp, goto_of_ne _ _ first, set_of_ne _ _ second]
  case caller => rw [State.giveUp, goto_self, set_of_ne _ _ distinct.symm]
  case awake => exact fun wrong => nomatch wrong
  case idle => rw [slot]; exact inv.idle np notLive
  case after => rw [slot]; exact .inl ⟨rfl, orphan, rfl⟩
  case unborn => exact fun _ => ⟨rfl, rfl⟩
  case born => rw [slot]; exact fun wrong => nomatch wrong

theorem Forks.proceed (inv : Inv s) {pc : Pc} {slot : Slot} (running : (s.proc p).state = .running)
    (own : (s.proc p).pc.forks = some np) (awake : pc ≠ .wait) (user : slot.pc = .user)
    (kept : ∀ j, j ≠ p → j ≠ np → t.proc j = s.proc j) (caller : t.proc p = { s.proc p with pc := pc })
    (child : t.proc np = slot)
    (after : (slot.state = .embryo ∧ pc.forks = some np ∧
        (slot.parent = some p ∧ pc = .forkReady np ∨ slot.parent = none ∧ pc ≠ .forkReady np)) ∨
      (slot.state = .runnable ∧ slot.parent = some p ∧ pc.forks = none))
    (unborn : slot.state ≠ .runnable → t.births = s.births ∧ t.history = s.history)
    (born : slot.state = .runnable → slot.id = s.births ∧ t.births = s.births + 1 ∧
      t.history = .forked s.births (s.proc p).id :: s.history) : Forks s t p np pc where
  running := running
  vacant := .inr (inv.taken p np own)
  mine := fun q here => inv.apart q p np here own
  before := .inr own
  kept := kept
  caller := caller
  awake := awake
  idle := by rw [child, user]
  after := by rw [child]; exact .inr after
  unborn := by rw [child]; exact unborn
  born := by rw [child]; exact born

theorem Inv.taken_apart (inv : Inv s) (own : (s.proc p).pc.forks = some np) (running : (s.proc p).state = .running) :
    np ≠ p := fun same => by
  have embryo := inv.taken p np own
  rw [same, running] at embryo
  cases embryo

theorem scan_cases (inv : Inv s) (running : (s.proc p).state = .running) (quiet : (s.proc p).pc.forks = none) :
    Still s (scan s p) ∨ ∃ i, Reaps s (scan s p) p i := by
  have live := Slot.live_of_running running
  unfold scan
  split
  next i found =>
    have test := List.find?_some found
    simp only [decide_eq_true_eq] at test
    obtain ⟨child, state⟩ := test
    have distinct : i ≠ p := fun same => by rw [same, running] at state; cases state
    have slot : ((s.set i { s.proc i with pid := 0, parent := none, killed := false, state := .unused }).goto p .user).proc i =
        { s.proc i with pid := 0, parent := none, killed := false, state := .unused } := by
      rw [goto_of_ne _ _ distinct, set_self]
    refine .inr ⟨i, ?_⟩
    constructor
    case running => exact running
    case quiet => exact quiet
    case child => exact child
    case state => exact state
    case kept => exact fun j first second => (goto_of_ne _ _ first).trans (set_of_ne _ _ second)
    case caller => exact (goto_self ..).trans (by rw [set_of_ne _ _ distinct.symm])
    case freed => exact ⟨congrArg Slot.state slot, congrArg Slot.parent slot, congrArg Slot.killed slot⟩
    case idle => exact fun user => (congrArg Slot.pc slot).trans user
    case births => rfl
    case history => rfl
  next missing =>
    have none : ∀ j, (s.proc j).parent = some p → (s.proc j).state ≠ .zombie := by
      intro j child state
      have := List.find?_eq_none.mp missing j (List.mem_finRange j)
      rw [decide_eq_true_eq] at this
      exact this ⟨child, state⟩
    refine .inl ?_
    split
    · exact .set inv (.inl rfl) rfl rfl (.inr ⟨quiet, rfl, live⟩) fun wrong => nomatch wrong
    · exact .set inv (.inr ⟨live, .inl rfl⟩) rfl rfl (.inr ⟨quiet, rfl, .inl rfl⟩) fun _ _ => ⟨rfl, none⟩

theorem step_cases {l : Label} (inv : Inv s) (taken : step s l = some t) :
    Still s t ∨ (∃ p np pc, Forks s t p np pc) ∨ (∃ p, Exits s t p) ∨ ∃ p i, Reaps s t p i := by
  cases l with
  | fork p =>
    simp only [step] at taken
    split at taken
    next here =>
      split at taken
      next =>
        cases taken
        exact .inl (.refl inv)
      next np found =>
        have free : (s.proc np).state = .unused := by simpa using List.find?_some found
        have distinct : np ≠ p := fun same => by rw [same, here.1] at free; cases free
        have notLive : ¬ (s.proc np).Live := fun live => live.ne_unused free
        cases taken
        have slot : ((s.set np { s.proc np with state := .embryo, pid := s.nextpid }).goto p (.forkStack np)).proc np =
            { s.proc np with state := .embryo, pid := s.nextpid } := by
          rw [goto_of_ne _ _ distinct, set_self]
        refine .inr (.inl ⟨p, np, .forkStack np, ?_⟩)
        constructor
        case running => exact here.1
        case vacant => exact .inl free
        case mine =>
          intro q own
          have embryo := inv.taken q np own
          rw [free] at embryo
          cases embryo
        case before => exact .inl (by rw [here.2]; rfl)
        case kept => exact fun j first second => (goto_of_ne _ _ first).trans (set_of_ne _ _ second)
        case caller => exact (goto_self ..).trans (by rw [set_of_ne _ _ distinct.symm])
        case awake => exact fun wrong => nomatch wrong
        case idle => exact (congrArg Slot.pc slot).trans (inv.idle np notLive)
        case after =>
          refine .inr (.inl ⟨congrArg Slot.state slot, rfl, .inr ⟨?_, fun wrong => nomatch wrong⟩⟩)
          exact (congrArg Slot.parent slot).trans (inv.unused np free)
        case unborn => exact fun _ => ⟨rfl, rfl⟩
        case born => exact fun wrong => nomatch (congrArg Slot.state slot).symm.trans wrong
    next => cases taken
  | forkStack p ok =>
    simp only [step] at taken
    split at taken
    next np running pc =>
      have own : (s.proc p).pc.forks = some np := by rw [pc]; rfl
      have distinct := inv.taken_apart own running
      have embryo := inv.taken p np own
      have early : (s.proc p).pc ≠ .forkReady np := by rw [pc]; exact fun wrong => nomatch wrong
      cases taken
      refine .inr (.inl ⟨p, np, ?_⟩)
      cases ok with
      | false => exact ⟨_, .giveUp inv running own early⟩
      | true =>
        refine ⟨.forkCopy np, .proceed inv running own (fun wrong => nomatch wrong) ?_
          (fun j first _ => goto_of_ne _ _ first) (goto_self ..) (goto_of_ne _ _ distinct) ?_
          (fun _ => ⟨rfl, rfl⟩) ?_⟩
        · exact inv.idle np fun live => live.ne_embryo embryo
        · exact .inl ⟨embryo, rfl, .inr ⟨inv.unready own early, fun wrong => nomatch wrong⟩⟩
        · rw [embryo]
          exact fun wrong => nomatch wrong
    next => cases taken
  | forkCopy p ok =>
    simp only [step] at taken
    split at taken
    next np running pc =>
      have own : (s.proc p).pc.forks = some np := by rw [pc]; rfl
      have distinct := inv.taken_apart own running
      have embryo := inv.taken p np own
      cases taken
      refine .inr (.inl ⟨p, np, ?_⟩)
      cases ok with
      | false => exact ⟨_, .giveUp inv running own (by rw [pc]; exact fun wrong => nomatch wrong)⟩
      | true =>
        refine ⟨.forkReady np, .proceed inv running own (fun wrong => nomatch wrong) ?_
          (fun j first second => (goto_of_ne _ _ first).trans (set_of_ne _ _ second))
          ((goto_self ..).trans (by rw [set_of_ne _ _ distinct.symm]))
          ((goto_of_ne _ _ distinct).trans (set_self ..)) ?_ (fun _ => ⟨rfl, rfl⟩) ?_⟩
        · exact inv.idle np fun live => live.ne_embryo embryo
        · exact .inl ⟨embryo, rfl, .inl ⟨rfl, rfl⟩⟩
        · exact fun wrong => nomatch embryo.symm.trans wrong
    next => cases taken
  | forkDone p =>
    simp only [step] at taken
    split at taken
    next np running pc =>
      have own : (s.proc p).pc.forks = some np := by rw [pc]; rfl
      have distinct := inv.taken_apart own running
      cases taken
      refine .inr (.inl ⟨p, np, .user, .proceed inv running own (fun wrong => nomatch wrong) ?_
          (fun j first second => (goto_of_ne _ _ first).trans (set_of_ne _ _ second))
          ((goto_self ..).trans (by rw [set_of_ne _ _ distinct.symm]))
          ((goto_of_ne _ _ distinct).trans (set_self ..)) ?_ ?_ fun _ => ⟨rfl, rfl, rfl⟩⟩)
      · rfl
      · exact .inr ⟨rfl, inv.ready p np pc, rfl⟩
      · exact fun wrong => absurd rfl wrong
    next => cases taken
  | exit p =>
    obtain ⟨here, rfl⟩ := of_guard taken
    exact .inr (.inr (.inl ⟨p, here.1, here.2, rfl, rfl, rfl⟩))
  | wait p =>
    obtain ⟨here, rfl⟩ := of_guard taken
    have quiet : (s.proc p).pc.forks = none := by
      rcases here with here | here <;> rw [here.2] <;> rfl
    have running : (s.proc p).state = .running := here.elim (·.1) (·.1)
    exact (scan_cases inv running quiet).imp_right fun ⟨i, reaps⟩ => .inr (.inr ⟨p, i, reaps⟩)
  | kill p pid =>
    obtain ⟨-, taken⟩ := Option.ite_none_right_eq_some.mp taken
    split at taken <;> cases taken
    · exact .inl (.kill inv _)
    · exact .inl (.refl inv)
  | sleep p chan =>
    obtain ⟨here, rfl⟩ := of_guard taken
    refine .inl (.set inv (.inr ⟨Slot.live_of_running here.1, .inl rfl⟩) rfl rfl (.inl rfl) fun wait => ?_)
    exact nomatch here.2.symm.trans wait
  | wakeup chan =>
    cases taken
    exact .inl (.wakeup1 inv _)
  | yield p =>
    obtain ⟨running, rfl⟩ := of_guard taken
    exact .inl (.set inv (.inr ⟨Slot.live_of_running running, .inr (.inl rfl)⟩) rfl rfl (.inl rfl) fun _ wrong => nomatch wrong)
  | schedule p =>
    obtain ⟨runnable, rfl⟩ := of_guard taken
    exact .inl (.set inv (.inr ⟨.inr (.inl runnable), .inr (.inr rfl)⟩) rfl rfl (.inl rfl) fun _ wrong => nomatch wrong)

end Steps

end Xv6.Ptable
