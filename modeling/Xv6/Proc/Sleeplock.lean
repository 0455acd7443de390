import Xv6.Lib.Transition
import Xv6.Proc.Sleep

/-! Sleep-locks, between the acquisitions and releases of `lk->lk` and `ptable.lock`. A waiter gives
up `lk->lk` only after it has `ptable.lock`, under which the releaser makes its wakeup. -/

namespace Xv6.Sleeplock
open Lib Lib.Transition Proc Function Option Transition

/-- Where a process is, by what it does next. -/
inductive Pc (Λ ι : Type) where
  | user
  -- `acquire(&lk->lk)`, at the start of `acquiresleep` or at the end of `sleep`
  | enter (l : Λ)
  -- `while (lk->locked)`
  | test (l : Λ)
  -- in `sleep`: `acquire(&ptable.lock)`, `release(lk)`, the new state, and `sched`
  | sleep (l : Λ)
  | drop (l : Λ)
  | mark (l : Λ)
  | sched (l : Λ)
  | parked (l : Λ)
  -- in `sleep` again: `p->chan = 0; release(&ptable.lock)`
  | woken (l : Λ)
  -- `release(&lk->lk)` with the lock taken
  | taken (l : Λ)
  -- `releasesleep`: `acquire(&lk->lk)`, `lk->locked = 0`
  | relEnter (l : Λ)
  | clear (l : Λ)
  -- in `wakeup`: `acquire(&ptable.lock)`, `wakeup1`, `release(&ptable.lock)`
  | wake (l : Λ)
  | wakeup1 (l : Λ)
  | wakeDone (l : Λ)
  -- `release(&lk->lk)`
  | relDone (l : Λ)
  -- `kill`
  | kill (j : ι)
  | killing (j : ι)
  | killDone

inductive Holder (ι : Type) where
  | proc (i : ι)
  | scheduler

structure State (Λ ι : Type) where
  ptable : Option (Holder ι)
  -- the fields of each `struct sleeplock`
  lk : Λ → Option ι
  locked : Λ → Bool
  pid : Λ → Option ι
  proc : ι → Proc Λ (Pc Λ ι)
  -- `i` has set `locked` of the lock, and has not cleared it
  held : ι → Λ → Bool

inductive Label (Λ ι : Type) where
  | acquiresleep (i : ι) (l : Λ)
  | releasesleep (i : ι) (l : Λ)
  | kill (i j : ι)
  -- the process takes its next step
  | go (i : ι)
  -- `scheduler`
  | schedAcquire
  | dispatch (i : ι)
  | schedRelease

section Step

variable {Λ ι : Type} [DecidableEq Λ] [DecidableEq ι] (s : State Λ ι)

def State.goto (i : ι) (pc : Pc Λ ι) : State Λ ι := { s with proc := jump s.proc i pc }

/-- Process `i` goes from where it is to the next acquisition or release. -/
def go (i : ι) : Option (State Λ ι) :=
  match (s.proc i).pc with
  | .user | .parked _ => none
  | .enter l => if s.lk l = none then some { s.goto i (.test l) with lk := update s.lk l (some i) } else none
  | .test l =>
    if s.locked l then some (s.goto i (.sleep l))
    else some { s.goto i (.taken l) with
      locked := update s.locked l true
      pid := update s.pid l (some i)
      held := update s.held i (update (s.held i) l true) }
  | .taken l => some { s.goto i .user with lk := update s.lk l none }
  | .sleep l =>
    match s.ptable with
    | none => some { s.goto i (.drop l) with ptable := some (.proc i) }
    | some _ => none
  | .drop l => some { s.goto i (.mark l) with lk := update s.lk l none }
  | .mark l => some { s with proc := Proc.sleep s.proc i l (.sched l) }
  | .sched l => some { s.goto i (.parked l) with ptable := some .scheduler }
  | .woken l =>
    some { s with
      proc := update s.proc i { s.proc i with chan := none, pc := .enter l }
      ptable := none }
  | .relEnter l => if s.lk l = none then some { s.goto i (.clear l) with lk := update s.lk l (some i) } else none
  | .clear l =>
    some { s.goto i (.wake l) with
      locked := update s.locked l false
      pid := update s.pid l none
      held := update s.held i (update (s.held i) l false) }
  | .wake l =>
    match s.ptable with
    | none => some { s.goto i (.wakeup1 l) with ptable := some (.proc i) }
    | some _ => none
  | .wakeup1 l => some { s with proc := jump (Proc.wakeup1 s.proc l) i (.wakeDone l) }
  | .wakeDone l => some { s.goto i (.relDone l) with ptable := none }
  | .relDone l => some { s.goto i .user with lk := update s.lk l none }
  | .kill j =>
    match s.ptable with
    | none => some { s.goto i (.killing j) with ptable := some (.proc i) }
    | some _ => none
  | .killing j => some { s with proc := jump (Proc.kill s.proc j) i .killDone }
  | .killDone => some { s.goto i .user with ptable := none }

/-- The calls, and the scheduler. A process releases only what it holds. -/
def step : Label Λ ι → Option (State Λ ι)
  | .acquiresleep i l =>
    match (s.proc i).pc with
    | .user => some (s.goto i (.enter l))
    | _ => none
  | .releasesleep i l =>
    match (s.proc i).pc with
    | .user => if s.held i l then some (s.goto i (.relEnter l)) else none
    | _ => none
  | .kill i j =>
    match (s.proc i).pc with
    | .user => some (s.goto i (.kill j))
    | _ => none
  | .go i => go s i
  | .schedAcquire =>
    match s.ptable with
    | none => some { s with ptable := some .scheduler }
    | some _ => none
  | .dispatch i =>
    match s.ptable, (s.proc i).state, (s.proc i).pc with
    | some .scheduler, .runnable, .parked l =>
      some { s with
        proc := update s.proc i { s.proc i with state := .running, pc := .woken l }
        ptable := some (.proc i) }
    | _, _, _ => none
  | .schedRelease =>
    match s.ptable with
    | some .scheduler => some { s with ptable := none }
    | _ => none

structure Initial : Prop where
  ptable : s.ptable = none
  lk : ∀ l, s.lk l = none
  locked : ∀ l, s.locked l = false
  user : ∀ i, (s.proc i).pc = .user
  awake : ∀ i, (s.proc i).state ≠ .sleeping
  held : ∀ i l, s.held i l = false

end Step

def Pc.lk {Λ ι : Type} : Pc Λ ι → Option Λ
  | .test l | .sleep l | .drop l | .taken l | .clear l | .wake l | .wakeup1 l | .wakeDone l | .relDone l => some l
  | _ => none

def Pc.ptable {Λ ι : Type} : Pc Λ ι → Bool
  | .drop _ | .mark _ | .sched _ | .woken _ | .wakeup1 _ | .wakeDone _ | .killing _ | .killDone => true
  | _ => false

variable {Λ ι : Type}

/-- The process has cleared the lock and has not made its wakeup. -/
def Pc.wakes : Pc Λ ι → Option Λ
  | .wake l | .wakeup1 l => some l
  | _ => none

/-- What a process needs of a lock to be where it is. -/
def Pc.Needs (s : State Λ ι) (i : ι) : Pc Λ ι → Prop
  | .relEnter l | .clear l => s.held i l = true
  | .sleep l | .drop l => s.locked l = true
  | _ => True

/-- What a process needs of a lock to go to the next place. -/
def Pc.Enters (s : State Λ ι) (i : ι) : Pc Λ ι → Prop
  | .mark l => s.locked l = true
  | pc => pc.Needs s i

/-- A process may sleep on the lock: it is taken, or a wakeup is on its way. -/
def MaySleep (s : State Λ ι) (l : Λ) : Prop := s.locked l = true ∨ ∃ j, (s.proc j).pc.wakes = some l

structure Inv (s : State Λ ι) : Prop where
  lk : ∀ i l, (s.proc i).pc.lk = some l ↔ s.lk l = some i
  ptable : ∀ i, (s.proc i).pc.ptable = true ↔ s.ptable = some (.proc i)
  one : ∀ i j l, s.held i l = true → s.held j l = true → i = j
  locked : ∀ i l, s.held i l = true → s.locked l = true
  needs : ∀ i, (s.proc i).pc.Needs s i
  marks : ∀ i l, (s.proc i).pc = .mark l → MaySleep s l
  sleeps : ∀ i l, (s.proc i).SleepsOn l → MaySleep s l

variable {s t : State Λ ι} {i : ι} {l : Λ} {before pc : Pc Λ ι}

theorem Pc.Enters.needs (enters : pc.Enters s i) : pc.Needs s i := by
  cases pc <;> first | exact enters | exact trivial

/-- What process `i` may change in one step: its own spinlocks, and only it moves. -/
structure Moves (i : ι) (s t : State Λ ι) : Prop where
  pc : ∀ j, j ≠ i → (t.proc j).pc = (s.proc j).pc
  lk : ∀ l, t.lk l = s.lk l ∨ (s.lk l = none ∨ s.lk l = some i) ∧ (t.lk l = none ∨ t.lk l = some i)
  myLk : ∀ l, (t.proc i).pc.lk = some l ↔ t.lk l = some i
  ptable : t.ptable = s.ptable ∨ (∀ j, s.ptable = some (.proc j) → j = i) ∧ ∀ j, t.ptable = some (.proc j) → j = i
  myPtable : (t.proc i).pc.ptable = true ↔ t.ptable = some (.proc i)

theorem Moves.lk_iff (moves : Moves i s t) (inv : Inv s) (j : ι) (l : Λ) :
    (t.proc j).pc.lk = some l ↔ t.lk l = some j := by
  by_cases mine : j = i
  · exact mine ▸ moves.myLk l
  · rw [moves.pc j mine, inv.lk j l]
    rcases moves.lk l with same | ⟨before, after⟩
    · rw [same]
    · grind

theorem Moves.ptable_iff (moves : Moves i s t) (inv : Inv s) (j : ι) :
    (t.proc j).pc.ptable = true ↔ t.ptable = some (.proc j) := by
  by_cases mine : j = i
  · exact mine ▸ moves.myPtable
  · rw [moves.pc j mine, inv.ptable j]
    rcases moves.ptable with same | ⟨before, after⟩
    · rw [same]
    · grind

theorem Inv.move (inv : Inv s) (moves : Moves i s t) (locked : t.locked = s.locked) (held : t.held = s.held)
    (needs : (t.proc i).pc.Needs s i) (marks : ∀ l, (t.proc i).pc = .mark l → MaySleep t l)
    (others : ∀ j l, j ≠ i → (s.proc j).pc = .mark l → MaySleep s l → MaySleep t l)
    (sleeps : ∀ j l, (t.proc j).SleepsOn l → MaySleep t l) : Inv t where
  lk := moves.lk_iff inv
  ptable := moves.ptable_iff inv
  one := held ▸ inv.one
  locked := by rw [held, locked]; exact inv.locked
  needs j := by
    have same : ∀ pc : Pc Λ ι, pc.Needs t j ↔ pc.Needs s j := fun pc => by cases pc <;> simp [Pc.Needs, held, locked]
    rw [same]
    by_cases mine : j = i
    · exact mine ▸ needs
    · rw [moves.pc j mine]
      exact inv.needs j
  marks j l here := by
    by_cases mine : j = i
    · subst mine
      exact marks l here
    · rw [moves.pc j mine] at here
      exact others j l mine here (inv.marks j l here)
  sleeps := sleeps

section Go

variable [DecidableEq ι]

variable {ptable : Option (Holder ι)}

theorem Inv.goto (inv : Inv s) {lk : Λ → Option ι}
    (lks : ∀ l, lk l = s.lk l ∨ (s.lk l = none ∨ s.lk l = some i) ∧ (lk l = none ∨ lk l = some i))
    (myLk : ∀ l, pc.lk = some l ↔ lk l = some i)
    (ptables : ptable = s.ptable ∨ (∀ j, s.ptable = some (.proc j) → j = i) ∧ ∀ j, ptable = some (.proc j) → j = i)
    (myPtable : pc.ptable = true ↔ ptable = some (.proc i))
    (wakes : (s.proc i).pc.wakes = none ∨ (s.proc i).pc.wakes = pc.wakes) (enters : pc.Enters s i) :
    Inv { s.goto i pc with lk := lk, ptable := ptable } := by
  have here : (jump s.proc i pc i).pc = pc := jump_self_pc ..
  have there (j : ι) (other : j ≠ i) : (jump s.proc i pc j).pc = (s.proc j).pc := by rw [jump_of_ne other]
  have maySleep (l : Λ) (may : MaySleep s l) : MaySleep { s.goto i pc with lk := lk, ptable := ptable } l := by
    refine may.imp id fun ⟨j, waking⟩ => ⟨j, ?_⟩
    by_cases mine : j = i
    · subst mine
      simpa only [State.goto, here, waking, reduceCtorEq, false_or, eq_comm] using wakes
    · simpa only [State.goto, there j mine] using waking
  refine inv.move (i := i) ⟨there, lks, ?_, ptables, ?_⟩ rfl rfl ?_ ?_ (fun _ l _ _ => maySleep l) ?_
  · simpa only [State.goto, here] using myLk
  · simpa only [State.goto, here] using myPtable
  · simpa only [State.goto, here] using enters.needs
  · intro l marked
    rw [State.goto, here] at marked
    subst marked
    exact .inl enters
  · intro j l asleep
    exact maySleep l (inv.sleeps j l ((jump_sleepsOn ..).mp asleep))

section

variable (inv : Inv s) (here : (s.proc i).pc = before)
include inv here

theorem Inv.walk (lk : pc.lk = before.lk)
    (ptable : pc.ptable = before.ptable) (wakes : before.wakes = none) (enters : pc.Enters s i) : Inv (s.goto i pc) := by
  subst here
  exact inv.goto (fun _ => .inl rfl) (fun l => lk ▸ inv.lk i l) (.inl rfl) (ptable ▸ inv.ptable i) (.inl wakes) enters

theorem Inv.acquireLk [DecidableEq Λ] (free : s.lk l = none)
    (none : before.lk = none) (lk : pc.lk = some l) (ptable : pc.ptable = before.ptable) (wakes : before.wakes = .none)
    (enters : pc.Enters s i) : Inv { s.goto i pc with lk := update s.lk l (some i) } := by
  subst here
  refine inv.goto (fun m => ?_) (fun m => ?_) (.inl rfl) (ptable ▸ inv.ptable i) (.inl wakes) enters
  · by_cases same : m = l
    · exact .inr ⟨.inl (same ▸ free), .inr (by simp [same])⟩
    · exact .inl (by simp [same])
  · by_cases same : m = l
    · simp [same, lk]
    · have other := inv.lk i m
      simp only [none, reduceCtorEq, false_iff] at other
      simp [same, lk, Ne.symm same, other]

theorem Inv.releaseLk [DecidableEq Λ] (held : before.lk = some l)
    (lk : pc.lk = none) (ptable : pc.ptable = before.ptable) (wakes : before.wakes = none)
    (enters : pc.Enters s i) : Inv { s.goto i pc with lk := update s.lk l none } := by
  subst here
  refine inv.goto (fun m => ?_) (fun m => ?_) (.inl rfl) (ptable ▸ inv.ptable i) (.inl wakes) enters
  · by_cases same : m = l
    · exact .inr ⟨.inr (same ▸ (inv.lk i l).mp held), .inl (by simp [same])⟩
    · exact .inl (by simp [same])
  · by_cases same : m = l
    · simp [same, lk]
    · have other := inv.lk i m
      simp only [held, some.injEq, Ne.symm same, false_iff] at other
      simp [same, lk, other]

theorem Inv.acquirePtable (free : s.ptable = none)
    (lk : pc.lk = before.lk) (ptable : pc.ptable = true) (wakes : before.wakes = pc.wakes)
    (enters : pc.Enters s i) : Inv { s.goto i pc with ptable := some (.proc i) } := by
  subst here
  refine inv.goto (fun _ => .inl rfl) (fun l => lk ▸ inv.lk i l) (.inr ⟨fun j => ?_, fun j => ?_⟩) ?_ (.inr wakes) enters
  · simp [free]
  · simp only [some.injEq, Holder.proc.injEq]
    exact Eq.symm
  · simp [ptable]

theorem Inv.releasePtable (held : before.ptable = true)
    {after : Option (Holder ι)} (nobody : ∀ j, after ≠ some (.proc j)) (lk : pc.lk = before.lk)
    (ptable : pc.ptable = false) (wakes : before.wakes = none) (enters : pc.Enters s i) :
    Inv { s.goto i pc with ptable := after } := by
  subst here
  refine inv.goto (fun _ => .inl rfl) (fun l => lk ▸ inv.lk i l) (.inr ⟨fun j => ?_, fun j => ?_⟩) ?_ (.inl wakes) enters
  · simp only [(inv.ptable i).mp held, some.injEq, Holder.proc.injEq]
    exact Eq.symm
  · exact fun held => (nobody j held).elim
  · simp [ptable, nobody i]

end

omit [DecidableEq ι] in
theorem MaySleep.others (may : MaySleep s l) (locked : s.locked l = true → t.locked l = true)
    (pc : ∀ j, j ≠ i → (t.proc j).pc = (s.proc j).pc) (wakes : (s.proc i).pc.wakes ≠ some l) : MaySleep t l := by
  refine may.imp locked fun ⟨j, waking⟩ => ⟨j, ?_⟩
  have other : j ≠ i := by
    rintro rfl
    exact wakes waking
  rwa [pc j other]

omit [DecidableEq ι] in
theorem Inv.ptableStep (inv : Inv s) {proc : ι → Proc Λ (Pc Λ ι)}
    (others : ∀ j, j ≠ i → (proc j).pc = (s.proc j).pc) (lk : (proc i).pc.lk = (s.proc i).pc.lk)
    (ptables : ∀ j, s.ptable = some (.proc j) → j = i) (after : ∀ j, ptable = some (.proc j) → j = i)
    (myPtable : (proc i).pc.ptable = true ↔ ptable = some (.proc i)) (needs : (proc i).pc.Needs s i)
    (marks : ∀ l, (proc i).pc ≠ .mark l)
    (sleeps : ∀ j l, (proc j).SleepsOn l → MaySleep s l ∧ (s.proc i).pc.wakes ≠ some l) :
    Inv { s with proc := proc, ptable := ptable } := by
  refine inv.move (i := i) ⟨others, fun _ => .inl rfl, fun l => lk ▸ inv.lk i l, .inr ⟨ptables, after⟩, myPtable⟩ rfl rfl
    needs (fun l here => (marks l here).elim) (fun j l other here _ => ?_) fun j l asleep => ?_
  · -- a process about to mark itself would have `ptable.lock`
    have held := (inv.ptable j).mp (by rw [here]; rfl)
    exact (other (ptables j held)).elim
  · obtain ⟨may, wakes⟩ := sleeps j l asleep
    exact may.others id others wakes

omit [DecidableEq ι] in
theorem Inv.setLock (inv : Inv s) {locked : Λ → Bool} {pid : Λ → Option ι} {held : ι → Λ → Bool}
    (one : ∀ i j l, held i l = true → held j l = true → i = j) (holds : ∀ i l, held i l = true → locked l = true)
    (releases : ∀ i l, (s.proc i).pc = .relEnter l ∨ (s.proc i).pc = .clear l → s.held i l = true → held i l = true)
    (toSleep : ∀ i l, (s.proc i).pc = .sleep l ∨ (s.proc i).pc = .drop l → s.locked l = true → locked l = true)
    (may : ∀ l, s.locked l = true → locked l = true ∨ ∃ j, (s.proc j).pc.wakes = some l) :
    Inv { s with locked := locked, pid := pid, held := held } := by
  have maySleep (l : Λ) (before : MaySleep s l) : MaySleep { s with locked := locked, pid := pid, held := held } l := by
    rcases before with before | waking
    · exact may l before
    · exact .inr waking
  refine ⟨inv.lk, inv.ptable, one, holds, fun i => ?_, fun i l here => maySleep l (inv.marks i l here),
    fun i l asleep => maySleep l (inv.sleeps i l asleep)⟩
  have needs := inv.needs i
  cases here : (s.proc i).pc <;> simp only [here, Pc.Needs] at needs ⊢
  case relEnter l => exact releases i l (.inl here) needs
  case clear l => exact releases i l (.inr here) needs
  case sleep l => exact toSleep i l (.inl here) needs
  case drop l => exact toSleep i l (.inr here) needs

theorem Inv.take [DecidableEq Λ] (inv : Inv s) (here : (s.proc i).pc = .test l) (free : s.locked l = false) :
    Inv { s.goto i (.taken l) with
      locked := update s.locked l true
      pid := update s.pid l (some i)
      held := update s.held i (update (s.held i) l true) } := by
  have walked : Inv (s.goto i (.taken l)) := inv.walk here rfl rfl rfl trivial
  have nobody (j : ι) : ¬ s.held j l = true := fun holds => by simp [inv.locked j l holds] at free
  have held (j : ι) (m : Λ) : update s.held i (update (s.held i) l true) j m = true ↔
      s.held j m = true ∨ j = i ∧ m = l := by
    by_cases mine : j = i <;> by_cases same : m = l <;> simp [mine, same]
  have locked (m : Λ) (before : s.locked m = true) : update s.locked l true m = true := by
    by_cases same : m = l <;> simp [same, before]
  refine walked.setLock (fun j k m first second => ?_) (fun j m holds => ?_)
    (fun j m _ holds => (held j m).mpr (.inl holds)) (fun j m _ => locked m) fun m before => .inl (locked m before)
  · rcases (held j m).mp first with first | ⟨mine, same⟩ <;> rcases (held k m).mp second with second | ⟨yours, also⟩
    · exact inv.one j k m first second
    · exact (nobody j (also ▸ first)).elim
    · exact (nobody k (same ▸ second)).elim
    · rw [mine, yours]
  · rcases (held j m).mp holds with before | ⟨-, rfl⟩
    · exact locked m (inv.locked j m before)
    · simp

theorem Inv.clear [DecidableEq Λ] (inv : Inv s) (here : (s.proc i).pc = .clear l) :
    Inv { s.goto i (.wake l) with
      locked := update s.locked l false
      pid := update s.pid l none
      held := update s.held i (update (s.held i) l false) } := by
  have walked : Inv (s.goto i (.wake l)) := inv.walk here rfl rfl rfl trivial
  have now : ((s.goto i (.wake l)).proc i).pc = .wake l := jump_self_pc ..
  have holds : s.held i l = true := by simpa only [here, Pc.Needs] using inv.needs i
  have held (j : ι) (m : Λ) : update s.held i (update (s.held i) l false) j m = true ↔
      s.held j m = true ∧ m ≠ l := by
    by_cases mine : j = i
    · subst mine
      by_cases same : m = l <;> simp [same]
    · simp only [update_of_ne mine, iff_self_and]
      rintro also rfl
      exact mine (inv.one j i m also holds)
  have locked (m : Λ) (other : m ≠ l) : update s.locked l false m = s.locked m := by simp [other]
  refine walked.setLock (fun j k m first second => inv.one j k m ((held j m).mp first).1 ((held k m).mp second).1)
    (fun j m also => ?_) (fun j m there also => ?_) (fun j m there before => ?_) fun m before => ?_
  · rw [locked m ((held j m).mp also).2]
    exact inv.locked j m ((held j m).mp also).1
  · refine (held j m).mpr ⟨also, ?_⟩
    rintro rfl
    cases inv.one j i m also holds
    simp [now] at there
  · have other : m ≠ l := by
      rintro rfl
      have mine := (walked.lk i m).mp (by rw [now]; rfl)
      have yours := (walked.lk j m).mp (by rcases there with there | there <;> rw [there] <;> rfl)
      cases mine.symm.trans yours
      simp [now] at there
    exact (locked m other).trans before
  · by_cases same : m = l
    · exact .inr ⟨i, by rw [now, same]; rfl⟩
    · exact .inl ((locked m same).trans before)

theorem go_inv [DecidableEq Λ] (inv : Inv s) (taken : go s i = some t) : Inv t := by
  have needs := inv.needs i
  have holds := inv.ptable i
  have only (held : s.ptable = some (.proc i)) (j : ι) (also : s.ptable = some (.proc j)) : j = i := by
    cases held.symm.trans also
    rfl
  unfold go at taken
  cases here : (s.proc i).pc <;> simp only [here] at taken needs holds
  case user => cases taken
  case parked => cases taken
  case enter l =>
    obtain ⟨free, rfl⟩ := of_guard taken
    exact inv.acquireLk here free rfl rfl rfl rfl trivial
  case test l =>
    split at taken
    case isTrue locked =>
      cases taken
      exact inv.walk here rfl rfl rfl locked
    case isFalse free =>
      cases taken
      exact inv.take here (by simpa using free)
  case sleep l =>
    split at taken <;> cases taken
    exact inv.acquirePtable here ‹_› rfl rfl rfl needs
  case drop l =>
    cases taken
    exact inv.releaseLk here rfl rfl rfl rfl needs
  case mark l =>
    cases taken
    have held := holds.mp rfl
    refine inv.ptableStep (i := i) (fun j other => by rw [sleep_of_ne other]) (by simp [here, Pc.lk])
      (only held) (only held) (by simp [held, Pc.ptable]) (by simp [Pc.Needs]) (by simp) fun j m asleep => ?_
    refine ⟨?_, by simp [here, Pc.wakes]⟩
    by_cases mine : j = i
    · subst mine
      cases (sleep_self_sleepsOn ..).mp asleep
      exact inv.marks j l here
    · rw [sleep_of_ne mine] at asleep
      exact inv.sleeps j m asleep
  case sched l =>
    cases taken
    exact inv.releasePtable here rfl (by simp) rfl rfl rfl trivial
  case woken l =>
    cases taken
    have held := holds.mp rfl
    refine inv.ptableStep (i := i) (fun j other => by simp [other]) (by simp [here, Pc.lk]) (only held) (by simp)
      (by simp [Pc.ptable]) (by simp [Pc.Needs]) (by simp) fun j m asleep => ?_
    refine ⟨?_, by simp [here, Pc.wakes]⟩
    by_cases mine : j = i
    · simp [mine, SleepsOn] at asleep
    · rw [update_of_ne mine] at asleep
      exact inv.sleeps j m asleep
  case taken l | relDone l =>
    cases taken
    exact inv.releaseLk here rfl rfl rfl rfl trivial
  case relEnter l =>
    obtain ⟨free, rfl⟩ := of_guard taken
    exact inv.acquireLk here free rfl rfl rfl rfl needs
  case clear l =>
    cases taken
    exact inv.clear here
  case wake l =>
    split at taken <;> cases taken
    exact inv.acquirePtable here ‹_› rfl rfl rfl trivial
  case wakeup1 l =>
    cases taken
    have held := holds.mp rfl
    refine inv.ptableStep (i := i) (fun j other => ?_) (by simp [here, Pc.lk])
      (only held) (only held) (by simp [held, Pc.ptable]) (by simp [Pc.Needs]) (by simp) fun j m asleep => ?_
    · rw [jump_of_ne other]
      exact wakeup_pc ..
    · obtain ⟨before, other⟩ := (wakeup_sleepsOn s.proc l m j).mp ((jump_sleepsOn ..).mp asleep)
      exact ⟨inv.sleeps j m before, by simpa [here, Pc.wakes] using other.symm⟩
  case wakeDone l | killDone =>
    cases taken
    exact inv.releasePtable here rfl (by simp) rfl rfl rfl trivial
  case kill j =>
    split at taken <;> cases taken
    exact inv.acquirePtable here ‹_› rfl rfl rfl trivial
  case killing k =>
    cases taken
    have held := holds.mp rfl
    refine inv.ptableStep (i := i) (fun j other => ?_) (by simp [here, Pc.lk])
      (only held) (only held) (by simp [held, Pc.ptable]) (by simp [Pc.Needs]) (by simp) fun j m asleep => ?_
    · rw [jump_of_ne other]
      exact kill_pc ..
    · exact ⟨inv.sleeps j m (sleepsOn_of_kill _ _ _ _ ((jump_sleepsOn ..).mp asleep)), by simp [here, Pc.wakes]⟩

omit [DecidableEq ι] in
theorem Inv.scheduler (inv : Inv s) (before : ∀ i, s.ptable ≠ some (.proc i))
    (after : ∀ i, ptable ≠ some (.proc i)) : Inv { s with ptable := ptable } :=
  ⟨inv.lk, fun i => (inv.ptable i).trans (iff_of_false (before i) (after i)), inv.one, inv.locked, inv.needs, inv.marks,
    inv.sleeps⟩

theorem Inv.dispatch (inv : Inv s) (here : (s.proc i).pc = .parked l) (ptable : s.ptable = some .scheduler) :
    Inv { s with
      proc := update s.proc i { s.proc i with state := .running, pc := .woken l }
      ptable := some (.proc i) } := by
  refine inv.ptableStep (i := i) (fun j other => by simp [other]) (by simp [here, Pc.lk]) (by simp [ptable]) ?_
    (by simp [Pc.ptable]) (by simp [Pc.Needs]) (by simp) fun j m asleep => ⟨?_, by simp [here, Pc.wakes]⟩
  · rintro j ⟨⟩
    rfl
  · by_cases mine : j = i
    · simp [mine, SleepsOn] at asleep
    · rw [update_of_ne mine] at asleep
      exact inv.sleeps j m asleep

theorem step_inv [DecidableEq Λ] {label : Label Λ ι} (inv : Inv s) (taken : step s label = some t) : Inv t := by
  cases label with
  | acquiresleep i l | kill i j =>
    simp only [step] at taken
    split at taken <;> cases taken
    case h_1 here => exact inv.walk here rfl rfl rfl trivial
  | releasesleep i l =>
    simp only [step] at taken
    split at taken
    case h_1 here =>
      obtain ⟨held, rfl⟩ := of_guard taken
      exact inv.walk here rfl rfl rfl held
    case h_2 => cases taken
  | go i => exact go_inv inv taken
  | schedAcquire =>
    simp only [step] at taken
    split at taken <;> cases taken
    case h_1 free => exact inv.scheduler (by simp [free]) (by simp)
  | schedRelease =>
    simp only [step] at taken
    split at taken <;> cases taken
    case h_1 held => exact inv.scheduler (by simp [held]) (by simp)
  | dispatch i =>
    simp only [step] at taken
    split at taken <;> cases taken
    case h_1 l ptable _ here => exact inv.dispatch here ptable

omit [DecidableEq ι] in
theorem Inv.initial (start : Initial s) : Inv s where
  lk i l := by simp [start.user i, start.lk l, Pc.lk]
  ptable i := by simp [start.user i, start.ptable, Pc.ptable]
  one i j l held := by simp [start.held i l] at held
  locked i l held := by simp [start.held i l] at held
  needs i := by simp [start.user i, Pc.Needs]
  marks i l here := by simp [start.user i] at here
  sleeps i l asleep := (start.awake i asleep.1).elim

end Go

/-- At most one process has a sleep-lock, and while nobody is in a critical section nobody
sleeps on a lock that is free. -/
theorem sleeplock_exclusive [DecidableEq Λ] [DecidableEq ι] {ls : List (Label Λ ι)} (start : Initial s)
    (reached : run step s ls = some t) :
    (∀ l i j, t.held i l = true → t.held j l = true → i = j) ∧
    ∀ l, t.ptable = none → t.lk l = none → ∀ i, (t.proc i).SleepsOn l → t.locked l = true := by
  have inv : Inv t := run_invariant step Inv (fun _ _ _ inv taken => step_inv inv taken) (.initial start) reached
  refine ⟨fun l i j => inv.one i j l, fun l _ free i asleep => (inv.sleeps i l asleep).resolve_right ?_⟩
  rintro ⟨j, waking⟩
  have held : (t.proc j).pc.lk = some l := by
    cases here : (t.proc j).pc <;> simp_all [Pc.wakes, Pc.lk]
  simp [(inv.lk j l).mp held] at free

def unlocked : State Unit Bool where
  ptable := none
  lk _ := none
  locked _ := false
  pid _ := none
  proc _ := ⟨.running, none, false, .user⟩
  held _ _ := false

def handOver : List (Label Unit Bool) :=
  [.acquiresleep true (), .go true, .go true, .go true, .acquiresleep false (), .go false, .go false, .go false, .go false,
    .go false, .go false, .schedRelease, .releasesleep true (), .go true, .go true, .go true, .go true, .go true, .go true,
    .schedAcquire, .dispatch false, .go false, .go false, .go false, .go false]

theorem sleeplock_exclusive_handOver : ∃ t, run step unlocked handOver = some t ∧ t.held false () = true ∧
    ∀ i, t.held i () = true → i = false := by
  have ends : (run step unlocked handOver).map (fun t => t.held false ()) = some true := by decide +kernel
  obtain ⟨t, reached, held⟩ := map_eq_some_iff.mp ends
  have start : Initial unlocked :=
    ⟨rfl, fun _ => rfl, fun _ => rfl, fun _ => rfl, fun _ => by simp [unlocked], fun _ _ => rfl⟩
  exact ⟨t, reached, held, fun i also => (sleeplock_exclusive start reached).1 () i false also held⟩

end Xv6.Sleeplock
