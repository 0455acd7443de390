import Mathlib.Algebra.GroupWithZero.Nat
import Mathlib.Data.Finset.Card
import Xv6.Proc.Scheduler

/-! At most one CPU is between `acquire` and `release` of `ptable.lock`, and a process that has
announced a new state keeps the lock until its CPU has left its stack. -/

namespace Xv6.Sched
open Lib Lib.Transition Function
open State (setCpu setProc goto)
open Transition (of_guard)

variable {κ ι : Type}

/-- The process has left RUNNING and waits to be run, woken or freed. -/
def Proc.Announced (proc : Proc ι) : Prop :=
  proc.state = .runnable ∨ proc.state = .sleeping ∨ proc.state = .zombie

def Ok (s : State κ ι) (c : κ) : Prop :=
  match (s.cpu c).mode with
  | .idle => ¬ s.lock = some c ∧ (s.cpu c).proc = none
  | .handler | .scanning => s.lock = some c ∧ (s.cpu c).proc = none
  | .picked p => s.lock = some c ∧ (s.cpu c).proc = some p ∧ (s.proc p).state = .runnable
  | .marked p => s.lock = some c ∧ (s.cpu c).proc = some p ∧ (s.proc p).state = .running
  | .returned p => s.lock = some c ∧ (s.cpu c).proc = some p ∧ (s.proc p).Announced
  | .running p =>
    (s.cpu c).proc = some p ∧
    match (s.proc p).pc with
    | .parked => False
    | .resumed | .locked => s.lock = some c ∧ (s.proc p).state = .running
    | .free => ¬ s.lock = some c ∧ (s.proc p).state = .running
    | .leaving => s.lock = some c ∧ (s.proc p).Announced

def Claims (s : State κ ι) (c : κ) (p : ι) : Prop := (s.cpu c).mode = .marked p ∨ (s.cpu c).mode = .running p

/-- The saved context of a process that has been set up is on its own stack. -/
def Own (p : ι) (proc : Proc ι) : Prop :=
  (proc.kstack = true → proc.context = p) ∧
    (proc.state ≠ .unused → proc.state ≠ .embryo → proc.kstack = true)

structure Inv (s : State κ ι) : Prop where
  ok : ∀ c, Ok s c
  unique : ∀ c d p, Claims s c p → Claims s d p → c = d
  own : ∀ p, Own p (s.proc p)

variable {s t : State κ ι} {c d : κ} {p : ι}

theorem Ok.state_of_proc (ok : Ok s d) (proc : (s.cpu d).proc = some p) :
    (s.proc p).state = .running ∨ s.lock = some d ∧ (s.proc p).Announced := by
  unfold Ok at ok
  cases mode : (s.cpu d).mode with
  | idle | handler | scanning => simp [mode, proc] at ok
  | picked q =>
    simp only [mode, proc, Option.some.injEq] at ok
    obtain ⟨lock, rfl, state⟩ := ok
    exact .inr ⟨lock, .inl state⟩
  | marked q =>
    simp only [mode, proc, Option.some.injEq] at ok
    obtain ⟨-, rfl, state⟩ := ok
    exact .inl state
  | returned q =>
    simp only [mode, proc, Option.some.injEq] at ok
    obtain ⟨lock, rfl, announced⟩ := ok
    exact .inr ⟨lock, announced⟩
  | running q =>
    simp only [mode, proc, Option.some.injEq] at ok
    obtain ⟨rfl, ok⟩ := ok
    split at ok
    · exact ok.elim
    · exact .inl ok.2
    · exact .inl ok.2
    · exact .inl ok.2
    · exact .inr ok

theorem Ok.proc_of_claims (ok : Ok s c) (claims : Claims s c p) : (s.cpu c).proc = some p := by
  rcases claims with mode | mode
  · simp only [Ok, mode] at ok
    exact ok.2.1
  · simp only [Ok, mode] at ok
    exact ok.1

theorem Ok.claims_of_not_lock (ok : Ok s d) (lock : ¬ s.lock = some d) (proc : (s.cpu d).proc = some p) :
    Claims s d p := by
  unfold Ok at ok
  cases mode : (s.cpu d).mode with
  | idle => simp [mode, proc] at ok
  | handler | scanning => exact (lock (by simp [mode] at ok; exact ok.1)).elim
  | picked q | marked q | returned q => exact (lock (by simp [mode] at ok; exact ok.1)).elim
  | running q =>
    simp only [mode, proc, Option.some.injEq] at ok
    obtain ⟨rfl, -⟩ := ok
    exact .inr mode

theorem Ok.same (ok : Ok s d) (cpu : t.cpu d = s.cpu d) (lock : t.lock = some d ↔ s.lock = some d)
    (kept : ∀ p, (s.cpu d).proc = some p → t.proc p = s.proc p) : Ok t d := by
  unfold Ok at *
  rw [cpu]
  cases mode : (s.cpu d).mode with
  | idle | handler | scanning => simpa only [mode, lock] using ok
  | picked q | marked q | returned q =>
    simp only [mode, lock] at ok ⊢
    rw [kept q ok.2.1]
    exact ok
  | running q =>
    simp only [mode, lock] at ok ⊢
    rw [kept q ok.1]
    exact ok

/-- A step of CPU `c` with the lock, which changes no process that another CPU runs. -/
structure By (c : κ) (s t : State κ ι) : Prop where
  held : s.lock = none ∨ s.lock = some c
  holds : t.lock = none ∨ t.lock = some c
  cpu : ∀ d, d ≠ c → t.cpu d = s.cpu d
  proc : ∀ p, t.proc p = s.proc p ∨ (s.proc p).state ≠ .running ∨ Claims s c p
  mine : Ok t c
  claims : ∀ p, Claims t c p → (s.proc p).state ≠ .running ∨ Claims s c p
  own : ∀ p, Own p (s.proc p) → Own p (t.proc p)

theorem Inv.by (inv : Inv s) (taken : By c s t) : Inv t := by
  have lock_ne {u : State κ ι} {d : κ} (held : u.lock = none ∨ u.lock = some c) (other : d ≠ c) : ¬ u.lock = some d := by
    intro lock
    rcases held with held | held
    · simp [held] at lock
    · exact other (Option.some.inj (lock.symm.trans held))
  -- a process that another CPU has is RUNNING, and this CPU does not claim it
  have elsewhere {d : κ} {p : ι} (other : d ≠ c) (proc : (s.cpu d).proc = some p)
      (changed : (s.proc p).state ≠ .running ∨ Claims s c p) : False := by
    have free := lock_ne taken.held other
    rcases changed with state | claims
    · rcases (inv.ok d).state_of_proc proc with running | ⟨lock, -⟩
      · exact state running
      · exact free lock
    · exact other (inv.unique d c p ((inv.ok d).claims_of_not_lock free proc) claims)
  have before {d : κ} {p : ι} (other : d ≠ c) (claims : Claims t d p) : Claims s d p := by
    rwa [Claims, taken.cpu d other] at claims
  refine ⟨fun d => ?_, fun d e p first second => ?_, fun p => taken.own p (inv.own p)⟩
  · by_cases other : d = c
    · exact other ▸ taken.mine
    · refine (inv.ok d).same (taken.cpu d other) ?_ fun p proc => ?_
      · simp only [lock_ne taken.held other, lock_ne taken.holds other]
      · exact (taken.proc p).resolve_right (elsewhere other proc)
  · by_cases here : d = c <;> by_cases there : e = c
    · rw [here, there]
    · subst here
      exact (elsewhere there ((inv.ok e).proc_of_claims (before there second)) (taken.claims p first)).elim
    · subst there
      exact (elsewhere here ((inv.ok d).proc_of_claims (before here first)) (taken.claims p second)).elim
    · exact inv.unique d e p (before here first) (before there second)

theorem Ok.locked (ok : Ok s c) (mode : (s.cpu c).mode = .running p) (pc : (s.proc p).pc = .locked) :
    (s.cpu c).proc = some p ∧ s.lock = some c ∧ (s.proc p).state = .running := by
  simpa only [Ok, mode, pc] using ok

section Steps

variable {q : ι}

theorem Inv.scheduler [DecidableEq κ] (inv : Inv s) {cpu : Cpu ι} {lock : Option κ} (held : s.lock = none ∨ s.lock = some c)
    (holds : lock = none ∨ lock = some c) (mine : Ok { s.setCpu c cpu with lock := lock } c)
    (quiet : ∀ p, cpu.mode ≠ .marked p ∧ cpu.mode ≠ .running p) : Inv { s.setCpu c cpu with lock := lock } := by
  refine inv.by (c := c) ⟨held, holds, fun d other => ?_, fun p => .inl rfl, mine, fun p claims => ?_, fun p own => own⟩
  · simp [setCpu, other]
  · simp only [Claims, setCpu, update_self] at claims
    rcases claims with claims | claims
    · exact ((quiet p).1 claims).elim
    · exact ((quiet p).2 claims).elim

theorem Inv.process [DecidableEq ι] (inv : Inv s) {proc : Proc ι} {lock : Option κ} (mode : (s.cpu c).mode = .running p)
    (held : s.lock = none ∨ s.lock = some c) (holds : lock = none ∨ lock = some c)
    (mine : Ok { s.setProc p proc with lock := lock } c) (own : Own p (s.proc p) → Own p proc) :
    Inv { s.setProc p proc with lock := lock } := by
  refine inv.by (c := c) ⟨held, holds, fun d other => rfl, fun q => ?_, mine, fun q claims => .inr claims, fun q => ?_⟩
  · by_cases here : q = p
    · exact .inr (.inr (.inr (here ▸ mode)))
    · exact .inl (by simp [setProc, here])
  · by_cases here : q = p
    · subst here
      simpa [setProc] using own
    · simp [setProc, here]

theorem Inv.table (inv : Inv s) {proc : ι → Proc ι} (lock : s.lock = some c)
    (mode : (s.cpu c).mode = .handler ∨ ∃ q, (s.cpu c).mode = .running q ∧ (s.proc q).pc = .locked)
    (changed : ∀ p, proc p = s.proc p ∨ (s.proc p).state ≠ .running)
    (own : ∀ p, Own p (s.proc p) → Own p (proc p)) : Inv { s with proc := proc } := by
  refine inv.by (c := c) ⟨.inr lock, .inr lock, fun d _ => rfl, fun p => ?_, ?_, fun p claims => .inr claims, own⟩
  · rcases changed p with same | state
    · exact .inl same
    · exact .inr (.inl state)
  · refine (inv.ok c).same rfl Iff.rfl fun p mine => (changed p).resolve_right fun state => ?_
    rcases mode with mode | ⟨q, mode, pc⟩
    · have ok := inv.ok c
      simp [Ok, mode, mine] at ok
    · obtain ⟨proc, -, running⟩ := (inv.ok c).locked mode pc
      cases proc.symm.trans mine
      exact state running

theorem Inv.embryo [DecidableEq ι] (inv : Inv s) {proc : Proc ι} (state : (s.proc p).state = .embryo) (own : Own p proc) :
    Inv (s.setProc p proc) := by
  have other {d : κ} {q : ι} (has : (s.cpu d).proc = some q) : q ≠ p := by
    rintro rfl
    rcases (inv.ok d).state_of_proc has with running | ⟨-, announced⟩
    · simp [state] at running
    · simp [Proc.Announced, state] at announced
  refine ⟨fun d => (inv.ok d).same rfl Iff.rfl fun q has => ?_, inv.unique, fun q => ?_⟩
  · simp [setProc, other has]
  · by_cases here : q = p
    · subst here
      simpa [setProc] using own
    · simpa [setProc, here] using inv.own q

theorem Inv.move [DecidableEq ι] (inv : Inv s) {pc after : Pc} {lock : Option κ} (taken : move s c pc after lock = some t)
    (holds : lock = none ∨ lock = some c)
    (mine : ∀ p, Ok s c → (s.cpu c).mode = .running p → (s.proc p).pc = pc →
      (s.lock = none ∨ s.lock = some c) ∧ Ok { s.setProc p { s.proc p with pc := after } with lock := lock } c) :
    Inv t := by
  unfold Sched.move at taken
  split at taken
  case h_2 => simp at taken
  case h_1 p mode =>
    split at taken
    case isTrue here =>
      cases taken
      obtain ⟨held, ok⟩ := mine p (inv.ok c) mode here
      exact inv.process mode held holds ok id
    case isFalse => simp at taken

theorem Inv.change [DecidableEq ι] (inv : Inv s) {before : Proc ι → Bool} {after : Proc ι → Proc ι}
    (taken : change s c .locked p before after = some t)
    (state : before (s.proc p) → (s.proc p).state ≠ .running)
    (own : before (s.proc p) → Own p (s.proc p) → Own p (after (s.proc p))) : Inv t := by
  unfold Sched.change at taken
  split at taken
  case h_2 => simp at taken
  case h_1 q mode =>
    split at taken
    case isFalse => simp at taken
    case isTrue guard =>
      cases taken
      refine inv.table (c := c) ((inv.ok c).locked mode guard.1).2.1 (.inr ⟨q, mode, guard.1⟩) (fun r => ?_) fun r => ?_
      · by_cases here : r = p
        · exact .inr (here ▸ state guard.2)
        · exact .inl (update_of_ne here _ _)
      · by_cases here : r = p
        · subst here
          simpa using own guard.2
        · simp [here]

theorem Inv.setup [DecidableEq ι] (inv : Inv s) {after : Proc ι → Proc ι}
    (taken : Sched.change s c .free p (·.state = .embryo) after = some t)
    (own : (s.proc p).state = .embryo → Own p (s.proc p) → Own p (after (s.proc p))) : Inv t := by
  unfold Sched.change at taken
  split at taken
  case h_2 => simp at taken
  case h_1 q mode =>
    split at taken
    case isFalse => simp at taken
    case isTrue guard =>
      cases taken
      have state := of_decide_eq_true guard.2
      exact inv.embryo state (own state (inv.own p))

theorem Inv.leave [DecidableEq ι] (inv : Inv s) {state : ProcState} {chan : Proc ι → Nat}
    (taken : leave s c state chan = some t)
    (announced : state = .runnable ∨ state = .sleeping ∨ state = .zombie) : Inv t := by
  unfold Sched.leave at taken
  split at taken
  case h_2 => simp at taken
  case h_1 p q mode proc =>
    split at taken
    case isFalse => simp at taken
    case isTrue pc =>
      cases taken
      obtain ⟨mine, lock, running⟩ := (inv.ok c).locked mode pc
      cases proc.symm.trans mine
      have whole : Inv { s.setProc p { s.proc p with state := state, chan := chan (s.proc p), pc := .leaving } with
          lock := s.lock } := inv.process mode (.inr lock) (.inr lock) (by simp [Ok, setProc, mode, mine, lock, Proc.Announced, announced])
        fun own => ⟨own.1, fun _ _ => own.2 (by simp [running]) (by simp [running])⟩
      simpa [setProc] using whole

theorem Inv.wakeup1 (inv : Inv s) {chan : Nat} (lock : s.lock = some c)
    (mode : (s.cpu c).mode = .handler ∨ ∃ q, (s.cpu c).mode = .running q ∧ (s.proc q).pc = .locked) :
    Inv { s with proc := fun p => wakes chan (s.proc p) } := by
  refine inv.table lock mode (fun p => ?_) fun p own => ?_
  · unfold wakes
    split
    case isTrue asleep => exact .inr (by simp [asleep.1])
    case isFalse => exact .inl rfl
  · unfold wakes
    split
    case isTrue asleep => exact ⟨own.1, fun _ _ => own.2 (by simp [asleep.1]) (by simp [asleep.1])⟩
    case isFalse => exact own

theorem Inv.mark [DecidableEq κ] [DecidableEq ι] (inv : Inv s) (mode : (s.cpu c).mode = .picked p) :
    Inv ((s.setProc p { s.proc p with state := .running }).goto c (.marked p)) := by
  obtain ⟨lock, proc, state⟩ : s.lock = some c ∧ (s.cpu c).proc = some p ∧ (s.proc p).state = .runnable := by
    simpa only [Ok, mode] using inv.ok c
  refine inv.by (c := c) ⟨.inr lock, .inr lock, fun d other => ?_, fun q => ?_, ?_, fun q claims => ?_, fun q own => ?_⟩
  · simp [goto, setCpu, setProc, other]
  · by_cases here : q = p
    · exact .inr (.inl (by simp [here, state]))
    · exact .inl (by simp [goto, setCpu, setProc, here])
  · simp [Ok, goto, setCpu, setProc, lock, proc]
  · simp only [Claims, goto, setCpu, setProc, update_self, Mode.marked.injEq, reduceCtorEq,
      or_false] at claims
    exact .inl (by simp [← claims, state])
  · by_cases here : q = p
    · subst here
      simpa [goto, setCpu, setProc, Own, state] using own
    · simpa [goto, setCpu, setProc, here] using own

theorem Inv.swtch [DecidableEq κ] [DecidableEq ι] (inv : Inv s) (mode : (s.cpu c).mode = .marked p) :
    Inv ((s.setProc (s.proc p).context { s.proc (s.proc p).context with pc := .resumed }).goto c
      (.running (s.proc p).context)) := by
  obtain ⟨lock, proc, state⟩ : s.lock = some c ∧ (s.cpu c).proc = some p ∧ (s.proc p).state = .running := by
    simpa only [Ok, mode] using inv.ok c
  have context : (s.proc p).context = p :=
    (inv.own p).1 ((inv.own p).2 (by simp [state]) (by simp [state]))
  rw [context]
  refine inv.by (c := c) ⟨.inr lock, .inr lock, fun d other => ?_, fun q => ?_, ?_, fun q claims => ?_, fun q own => ?_⟩
  · simp [goto, setCpu, setProc, other]
  · by_cases here : q = p
    · exact .inr (.inr (.inl (here ▸ mode)))
    · exact .inl (by simp [goto, setCpu, setProc, here])
  · simp [Ok, goto, setCpu, setProc, lock, proc, state]
  · simp only [Claims, goto, setCpu, setProc, update_self, Mode.running.injEq, reduceCtorEq,
      false_or] at claims
    exact .inr (.inl (claims ▸ mode))
  · by_cases here : q = p
    · subst here
      simpa [goto, setCpu, setProc, Own] using own
    · simpa [goto, setCpu, setProc, here] using own

theorem Inv.sched [DecidableEq κ] [DecidableEq ι] (inv : Inv s) (mode : (s.cpu c).mode = .running p) (proc : (s.cpu c).proc = some q)
    (pc : (s.proc p).pc = .leaving) :
    Inv (((s.setProc p { s.proc p with pc := .parked }).setProc q
      { (s.setProc p { s.proc p with pc := .parked }).proc q with context := p }).goto c (.returned q)) := by
  obtain ⟨mine, lock, announced⟩ : (s.cpu c).proc = some p ∧ s.lock = some c ∧ (s.proc p).Announced := by
    simpa only [Ok, mode, pc] using inv.ok c
  cases proc.symm.trans mine
  refine inv.by (c := c) ⟨.inr lock, .inr lock, fun d other => ?_, fun r => ?_, ?_, fun r claims => ?_, fun r own => ?_⟩
  · simp [goto, setCpu, setProc, other]
  · by_cases here : r = p
    · exact .inr (.inr (.inr (here ▸ mode)))
    · exact .inl (by simp [goto, setCpu, setProc, here])
  · simpa [Ok, goto, setCpu, setProc, lock, mine, Proc.Announced] using announced
  · simp [Claims, goto, setCpu] at claims
  · by_cases here : r = p
    · subst here
      refine ⟨fun _ => by simp [goto, setCpu, setProc], ?_⟩
      simpa [goto, setCpu, setProc] using own.2
    · simpa [goto, setCpu, setProc, here] using own

end Steps

theorem Inv.initial (initial : Initial s) : Inv s where
  ok c := by simp [Ok, initial.idle c, initial.lock]
  unique c d p claims := by simp [Claims, initial.idle c] at claims
  own p := ⟨fun stack => initial.context p stack, fun used _ => initial.kstack p used⟩

section Runs

variable [DecidableEq κ] [DecidableEq ι]

theorem step_inv {l : Label κ ι} (inv : Inv s) (taken : step s l = some t) : Inv t := by
  cases l with
  | schedAcquire c | handlerAcquire c =>
    obtain ⟨⟨mode, lock⟩, rfl⟩ := of_guard taken
    have proc : ¬ s.lock = some c ∧ (s.cpu c).proc = none := by simpa only [Ok, mode] using inv.ok c
    exact inv.scheduler (.inl lock) (.inr rfl) (by simp [Ok, setCpu, proc.2]) (by simp)
  | acquire c =>
    simp only [step, Option.ite_none_right_eq_some] at taken
    refine inv.move taken.2 (.inr rfl) fun p ok mode pc => ⟨.inl taken.1, ?_⟩
    simp only [Ok, mode, pc] at ok
    simp [Ok, setProc, mode, ok]
  | pick c p =>
    obtain ⟨⟨mode, state⟩, rfl⟩ := of_guard taken
    have lock : s.lock = some c ∧ (s.cpu c).proc = none := by simpa only [Ok, mode] using inv.ok c
    exact inv.scheduler (.inr lock.1) (.inr lock.1) (by simp [Ok, setCpu, lock.1, state]) (by simp)
  | mark c =>
    simp only [step] at taken
    split at taken
    · cases taken
      exact inv.mark ‹_›
    · cases taken
  | swtch c =>
    simp only [step] at taken
    split at taken
    · cases taken
      exact inv.swtch ‹_›
    · cases taken
  | back c =>
    simp only [step] at taken
    split at taken
    case h_1 p mode =>
      cases taken
      have lock : s.lock = some c := (by simpa only [Ok, mode] using inv.ok c : s.lock = some c ∧ _ ∧ _).1
      exact inv.scheduler (.inr lock) (.inr lock) (by simp [Ok, setCpu, lock]) (by simp)
    case h_2 => cases taken
  | schedRelease c =>
    simp only [step] at taken
    split at taken
    case h_3 => cases taken
    all_goals
      cases taken
      have lock := inv.ok c
      simp only [Ok, *] at lock
      exact inv.scheduler (.inr lock.1) (.inl rfl) (by simp [Ok, setCpu, lock.2]) (by simp)
  | wakeup1 c chan =>
    simp only [step] at taken
    split at taken
    case h_1 mode =>
      cases taken
      have lock : s.lock = some c ∧ (s.cpu c).proc = none := by simpa only [Ok, mode] using inv.ok c
      exact inv.wakeup1 lock.1 (.inl mode)
    case h_2 q mode =>
      obtain ⟨pc, rfl⟩ := of_guard taken
      exact inv.wakeup1 ((inv.ok c).locked mode pc).2.1 (.inr ⟨q, mode, pc⟩)
    case h_3 => cases taken
  | kill c p | alloc c p | ready c p | reap c p =>
    simp only [step] at taken
    refine inv.change taken (fun before => ?_) fun before own => ?_
    · simp at before
      simp [before]
    · simp at before
      unfold Own at *
      grind
  | stack c p =>
    simp only [step] at taken
    exact inv.setup taken fun state _ => by simp [Own, state]
  | giveUp c p =>
    simp only [step] at taken
    exact inv.setup taken fun _ _ => by simp [Own]
  | yield c | sleep c chan | exit c =>
    simp only [step] at taken
    exact inv.leave taken (by simp)
  | sched c =>
    simp only [step] at taken
    split at taken
    case h_1 p q mode proc =>
      obtain ⟨pc, rfl⟩ := of_guard taken
      exact inv.sched mode proc pc
    case h_2 => cases taken
  | tidy c =>
    simp only [step] at taken
    split at taken
    case h_1 p mode =>
      obtain ⟨pc, rfl⟩ := of_guard taken
      have ok := inv.ok c
      simp only [Ok, mode, pc] at ok
      exact inv.process mode (.inr ok.2.1) (.inr ok.2.1) (by simp [Ok, setProc, mode, ok]) id
    case h_2 => cases taken
  | forkret c | release c =>
    simp only [step] at taken
    refine inv.move taken (.inl rfl) fun p ok mode pc => ?_
    simp only [Ok, mode, pc] at ok
    exact ⟨.inr ok.2.1, by simp [Ok, setProc, mode, ok]⟩

theorem Inv.reap_absent (inv : Inv s) (taken : step s (.reap c p) = some t) (d : κ) : (s.cpu d).proc ≠ some p := by
  intro proc
  simp only [step, Sched.change] at taken
  split at taken
  case h_2 => cases taken
  case h_1 q mode =>
    simp only [Option.ite_none_right_eq_some, decide_eq_true_eq] at taken
    obtain ⟨⟨pc, zombie⟩, -⟩ := taken
    obtain ⟨mine, lock, running⟩ := (inv.ok c).locked mode pc
    rcases (inv.ok d).state_of_proc proc with state | ⟨held, -⟩
    · simp [zombie] at state
    · cases lock.symm.trans held
      cases mine.symm.trans proc
      simp [zombie] at running

/-- The stack of a process is on at most one CPU, whose `proc` is that process; off the lock
it is RUNNING; and when `wait` frees a process, no CPU is on its stack or in its address space. -/
theorem scheduler_exclusive {ls : List (Label κ ι)} (initial : Initial s) (reached : run step s ls = some t) :
    (∀ c d p, (t.cpu c).mode = .running p → (t.cpu d).mode = .running p → c = d) ∧
    (∀ c p, (t.cpu c).mode = .running p → (t.cpu c).proc = some p) ∧
    (∀ c p, (t.cpu c).mode = .running p → t.lock ≠ some c → (t.proc p).state = .running) ∧
    ∀ c p u, step t (.reap c p) = some u → ∀ d, (t.cpu d).mode ≠ .running p ∧ (t.cpu d).proc ≠ some p := by
  have inv : Inv t := run_invariant step Inv (fun _ _ _ inv taken => step_inv inv taken) (.initial initial) reached
  refine ⟨fun c d p here there => inv.unique c d p (.inr here) (.inr there),
    fun c p here => (inv.ok c).proc_of_claims (.inr here), fun c p here free => ?_, fun c p u taken d => ?_⟩
  · exact ((inv.ok c).state_of_proc ((inv.ok c).proc_of_claims (.inr here))).resolve_right fun held => free held.1
  · have absent : (t.cpu d).proc ≠ some p := inv.reap_absent taken d
    exact ⟨fun here => absent ((inv.ok d).proc_of_claims (.inr here)), absent⟩

end Runs

local instance neZeroTwo : NeZero 2 := ⟨by decide⟩

def forkExit : List (Label (Fin 2) (Fin 2)) :=
  [.schedAcquire 0, .pick 0 0, .mark 0, .swtch 0, .forkret 0, .acquire 0, .alloc 0 1, .release 0, .stack 0 1, .acquire 0,
    .ready 0 1, .release 0, .schedAcquire 1, .pick 1 1, .mark 1, .swtch 1, .forkret 1, .acquire 1, .exit 1, .sched 1,
    .back 1, .schedRelease 1, .acquire 0]

def oneProcess : State (Fin 2) (Fin 2) where
  lock := none
  cpu _ := ⟨.idle, none⟩
  proc p := ⟨if p = 0 then .runnable else .unused, 0, p = 0, p, .parked⟩

theorem scheduler_exclusive_child : ∃ t, run step oneProcess forkExit = some t ∧ (step t (.reap 0 1)).isSome ∧
    ∀ d, (t.cpu d).mode ≠ .running 1 ∧ (t.cpu d).proc ≠ some 1 := by
  have ends : (run step oneProcess forkExit).map (fun t => (step t (.reap 0 1)).isSome) = some true := by decide +kernel
  obtain ⟨t, reached, frees⟩ := Option.map_eq_some_iff.mp ends
  obtain ⟨u, taken⟩ := Option.isSome_iff_exists.mp frees
  have initial : Initial oneProcess := ⟨rfl, fun _ => rfl, by decide, by decide, by decide⟩
  exact ⟨t, reached, frees, (scheduler_exclusive initial reached).2.2.2 0 1 u taken⟩

end Xv6.Sched
