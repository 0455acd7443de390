import Mathlib.Data.List.Nodup
import Xv6.Proc.Cli

/-! The interrupt flag of a thread survives its critical sections: the CPU it runs on counts exactly
its own `pushcli`s, and `intena` there is its own. -/

namespace Xv6.Cli
open Lib Lib.Transition List Option
open Function (update update_eq_self update_of_ne update_self)
open State (setCpu setThread)

variable {κ ι L : Type}

section Cpu
variable (cpu : Cpu ι)

theorem popcli_ok (off : cpu.flag = false) (counted : 1 ≤ cpu.ncli) :
    cpu.popcli = .ok { cpu with ncli := cpu.ncli - 1, flag := decide (cpu.ncli = 1) && cpu.intena } := by
  have below : ¬ cpu.ncli - 1 < 0 := by omega
  have last : cpu.ncli - 1 = 0 ↔ cpu.ncli = 1 := by omega
  simp only [Cpu.popcli, off, below, last]
  cases cpu.intena <;> simp

variable [DecidableEq κ] (locked : Option κ) (c : κ)

theorem holding_ok (off : cpu.flag = false) (counted : 1 ≤ cpu.ncli) :
    cpu.holding locked c = .ok (cpu, decide (locked = some c)) := by
  have nonzero : cpu.ncli ≠ 0 := by omega
  have more : ¬ cpu.ncli + 1 = 1 := by omega
  have pushed : cpu.pushcli cpu.flag = { cpu with ncli := cpu.ncli + 1 } := by
    simp only [Cpu.pushcli, if_neg nonzero, off]
  have restored : Cpu.popcli { cpu with ncli := cpu.ncli + 1 } = .ok cpu := by
    rw [popcli_ok { cpu with ncli := cpu.ncli + 1 } off (Int.le_add_of_nonneg_left (by omega))]
    simp only [more, decide_false, Bool.false_and, Int.add_sub_cancel]
    rw [← off]
  rw [Cpu.holding, pushed, restored]
  rfl

theorem holding_returns (counted : 0 ≤ cpu.ncli) :
    ∃ after, cpu.holding locked c = .ok (after, decide (locked = some c)) := by
  have popped := popcli_ok (cpu.pushcli cpu.flag) rfl (Int.le_add_of_nonneg_left counted)
  rw [Cpu.holding, popped]
  exact ⟨_, rfl⟩

end Cpu

/-- A place where a trap may come. -/
def Pc.Calm : Pc L → Prop
  | .run | .pushing _ _ => True
  | .spinning _ | .parked _ => False

/-- What holds of the thread that a CPU runs. -/
structure Runs (cpu : Cpu ι) (thread : Thread L) : Prop where
  ncli : cpu.ncli = thread.count
  off : 0 < thread.count → cpu.flag = false
  intena : cpu.current ≠ none → 0 < thread.count → ∀ b, thread.base = some b → cpu.intena = b
  awake : ∀ intena, thread.pc ≠ .parked intena
  traps : ∀ saved ∈ thread.traps, saved.2.Calm
  nodup : thread.held.Nodup

/-- What holds of a thread that has left its CPU in `sched`, or has not started. -/
structure Waits (ptable : L) (intena : Option Bool) (thread : Thread L) : Prop where
  pushes : thread.pushes = 0
  held : thread.held = [ptable]
  base : ∀ b, thread.base = some b → intena = some b
  traps : ∀ saved ∈ thread.traps, saved.2.Calm

structure Inv (ptable : L) (s : State κ ι L) : Prop where
  runs : ∀ c, Runs (s.cpu c) (s.thread (s.tid c))
  waits : ∀ i intena, (s.thread (.proc i)).pc = .parked intena → Waits ptable intena (s.thread (.proc i))
  away : ∀ c, (s.cpu c).current ≠ none → ∃ base, s.thread (.scheduler c) = ⟨.run, 0, [ptable], [], base⟩
  unique : ∀ c d i, (s.cpu c).current = some i → (s.cpu d).current = some i → c = d
  owned : ∀ c l, s.locks l = some c ↔ l ∈ (s.thread (s.tid c)).held
  closed : ∀ i before after, ⟨.proc i, before, after⟩ ∈ s.closed → after = before
  panicked : ∀ message, s.panicked = some message →
    message ≠ "popcli - interruptible" ∧ message ≠ "popcli" ∧ message ≠ "release"

theorem Initial.inv {ptable : L} {s : State κ ι L} (start : Initial ptable s) : Inv ptable s := by
  have tid : ∀ c, s.tid c = .scheduler c := fun c => by rw [State.tid, (start.cpu c).2]
  refine ⟨fun c => ?_, fun i intena here => ?_, fun c away => absurd (start.cpu c).2 away, fun c d i here => ?_,
    fun c l => ?_, fun i before after found => ?_, fun message found => ?_⟩
  · rw [tid, start.scheduler c]
    exact ⟨(start.cpu c).1, nofun, fun away => absurd (start.cpu c).2 away, nofun, nofun, nodup_nil⟩
  · rw [start.proc i] at here ⊢
    cases here
    refine ⟨rfl, rfl, nofun, fun saved found => ?_⟩
    rw [mem_singleton.mp found]
    trivial
  · rw [(start.cpu c).2] at here
    cases here
  · rw [tid, start.scheduler c, start.locks l]
    simp
  · rw [start.closed] at found
    exact absurd found not_mem_nil
  · rw [start.panicked] at found
    cases found

variable {cpu : Cpu ι} {thread after : Thread L}

theorem Runs.pushcli (runs : Runs cpu thread) {eflags : Bool}
    (count : after.count = thread.count + 1)
    (base : after.base = if thread.count = 0 then some eflags else thread.base)
    (awake : ∀ intena, after.pc ≠ .parked intena) (traps : after.traps = thread.traps)
    (held : after.held = thread.held) : Runs (cpu.pushcli eflags) after where
  ncli := by
    rw [Cpu.pushcli, runs.ncli, count]
    rfl
  off := fun _ => rfl
  intena := fun away _ b here => by
    rw [base] at here
    simp only [Cpu.pushcli, runs.ncli, Int.natCast_eq_zero]
    by_cases outermost : thread.count = 0
    · rw [if_pos outermost] at here ⊢
      exact some.inj here
    · rw [if_neg outermost] at here ⊢
      exact runs.intena away (Nat.pos_of_ne_zero outermost) b here
  awake := awake
  traps := by rw [traps]; exact runs.traps
  nodup := by rw [held]; exact runs.nodup

theorem Runs.popcli (runs : Runs cpu thread)
    (count : thread.count = after.count + 1) (base : after.base = thread.base)
    (awake : ∀ intena, after.pc ≠ .parked intena) (traps : after.traps = thread.traps)
    (nodup : after.held.Nodup) :
    ∃ popped, cpu.popcli = .ok popped ∧ popped.current = cpu.current ∧ Runs popped after ∧
      (after.count = 0 → popped.flag = cpu.intena) := by
  have counted : 1 ≤ cpu.ncli := by
    rw [runs.ncli, count]
    omega
  have owes : 0 < thread.count := by omega
  have last : cpu.ncli = 1 ↔ after.count = 0 := by
    rw [runs.ncli, count]
    omega
  refine ⟨_, popcli_ok cpu (runs.off owes) counted, rfl, ⟨?_, fun more => ?_, fun away _ b here => ?_, awake, ?_, nodup⟩, ?_⟩
  · dsimp only
    rw [runs.ncli, count]
    omega
  · have inner : ¬ cpu.ncli = 1 := by
      rw [last]
      omega
    simp only [inner, decide_false, Bool.false_and]
  · rw [base] at here
    exact runs.intena away owes b here
  · rw [traps]
    exact runs.traps
  · intro outermost
    simp only [last.mpr outermost, decide_true, Bool.true_and]

section Steps
variable {ptable : L} {s t : State κ ι L} {c d : κ}

theorem Inv.tid_injective (inv : Inv ptable s) (same : s.tid c = s.tid d) : c = d := by
  unfold State.tid at same
  cases here : (s.cpu c).current with
  | none =>
    cases there : (s.cpu d).current with
    | none =>
      rw [here, there] at same
      exact Tid.scheduler.inj same
    | some j =>
      rw [here, there] at same
      cases same
  | some i =>
    cases there : (s.cpu d).current with
    | none =>
      rw [here, there] at same
      cases same
    | some j =>
      rw [here, there] at same
      exact inv.unique c d i here (by rw [there, Tid.proc.inj same])

theorem Inv.runs_of_ne (inv : Inv ptable s) (other : d ≠ c)
    [DecidableEq κ] [DecidableEq ι] :
    Runs (update s.cpu c cpu d) (update s.thread (s.tid c) thread (s.tid d)) := by
  rw [update_of_ne other, update_of_ne fun same => other (inv.tid_injective same)]
  exact inv.runs d

variable [DecidableEq κ] [DecidableEq ι]

theorem Inv.stay (inv : Inv ptable s) {locks : L → Option κ}
    {closed : List (Closed κ ι)} (runs : Runs cpu thread) (current : cpu.current = (s.cpu c).current)
    (owned : ∀ d l, locks l = some d ↔ if d = c then l ∈ thread.held else s.locks l = some d)
    (settled : ∀ i before after, ⟨.proc i, before, after⟩ ∈ closed → after = before) :
    Inv ptable ⟨update s.cpu c cpu, update s.thread (s.tid c) thread, locks, s.panicked, closed⟩ := by
  have currents : ∀ d, (update s.cpu c cpu d).current = (s.cpu d).current := by
    intro d
    rcases eq_or_ne d c with rfl | other
    · rw [update_self]
      exact current
    · rw [update_of_ne other]
  have tids : ∀ d, State.tid ⟨update s.cpu c cpu, update s.thread (s.tid c) thread, locks,
      s.panicked, closed⟩ d = s.tid d := by
    intro d
    simp only [State.tid, currents]
  refine ⟨fun d => ?_, fun i intena here => ?_, fun d away => ?_, fun d e i => ?_, fun d l => ?_, settled, inv.panicked⟩
  · rw [tids]
    rcases eq_or_ne d c with rfl | other
    · simp only [update_self]
      exact runs
    · exact inv.runs_of_ne other
  · dsimp only at here ⊢
    by_cases same : .proc i = s.tid c
    · rw [same, update_self] at here
      exact absurd here (runs.awake intena)
    · rw [update_of_ne same] at here ⊢
      exact inv.waits i intena here
  · rw [currents] at away
    have apart : .scheduler d ≠ s.tid c := by
      intro same
      unfold State.tid at same
      cases here : (s.cpu c).current with
      | none =>
        rw [here] at same
        rw [Tid.scheduler.inj same] at away
        exact away here
      | some i =>
        rw [here] at same
        cases same
    dsimp only
    rw [update_of_ne apart]
    exact inv.away d away
  · rw [currents, currents]
    exact inv.unique d e i
  · rw [tids, owned]
    dsimp only
    rcases eq_or_ne d c with rfl | other
    · simp only [if_true, update_self]
    · rw [if_neg other, update_of_ne fun same => other (inv.tid_injective same)]
      exact inv.owned d l

omit [DecidableEq κ] [DecidableEq ι] in
theorem Thread.count_calm (calm : thread.pc.Calm) :
    thread.count = thread.pushes + thread.held.length := by
  unfold Thread.count
  cases here : thread.pc with
  | run | pushing => rfl
  | spinning | parked =>
    rw [here] at calm
    exact calm.elim

omit [DecidableEq ι] in
theorem Inv.owned_same (inv : Inv ptable s) (held : thread.held = (s.thread (s.tid c)).held)
    (d : κ) (l : L) : s.locks l = some d ↔ if d = c then l ∈ thread.held else s.locks l = some d := by
  rcases eq_or_ne d c with rfl | other
  · rw [if_pos rfl, held]
    exact inv.owned d l
  · rw [if_neg other]

theorem setThread_eq (s : State κ ι L) (c : κ) (x : Tid κ ι) (thread : Thread L) :
    s.setThread x thread =
      ⟨update s.cpu c (s.cpu c), update s.thread x thread, s.locks, s.panicked, s.closed⟩ := by
  rw [update_eq_self]
  rfl

theorem Inv.readeflags (inv : Inv ptable s) (run : (s.thread (s.tid c)).pc = .run) (eflags : Bool) (lock : Option L) :
    Inv ptable (s.setThread (s.tid c) { s.thread (s.tid c) with pc := .pushing eflags lock }) := by
  have runs := inv.runs c
  have count : Thread.count { s.thread (s.tid c) with pc := .pushing eflags lock } = (s.thread (s.tid c)).count := by
    simp only [Thread.count, run]
  rw [setThread_eq s c]
  apply inv.stay
  · exact ⟨by rw [count]; exact runs.ncli, by rw [count]; exact runs.off, by rw [count]; exact runs.intena, nofun,
      runs.traps, runs.nodup⟩
  · rfl
  · exact inv.owned_same rfl
  · exact inv.closed

theorem Inv.cli (inv : Inv ptable s) {eflags : Bool} {lock : Option L}
    (pushing : (s.thread (s.tid c)).pc = .pushing eflags lock) :
    cli s c eflags lock = .error "acquire" ∨ ∃ t, cli s c eflags lock = .ok t ∧ Inv ptable t := by
  have runs := inv.runs c
  have calm : (s.thread (s.tid c)).pc.Calm := by
    rw [pushing]
    trivial
  have count := Thread.count_calm calm
  unfold Cli.cli
  cases lock with
  | none =>
    refine .inr ⟨_, rfl, ?_⟩
    apply inv.stay
    · refine runs.pushcli ?_ rfl nofun rfl rfl
      simp only [Thread.count, pushing]
      omega
    · rfl
    · exact inv.owned_same rfl
    · exact inv.closed
  | some l =>
    have spins : Runs ((s.cpu c).pushcli eflags) { s.thread (s.tid c) with
        pc := .spinning l
        base := if (s.thread (s.tid c)).count = 0 then some eflags else (s.thread (s.tid c)).base } := by
      refine runs.pushcli ?_ rfl nofun rfl rfl
      simp only [Thread.count, pushing]
    have counted : 1 ≤ ((s.cpu c).pushcli eflags).ncli := by
      rw [spins.ncli]
      simp only [Thread.count]
      omega
    have held := holding_ok ((s.cpu c).pushcli eflags) (s.locks l) c rfl counted
    dsimp only
    rw [held]
    by_cases mine : s.locks l = some c
    · left
      rw [decide_eq_true mine]
      rfl
    · right
      rw [decide_eq_false mine]
      exact ⟨_, rfl, inv.stay spins rfl (inv.owned_same rfl) inv.closed⟩

theorem Inv.close (inv : Inv ptable s) {locks : L → Option κ}
    (runs : Runs cpu after) (current : cpu.current = (s.cpu c).current)
    (owes : 0 < (s.thread (s.tid c)).count) (base : after.base = (s.thread (s.tid c)).base)
    (enabled : after.count = 0 → cpu.flag = (s.cpu c).intena)
    (owned : ∀ d l, locks l = some d ↔ if d = c then l ∈ after.held else s.locks l = some d) :
    Inv ptable (close { s with locks := locks } c cpu after) := by
  unfold Cli.close
  split
  next before here =>
    split
    next outermost =>
      apply inv.stay runs current owned
      intro i b a found
      simp only [mem_append, mem_singleton, Closed.mk.injEq] at found
      rcases found with found | ⟨tid, rfl, rfl⟩
      · exact inv.closed i b a found
      · have away : (s.cpu c).current ≠ none := by
          intro idle
          change .proc i = s.tid c at tid
          rw [State.tid, idle] at tid
          cases tid
        rw [enabled outermost]
        exact (inv.runs c).intena away owes _ (base ▸ here)
    · exact inv.stay runs current owned inv.closed
  · exact inv.stay runs current owned inv.closed

theorem Inv.popcli (inv : Inv ptable s) (run : (s.thread (s.tid c)).pc = .run)
    (matched : 0 < (s.thread (s.tid c)).pushes) : ∃ t, popcli s c = .ok t ∧ Inv ptable t := by
  have runs := inv.runs c
  have calm : (s.thread (s.tid c)).pc.Calm := by
    rw [run]
    trivial
  have count := Thread.count_calm calm
  have one : (s.thread (s.tid c)).count =
      Thread.count { s.thread (s.tid c) with pushes := (s.thread (s.tid c)).pushes - 1 } + 1 := by
    simp only [Thread.count, run]
    omega
  obtain ⟨cpu, popped, current, after, enabled⟩ := runs.popcli one rfl (by rw [run]; exact nofun) rfl runs.nodup
  refine ⟨_, by rw [Cli.popcli, popped]; rfl, ?_⟩
  exact inv.close after current (by omega) rfl enabled (inv.owned_same rfl)

theorem Inv.trap (inv : Inv ptable s) (on : (s.cpu c).flag = true) (interrupt : Bool) :
    Inv ptable ((s.setCpu c { s.cpu c with flag := !interrupt }).setThread (s.tid c)
      { s.thread (s.tid c) with
        pc := .run, traps := ((s.cpu c).flag, (s.thread (s.tid c)).pc) :: (s.thread (s.tid c)).traps }) := by
  have runs := inv.runs c
  have none_owed : (s.thread (s.tid c)).count = 0 := by
    by_contra owes
    rw [runs.off (Nat.pos_of_ne_zero owes)] at on
    cases on
  have calm : (s.thread (s.tid c)).pc.Calm := by
    cases here : (s.thread (s.tid c)).pc with
    | run | pushing => trivial
    | spinning =>
      simp only [Thread.count, here] at none_owed
      omega
    | parked => exact absurd here (runs.awake _)
  have count : Thread.count { s.thread (s.tid c) with
      pc := .run, traps := ((s.cpu c).flag, (s.thread (s.tid c)).pc) :: (s.thread (s.tid c)).traps } = 0 := by
    rw [Thread.count_calm calm] at none_owed
    exact none_owed
  apply inv.stay
  · refine ⟨?_, ?_, ?_, nofun, fun saved found => ?_, runs.nodup⟩
    · rw [count]
      exact runs.ncli.trans (congrArg _ none_owed)
    · rw [count]
      exact fun owes => absurd owes (Nat.lt_irrefl 0)
    · rw [count]
      exact fun _ owes => absurd owes (Nat.lt_irrefl 0)
    · rcases mem_cons.mp found with rfl | found
      · exact calm
      · exact runs.traps saved found
  · rfl
  · exact inv.owned_same rfl
  · exact inv.closed

theorem Inv.iret (inv : Inv ptable s) {flag : Bool} {pc : Pc L} {traps : List (Bool × Pc L)}
    (inside : (s.thread (s.tid c)).traps = (flag, pc) :: traps) (run : (s.thread (s.tid c)).pc = .run)
    (matched : (s.thread (s.tid c)).count = 0) :
    Inv ptable ((s.setCpu c { s.cpu c with flag := flag }).setThread (s.tid c)
      { s.thread (s.tid c) with pc := pc, traps := traps }) := by
  have runs := inv.runs c
  have calm : pc.Calm := runs.traps (flag, pc) (by rw [inside]; exact mem_cons_self)
  have count : Thread.count { s.thread (s.tid c) with pc := pc, traps := traps } = 0 := by
    have calmNow : (s.thread (s.tid c)).pc.Calm := by
      rw [run]
      trivial
    rw [Thread.count_calm calmNow] at matched
    rw [Thread.count_calm calm]
    exact matched
  apply inv.stay
  · refine ⟨?_, ?_, ?_, fun intena here => ?_, fun saved found => ?_, runs.nodup⟩
    · rw [count]
      exact runs.ncli.trans (congrArg _ matched)
    · rw [count]
      exact fun owes => absurd owes (Nat.lt_irrefl 0)
    · rw [count]
      exact fun _ owes => absurd owes (Nat.lt_irrefl 0)
    · rw [show pc = .parked intena from here] at calm
      exact calm
    · exact runs.traps saved (by rw [inside]; exact mem_cons_of_mem _ found)
  · rfl
  · exact inv.owned_same rfl
  · exact inv.closed

theorem Inv.sti (inv : Inv ptable s) (idle : (s.cpu c).current = none)
    (matched : (s.thread (.scheduler c)).count = 0) : Inv ptable (s.setCpu c { s.cpu c with flag := true }) := by
  have runs := inv.runs c
  have tid : s.tid c = .scheduler c := by rw [State.tid, idle]
  have same : s.setCpu c { s.cpu c with flag := true } =
      ⟨update s.cpu c { s.cpu c with flag := true },
        update s.thread (s.tid c) (s.thread (s.tid c)), s.locks, s.panicked, s.closed⟩ := by
    rw [update_eq_self]
    rfl
  rw [← tid] at matched
  rw [same]
  apply inv.stay
  · refine ⟨runs.ncli, fun owes => ?_, runs.intena, runs.awake, runs.traps, runs.nodup⟩
    rw [matched] at owes
    exact absurd owes (Nat.lt_irrefl 0)
  · rfl
  · exact inv.owned_same rfl
  · exact inv.closed

variable {i : ι}

omit [DecidableEq κ] [DecidableEq ι] in
theorem Inv.current_awake (inv : Inv ptable s) (here : (s.cpu d).current = some i) (intena : Option Bool) :
    (s.thread (.proc i)).pc ≠ .parked intena := by
  have runs := inv.runs d
  rw [show s.tid d = .proc i by rw [State.tid, here]] at runs
  exact runs.awake intena

theorem Inv.switch (inv : Inv ptable s) {next : Thread L}
    (alone : ∀ d, d ≠ c → (s.cpu d).current ≠ some i)
    (lands : cpu.current = none ∧ next = s.thread (.scheduler c) ∨ cpu.current = some i ∧ next = thread)
    (runs : Runs cpu next) (waits : ∀ intena, thread.pc = .parked intena → Waits ptable intena thread)
    (away : ∃ base, s.thread (.scheduler c) = ⟨.run, 0, [ptable], [], base⟩)
    (owned : ∀ l, s.locks l = some c ↔ l ∈ next.held) :
    Inv ptable ((s.setCpu c cpu).setThread (.proc i) thread) := by
  have apart : ∀ d : κ, (Tid.scheduler d : Tid κ ι) ≠ .proc i := fun d same => nomatch same
  -- the CPU `c` runs `next`
  have here : ((s.setCpu c cpu).setThread (.proc i) thread).thread
      (((s.setCpu c cpu).setThread (.proc i) thread).tid c) = next := by
    rcases lands with ⟨current, rfl⟩ | ⟨current, rfl⟩
    · simp only [State.tid, setCpu, setThread, update_self, current]
      exact update_of_ne (apart c) _ _
    · simp only [State.tid, setCpu, setThread, update_self, current]
  -- and the others run what they ran
  have there : ∀ d, d ≠ c → ((s.setCpu c cpu).setThread (.proc i) thread).thread
      (((s.setCpu c cpu).setThread (.proc i) thread).tid d) = s.thread (s.tid d) := by
    intro d other
    have different : s.tid d ≠ .proc i := by
      intro same
      unfold State.tid at same
      cases current : (s.cpu d).current with
      | none =>
        rw [current] at same
        cases same
      | some j =>
        rw [current] at same
        exact alone d other (Tid.proc.inj same ▸ current)
    have tid : ((s.setCpu c cpu).setThread (.proc i) thread).tid d = s.tid d := by
      simp only [State.tid, setCpu, setThread, update_of_ne other]
    rw [tid]
    exact update_of_ne different _ _
  refine ⟨fun d => ?_, fun j intena parked => ?_, fun d busy => ?_, fun d e j first second => ?_, fun d l => ?_,
    inv.closed, inv.panicked⟩
  · rcases eq_or_ne d c with rfl | other
    · rw [here]
      simp only [setCpu, setThread, update_self]
      exact runs
    · rw [there d other]
      simp only [setCpu, setThread, update_of_ne other]
      exact inv.runs d
  · simp only [setCpu, setThread] at parked ⊢
    rcases eq_or_ne j i with rfl | other
    · rw [update_self] at parked ⊢
      exact waits intena parked
    · have different : (Tid.proc j : Tid κ ι) ≠ .proc i := fun same => other (Tid.proc.inj same)
      rw [update_of_ne different] at parked ⊢
      exact inv.waits j intena parked
  · simp only [setCpu, setThread] at busy ⊢
    rw [update_of_ne (apart d)]
    rcases eq_or_ne d c with rfl | other
    · exact away
    · rw [update_of_ne other] at busy
      exact inv.away d busy
  · simp only [setCpu, setThread] at first second
    rcases eq_or_ne d c with rfl | other
    · rcases eq_or_ne e d with rfl | different
      · rfl
      · rw [update_self] at first
        rw [update_of_ne different] at second
        rcases lands with ⟨current, -⟩ | ⟨current, -⟩
        · rw [current] at first
          cases first
        · rw [current] at first
          exact absurd (some.inj first ▸ second) (alone e different)
    · rcases eq_or_ne e c with rfl | different
      · rw [update_of_ne other] at first
        rw [update_self] at second
        rcases lands with ⟨current, -⟩ | ⟨current, -⟩
        · rw [current] at second
          cases second
        · rw [current] at second
          exact absurd (some.inj second ▸ first) (alone d other)
      · rw [update_of_ne other] at first
        rw [update_of_ne different] at second
        exact inv.unique d e j first second
  · rcases eq_or_ne d c with rfl | other
    · rw [here]
      exact owned l
    · rw [there d other]
      exact inv.owned d l

theorem Inv.sched (inv : Inv ptable s) (here : (s.cpu c).current = some i)
    (run : (s.thread (.proc i)).pc = .run) :
    (∃ message, sched s ptable c i = .error message ∧
      message ∈ ["sched ptable.lock", "sched locks", "sched interruptible"]) ∨
      ∃ t, sched s ptable c i = .ok t ∧ Inv ptable t := by
  have tid : s.tid c = .proc i := by rw [State.tid, here]
  have runs := inv.runs c
  rw [tid] at runs
  unfold Cli.sched
  by_cases mine : s.locks ptable = some c
  · have member := (inv.owned c ptable).mp mine
    rw [tid] at member
    have nonempty := length_pos_of_mem member
    have count : (s.thread (.proc i)).count = (s.thread (.proc i)).pushes + (s.thread (.proc i)).held.length := by
      simp only [Thread.count, run]
      omega
    have counted : 1 ≤ (s.cpu c).ncli := by
      rw [runs.ncli]
      omega
    have off := runs.off (by omega)
    rw [holding_ok (s.cpu c) (s.locks ptable) c off counted, decide_eq_true mine]
    by_cases single : (s.cpu c).ncli = 1
    · right
      have one : (s.thread (.proc i)).count = 1 := by
        have ncli := runs.ncli
        omega
      have held : (s.thread (.proc i)).held = [ptable] := by
        obtain ⟨l, only⟩ := length_eq_one_iff.mp (show (s.thread (.proc i)).held.length = 1 by omega)
        rw [only] at member
        rw [only, mem_singleton.mp member]
      obtain ⟨base, scheduler⟩ := inv.away c (by rw [here]; exact nofun)
      have started : (s.cpu c).current ≠ none := by
        rw [here]
        exact nofun
      refine ⟨(s.setCpu c { s.cpu c with current := none }).setThread (.proc i)
        { s.thread (.proc i) with pc := .parked (some (s.cpu c).intena) }, ?_, ?_⟩
      · simp [bind, Except.bind, pure, Except.pure, single, off]
      apply inv.switch (fun d other there => other (inv.unique d c i there here)) (.inl ⟨rfl, rfl⟩)
      · rw [scheduler]
        refine ⟨?_, fun _ => off, fun away => absurd rfl away, nofun, nofun, nodup_singleton _⟩
        exact runs.ncli.trans (congrArg _ one)
      · intro intena parked
        cases parked
        refine ⟨?_, held, fun b before => ?_, runs.traps⟩
        · show (s.thread (.proc i)).pushes = 0
          omega
        · rw [runs.intena started (by omega) b before]
      · exact ⟨base, scheduler⟩
      · intro l
        have before := inv.owned c l
        rw [tid, held] at before
        rw [scheduler]
        exact before
    · left
      refine ⟨"sched locks", ?_, by simp⟩
      simp [bind, Except.bind, throw, throwThe, MonadExceptOf.throw, single]
  · left
    obtain ⟨after, returned⟩ := holding_returns (s.cpu c) (s.locks ptable) c (by rw [runs.ncli]; omega)
    rw [returned, decide_eq_false mine]
    exact ⟨"sched ptable.lock", rfl, by simp⟩

theorem Inv.swtch (inv : Inv ptable s) {intena : Option Bool} (idle : (s.cpu c).current = none)
    (run : (s.thread (.scheduler c)).pc = .run) (held : (s.thread (.scheduler c)).held = [ptable])
    (pushes : (s.thread (.scheduler c)).pushes = 0) (traps : (s.thread (.scheduler c)).traps = [])
    (parked : (s.thread (.proc i)).pc = .parked intena) :
    Inv ptable ((s.setCpu c { s.cpu c with current := some i, intena := intena.getD (s.cpu c).intena }).setThread
      (.proc i) { s.thread (.proc i) with pc := .run }) := by
  have waits := inv.waits i intena parked
  have tid : s.tid c = .scheduler c := by rw [State.tid, idle]
  have runs := inv.runs c
  rw [tid] at runs
  have one : (s.thread (.scheduler c)).count = 1 := by
    simp only [Thread.count, run, pushes, held, length_singleton]
  have mine : Thread.count { s.thread (.proc i) with pc := .run } = 1 := by
    simp only [Thread.count, waits.pushes, waits.held, length_singleton]
  apply inv.switch (fun d _ there => inv.current_awake there intena parked) (.inr ⟨rfl, rfl⟩)
  · refine ⟨?_, fun _ => runs.off (by omega), fun _ _ b started => ?_, nofun, waits.traps, ?_⟩
    · rw [mine]
      exact runs.ncli.trans (congrArg _ one)
    · rw [waits.base b started]
      rfl
    · show (s.thread (.proc i)).held.Nodup
      rw [waits.held]
      exact nodup_singleton _
  · exact fun _ there => nomatch there
  · refine ⟨(s.thread (.scheduler c)).base, ?_⟩
    rw [← run, ← held, ← pushes, ← traps]
  · intro l
    have before := inv.owned c l
    rw [tid, held] at before
    show _ ↔ l ∈ (s.thread (.proc i)).held
    rw [waits.held]
    exact before

variable [DecidableEq L]

theorem Inv.xchg (inv : Inv ptable s) {l : L} (spinning : (s.thread (s.tid c)).pc = .spinning l)
    (free : s.locks l = none) :
    Inv ptable ({ s with locks := update s.locks l (some c) }.setThread (s.tid c)
      { s.thread (s.tid c) with pc := .run, held := l :: (s.thread (s.tid c)).held }) := by
  have runs := inv.runs c
  have count : Thread.count { s.thread (s.tid c) with pc := .run, held := l :: (s.thread (s.tid c)).held } =
      (s.thread (s.tid c)).count := by
    simp only [Thread.count, spinning, length_cons]
    omega
  have nobody : ∀ d, ¬ s.locks l = some d := fun d => by
    rw [free]
    exact nofun
  have fresh : l ∉ (s.thread (s.tid c)).held := mt (inv.owned c l).mpr (nobody c)
  rw [setThread_eq _ c]
  apply inv.stay
  · exact ⟨by rw [count]; exact runs.ncli, by rw [count]; exact runs.off, by rw [count]; exact runs.intena, nofun,
      runs.traps, nodup_cons.mpr ⟨fresh, runs.nodup⟩⟩
  · rfl
  · intro d k
    dsimp only
    rcases eq_or_ne k l with rfl | other
    · rw [update_self, some.injEq]
      rcases eq_or_ne d c with rfl | elsewhere
      · simp
      · rw [if_neg elsewhere]
        exact iff_of_false (Ne.symm elsewhere) (nobody d)
    · rw [update_of_ne other]
      simp only [mem_cons, other, false_or]
      exact inv.owned_same rfl d k
  · exact inv.closed

theorem Inv.release (inv : Inv ptable s) (run : (s.thread (s.tid c)).pc = .run) {l : L}
    (matched : l ∈ (s.thread (s.tid c)).held) : ∃ t, release s c l = .ok t ∧ Inv ptable t := by
  have runs := inv.runs c
  have nonempty := length_pos_of_mem matched
  have one : (s.thread (s.tid c)).count =
      Thread.count { s.thread (s.tid c) with held := (s.thread (s.tid c)).held.erase l } + 1 := by
    simp only [Thread.count, run, length_erase_of_mem matched]
    omega
  have counted : 1 ≤ (s.cpu c).ncli := by
    rw [runs.ncli]
    omega
  have mine : s.locks l = .some c := (inv.owned c l).mpr matched
  have held := holding_ok (s.cpu c) (s.locks l) c (runs.off (by omega)) counted
  obtain ⟨cpu, popped, current, after, enabled⟩ :=
    runs.popcli one rfl (by rw [run]; exact nofun) rfl (runs.nodup.erase l)
  refine ⟨Cli.close { s with locks := update s.locks l none } c cpu
    { s.thread (s.tid c) with held := (s.thread (s.tid c)).held.erase l }, ?_, ?_⟩
  · rw [Cli.release, held, decide_eq_true mine]
    change (Cpu.popcli (s.cpu c) >>= _) = _
    rw [popped]
    rfl
  · apply inv.close after current (by omega) rfl enabled
    intro d k
    rcases eq_or_ne k l with rfl | other
    · rw [update_self]
      rcases eq_or_ne d c with rfl | elsewhere
      · simp [runs.nodup.mem_erase_iff]
      · have away : ¬ s.locks k = .some d := fun there => elsewhere (some.inj (there.symm.trans mine))
        simp [elsewhere, away]
    · rw [update_of_ne other]
      simp only [mem_erase_of_ne other]
      exact inv.owned_same rfl d k

theorem Inv.call (inv : Inv ptable s) (run : (s.thread (s.tid c)).pc = .run) {made : Call L}
    {outcome : Except String (State κ ι L)} (taken : call s ptable c made = some outcome) :
    (∃ message, outcome = .error message ∧
      message ∈ ["sched ptable.lock", "sched locks", "sched interruptible"]) ∨
      ∃ t, outcome = .ok t ∧ Inv ptable t := by
  cases made with
  | pushcli =>
    cases taken
    exact .inr ⟨_, rfl, inv.readeflags run _ _⟩
  | acquire l =>
    cases taken
    exact .inr ⟨_, rfl, inv.readeflags run _ _⟩
  | popcli =>
    obtain ⟨matched, ⟨⟩⟩ := ite_none_right_eq_some.mp taken
    exact .inr (inv.popcli run matched)
  | release l =>
    obtain ⟨matched, ⟨⟩⟩ := ite_none_right_eq_some.mp taken
    exact .inr (inv.release run matched)
  | sched =>
    obtain ⟨i, here, ⟨⟩⟩ := map_eq_some_iff.mp taken
    apply inv.sched here
    rw [← show s.tid c = .proc i by rw [State.tid, here]]
    exact run

theorem Inv.perform (inv : Inv ptable s) {l : Label κ ι L} {outcome : Except String (State κ ι L)}
    (taken : perform s ptable l = some outcome) :
    (∃ message, outcome = .error message ∧
      message ∈ ["acquire", "sched ptable.lock", "sched locks", "sched interruptible"]) ∨
      ∃ t, outcome = .ok t ∧ Inv ptable t := by
  cases l with
  | call c made =>
    obtain ⟨run, called⟩ := ite_none_right_eq_some.mp taken
    rcases inv.call run called with ⟨message, error, listed⟩ | kept
    · exact .inl ⟨message, error, mem_cons_of_mem _ listed⟩
    · exact .inr kept
  | cli c =>
    simp only [Cli.perform] at taken
    split at taken
    next eflags lock pushing =>
      cases taken
      rcases inv.cli pushing with error | kept
      · exact .inl ⟨_, error, mem_cons_self⟩
      · exact .inr kept
    · cases taken
  | xchg c =>
    simp only [Cli.perform] at taken
    split at taken
    next l spinning =>
      obtain ⟨free, ⟨⟩⟩ := ite_none_right_eq_some.mp taken
      exact .inr ⟨_, rfl, inv.xchg spinning free⟩
    · cases taken
  | trap c interrupt =>
    obtain ⟨on, ⟨⟩⟩ := ite_none_right_eq_some.mp taken
    exact .inr ⟨_, rfl, inv.trap on interrupt⟩
  | iret c =>
    simp only [Cli.perform] at taken
    split at taken
    next flag pc traps inside =>
      obtain ⟨⟨run, matched⟩, ⟨⟩⟩ := ite_none_right_eq_some.mp taken
      exact .inr ⟨_, rfl, inv.iret inside run matched⟩
    · cases taken
  | sti c =>
    obtain ⟨⟨idle, -, matched, -⟩, ⟨⟩⟩ := ite_none_right_eq_some.mp taken
    exact .inr ⟨_, rfl, inv.sti idle matched⟩
  | swtch c i =>
    obtain ⟨⟨idle, run, held, pushes, traps⟩, switched⟩ := ite_none_right_eq_some.mp taken
    split at switched
    next intena parked =>
      cases switched
      exact .inr ⟨_, rfl, inv.swtch idle run held pushes traps parked⟩
    · cases switched

omit [DecidableEq κ] [DecidableEq ι] [DecidableEq L] in
theorem Inv.panic (inv : Inv ptable s) {message : String}
    (listed : message ∈ ["acquire", "sched ptable.lock", "sched locks", "sched interruptible"]) :
    Inv ptable { s with panicked := some message } := by
  refine ⟨inv.runs, inv.waits, inv.away, inv.unique, inv.owned, inv.closed, fun other same => ?_⟩
  cases same
  simp only [mem_cons, not_mem_nil, or_false] at listed
  rcases listed with rfl | rfl | rfl | rfl <;> decide

theorem Inv.step (inv : Inv ptable s) {l : Label κ ι L} (taken : step s ptable l = some t) : Inv ptable t := by
  unfold Cli.step at taken
  split at taken
  · cases taken
  split at taken
  · cases taken
  next u performed =>
    cases taken
    rcases inv.perform performed with ⟨message, error, -⟩ | ⟨t, ok, kept⟩
    · cases error
    · cases ok
      exact kept
  next message performed =>
    cases taken
    rcases inv.perform performed with ⟨other, error, listed⟩ | ⟨t, ok, -⟩
    · cases error
      exact inv.panic listed
    · cases ok

end Steps

variable [DecidableEq κ] [DecidableEq ι] [DecidableEq L]

/-- Whatever the CPUs, the schedulers and the threads do: interrupts are off where a process owes
a `popcli`, they are back to what they were when it owes none, and no `popcli` panics. -/
theorem interrupts_preserved {ptable : L} {s t : State κ ι L} (start : Initial ptable s)
    {ls : List (Label κ ι L)} (reached : run (fun s l => step s ptable l) s ls = some t) :
    (∀ c i, (t.cpu c).current = some i → 0 < (t.thread (.proc i)).count → (t.cpu c).flag = false) ∧
    (∀ i before after, ⟨.proc i, before, after⟩ ∈ t.closed → after = before) ∧
    t.panicked ≠ some "popcli - interruptible" ∧ t.panicked ≠ some "popcli" := by
  have inv : Inv ptable t := run_invariant _ (Inv ptable) (fun s l t inv taken => inv.step taken) start.inv reached
  refine ⟨fun c i here owes => ?_, inv.closed, fun first => ?_, fun second => ?_⟩
  · have runs := inv.runs c
    rw [show t.tid c = .proc i by rw [State.tid, here]] at runs
    exact runs.off owes
  · exact (inv.panicked _ first).1 rfl
  · exact (inv.panicked _ second).2.1 rfl

-- a call from its first instruction to its return, when nothing comes in between
def Call.steps (c : κ) : Call L → List (Label κ ι L)
  | .pushcli => [.call c .pushcli, .cli c]
  | .acquire l => [.call c (.acquire l), .cli c, .xchg c]
  | made => [.call c made]

def booting : State Bool Unit Unit where
  cpu := fun _ => ⟨0, false, false, none⟩
  thread
    | .scheduler _ => ⟨.run, 0, [], [], none⟩
    | .proc _ => ⟨.parked none, 0, [()], [(true, .run)], none⟩
  locks := fun _ => none
  panicked := none
  closed := []

theorem booting_initial : Initial () booting :=
  ⟨fun _ => ⟨rfl, rfl⟩, fun _ => rfl, fun _ => rfl, fun _ => rfl, rfl, rfl⟩

-- a process starts on one CPU and calls `yield`, from which it returns on the other one
def migration : List (Label Bool Unit Unit) :=
  .sti false :: Call.steps false (.acquire ()) ++ [.swtch false ()] ++ Call.steps false (.release ()) ++
    [.iret false, .trap false false] ++ ((yield ()).take 2).flatMap (Call.steps false) ++
    Call.steps false (.release ()) ++ .sti true :: Call.steps true (.acquire ()) ++ [.swtch true ()] ++
    ((yield ()).drop 2).flatMap (Call.steps true)

theorem interrupts_preserved_migration :
    ∃ t, run (fun s l => step s () l) booting migration = some t ∧
      (t.cpu true).current = some () ∧ (t.cpu true).flag = true ∧ ⟨.proc (), true, true⟩ ∈ t.closed ∧
      ∀ i before after, ⟨.proc i, before, after⟩ ∈ t.closed → after = before := by
  have shape : (run (fun s l => step s () l) booting migration).map
      (fun t => ((t.cpu true).current, (t.cpu true).flag, t.closed.getLast?)) =
        some (some (), true, some ⟨.proc (), true, true⟩) := by decide +kernel
  obtain ⟨t, reached, what⟩ := map_eq_some_iff.mp shape
  simp only [Prod.mk.injEq] at what
  obtain ⟨current, flag, last⟩ := what
  obtain ⟨-, settled, -, -⟩ := interrupts_preserved booting_initial reached
  exact ⟨t, reached, current, flag, mem_of_getLast? last, settled⟩

end Xv6.Cli
