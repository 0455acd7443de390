import Xv6.Pipe.Fifo

/-! Nobody sleeps on a pipe that has something for it, except behind one early return: a killed
writer that has filled the pipe returns without `wakeup(&p->nread)`. -/

namespace Xv6.Pipe
open Lib Lib.Transition Proc Option

-- what the process sleeping on the channel is waiting for has not happened
def awaits (p : Pipe) : Chan → Prop
  | .nread => p.empty = true ∧ p.writeopen = true
  | .nwrite => p.full = true ∧ p.readopen = true

def Pc.locked : Pc → Bool
  | .writeFull _ _ | .writeSleep _ _ | .writeDone | .readSleep _ | .readDone | .closeWake _ | .release => true
  | _ => false

-- the process is about to call `wakeup` on the channel
def Pc.owes : Pc → Chan → Bool
  | .writeFull _ _, .nread | .writeDone, .nread | .closeWake true, .nread => true
  | .readDone, .nwrite | .closeWake false, .nwrite => true
  | _, _ => false

def Pc.aboutToSleep : Pc → Chan → Bool
  | .readSleep _, .nread => true
  | .writeFull _ _, .nwrite | .writeSleep _ _, .nwrite => true
  | _, _ => false

-- where `sleep` on the channel returns to
def Pc.resumes : Pc → Chan → Bool
  | .readEnter _, .nread => true
  | .writeEnter _ _, .nwrite => true
  | _, _ => false

variable {ι : Type} [DecidableEq ι]

def Excused (s : State ι) (chan : Chan) : Prop := ∃ h, s.lock = some h ∧ (s.procs h).pc.owes chan = true

structure WakeInv (s : State ι) : Prop where
  fifo : FifoInv s
  locked : ∀ i, (s.procs i).pc.locked = true ↔ s.lock = some i
  asleep : ∀ i chan, (s.procs i).SleepsOn chan → (s.procs i).pc.resumes chan = true
  waiting : ∀ i chan, (s.procs i).SleepsOn chan → awaits s.pipe chan ∨ Excused s chan
  toSleep : ∀ i chan, (s.procs i).pc.aboutToSleep chan = true → awaits s.pipe chan
  reading : ∀ i, (s.procs i).pc.uses false = true → s.readRef = true
  readable : s.readRef = true → s.pipe.readopen = true
  closing : ∀ i, (s.procs i).pc = .closeEnter false → s.readRef = false

variable {s : State ι}

omit [DecidableEq ι] in
theorem WakeInv.initial (start : Initial s) : WakeInv s where
  fifo := .initial start
  locked := fun i => by simp [start.user i, start.lock, Pc.locked]
  asleep := fun i _ here => absurd here.1 (start.awake i)
  waiting := fun i _ here => absurd here.1 (start.awake i)
  toSleep := fun i chan here => by simp [start.user i, Pc.aboutToSleep] at here
  reading := fun _ _ => start.readRef
  readable := fun _ => start.readopen
  closing := fun i here => by simp [start.user i] at here

variable {pc : Pc} {chan : Chan}

theorem Pc.locked_of_aboutToSleep (here : pc.aboutToSleep chan = true) :
    pc.locked = true := by
  cases pc <;> cases chan <;> first | rfl | cases here

theorem Pc.uses_of_resumes_nread (here : pc.resumes .nread = true) : pc.uses false = true := by
  cases pc <;> first | rfl | cases here

omit [DecidableEq ι] in
theorem WakeInv.still (inv : WakeInv s) {procs : ι → Proc Chan Pc}
    (fifo : FifoInv { s with procs := procs }) (pcs : ∀ j, (procs j).pc = (s.procs j).pc)
    (sleeps : ∀ j chan, (procs j).SleepsOn chan → (s.procs j).SleepsOn chan) :
    WakeInv { s with procs := procs } where
  fifo := fifo
  locked := fun j => by simpa only [pcs] using inv.locked j
  asleep := fun j chan here => by simpa only [pcs] using inv.asleep j chan (sleeps j chan here)
  waiting := fun j chan here => by
    simpa only [Excused, pcs] using inv.waiting j chan (sleeps j chan here)
  toSleep := fun j chan here => inv.toSleep j chan (by simpa only [pcs] using here)
  reading := fun j here => inv.reading j (by simpa only [pcs] using here)
  readable := inv.readable
  closing := fun j here => inv.closing j (by simpa only [pcs] using here)

variable {t : State ι} {i : ι}

theorem WakeInv.advance (inv : WakeInv s) (fifo : FifoInv t)
    (running : (s.procs i).state = .running)
    (pcs : ∀ j, (t.procs j).pc = if j = i then pc else (s.procs j).pc)
    (sleeps : ∀ j chan, (t.procs j).SleepsOn chan → (s.procs j).SleepsOn chan)
    (free : s.lock = none ∨ s.lock = some i) (after : t.lock = if pc.locked then some i else none)
    (waiting : ∀ j chan, (t.procs j).SleepsOn chan → awaits t.pipe chan ∨ Excused t chan)
    (toSleep : ∀ chan, pc.aboutToSleep chan = true → awaits t.pipe chan)
    (reading : pc.uses false = true → s.readRef = true) (inside : pc ≠ .closeEnter false)
    (refs : t.readRef = s.readRef) (readable : t.readRef = true → t.pipe.readopen = true) :
    WakeInv t where
  fifo := fifo
  locked := fun j => by
    have others : j ≠ i → (s.procs j).pc.locked = false := by
      intro apart
      have notHeld : ¬s.lock = some j := by
        rcases free with none | held
        · simp [none]
        · simpa [held] using Ne.symm apart
      simpa [← inv.locked j] using notHeld
    rw [pcs j, after]
    by_cases same : j = i
    · subst same
      cases here : pc.locked <;> simp [here]
    · rw [if_neg same, others same]
      cases pc.locked <;> simp [Ne.symm same]
  asleep := fun j chan here => by
    have before := sleeps j chan here
    by_cases same : j = i
    · subst same
      simp [SleepsOn, running] at before
    · rw [pcs j, if_neg same]
      exact inv.asleep j chan before
  waiting := waiting
  toSleep := fun j chan here => by
    by_cases same : j = i
    · rw [pcs j, if_pos same] at here
      exact toSleep chan here
    · rw [pcs j, if_neg same] at here
      have held := (inv.locked j).mp (Pc.locked_of_aboutToSleep here)
      rcases free with none | mine
      · simp [none] at held
      · rw [mine, some.injEq] at held
        exact absurd held.symm same
  reading := fun j here => by
    rw [refs]
    by_cases same : j = i
    · rw [pcs j, if_pos same] at here
      exact reading here
    · rw [pcs j, if_neg same] at here
      exact inv.reading j here
  readable := readable
  closing := fun j here => by
    rw [refs]
    by_cases same : j = i
    · rw [pcs j, if_pos same] at here
      exact absurd here inside
    · rw [pcs j, if_neg same] at here
      exact inv.closing j here

theorem jump_pcs (ptable : ι → Proc Chan Pc) (i j : ι) (pc : Pc) :
    (jump ptable i pc j).pc = if j = i then pc else (ptable j).pc := by
  by_cases same : j = i
  · subst same
    simp
  · rw [jump_of_ne same, if_neg same]

theorem WakeInv.enter (inv : WakeInv s) (fifo : FifoInv t)
    (user : (s.procs i).pc = .user) (unlocked : pc.locked = false) (idle : ∀ chan, pc.aboutToSleep chan = false)
    (running : (s.procs i).state = .running) (procs : t.procs = jump s.procs i pc)
    (pipe : t.pipe = s.pipe) (lock : t.lock = s.lock) (reading : pc.uses false = true → t.readRef = true)
    (refs : ∀ j, (s.procs j).pc.uses false = true → t.readRef = true)
    (readable : t.readRef = true → s.readRef = true)
    (closing : pc = .closeEnter false → t.readRef = false) : WakeInv t where
  fifo := fifo
  locked := fun j => by
    rw [procs, jump_pcs, lock, ← inv.locked j]
    by_cases same : j = i
    · subst same
      rw [if_pos rfl, unlocked, user]
      rfl
    · rw [if_neg same]
  asleep := fun j chan here => by
    rw [procs, jump_sleepsOn] at here
    by_cases same : j = i
    · subst same
      simp [SleepsOn, running] at here
    · rw [procs, jump_pcs, if_neg same]
      exact inv.asleep j chan here
  waiting := fun j chan here => by
    rw [procs, jump_sleepsOn] at here
    rw [pipe]
    rcases inv.waiting j chan here with waits | ⟨h, held, owes⟩
    · exact .inl waits
    · refine .inr ⟨h, lock.trans held, ?_⟩
      have apart : h ≠ i := by
        rintro rfl
        rw [user] at owes
        cases owes
      rw [procs, jump_pcs, if_neg apart]
      exact owes
  toSleep := fun j chan here => by
    rw [procs, jump_pcs] at here
    rw [pipe]
    by_cases same : j = i
    · rw [if_pos same, idle chan] at here
      cases here
    · rw [if_neg same] at here
      exact inv.toSleep j chan here
  reading := fun j here => by
    rw [procs, jump_pcs] at here
    by_cases same : j = i
    · rw [if_pos same] at here
      exact reading here
    · rw [if_neg same] at here
      exact refs j here
  readable := fun ref => by rw [pipe]; exact inv.readable (readable ref)
  closing := fun j here => by
    rw [procs, jump_pcs] at here
    by_cases same : j = i
    · rw [if_pos same] at here
      exact closing here
    · rw [if_neg same] at here
      have closed := inv.closing j here
      by_contra open'
      rw [readable (by simpa using open')] at closed
      cases closed

theorem WakeInv.sleeps (inv : WakeInv s) {resume : Pc}
    (fifo : FifoInv { s with lock := none, procs := sleep s.procs i chan resume })
    (held : s.lock = some i) (awaited : awaits s.pipe chan) (resumes : resume.resumes chan = true)
    (unlocked : resume.locked = false) (silent : ∀ c, (s.procs i).pc.owes c = false)
    (reading : resume.uses false = true → (s.procs i).pc.uses false = true) :
    WakeInv { s with lock := none, procs := sleep s.procs i chan resume } where
  fifo := fifo
  locked := fun j => by
    by_cases same : j = i
    · subst same
      simp [unlocked]
    · have notHeld : ¬s.lock = some j := by simpa [held] using Ne.symm same
      simpa [sleep_of_ne same, ← inv.locked j] using notHeld
  asleep := fun j c here => by
    by_cases same : j = i
    · subst same
      rw [sleep_self_sleepsOn] at here
      subst here
      simpa using resumes
    · simp only [sleep_of_ne same] at here ⊢
      exact inv.asleep j c here
  waiting := fun j c here => by
    by_cases same : j = i
    · subst same
      rw [sleep_self_sleepsOn] at here
      subst here
      exact .inl awaited
    · simp only [sleep_of_ne same] at here
      rcases inv.waiting j c here with waits | ⟨h, holder, owes⟩
      · exact .inl waits
      · rw [held, some.injEq] at holder
        subst holder
        rw [silent c] at owes
        cases owes
  toSleep := fun j c here => by
    by_cases same : j = i
    · subst same
      rw [sleep_self_pc] at here
      rw [Pc.locked_of_aboutToSleep here] at unlocked
      cases unlocked
    · simp only [sleep_of_ne same] at here
      exact inv.toSleep j c here
  reading := fun j here => by
    by_cases same : j = i
    · subst same
      rw [sleep_self_pc] at here
      exact inv.reading j (reading here)
    · simp only [sleep_of_ne same] at here
      exact inv.reading j here
  readable := inv.readable
  closing := fun j here => by
    by_cases same : j = i
    · subst same
      rw [sleep_self_pc] at here
      rw [here] at resumes
      cases chan <;> cases resumes
    · simp only [sleep_of_ne same] at here
      exact inv.closing j here

theorem WakeInv.wakes (inv : WakeInv s)
    (fifo : FifoInv { s with procs := jump (wakeup s.procs chan) i pc })
    (running : (s.procs i).state = .running) (held : s.lock = some i) (locked : pc.locked = true)
    (only : ∀ c, c ≠ chan → (s.procs i).pc.owes c = false)
    (toSleep : ∀ c, pc.aboutToSleep c = true → (s.procs i).pc.aboutToSleep c = true)
    (reading : pc.uses false = true → (s.procs i).pc.uses false = true) :
    WakeInv { s with procs := jump (wakeup s.procs chan) i pc } := by
  have pcs : ∀ j, (jump (wakeup s.procs chan) i pc j).pc = if j = i then pc else (s.procs j).pc := by
    intro j
    rw [jump_pcs, wakeup_pc]
  have sleeps : ∀ j c, (jump (wakeup s.procs chan) i pc j).SleepsOn c → (s.procs j).SleepsOn c ∧ c ≠ chan := by
    intro j c here
    rwa [jump_sleepsOn, wakeup_sleepsOn] at here
  refine inv.advance fifo running pcs (fun j c here => (sleeps j c here).1) (.inr held)
    (by simp [locked, held]) ?_ (fun c here => inv.toSleep i c (toSleep c here))
    (fun here => inv.reading i (reading here)) ?_ rfl inv.readable
  case refine_2 =>
    rintro rfl
    cases locked
  intro j c here
  obtain ⟨before, other⟩ := sleeps j c here
  rcases inv.waiting j c before with waits | ⟨h, holder, owes⟩
  · exact .inl waits
  · rw [held, some.injEq] at holder
    subst holder
    rw [only c other] at owes
    cases owes

/-- A killed process does not start or resume the loop of `pipewrite` with more bytes than fit while
a reader is asleep. -/
def Prompt (s : State ι) (l : Label ι) : Prop :=
  ∀ i call rest, l = .go i → (s.procs i).pc = .writeEnter call rest → (s.procs i).killed = true →
    PIPESIZE < rest.length → ∀ j, ¬(s.procs j).SleepsOn .nread

omit [DecidableEq ι] in
theorem WakeInv.awaits_of_free (inv : WakeInv s) (free : s.lock = none) {j : ι}
    (asleep : (s.procs j).SleepsOn chan) : awaits s.pipe chan := by
  rcases inv.waiting j chan asleep with waits | ⟨h, holder, -⟩
  · exact waits
  · simp [free] at holder

omit [DecidableEq ι] in
theorem WakeInv.wrote (inv : WakeInv s) (free : s.lock = none) {rest sent left : List UInt8}
    {p : Pipe} (wrote : Wrote s.pipe (storedBytes s.history) rest (delivered s.history).length (p, left) sent)
    {j : ι} (asleep : (s.procs j).SleepsOn chan) :
    chan = .nwrite ∧ awaits p chan ∨
      chan = .nread ∧ s.pipe.readopen = true ∧ (left ≠ [] → PIPESIZE < rest.length) := by
  have awaited := inv.awaits_of_free free asleep
  have ring := inv.fifo.ring
  have bounded := wrote.holds.bounded
  rw [List.length_append] at bounded
  cases chan with
  | nwrite =>
    have full := (full_eq_true_iff ring).mp awaited.1
    refine .inl ⟨rfl, (full_eq_true_iff wrote.holds).mpr ?_, wrote.readopen.trans awaited.2⟩
    rw [List.length_append]
    omega
  | nread =>
    have empty := (empty_eq_true_iff ring).mp awaited.1
    refine .inr ⟨rfl, ?_, fun more => ?_⟩
    · exact inv.readable (inv.reading j (Pc.uses_of_resumes_nread (inv.asleep j .nread asleep)))
    · have full := (full_eq_true_iff wrote.holds).mp (wrote.full more)
      have lengths := congrArg List.length wrote.split
      have positive : 0 < left.length := List.length_pos_iff.mpr more
      rw [List.length_append] at full lengths
      simp only at lengths
      omega

section

variable (inv : WakeInv s) (running : (s.procs i).state = .running)
include inv running

theorem WakeInv.write {call : Call} {rest : List UInt8}
    (free : s.lock = none)
    (here : (s.procs i).pc = .writeEnter call rest) (prompt : Prompt s (.go i)) :
    WakeInv (writeSection s i call rest) := by
  have fifo : FifoInv (writeSection s i call rest) := inv.fifo.effect (.write i call rest here rfl)
  obtain ⟨sent, wrote⟩ := writeLoop_spec rest inv.fifo.ring
  have readable : s.readRef = true → (writeLoop s.pipe rest).1.readopen = true := fun ref =>
    wrote.readopen.trans (inv.readable ref)
  unfold writeSection at fifo ⊢
  rcases out : writeLoop s.pipe rest with ⟨p, left⟩
  rw [out] at fifo wrote readable
  simp only at fifo readable ⊢
  have sleeps : ∀ pc j chan, (jump s.procs i pc j).SleepsOn chan → (s.procs j).SleepsOn chan :=
    fun pc j chan asleep => (jump_sleepsOn s.procs i j chan pc).mp asleep
  cases left with
  | nil =>
    refine inv.advance fifo running (jump_pcs _ _ · _) (sleeps _) (.inl free) rfl ?_
      (fun chan about => by cases chan <;> cases about) (fun uses => by cases uses) (by simp) rfl readable
    intro j chan asleep
    rcases inv.wrote free wrote (sleeps _ j chan asleep) with ⟨rfl, waits⟩ | ⟨rfl, -⟩
    · exact .inl waits
    · exact .inr ⟨i, rfl, by simp [Pc.owes]⟩
  | cons b left =>
    by_cases gone : (!p.readopen || (s.procs i).killed) = true
    · simp only [gone, if_true] at fifo ⊢
      refine inv.advance fifo running (jump_pcs _ _ · _) (sleeps _) (.inl free) (by simp [Pc.locked, free]) ?_
        (fun chan about => by cases chan <;> cases about) (fun uses => by cases uses) (by simp) rfl readable
      intro j chan asleep
      rcases inv.wrote free wrote (sleeps _ j chan asleep) with ⟨rfl, waits⟩ | ⟨rfl, readopen, more⟩
      · exact .inl waits
      · -- the early return: the read end is open, so the writer was killed
        rw [wrote.readopen, readopen, Bool.not_true, Bool.false_or] at gone
        exact absurd (sleeps _ j _ asleep) (prompt i call rest rfl here gone (more (by simp)) j)
    · simp only [gone, Bool.false_eq_true, if_false] at fifo ⊢
      simp only [Bool.or_eq_true, Bool.not_eq_true', not_or, Bool.not_eq_false] at gone
      refine inv.advance fifo running (jump_pcs _ _ · _) (sleeps _) (.inl free) rfl ?_ ?_
        (fun uses => by cases uses) (by simp) rfl readable
      · intro j chan asleep
        rcases inv.wrote free wrote (sleeps _ j chan asleep) with ⟨rfl, waits⟩ | ⟨rfl, -⟩
        · exact .inl waits
        · exact .inr ⟨i, rfl, by simp [Pc.owes]⟩
      · intro chan about
        cases chan with
        | nread => cases about
        | nwrite => exact ⟨wrote.full (by simp), gone.1⟩

theorem WakeInv.read {n : Nat}
    (free : s.lock = none) (here : (s.procs i).pc = .readEnter n)
    (fifo : FifoInv (readSection s i n)) : WakeInv (readSection s i n) := by
  have sleeps : ∀ pc j chan, (jump s.procs i pc j).SleepsOn chan → (s.procs j).SleepsOn chan :=
    fun pc j chan asleep => (jump_sleepsOn s.procs i j chan pc).mp asleep
  have ref : s.readRef = true := inv.reading i (by rw [here]; rfl)
  unfold readSection at fifo ⊢
  by_cases blocked : (s.pipe.empty && s.pipe.writeopen) = true
  · simp only [blocked, if_true] at fifo ⊢
    rw [Bool.and_eq_true] at blocked
    by_cases killed : (s.procs i).killed = true
    · simp only [killed, if_true] at fifo ⊢
      exact inv.advance fifo running (jump_pcs _ _ · _) (sleeps _) (.inl free) (by simp [Pc.locked, free])
        (fun j chan asleep => .inl (inv.awaits_of_free free (sleeps _ j chan asleep)))
        (fun chan about => by cases chan <;> cases about) (fun _ => ref) (by simp) rfl inv.readable
    · simp only [killed, Bool.false_eq_true, if_false] at fifo ⊢
      refine inv.advance fifo running (jump_pcs _ _ · _) (sleeps _) (.inl free) rfl
        (fun j chan asleep => .inl (inv.awaits_of_free free (sleeps _ j chan asleep)))
        ?_ (fun _ => ref) (by simp) rfl inv.readable
      intro chan about
      cases chan with
      | nread => exact blocked
      | nwrite => cases about
  · simp only [blocked, Bool.false_eq_true, if_false] at fifo ⊢
    obtain ⟨-, -, readopen, -⟩ := readLoop_spec n inv.fifo.ring
    refine inv.advance fifo running (jump_pcs _ _ · _) (sleeps _) (.inl free) rfl ?_
      (fun chan about => by cases chan <;> cases about) (fun _ => ref) (by simp) rfl
      (fun ref => readopen.trans (inv.readable ref))
    intro j chan asleep
    cases chan with
    | nread =>
      have awaited := inv.awaits_of_free free (sleeps _ j _ asleep)
      rw [awaits, ← Bool.and_eq_true] at awaited
      exact absurd awaited blocked
    | nwrite => exact .inr ⟨i, rfl, by simp [Pc.owes]⟩

theorem WakeInv.close {w : Bool}
    (free : s.lock = none) (here : (s.procs i).pc = .closeEnter w)
    (fifo : FifoInv (closeSection s i w)) : WakeInv (closeSection s i w) := by
  have sleeps : ∀ j chan, (jump s.procs i (.closeWake w) j).SleepsOn chan → (s.procs j).SleepsOn chan :=
    fun j chan asleep => (jump_sleepsOn s.procs i j chan _).mp asleep
  refine inv.advance fifo running (jump_pcs _ _ · _) sleeps (.inl free) rfl ?_
    (fun chan about => by cases chan <;> cases about) (fun uses => by cases uses) (by simp) rfl ?_
  · intro j chan asleep
    have awaited := inv.awaits_of_free free (sleeps j chan asleep)
    cases w <;> cases chan
    · exact .inl awaited
    · exact .inr ⟨i, rfl, by simp [closeSection, Pc.owes]⟩
    · exact .inr ⟨i, rfl, by simp [closeSection, Pc.owes]⟩
    · exact .inl awaited
  · intro ref
    cases w with
    | false =>
      have closed := inv.closing i here
      change s.readRef = true at ref
      rw [ref] at closed
      cases closed
    | true => exact inv.readable ref

theorem WakeInv.go
    (taken : go s i = some t) (prompt : Prompt s (.go i)) : WakeInv t := by
  have fifo := inv.fifo.effect (go_effect taken)
  unfold Pipe.go at taken
  have held : (s.procs i).pc.locked = true → s.lock = some i := (inv.locked i).mp
  cases here : (s.procs i).pc with
  | user => simp [here] at taken
  | writeEnter call rest =>
    simp only [here, ite_none_right_eq_some, some.injEq] at taken
    obtain ⟨free, rfl⟩ := taken
    exact inv.write running free here prompt
  | writeFull call rest =>
    simp only [here, some.injEq] at taken
    subst t
    exact inv.wakes fifo running (held (by rw [here]; rfl)) rfl (fun c other => by rw [here]; cases c <;> simp_all [Pc.owes])
      (fun c about => by rw [here]; cases c <;> simp_all [Pc.aboutToSleep]) (fun uses => by cases uses)
  | writeSleep call rest =>
    simp only [here, some.injEq] at taken
    subst t
    exact inv.sleeps fifo (held (by rw [here]; rfl)) (inv.toSleep i .nwrite (by rw [here]; rfl)) rfl rfl
      (fun c => by rw [here]; cases c <;> rfl) (fun uses => by cases uses)
  | writeDone | readDone =>
    simp only [here, some.injEq] at taken
    subst t
    exact inv.wakes fifo running (held (by rw [here]; rfl)) rfl (fun c other => by rw [here]; cases c <;> simp_all [Pc.owes])
      (fun c about => by cases c <;> cases about) (fun uses => by cases uses)
  | readEnter n =>
    simp only [here, ite_none_right_eq_some, some.injEq] at taken
    obtain ⟨free, rfl⟩ := taken
    exact inv.read running free here fifo
  | readSleep n =>
    simp only [here, some.injEq] at taken
    subst t
    exact inv.sleeps fifo (held (by rw [here]; rfl)) (inv.toSleep i .nread (by rw [here]; rfl)) rfl rfl
      (fun c => by rw [here]; cases c <;> rfl) (fun _ => by rw [here]; rfl)
  | closeEnter w =>
    simp only [here, ite_none_right_eq_some, some.injEq] at taken
    obtain ⟨free, rfl⟩ := taken
    exact inv.close running free here fifo
  | closeWake w =>
    simp only [here, some.injEq] at taken
    subst t
    exact inv.wakes fifo running (held (by rw [here]; rfl)) rfl
      (fun c other => by rw [here]; cases w <;> cases c <;> simp_all [Pc.owes])
      (fun c about => by cases c <;> cases about) (fun uses => by cases uses)
  | release =>
    simp only [here, some.injEq] at taken
    subst t
    refine inv.advance fifo running (jump_pcs _ _ · _)
      (fun j chan asleep => (jump_sleepsOn s.procs i j chan _).mp asleep) (.inr (held (by rw [here]; rfl))) rfl ?_
      (fun c about => by cases c <;> cases about) (fun uses => by cases uses) (by simp) rfl inv.readable
    intro j chan asleep
    rcases inv.waiting j chan ((jump_sleepsOn s.procs i j chan _).mp asleep) with waits | ⟨h, holder, owes⟩
    · exact .inl waits
    · rw [held (by rw [here]; rfl), some.injEq] at holder
      subst holder
      rw [here] at owes
      cases chan <;> cases owes

end

theorem WakeInv.step [Fintype ι] (inv : WakeInv s) {l : Label ι} (prompt : Prompt s l)
    (taken : step s l = some t) : WakeInv t := by
  have fifo := inv.fifo.effect (step_effect taken)
  cases l with
  | schedule i =>
    obtain ⟨-, rfl⟩ := Transition.of_guard taken
    exact inv.still fifo (fun j => schedule_pc _ _ _) (fun j chan => sleepsOn_of_schedule _ _ _ _)
  | yield i =>
    obtain ⟨-, rfl⟩ := Transition.of_guard taken
    exact inv.still fifo (fun j => yield_pc _ _ _) (fun j chan => sleepsOn_of_yield _ _ _ _)
  | kill i =>
    simp only [Pipe.step, some.injEq] at taken
    subst t
    exact inv.still fifo (fun j => kill_pc _ _ _) (fun j chan => sleepsOn_of_kill _ _ _ _)
  | pipewrite i addr =>
    obtain ⟨⟨running, user, -⟩, rfl⟩ := Transition.of_guard taken
    exact inv.enter fifo user rfl (fun c => by cases c <;> rfl) running rfl rfl rfl (fun uses => by cases uses)
      inv.reading id (by simp)
  | piperead i n =>
    obtain ⟨⟨running, user, ref⟩, rfl⟩ := Transition.of_guard taken
    exact inv.enter fifo user rfl (fun c => by cases c <;> rfl) running rfl rfl rfl (fun _ => ref)
      inv.reading id (by simp)
  | pipeclose i w =>
    cases w with
    | true =>
      obtain ⟨⟨running, user, -⟩, rfl⟩ := Transition.of_guard taken
      exact inv.enter fifo user rfl (fun c => by cases c <;> rfl) running rfl rfl rfl (fun uses => by cases uses)
        inv.reading id (by simp)
    | false =>
      obtain ⟨⟨running, user, -, unused⟩, rfl⟩ := Transition.of_guard taken
      exact inv.enter fifo user rfl (fun c => by cases c <;> rfl) running rfl rfl rfl (fun uses => by cases uses)
        (fun j uses => by rw [unused j] at uses; cases uses) (fun ref => by cases ref) (fun _ => rfl)
  | go i =>
    simp only [Pipe.step, ite_none_right_eq_some] at taken
    exact inv.go taken.1 taken.2 prompt

def NoLostWakeup (s : State ι) : Prop :=
  ∀ i, ((s.procs i).SleepsOn .nread → s.pipe.nread = s.pipe.nwrite ∧ s.pipe.writeopen = true) ∧
    ((s.procs i).SleepsOn .nwrite →
      s.pipe.nwrite = s.pipe.nread + BitVec.ofNat 32 PIPESIZE ∧ s.pipe.readopen = true)

omit [DecidableEq ι] in
theorem WakeInv.noLostWakeup (inv : WakeInv s) (free : s.lock = none) : NoLostWakeup s := by
  intro i
  constructor
  · intro asleep
    have awaited := inv.awaits_of_free free asleep
    exact ⟨by simpa [Pipe.empty] using awaited.1, awaited.2⟩
  · intro asleep
    have awaited := inv.awaits_of_free free asleep
    exact ⟨by simpa [Pipe.full] using awaited.1, awaited.2⟩

theorem WakeInv.lost [Fintype ι] (inv : WakeInv s) {l : Label ι} (late : ¬Prompt s l)
    (taken : Pipe.step s l = some t) : t.lock = none ∧ ¬NoLostWakeup t := by
  simp only [Prompt, not_forall, not_not] at late
  obtain ⟨i, call, rest, rfl, here, killed, long, j, asleep⟩ := late
  simp only [Pipe.step, ite_none_right_eq_some, Pipe.go, here, some.injEq] at taken
  obtain ⟨running, free, rfl⟩ := taken
  obtain ⟨sent, wrote⟩ := writeLoop_spec rest inv.fifo.ring
  unfold writeSection
  rcases out : writeLoop s.pipe rest with ⟨p, left⟩
  rw [out] at wrote
  have lengths := congrArg List.length wrote.split
  have bounded := wrote.holds.bounded
  have ordered := inv.fifo.ring.ordered
  rw [List.length_append] at lengths bounded
  simp only at lengths
  cases left with
  | nil =>
    simp only [List.length_nil] at lengths
    omega
  | cons b left =>
    simp only [killed, Bool.or_true, if_true]
    refine ⟨free, fun good => ?_⟩
    have stays : (jump s.procs i .user j).SleepsOn .nread := by simpa using asleep
    have empty : p.nread = p.nwrite := ((good j).1 stays).1
    have full := (full_eq_true_iff wrote.holds).mp (wrote.full (by simp))
    have none := (empty_eq_true_iff wrote.holds).mp (by simpa [Pipe.empty] using empty)
    have positive : 0 < PIPESIZE := by decide
    omega

/-- A run loses no wakeup exactly when no step of it is the early return of a killed
writer over a sleeping reader. -/
theorem no_lost_wakeup_iff [Fintype ι] {s t : State ι} {ls : List (Label ι)} (start : Initial s)
    (reached : run step s ls = some t) :
    (∀ before after u, ls = before ++ after → run step s before = some u → u.lock = none → NoLostWakeup u) ↔
      Along step Prompt s ls := by
  constructor
  · intro good
    suffices both : Along step Prompt s ls ∧ WakeInv t from both.1
    -- the first late step would leave a state that `good` rules out
    induction ls using List.reverseRecOn generalizing t with
    | nil =>
      cases reached
      exact ⟨fun before l after split => by simp at split, .initial start⟩
    | append_singleton ls l ih =>
      obtain ⟨u, earlier, last⟩ := run_snoc step reached
      obtain ⟨along, inv⟩ := ih earlier fun before after v split =>
        good before (after ++ [l]) v (by rw [split, List.append_assoc])
      have prompt : Prompt u l := by
        by_contra late
        obtain ⟨free, bad⟩ := inv.lost late last
        exact bad (good (ls ++ [l]) [] t (by simp) reached free)
      refine ⟨fun before m after split v there => ?_, inv.step prompt last⟩
      rcases List.eq_nil_or_concat after with rfl | ⟨after, m', rfl⟩
      · obtain ⟨rfl, heads⟩ := List.append_inj' split rfl
        rw [List.singleton_inj] at heads
        subst heads
        cases earlier.symm.trans there
        exact prompt
      · rw [List.concat_eq_append, ← List.cons_append, ← List.append_assoc] at split
        exact along before m after (List.append_inj' split rfl).1 v there
  · intro along before after u split there free
    subst split
    have inv : WakeInv u := run_invariant_along step WakeInv
      (fun _ _ _ inv prompt taken => inv.step prompt taken) (.initial start) along.initial there
    exact inv.noLostWakeup free

local instance : NeZero 2 := ⟨two_ne_zero⟩

-- process 0 falls asleep in `piperead`, and process 1 wakes it with a byte
def wokenReader : List (Label (Fin 2)) :=
  [.piperead 0 1, .go 0, .go 0, .pipewrite 1 [7], .go 1, .go 1, .go 1, .schedule 0, .go 0, .go 0, .go 0]

theorem no_lost_wakeup_iff_wokenReader : ∃ t, run step (allocated (Fin 2)) wokenReader = some t ∧ delivered t.history = [7] ∧
    ∀ before after u, wokenReader = before ++ after → run step (allocated (Fin 2)) before = some u → u.lock = none →
      NoLostWakeup u := by
  have outcome : (run step (allocated (Fin 2)) wokenReader).any (fun t => delivered t.history = [7]) = true := by
    decide +kernel
  obtain ⟨t, reached, got⟩ := (any_eq_true _ _).mp outcome
  have alive : Along step (fun s _ => ∀ i, (s.procs i).killed = false) (allocated (Fin 2)) wokenReader := by decide +kernel
  have prompt : Along step Prompt (allocated (Fin 2)) wokenReader := by
    intro before l after split u there i _ _ _ _ killed
    rw [alive before l after split u there i] at killed
    cases killed
  exact ⟨t, reached, of_decide_eq_true got, (no_lost_wakeup_iff (allocated_initial _) reached).mpr prompt⟩

-- process 0 falls asleep in `piperead`; process 1 enters `pipewrite` and is killed
-- before it takes the lock
def killedWriter : List (Label (Fin 2)) :=
  [.piperead 0 1, .go 0, .go 0, .pipewrite 1 (List.replicate 513 0), .kill 1, .go 1]

theorem killedWriter_loses_wakeup :
    Initial (allocated (Fin 2)) ∧ ∃ t, run step (allocated (Fin 2)) killedWriter = some t ∧ t.lock = none ∧
      (t.procs 0).SleepsOn .nread ∧ t.pipe.nwrite = t.pipe.nread + BitVec.ofNat 32 PIPESIZE ∧
      ¬NoLostWakeup t := by
  have outcome : (run step (allocated (Fin 2)) killedWriter).any (fun t => t.lock = none ∧
      (t.procs 0).SleepsOn .nread ∧ t.pipe.nwrite = t.pipe.nread + BitVec.ofNat 32 PIPESIZE) = true := by
    decide +kernel
  refine ⟨allocated_initial _, ?_⟩
  obtain ⟨t, reached, facts⟩ := (any_eq_true _ _).mp outcome
  obtain ⟨free, asleep, full⟩ := of_decide_eq_true facts
  refine ⟨t, reached, free, asleep, full, fun good => ?_⟩
  have empty := ((good 0).1 asleep).1
  rw [← empty] at full
  simp [PIPESIZE] at full

end Xv6.Pipe
