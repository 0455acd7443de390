import Xv6.Pipe.Loops

/-! Bytes leave a pipe in the order in which they were stored, whatever the interleaving. -/

namespace Xv6.Pipe
open Lib Lib.Transition Proc List

variable {ι : Type} [DecidableEq ι]

-- a call that has returned stored its bytes up to where it got, all of them on success
def Settled (history : List Event) (call : Call) (ret : Int) : Prop :=
  (ret = call.addr.length ∧ bytesOf history call.id = call.addr) ∨
    (ret = -1 ∧ bytesOf history call.id <+: call.addr)

structure FifoInv (s : State ι) : Prop where
  ring : s.pipe.Holds (storedBytes s.history) (delivered s.history).length
  order : delivered s.history = (storedBytes s.history).take (delivered s.history).length
  active : ∀ i call rest, (s.procs i).pc.writing = some (call, rest) →
    call.id < s.calls ∧ bytesOf s.history call.id ++ rest = call.addr
  distinct : ∀ i j call rest other left, (s.procs i).pc.writing = some (call, rest) →
    (s.procs j).pc.writing = some (other, left) → call.id = other.id → i = j
  fresh : ∀ id, s.calls ≤ id → bytesOf s.history id = []
  settled : ∀ call ret, Event.wrote call ret ∈ s.history → call.id < s.calls ∧
    Settled s.history call ret ∧ ∀ j other left, (s.procs j).pc.writing = some (other, left) → other.id ≠ call.id
  fetched : ∀ n bytes p, Event.fetched n bytes p ∈ s.history → 0 < n → bytes = [] →
    p.nread = p.nwrite ∧ p.writeopen = false

variable {s : State ι}

omit [DecidableEq ι] in
theorem FifoInv.initial (start : Initial s) : FifoInv s where
  ring := by
    have ring : s.pipe.toRingBuffer = ⟨s.pipe.data, 0, 0⟩ := by
      change RingBuffer.mk s.pipe.data s.pipe.nread s.pipe.nwrite = _
      rw [start.nread, start.nwrite]
    rw [ring, start.history]
    exact RingBuffer.Holds.start _
  order := by simp [start.history, delivered]
  active := fun i call rest here => by simp [start.user i, Pc.writing] at here
  distinct := fun i j call rest other left here => by simp [start.user i, Pc.writing] at here
  fresh := fun id _ => by simp [start.history, bytesOf]
  settled := fun call ret here => by simp [start.history] at here
  fetched := fun n bytes p here => by simp [start.history] at here

variable {t : State ι}

omit [DecidableEq ι] in
theorem FifoInv.quiet (inv : FifoInv s) (quiet : Quiet s t) : FifoInv t where
  ring := by rw [quiet.ring, quiet.history]; exact inv.ring
  order := by rw [quiet.history]; exact inv.order
  active := fun i call rest here => by
    rw [quiet.writing] at here
    rw [quiet.calls, quiet.history]
    exact inv.active i call rest here
  distinct := fun i j call rest other left here there => by
    rw [quiet.writing] at here there
    exact inv.distinct i j call rest other left here there
  fresh := fun id above => by
    rw [quiet.calls] at above
    rw [quiet.history]
    exact inv.fresh id above
  settled := fun call ret here => by
    rw [quiet.history] at here ⊢
    simp only [quiet.calls, quiet.writing]
    exact inv.settled call ret here
  fetched := fun n bytes p here => by
    rw [quiet.history] at here
    exact inv.fetched n bytes p here

theorem FifoInv.pipewrite (inv : FifoInv s) (i : ι) (addr : List UInt8) :
    FifoInv { s with
      procs := jump s.procs i (.writeEnter ⟨s.calls, addr⟩ addr), calls := s.calls + 1 } where
  ring := inv.ring
  order := inv.order
  active := fun j call rest here => by
    by_cases same : j = i
    · subst same
      simp only [jump_self_pc, Pc.writing, Option.some.injEq, Prod.mk.injEq] at here
      obtain ⟨rfl, rfl⟩ := here
      exact ⟨Nat.lt_succ_self _, by simp [inv.fresh s.calls le_rfl]⟩
    · simp only [jump_of_ne same] at here
      have old := inv.active j call rest here
      exact ⟨Nat.lt_succ_of_lt old.1, old.2⟩
  distinct := fun j k call rest other left here there same => by
    -- an older call has a smaller id than the one that starts now
    by_cases first : j = i <;> by_cases second : k = i
    · rw [first, second]
    · subst first
      simp only [jump_self_pc, Pc.writing, Option.some.injEq, Prod.mk.injEq] at here
      simp only [jump_of_ne second] at there
      obtain ⟨rfl, rfl⟩ := here
      have := (inv.active k other left there).1
      simp only at same
      omega
    · subst second
      simp only [jump_self_pc, Pc.writing, Option.some.injEq, Prod.mk.injEq] at there
      simp only [jump_of_ne first] at here
      obtain ⟨rfl, rfl⟩ := there
      have := (inv.active j call rest here).1
      simp only at same
      omega
    · simp only [jump_of_ne first] at here
      simp only [jump_of_ne second] at there
      exact inv.distinct j k call rest other left here there same
  fresh := fun id above => inv.fresh id (Nat.le_of_succ_le above)
  settled := fun call ret here => by
    obtain ⟨below, done, others⟩ := inv.settled call ret here
    refine ⟨Nat.lt_succ_of_lt below, done, fun j other left there => ?_⟩
    by_cases same : j = i
    · subst same
      simp only [jump_self_pc, Pc.writing, Option.some.injEq, Prod.mk.injEq] at there
      obtain ⟨rfl, rfl⟩ := there
      exact Nat.ne_of_gt below
    · simp only [jump_of_ne same] at there
      exact others j other left there
  fetched := inv.fetched

/-- What a section of `pipewrite` adds to the history, and where it leaves the process. -/
structure WriteStep (s t : State ι) (i : ι) (call : Call) (sent : List UInt8) (returned : List Event) : Prop where
  ring : t.pipe.Holds (storedBytes s.history ++ sent) (delivered s.history).length
  history : t.history = s.history ++ sent.map (.stored call.id) ++ returned
  calls : t.calls = s.calls
  others : ∀ j, j ≠ i → t.procs j = s.procs j
  goesOn : ∀ other left, (t.procs i).pc.writing = some (other, left) →
    other = call ∧ bytesOf s.history call.id ++ sent ++ left = call.addr ∧ returned = []
  outcome : ∀ e ∈ returned, ∃ ret, e = .wrote call ret ∧ (t.procs i).pc.writing = none ∧
    ((ret = call.addr.length ∧ bytesOf s.history call.id ++ sent = call.addr) ∨
      (ret = -1 ∧ bytesOf s.history call.id ++ sent <+: call.addr))

variable {i : ι}

theorem writeSection_step (inv : FifoInv s) {call : Call} {rest : List UInt8}
    (here : (s.procs i).pc = .writeEnter call rest) :
    ∃ sent returned, WriteStep s (writeSection s i call rest) i call sent returned := by
  obtain ⟨sent, split, holds, -, -, -⟩ := writeLoop_spec rest inv.ring
  have whole := (inv.active i call rest (by rw [here]; rfl)).2
  have count : rest.take (rest.length - (writeLoop s.pipe rest).2.length) = sent := by
    have lengths := congrArg List.length split
    rw [length_append] at lengths
    rw [show rest.length - (writeLoop s.pipe rest).2.length = sent.length by omega]
    conv_lhs => rw [split]
    exact take_left
  have addr : bytesOf s.history call.id ++ sent ++ (writeLoop s.pipe rest).2 = call.addr := by
    rw [append_assoc, ← split]
    exact whole
  have log : storedBy call rest (writeLoop s.pipe rest).2 = sent.map (.stored call.id) := by
    rw [storedBy, count]
  have others : ∀ pc j, j ≠ i → jump s.procs i pc j = s.procs j := fun pc j apart => jump_of_ne apart
  unfold writeSection
  rcases out : writeLoop s.pipe rest with ⟨p, left⟩
  rw [out] at holds addr log
  simp only at holds addr log
  cases left with
  | nil =>
    rw [append_nil] at addr
    refine ⟨sent, [.wrote call call.addr.length], holds, by simp [log], rfl, others _, ?_, ?_⟩
    · simp [Pc.writing]
    · intro e member
      rw [mem_singleton] at member
      exact ⟨_, member, by simp [Pc.writing], .inl ⟨rfl, addr⟩⟩
  | cons b left =>
    by_cases gone : (!p.readopen || (s.procs i).killed) = true
    · simp only [gone, if_true]
      refine ⟨sent, [.wrote call (-1)], holds, by simp [log], rfl, others _, ?_, ?_⟩
      · simp [Pc.writing]
      · intro e member
        rw [mem_singleton] at member
        exact ⟨_, member, by simp [Pc.writing], .inr ⟨rfl, ⟨_, addr⟩⟩⟩
    · simp only [gone, Bool.false_eq_true, if_false]
      refine ⟨sent, [], holds, by simp [log], rfl, others _, ?_, by simp⟩
      intro other rest' there
      simp only [jump_self_pc, Pc.writing, Option.some.injEq, Prod.mk.injEq] at there
      obtain ⟨rfl, rfl⟩ := there
      exact ⟨rfl, addr, rfl⟩

omit [DecidableEq ι] in
theorem FifoInv.writeStep (inv : FifoInv s) {call : Call} {rest sent : List UInt8}
    {returned : List Event} (here : (s.procs i).pc.writing = some (call, rest))
    (step : WriteStep s t i call sent returned) : FifoInv t := by
  have onlyWrote : ∀ e ∈ returned, ∃ ret, e = .wrote call ret := fun e member =>
    (step.outcome e member).imp fun _ facts => facts.1
  have noBytes : storedBytes returned = [] ∧ delivered returned = [] ∧ ∀ id, bytesOf returned id = [] := by
    refine ⟨?_, ?_, fun id => ?_⟩
    · rw [storedBytes, filterMap_eq_nil_iff]
      intro e member
      obtain ⟨ret, rfl⟩ := onlyWrote e member
      rfl
    · rw [delivered, flatMap_eq_nil_iff]
      intro e member
      obtain ⟨ret, rfl⟩ := onlyWrote e member
      rfl
    · rw [bytesOf, filterMap_eq_nil_iff]
      intro e member
      obtain ⟨ret, rfl⟩ := onlyWrote e member
      rfl
  have stored : storedBytes t.history = storedBytes s.history ++ sent := by
    simp [step.history, storedBytes_sent, noBytes.1]
  have out : delivered t.history = delivered s.history := by
    simp [step.history, delivered_sent, noBytes.2.1]
  have own : bytesOf t.history call.id = bytesOf s.history call.id ++ sent := by
    simp [step.history, bytesOf_sent, noBytes.2.2]
  have foreign : ∀ id, id ≠ call.id → bytesOf t.history id = bytesOf s.history id := by
    intro id apart
    simp [step.history, bytesOf_sent, noBytes.2.2, Ne.symm apart]
  have below := (inv.active i call rest here).1
  -- another process writes for another call
  have apart : ∀ j other left, j ≠ i → (s.procs j).pc.writing = some (other, left) → other.id ≠ call.id := by
    intro j other left different there same
    exact different (inv.distinct j i other left call rest there here same)
  refine ⟨?_, ?_, ?_, ?_, ?_, ?_, ?_⟩
  · rw [stored, out]
    exact step.ring
  · have taken := inv.ring.ordered
    rw [stored, out, take_append_of_le_length taken]
    exact inv.order
  · intro j other left there
    rw [step.calls]
    by_cases same : j = i
    · subst same
      obtain ⟨rfl, addr, -⟩ := step.goesOn other left there
      exact ⟨below, by rw [own]; exact addr⟩
    · rw [step.others j same] at there
      rw [foreign _ (apart j other left same there)]
      exact inv.active j other left there
  · intro j k first rest' second left one two same
    have back : ∀ m c r, (t.procs m).pc.writing = some (c, r) → ∃ r', (s.procs m).pc.writing = some (c, r') := by
      intro m c r there
      by_cases here' : m = i
      · subst here'
        obtain ⟨rfl, -, -⟩ := step.goesOn c r there
        exact ⟨rest, here⟩
      · rw [step.others m here'] at there
        exact ⟨r, there⟩
    obtain ⟨_, before⟩ := back j first rest' one
    obtain ⟨_, after⟩ := back k second left two
    exact inv.distinct j k first _ second _ before after same
  · intro id above
    rw [step.calls] at above
    rw [foreign id (by omega)]
    exact inv.fresh id above
  · intro other ret member
    rw [step.history, mem_append, mem_append] at member
    rw [step.calls]
    rcases member with (old | sentEvent) | new
    · obtain ⟨smaller, done, writers⟩ := inv.settled other ret old
      have different : other.id ≠ call.id := fun same => writers i call rest here same.symm
      refine ⟨smaller, by rw [Settled, foreign _ different]; exact done, fun j third left there => ?_⟩
      by_cases same : j = i
      · subst same
        obtain ⟨rfl, -, -⟩ := step.goesOn third left there
        exact different.symm
      · rw [step.others j same] at there
        exact writers j third left there
    · simp at sentEvent
    · obtain ⟨ret', event, silent, result⟩ := step.outcome _ new
      simp only [Event.wrote.injEq] at event
      obtain ⟨rfl, rfl⟩ := event
      refine ⟨below, by rw [Settled, own]; exact result, fun j third left there => ?_⟩
      by_cases same : j = i
      · subst same
        simp [silent] at there
      · rw [step.others j same] at there
        exact apart j third left same there
  · intro n bytes p member
    rw [step.history, mem_append, mem_append] at member
    rcases member with (old | sentEvent) | new
    · exact inv.fetched n bytes p old
    · simp at sentEvent
    · obtain ⟨ret, event⟩ := onlyWrote _ new
      cases event

theorem FifoInv.readEvent (inv : FifoInv s) (i : ι) (pc : Pc) {e : Event}
    (ring : t.pipe.Holds (storedBytes s.history) (delivered (s.history ++ [e])).length)
    (order : delivered (s.history ++ [e]) =
      (storedBytes s.history).take (delivered (s.history ++ [e])).length)
    (history : t.history = s.history ++ [e]) (calls : t.calls = s.calls)
    (procs : t.procs = jump s.procs i pc) (same : pc.writing = (s.procs i).pc.writing)
    (silent : storedBytes [e] = [] ∧ (∀ id, bytesOf [e] id = []) ∧ ∀ call ret, e ≠ .wrote call ret)
    (closed : ∀ n bytes p, e = .fetched n bytes p → 0 < n → bytes = [] → p.nread = p.nwrite ∧ p.writeopen = false) :
    FifoInv t := by
  have stored : storedBytes t.history = storedBytes s.history := by simp [history, silent.1]
  have bytes : ∀ id, bytesOf t.history id = bytesOf s.history id := by simp [history, silent.2.1]
  have writing : ∀ j, (t.procs j).pc.writing = (s.procs j).pc.writing := fun j => by
    rw [procs]
    exact writing_jump _ _ _ _ same
  refine ⟨?_, ?_, ?_, ?_, ?_, ?_, ?_⟩
  · rw [stored, history]
    exact ring
  · rw [stored, history]
    exact order
  · intro j call rest here
    rw [writing] at here
    rw [bytes, calls]
    exact inv.active j call rest here
  · intro j k call rest other left here there
    rw [writing] at here there
    exact inv.distinct j k call rest other left here there
  · intro id above
    rw [calls] at above
    rw [bytes]
    exact inv.fresh id above
  · intro call ret member
    rw [history, mem_append, mem_singleton] at member
    simp only [calls, writing, Settled, bytes]
    rcases member with old | new
    · exact inv.settled call ret old
    · exact absurd new.symm (silent.2.2 call ret)
  · intro n out p member
    rw [history, mem_append, mem_singleton] at member
    rcases member with old | new
    · exact inv.fetched n out p old
    · exact closed n out p new.symm

theorem FifoInv.fetch (inv : FifoInv s) {n : Nat} (here : (s.procs i).pc = .readEnter n)
    (ready : (s.pipe.empty && s.pipe.writeopen) = false) : FifoInv (readSection s i n) := by
  obtain ⟨bytes, holds, -, writeopen⟩ := readLoop_spec n inv.ring
  have moved : delivered (s.history ++ [.fetched n (readLoop s.pipe n).2 (readLoop s.pipe n).1]) =
      delivered s.history ++ (readLoop s.pipe n).2 := by simp [delivered]
  have result : readSection s i n =
      { s with
        pipe := (readLoop s.pipe n).1, lock := some i, procs := jump s.procs i .readDone
        history := s.history ++ [.fetched n (readLoop s.pipe n).2 (readLoop s.pipe n).1] } := by
    simp [readSection, ready]
  rw [result]
  refine inv.readEvent i .readDone ?_ ?_ rfl rfl rfl (by rw [here]; rfl) ?_ ?_
  · rw [moved, length_append]
    exact holds
  · rw [moved, length_append, take_add, ← inv.order]
    congr 1
    rw [bytes, length_take, take_eq_take_iff]
    simp
  · exact ⟨rfl, fun _ => rfl, fun _ _ => by simp⟩
  · intro m out p event positive nothing
    simp only [Event.fetched.injEq] at event
    obtain ⟨rfl, rfl, rfl⟩ := event
    obtain ⟨empty, same⟩ := readLoop_nil_of_pos positive nothing
    rw [same]
    rw [empty, Bool.true_and] at ready
    exact ⟨by simpa [Pipe.empty] using empty, ready⟩

theorem FifoInv.effect (inv : FifoInv s) (effect : Effect s t) : FifoInv t := by
  cases effect with
  | quiet quiet => exact inv.quiet quiet
  | pipewrite i addr user result =>
    subst result
    exact inv.pipewrite i addr
  | write i call rest here result =>
    subst result
    obtain ⟨sent, returned, step⟩ := writeSection_step inv here
    exact inv.writeStep (by rw [here]; rfl) step
  | fetch i n here ready result =>
    subst result
    exact inv.fetch here ready
  | refuse i n here result =>
    subst result
    have moved : delivered (s.history ++ [.refused n]) = delivered s.history := by simp [delivered]
    refine inv.readEvent i .user ?_ ?_ rfl rfl rfl (by rw [here]; rfl) ?_ ?_
    · rw [moved]
      exact inv.ring
    · rw [moved]
      exact inv.order
    · exact ⟨rfl, fun _ => rfl, fun _ _ => by simp⟩
    · intro m out p event
      cases event

theorem fifoInv_run [Fintype ι] {ls : List (Label ι)} (start : Initial s)
    (reached : run step s ls = some t) : FifoInv t :=
  run_invariant step FifoInv (fun _ _ _ inv taken => inv.effect (step_effect taken)) (.initial start) reached

/-- The pipe is a queue of at most `PIPESIZE` bytes, `pipewrite` stores its bytes in order, all of
them if it succeeds, and an empty read means an empty pipe with its write end closed. -/
theorem pipe_fifo [Fintype ι] {s t : State ι} {ls : List (Label ι)} (start : Initial s)
    (reached : run step s ls = some t) :
    (t.pipe.nwrite - t.pipe.nread).toNat ≤ PIPESIZE ∧
    delivered t.history ++ t.pipe.buffered = storedBytes t.history ∧
    (∀ call ret, Event.wrote call ret ∈ t.history →
      (ret = call.addr.length → bytesOf t.history call.id = call.addr) ∧
      (ret = -1 → bytesOf t.history call.id <+: call.addr)) ∧
    (∀ n bytes p, Event.fetched n bytes p ∈ t.history → 0 < n → bytes.length = 0 →
      p.nread = p.nwrite ∧ p.writeopen = false) := by
  have inv := fifoInv_run start reached
  refine ⟨?_, ?_, ?_, ?_⟩
  · have count := inv.ring.count_eq small
    have bounded := inv.ring.bounded
    rw [RingBuffer.count] at count
    omega
  · conv_rhs => rw [← take_append_drop (delivered t.history).length (storedBytes t.history)]
    rw [inv.ring.buffered_eq divides small, ← inv.order]
  · intro call ret member
    obtain ⟨-, done | failed, -⟩ := inv.settled call ret member
    · exact ⟨fun _ => done.2, fun negative => by have := done.1; omega⟩
    · exact ⟨fun length => by have := failed.1; omega, fun _ => failed.2⟩
  · intro n bytes p member positive nothing
    exact inv.fetched n bytes p member positive (length_eq_zero_iff.mp nothing)

def allocated (ι : Type) : State ι where
  pipe := { data := fun _ => 1, nread := 0, nwrite := 0, readopen := true, writeopen := true }
  lock := none
  procs := fun _ => { state := .running, chan := none, killed := false, pc := .user }
  readRef := true
  writeRef := true
  calls := 0
  history := []

theorem allocated_initial (ι : Type) : Initial (allocated ι) :=
  ⟨rfl, rfl, rfl, rfl, rfl, rfl, rfl, fun _ => rfl, fun _ => by simp [allocated], rfl⟩

-- write two bytes, then read one of them
def writeThenRead : List (Label Unit) :=
  [.pipewrite () [7, 8], .go (), .go (), .go (), .piperead () 1, .go ()]

theorem pipe_fifo_writeThenRead : ∃ t, run step (allocated Unit) writeThenRead = some t ∧
    delivered t.history = [7] ∧ delivered t.history ++ t.pipe.buffered = storedBytes t.history := by
  obtain ⟨t, reached⟩ : ∃ t, run step (allocated Unit) writeThenRead = some t := ⟨_, rfl⟩
  refine ⟨t, reached, ?_, (pipe_fifo (allocated_initial Unit) reached).2.1⟩
  cases reached
  rfl

end Xv6.Pipe
