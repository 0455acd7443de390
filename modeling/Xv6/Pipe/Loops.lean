import Xv6.Pipe.Model

/-! What the loops of `pipewrite` and `piperead` do to the ring, and what a step can do to the
bytes. -/

namespace Xv6.Pipe
open Lib Lib.Transition Proc Option

def storedBytes (history : List Event) : List UInt8 :=
  history.filterMap fun | .stored _ b => some b | _ => none

-- what the call `id` has stored so far
def bytesOf (history : List Event) (id : Nat) : List UInt8 :=
  history.filterMap fun | .stored owner b => if owner = id then some b else none | _ => none

-- what all the reads copied out, concatenated
def delivered (history : List Event) : List UInt8 :=
  history.flatMap fun | .fetched _ bytes _ => bytes | _ => []

@[simp] theorem storedBytes_append (first second : List Event) :
    storedBytes (first ++ second) = storedBytes first ++ storedBytes second := List.filterMap_append

@[simp] theorem bytesOf_append (first second : List Event) (id : Nat) :
    bytesOf (first ++ second) id = bytesOf first id ++ bytesOf second id := List.filterMap_append

@[simp] theorem delivered_append (first second : List Event) :
    delivered (first ++ second) = delivered first ++ delivered second := List.flatMap_append

theorem storedBytes_sent (id : Nat) (sent : List UInt8) : storedBytes (sent.map (.stored id)) = sent := by
  simp [storedBytes, List.filterMap_map]

theorem bytesOf_sent (id other : Nat) (sent : List UInt8) :
    bytesOf (sent.map (.stored id)) other = if id = other then sent else [] := by
  by_cases same : id = other
  · simp [bytesOf, List.filterMap_map, same]
  · simp [bytesOf, same]

theorem delivered_sent (id : Nat) (sent : List UInt8) : delivered (sent.map (.stored id)) = [] := by
  simp [delivered]

theorem divides : PIPESIZE ∣ 2 ^ 32 := ⟨2 ^ 23, by decide⟩

theorem small : PIPESIZE < 2 ^ 32 := by decide

section Loops
variable {p : Pipe} {pushed : List UInt8} {popped : Nat}

theorem full_eq_true_iff (holds : p.Holds pushed popped) :
    p.full = true ↔ pushed.length = popped + PIPESIZE := by
  simpa [full] using holds.full_iff small

theorem empty_eq_true_iff (holds : p.Holds pushed popped) : p.empty = true ↔ pushed.length = popped := by
  simpa [empty] using holds.empty_iff small

/-- The loop of `pipewrite` stores a part `sent` of its bytes, and stops early only at a full pipe.
-/
structure Wrote (p : Pipe) (pushed rest : List UInt8) (popped : Nat) (result : Pipe × List UInt8)
    (sent : List UInt8) : Prop where
  split : rest = sent ++ result.2
  holds : result.1.Holds (pushed ++ sent) popped
  readopen : result.1.readopen = p.readopen
  writeopen : result.1.writeopen = p.writeopen
  full : result.2 ≠ [] → result.1.full = true

theorem writeLoop_spec (rest : List UInt8) (holds : p.Holds pushed popped) :
    ∃ sent, Wrote p pushed rest popped (writeLoop p rest) sent := by
  induction rest generalizing p pushed with
  | nil => exact ⟨[], rfl, by simpa [writeLoop] using holds, rfl, rfl, fun left => absurd rfl left⟩
  | cons b rest ih =>
    by_cases full : p.full = true
    · refine ⟨[], ?_, ?_, ?_, ?_, ?_⟩
      · simp [writeLoop, full]
      · simpa [writeLoop, full] using holds
      · simp [writeLoop, full]
      · simp [writeLoop, full]
      · simp [writeLoop, full]
    · have room : pushed.length < popped + PIPESIZE := by
        have bound := holds.bounded
        have notFull := mt (full_eq_true_iff holds).mpr full
        omega
      have pushedOnce : (p.put b).Holds (pushed ++ [b]) popped := holds.push divides room b
      obtain ⟨sent, split, after, readopen, writeopen, stops⟩ := ih pushedOnce
      have unfolded : writeLoop p (b :: rest) = writeLoop (p.put b) rest := by simp [writeLoop, full]
      rw [unfolded]
      refine ⟨b :: sent, ?_, ?_, readopen, writeopen, stops⟩
      · rw [List.cons_append, ← split]
      · simpa using after

theorem readLoop_spec (n : Nat) (holds : p.Holds pushed popped) :
    (readLoop p n).2 = (pushed.drop popped).take n ∧
      (readLoop p n).1.Holds pushed (popped + (readLoop p n).2.length) ∧
      (readLoop p n).1.readopen = p.readopen ∧ (readLoop p n).1.writeopen = p.writeopen := by
  induction n generalizing p popped with
  | zero => exact ⟨by simp [readLoop], by simpa [readLoop] using holds, rfl, rfl⟩
  | succ n ih =>
    by_cases empty : p.empty = true
    · have none : pushed.drop popped = [] := by
        have := (empty_eq_true_iff holds).mp empty
        exact List.drop_eq_nil_of_le (by omega)
      exact ⟨by simp [readLoop, empty, none], by simpa [readLoop, empty] using holds,
        by simp [readLoop, empty], by simp [readLoop, empty]⟩
    · have some : popped < pushed.length := by
        have order := holds.ordered
        have := mt (empty_eq_true_iff holds).mpr empty
        omega
      obtain ⟨bytes, after, readopen, writeopen⟩ := ih (p := p.take) (holds.pop some)
      have unfolded : readLoop p (n + 1) = ((readLoop p.take n).1, p.front :: (readLoop p.take n).2) := by
        simp [readLoop, empty]
      rw [unfolded]
      refine ⟨?_, ?_, readopen, writeopen⟩
      · simp only [bytes, holds.front_eq divides some, List.drop_eq_getElem_cons some, List.take_succ_cons]
      · simpa only [List.length_cons, Nat.add_assoc, Nat.add_comm 1] using after

theorem readLoop_nil_of_pos {n : Nat} (positive : 0 < n) (nothing : (readLoop p n).2 = []) :
    p.empty = true ∧ (readLoop p n).1 = p := by
  cases n with
  | zero => exact absurd positive (Nat.lt_irrefl 0)
  | succ n =>
    by_cases empty : p.empty = true
    · exact ⟨empty, by simp [readLoop, empty]⟩
    · simp [readLoop, empty] at nothing

end Loops

-- the call a process is in the middle of, with the bytes it has yet to store
def Pc.writing : Pc → Option (Call × List UInt8)
  | .writeEnter call rest => some (call, rest)
  | .writeFull call rest => some (call, rest)
  | .writeSleep call rest => some (call, rest)
  | _ => none

variable {ι : Type} [DecidableEq ι]

/-- A step that moves no byte and starts or ends no call of `pipewrite`. -/
structure Quiet (s t : State ι) : Prop where
  ring : t.pipe.toRingBuffer = s.pipe.toRingBuffer
  history : t.history = s.history
  calls : t.calls = s.calls
  writing : ∀ j, (t.procs j).pc.writing = (s.procs j).pc.writing

omit [DecidableEq ι] in
theorem Quiet.of_procs {s t : State ι} (pipe : t.pipe = s.pipe) (history : t.history = s.history)
    (calls : t.calls = s.calls) (pcs : ∀ j, (t.procs j).pc = (s.procs j).pc) : Quiet s t :=
  ⟨by rw [pipe], history, calls, fun j => by rw [pcs j]⟩

theorem writing_jump (ptable : ι → Proc Chan Pc) (i j : ι) (pc : Pc)
    (same : pc.writing = (ptable i).pc.writing) : (jump ptable i pc j).pc.writing = (ptable j).pc.writing := by
  by_cases here : j = i
  · subst here
    rw [jump_self_pc, same]
  · rw [jump_of_ne here]

inductive Effect (s t : State ι) : Prop where
  | quiet (quiet : Quiet s t)
  | pipewrite (i : ι) (addr : List UInt8) (user : (s.procs i).pc = .user)
      (result : t = { s with
        procs := jump s.procs i (.writeEnter ⟨s.calls, addr⟩ addr), calls := s.calls + 1 })
  | write (i : ι) (call : Call) (rest : List UInt8) (at' : (s.procs i).pc = .writeEnter call rest)
      (result : t = writeSection s i call rest)
  | fetch (i : ι) (n : Nat) (at' : (s.procs i).pc = .readEnter n)
      (ready : (s.pipe.empty && s.pipe.writeopen) = false) (result : t = readSection s i n)
  | refuse (i : ι) (n : Nat) (at' : (s.procs i).pc = .readEnter n)
      (result : t = { s with procs := jump s.procs i .user, history := s.history ++ [.refused n] })

theorem go_effect {s t : State ι} {i : ι} (taken : go s i = some t) : Effect s t := by
  unfold go at taken
  cases here : (s.procs i).pc with
  | user => simp [here] at taken
  | writeEnter call rest =>
    simp only [here, ite_none_right_eq_some, some.injEq] at taken
    exact .write i call rest here taken.2.symm
  | writeFull | writeDone | readDone | closeWake =>
    simp only [here, some.injEq] at taken
    subst t
    exact .quiet ⟨rfl, rfl, rfl, fun j => by
      rw [writing_jump _ _ _ _ (by rw [wakeup_pc, here]; rfl), wakeup_pc]⟩
  | writeSleep | readSleep =>
    simp only [here, some.injEq] at taken
    subst t
    refine .quiet ⟨rfl, rfl, rfl, fun j => ?_⟩
    by_cases same : j = i
    · subst same
      simp [here, Pc.writing]
    · simp only [sleep_of_ne same]
  | readEnter n =>
    simp only [here, ite_none_right_eq_some, some.injEq] at taken
    obtain ⟨-, rfl⟩ := taken
    by_cases ready : (s.pipe.empty && s.pipe.writeopen) = true
    · by_cases killed : (s.procs i).killed = true
      · exact .refuse i n here (by simp [readSection, ready, killed])
      · refine .quiet ⟨by simp [readSection, ready, killed], by simp [readSection, ready, killed],
          by simp [readSection, ready, killed], fun j => ?_⟩
        simp only [readSection, ready, killed, if_true, Bool.false_eq_true, if_false]
        exact writing_jump _ _ _ _ (by rw [here]; rfl)
    · exact .fetch i n here (by simpa using ready) rfl
  | closeEnter w =>
    simp only [here, ite_none_right_eq_some, some.injEq] at taken
    obtain ⟨-, rfl⟩ := taken
    refine .quiet ⟨by cases w <;> rfl, rfl, rfl, fun j => ?_⟩
    exact writing_jump _ _ _ _ (by rw [here]; rfl)
  | release =>
    simp only [here, some.injEq] at taken
    subst t
    exact .quiet ⟨rfl, rfl, rfl, fun j => writing_jump _ _ _ _ (by rw [here]; rfl)⟩

theorem step_effect [Fintype ι] {s t : State ι} {l : Label ι} (taken : step s l = some t) : Effect s t := by
  cases l with
  | schedule i =>
    obtain ⟨-, rfl⟩ := Transition.of_guard taken
    exact .quiet (Quiet.of_procs rfl rfl rfl fun j => schedule_pc _ _ _)
  | yield i =>
    obtain ⟨-, rfl⟩ := Transition.of_guard taken
    exact .quiet (Quiet.of_procs rfl rfl rfl fun j => yield_pc _ _ _)
  | kill i =>
    simp only [step, some.injEq] at taken
    subst t
    exact .quiet (Quiet.of_procs rfl rfl rfl fun j => kill_pc _ _ _)
  | pipewrite i addr =>
    simp only [step, ite_none_right_eq_some, some.injEq] at taken
    exact .pipewrite i addr taken.1.2.1 taken.2.symm
  | piperead i n =>
    obtain ⟨⟨-, user, -⟩, rfl⟩ := Transition.of_guard taken
    exact .quiet ⟨rfl, rfl, rfl, fun j => writing_jump _ _ _ _ (by rw [user]; rfl)⟩
  | pipeclose i w =>
    cases w with
    | true =>
      obtain ⟨⟨-, user, -⟩, rfl⟩ := Transition.of_guard taken
      exact .quiet ⟨rfl, rfl, rfl, fun j => writing_jump _ _ _ _ (by rw [user]; rfl)⟩
    | false =>
      obtain ⟨⟨-, user, -⟩, rfl⟩ := Transition.of_guard taken
      exact .quiet ⟨rfl, rfl, rfl, fun j => writing_jump _ _ _ _ (by rw [user]; rfl)⟩
  | go i =>
    simp only [step, ite_none_right_eq_some] at taken
    exact go_effect taken.2

end Xv6.Pipe
