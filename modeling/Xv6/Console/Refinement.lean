import Mathlib.Data.List.TakeWhile
import Xv6.Console.Model

/-! What the console's input is for, a line editor in front of an unbounded queue, and how the ring
buffer of `console.c` refines it. -/

variable {queue : List UInt8} {c : UInt8} {n : Nat}

namespace Xv6.Console
open Lib Lib.Transition Proc

structure Editor where
  -- committed and not yet read
  queue : List UInt8
  line : List UInt8

namespace Editor

def size (a : Editor) : Nat := a.queue.length + a.line.length

def append (a : Editor) (c : UInt8) : Editor :=
  if c = LF ∨ c = C 'D' ∨ a.size + 1 = INPUT_BUF then ⟨a.queue ++ (a.line ++ [c]), []⟩
  else ⟨a.queue, a.line ++ [c]⟩

/-- A character arrives; those in `ignored` are none of the editor's business. -/
def typed (ignored : List UInt8) (a : Editor) (c : UInt8) : Editor :=
  if c ∈ ignored then a
  else if c = C 'U' then ⟨a.queue, []⟩
  else if c = C 'H' ∨ c = DEL then ⟨a.queue, a.line.dropLast⟩
  else if c ≠ 0 ∧ a.size < INPUT_BUF then a.append (if c = CR then LF else c)
  else a

end Editor

/-- The part of a read that the bytes of the queue allow. -/
structure Turn where
  queue : List UInt8
  bytes : List UInt8
  done : Bool

def ordinary (c : UInt8) : Bool := c ≠ LF ∧ c ≠ C 'D'

/-- A read takes up to `n` bytes, to a newline or up to a `^D`, which it takes only if it got
nothing. -/
def turn (queue : List UInt8) (n : Nat) (first : Bool) : Turn :=
  let bytes := (queue.take n).takeWhile ordinary
  if bytes.length = n then ⟨queue.drop n, bytes, true⟩
  else match queue.drop bytes.length with
    | [] => ⟨[], bytes, false⟩
    | c :: rest =>
      if c = LF then ⟨rest, bytes ++ [LF], true⟩
      else if first ∧ bytes = [] then ⟨rest, [], true⟩
      else ⟨c :: rest, bytes, true⟩

structure Session (ι : Type) where
  editor : Editor
  -- what a reader asked for and what it has got
  readers : ι → Option (Nat × List UInt8)
  returned : List (Return ι)

inductive Action (ι : Type) where
  | typed (chars : List UInt8)
  | read (i : ι) (n : Nat)
  | serve (i : ι)

variable {ι : Type} [DecidableEq ι]

def Session.serve (a : Session ι) (i : ι) (target : Nat) (dst : List UInt8) : Session ι :=
  let turn := turn a.editor.queue (target - dst.length) dst.isEmpty
  let dst := dst ++ turn.bytes
  { editor := { a.editor with queue := turn.queue }
    readers := Function.update a.readers i (if turn.done then none else some (target, dst))
    returned := a.returned ++ if turn.done then [⟨i, target, dst, dst.length⟩] else [] }

def Session.step (ignored : List UInt8) (a : Session ι) : Action ι → Option (Session ι)
  | .typed chars => some { a with editor := chars.foldl (Editor.typed ignored) a.editor }
  | .read i n =>
    if a.readers i = none then some { a with readers := Function.update a.readers i (some (n, [])) } else none
  | .serve i => (a.readers i).map fun reader => a.serve i reader.1 reader.2

def Session.start : Session ι := ⟨⟨[], []⟩, fun _ => none, []⟩

-- what a step of the kernel is to the editor
def Label.view : Label ι → List (Action ι)
  | .consoleintr chars => [.typed chars]
  | .consoleread i n => [.read i n]
  | .go i => [.serve i]
  | _ => []

section Turn
variable {first : Bool}

theorem turn_zero : turn queue 0 first = ⟨queue, [], true⟩ := by simp [turn]

theorem turn_nil : turn [] (n + 1) first = ⟨[], [], false⟩ := by simp [turn]

theorem turn_eof : turn (C 'D' :: queue) (n + 1) first = ⟨if first then queue else C 'D' :: queue, [], true⟩ := by
  have special : ordinary (C 'D') = false := by decide
  have apart : C 'D' ≠ LF := by decide
  cases first <;> simp [turn, special, apart]

theorem turn_newline : turn (LF :: queue) (n + 1) first = ⟨queue, [LF], true⟩ := by
  have special : ordinary LF = false := by decide
  simp [turn, special]

theorem turn_cons (plain : ordinary c = true) :
    turn (c :: queue) (n + 1) first =
      { turn queue n false with bytes := c :: (turn queue n false).bytes } := by
  unfold turn
  simp only [List.take_succ_cons, List.takeWhile_cons, plain, if_true, List.length_cons, Nat.add_right_cancel_iff,
    List.drop_succ_cons]
  split
  · rfl
  · split
    · simp_all
    · simp_all
      split <;> simp_all

end Turn

end Xv6.Console

namespace Xv6.Console
open Lib Lib.Transition Proc Function List

theorem divides : INPUT_BUF ∣ 2 ^ 32 := ⟨2 ^ 25, by decide⟩

theorem small : INPUT_BUF < 2 ^ 32 := by decide

/-- `input` holds the editor's bytes after the bytes `past` that were read earlier. -/
structure Represents (input : Input) (past : List UInt8) (a : Editor) : Prop where
  ring : input.ring.Holds (past ++ a.queue ++ a.line) past.length
  w : input.w = BitVec.ofNat 32 (past ++ a.queue).length

variable {line : List UInt8}

variable {past : List UInt8} {input : Input}

namespace Represents

variable {a : Editor}

section

variable (rep : Represents input past a)
include rep

theorem r : input.r = BitVec.ofNat 32 past.length := rep.ring.nread

theorem e : input.e = BitVec.ofNat 32 (past ++ a.queue ++ a.line).length :=
  rep.ring.nwrite

theorem size_le : a.size ≤ INPUT_BUF := by
  have bounded := rep.ring.bounded
  simp only [length_append] at bounded
  unfold Editor.size
  omega

theorem pending : (input.e - input.r).toNat = a.size := by
  rw [rep.e, rep.r, RingBuffer.toNat_sub_of_window small rep.ring.ordered rep.ring.bounded]
  simp only [length_append, Editor.size]
  omega

theorem committed : (input.w - input.r).toNat = a.queue.length := by
  have bounded := rep.size_le
  unfold Editor.size at bounded
  rw [rep.w, rep.r, length_append,
    RingBuffer.toNat_sub_of_window small (Nat.le_add_right _ _) (by omega)]
  omega

theorem uncommitted : (input.e - input.w).toNat = a.line.length := by
  have bounded := rep.size_le
  have total : (past ++ a.queue ++ a.line).length = (past ++ a.queue).length + a.line.length :=
    length_append
  unfold Editor.size at bounded
  rw [rep.w, rep.e, total,
    RingBuffer.toNat_sub_of_window small (Nat.le_add_right _ _) (by omega)]
  omega

theorem r_eq_w_iff : input.r = input.w ↔ a.queue = [] := by
  have bounded := rep.size_le
  unfold Editor.size at bounded
  rw [rep.w, rep.r, length_append,
    RingBuffer.ofNat_eq_iff_of_window small (Nat.le_add_right _ _) (by omega)]
  rw [← length_eq_zero_iff]
  omega

theorem e_eq_w_iff : input.e = input.w ↔ a.line = [] := by
  have bounded := rep.size_le
  have total : (past ++ a.queue ++ a.line).length = (past ++ a.queue).length + a.line.length :=
    length_append
  unfold Editor.size at bounded
  rw [eq_comm, rep.w, rep.e, total,
    RingBuffer.ofNat_eq_iff_of_window small (Nat.le_add_right _ _) (by omega)]
  rw [← length_eq_zero_iff]
  omega

theorem room_iff :
    input.e - input.r < BitVec.ofNat 32 INPUT_BUF ↔ a.size < INPUT_BUF := by
  rw [BitVec.lt_def, rep.pending]
  exact Iff.rfl

theorem full_iff :
    input.e = input.r + BitVec.ofNat 32 INPUT_BUF ↔ a.size = INPUT_BUF := by
  rw [show input.e = input.ring.nwrite from rfl, show input.r = input.ring.nread from rfl,
    rep.ring.full_iff small]
  simp only [length_append, Editor.size]
  omega

end

variable {rest : List UInt8}

theorem char_r (rep : Represents input past ⟨c :: rest, line⟩) :
    input.char input.r = c := by
  have nonempty : past.length < (past ++ c :: rest ++ line).length := by simp
  have front := rep.ring.front_eq divides nonempty
  rw [show input.char input.r = input.ring.front from rfl, front]
  simp

theorem char_e (rep : Represents input past ⟨queue, line ++ [c]⟩) :
    input.char (input.e - 1) = c := by
  have nonempty : past.length < (past ++ queue ++ (line ++ [c])).length := by
    simp only [length_append, length_cons]
    omega
  have back := rep.ring.back_eq divides nonempty
  rw [show input.char (input.e - 1) = input.ring.data (RingBuffer.slot (input.ring.nwrite - 1)) from rfl, back]
  simp [← append_assoc]

theorem read (rep : Represents input past ⟨c :: rest, line⟩) :
    Represents { input with r := input.r + 1 } (past ++ [c]) ⟨rest, line⟩ where
  ring := by
    have nonempty : past.length < (past ++ c :: rest ++ line).length := by simp
    have popped := rep.ring.pop nonempty
    simp only [length_append, length_singleton, append_assoc, singleton_append]
    simp only [append_assoc, cons_append] at popped
    exact popped
  w := by simpa using rep.w

theorem erased (rep : Represents input past ⟨queue, line ++ [c]⟩) :
    Represents { input with e := input.e - 1 } past ⟨queue, line⟩ where
  ring := by
    have nonempty : past.length < (past ++ queue ++ (line ++ [c])).length := by
      simp only [length_append, length_cons]
      omega
    have kept : (past ++ queue ++ (line ++ [c])).dropLast = past ++ queue ++ line := by
      rw [← append_assoc, dropLast_concat]
    have back := rep.ring.unpush nonempty
    rw [kept] at back
    exact back
  w := rep.w

theorem put (rep : Represents input past a) (room : a.size < INPUT_BUF) (c : UInt8) :
    Represents (input.put c) past ⟨a.queue, a.line ++ [c]⟩ where
  ring := by
    have free : (past ++ a.queue ++ a.line).length < past.length + INPUT_BUF := by
      simp only [length_append]
      unfold Editor.size at room
      omega
    have pushed := rep.ring.push divides free c
    rw [append_assoc _ a.line] at pushed
    exact pushed
  w := rep.w

theorem commit (rep : Represents input past a) :
    Represents { input with w := input.e } past ⟨a.queue ++ a.line, []⟩ where
  ring := by
    have ring := rep.ring
    simp only [append_nil, ← append_assoc]
    exact ring
  w := by
    rw [← append_assoc]
    exact rep.e

end Represents

def shown (echoed : List Nat) : List UInt8 :=
  echoed.foldl (fun text c => if c = BACKSPACE then text.dropLast else text ++ [c.toUInt8]) []

theorem shown_backspace (echoed : List Nat) : shown (echoed ++ [BACKSPACE]) = (shown echoed).dropLast := by
  simp [shown]

theorem shown_char (echoed : List Nat) (c : UInt8) : shown (echoed ++ [c.toNat]) = shown echoed ++ [c] := by
  have visible : c.toNat ≠ BACKSPACE := by
    have := c.toNat_lt
    unfold BACKSPACE
    omega
  simp [shown, visible]

variable {ι : Type} [DecidableEq ι]

def Pc.of : Option (Nat × List UInt8) → Pc
  | none => .user
  | some (target, dst) => .reading target (target - dst.length) dst

def Short (readers : ι → Option (Nat × List UInt8)) : Prop :=
  ∀ i target dst, readers i = some (target, dst) → dst.length ≤ target

structure Agrees (s : State ι) (past : List UInt8) (a : Session ι) : Prop where
  input : Represents s.input past a.editor
  shown : shown s.echoed = past ++ a.editor.queue ++ a.editor.line
  pc : ∀ i, (s.procs i).pc = .of (a.readers i)
  short : Short a.readers
  asleep : ∀ i, (s.procs i).SleepsOn .r → a.editor.queue = []
  alive : ∀ i, (s.procs i).killed = false
  returned : s.returned = a.returned

section Typing
variable {s : State ι} {a : Session ι}

omit [DecidableEq ι] in
theorem Agrees.erase
    (agrees : Agrees s past { a with editor := ⟨queue, line ++ [c]⟩ }) :
    Agrees s.erase past { a with editor := ⟨queue, line⟩ } where
  input := agrees.input.erased
  shown := by
    have text := agrees.shown
    simp only [← append_assoc] at text
    rw [State.erase, shown_backspace, text, dropLast_concat]
  pc := agrees.pc
  short := agrees.short
  asleep := agrees.asleep
  alive := agrees.alive
  returned := agrees.returned

omit [DecidableEq ι] in
theorem Agrees.put (agrees : Agrees s past a) (room : a.editor.size < INPUT_BUF) (c : UInt8) :
    Agrees { s with input := s.input.put c, echoed := s.echoed ++ [c.toNat] } past
      { a with editor := ⟨a.editor.queue, a.editor.line ++ [c]⟩ } where
  input := agrees.input.put room c
  shown := by rw [shown_char, agrees.shown, append_assoc _ _ [c]]
  pc := agrees.pc
  short := agrees.short
  asleep := agrees.asleep
  alive := agrees.alive
  returned := agrees.returned

omit [DecidableEq ι] in
theorem Agrees.commit (agrees : Agrees s past a) :
    Agrees s.commit past { a with editor := ⟨a.editor.queue ++ a.editor.line, []⟩ } where
  input := agrees.input.commit
  shown := by
    simp only [append_nil, ← append_assoc]
    exact agrees.shown
  pc := fun i => by rw [State.commit, wakeup_pc]; exact agrees.pc i
  short := agrees.short
  asleep := fun i asleep => absurd rfl ((wakeup_sleepsOn _ _ _ _).mp asleep).2
  alive := fun i => by rw [State.commit, wakeup_killed]; exact agrees.alive i
  returned := agrees.returned

omit [DecidableEq ι] in
/-- No newline is ever uncommitted, so `^U` drops the whole line. -/
theorem Agrees.killLineFrom (clean : LF ∉ line)
    (agrees : Agrees s past { a with editor := ⟨queue, line⟩ }) :
    Agrees (killLineFrom line.length s) past { a with editor := ⟨queue, []⟩ } := by
  induction line using List.reverseRecOn generalizing s with
  | nil => exact agrees
  | append_singleton line c ih =>
    simp only [mem_append, mem_singleton, not_or] at clean
    have more : s.input.e ≠ s.input.w := by
      rw [ne_eq, agrees.input.e_eq_w_iff]
      simp
    have inside : s.input.char (s.input.e - 1) ≠ LF := by
      rw [agrees.input.char_e]
      exact fun same => clean.2 same.symm
    rw [length_append, length_singleton, Console.killLineFrom, if_pos ⟨more, inside⟩]
    exact ih clean.1 agrees.erase

omit [DecidableEq ι] in
theorem Agrees.insert (agrees : Agrees s past a) (c : UInt8) :
    Agrees (insert s c) past
      { a with editor := if c ≠ 0 ∧ a.editor.size < INPUT_BUF then a.editor.append (if c = CR then LF else c)
                         else a.editor } := by
  unfold Console.insert
  simp only [agrees.input.room_iff]
  by_cases room : c ≠ 0 ∧ a.editor.size < INPUT_BUF
  · rw [if_pos room, if_pos room]
    generalize (if c = CR then LF else c) = c
    have added := agrees.put room.2 c
    have full := added.input.full_iff
    have size : Editor.size ⟨a.editor.queue, a.editor.line ++ [c]⟩ = a.editor.size + 1 := by
      simp [Editor.size, Nat.add_assoc]
    rw [size] at full
    simp only [full, Editor.append]
    split
    · exact added.commit
    · exact added
  · rw [if_neg room, if_neg room]
    exact agrees

structure Editor.Tidy (a : Editor) : Prop where
  clean : LF ∉ a.line
  bounded : a.size ≤ INPUT_BUF
  full : a.size = INPUT_BUF → a.line = []

omit [DecidableEq ι] in
theorem Agrees.intrChar (agrees : Agrees s past a) (tidy : a.editor.Tidy) (c : UInt8) :
    Agrees (intrChar s c) past { a with editor := a.editor.typed [C 'P'] c } := by
  unfold Console.intrChar Editor.typed
  simp only [mem_singleton]
  split
  · exact agrees
  split
  · rw [killLine, agrees.input.uncommitted]
    exact agrees.killLineFrom tidy.clean
  split
  · rcases eq_nil_or_concat' a.editor.line with empty | ⟨line, last, split⟩
    · rw [if_neg (not_not.mpr (agrees.input.e_eq_w_iff.mpr empty)), empty]
      have same : a.editor = ⟨a.editor.queue, [].dropLast⟩ := by rw [dropLast_nil, ← empty]
      rw [← same]
      exact agrees
    · have more : s.input.e ≠ s.input.w := by
        rw [ne_eq, agrees.input.e_eq_w_iff, split]
        simp
      rw [if_pos more, split, dropLast_concat]
      have same : a.editor = ⟨a.editor.queue, line ++ [last]⟩ := by rw [← split]
      apply Agrees.erase
      rw [← same]
      exact agrees
  · exact agrees.insert c

end Typing

theorem Editor.Tidy.of_empty (bounded : queue.length ≤ INPUT_BUF) :
    Editor.Tidy ⟨queue, []⟩ where
  clean := not_mem_nil
  bounded := bounded
  full := fun _ => rfl

variable {a : Editor}

theorem Editor.Tidy.append (tidy : a.Tidy) (room : a.size < INPUT_BUF) (c : UInt8) :
    (a.append c).Tidy := by
  have size : Editor.size ⟨a.queue, a.line ++ [c]⟩ = a.size + 1 := by simp [Editor.size, Nat.add_assoc]
  unfold Editor.append
  split
  · apply Editor.Tidy.of_empty
    unfold Editor.size at room
    simp only [length_append, length_singleton]
    omega
  next stays =>
    simp only [not_or] at stays
    refine ⟨?_, by rw [size]; exact room, fun full => absurd (size.symm.trans full) stays.2.2⟩
    simp only [mem_append, mem_singleton, not_or]
    exact ⟨tidy.clean, fun same => stays.1 same.symm⟩

theorem Editor.Tidy.typed (tidy : a.Tidy) (ignored : List UInt8) (c : UInt8) :
    (a.typed ignored c).Tidy := by
  have bounded := tidy.bounded
  unfold Editor.size at bounded
  unfold Editor.typed
  split
  · exact tidy
  split
  · exact Editor.Tidy.of_empty (by omega)
  split
  · have shorter : Editor.size ⟨a.queue, a.line.dropLast⟩ = a.queue.length + (a.line.length - 1) := by
      rw [Editor.size, length_dropLast]
    refine ⟨fun found => tidy.clean (mem_of_mem_dropLast found), by omega, fun full => ?_⟩
    have unchanged : a.size = INPUT_BUF := by
      unfold Editor.size
      omega
    simp [tidy.full unchanged]
  split
  next room => exact tidy.append room.2 _
  · exact tidy

theorem Editor.Tidy.shrink (tidy : a.Tidy)
    (shorter : queue.length ≤ a.queue.length) : Editor.Tidy ⟨queue, a.line⟩ where
  clean := tidy.clean
  bounded := Nat.le_trans (Nat.add_le_add_right shorter _) tidy.bounded
  full := fun full => tidy.full (Nat.le_antisymm tidy.bounded (full ▸ Nat.add_le_add_right shorter _))

/-- What the loop of `consoleread` leaves after the turn `t` of the editor. -/
structure Served (past queue line dst : List UInt8) (target : Nat) (t : Turn) (after : ReadState) : Prop where
  input : ∃ taken, taken ++ t.queue = queue ∧ Represents after.input (past ++ taken) ⟨t.queue, line⟩
  dst : after.dst = dst ++ t.bytes
  n : after.dst.length + after.n = target
  exit : after.exit = if t.done then .returns else .sleeps
  waiting : t.done = false → t.queue = []

variable {dst : List UInt8} {target : Nat}

theorem readLoop_served
    (rep : Represents input past ⟨queue, line⟩) (total : dst.length + n = target) :
    Served past queue line dst target (turn queue n dst.isEmpty) (readLoop false target input n dst) := by
  induction n generalizing input past queue dst with
  | zero =>
    rw [turn_zero, readLoop]
    exact ⟨⟨[], rfl, by simpa using rep⟩, by simp, total, rfl, nofun⟩
  | succ n ih =>
    cases queue with
    | nil =>
      rw [turn_nil, readLoop, if_pos (rep.r_eq_w_iff.mpr rfl)]
      exact ⟨⟨[], rfl, by simpa using rep⟩, by simp, total, rfl, fun _ => rfl⟩
    | cons c rest =>
      have more : input.r ≠ input.w := fun same => by simpa using rep.r_eq_w_iff.mp same
      rw [readLoop, if_neg more, rep.char_r]
      by_cases eof : c = C 'D'
      · subst eof
        rw [turn_eof, if_pos rfl]
        have partial_iff : n + 1 < target ↔ dst.isEmpty = false := by
          rw [isEmpty_eq_false_iff, ← length_pos_iff]
          omega
        cases empty : dst.isEmpty with
        | true =>
          have whole : ¬ n + 1 < target := by rw [partial_iff, empty]; decide
          simp only [if_neg whole]
          exact ⟨⟨[C 'D'], rfl, rep.read⟩, by simp, total, rfl, nofun⟩
        | false =>
          simp only [if_pos (partial_iff.mpr empty)]
          have back : input.r + 1 - 1 = input.r := BitVec.add_sub_cancel _ _
          exact ⟨⟨[], rfl, by simpa [back] using rep⟩, by simp, total, rfl, nofun⟩
      · rw [if_neg eof]
        by_cases newline : c = LF
        · subst newline
          rw [turn_newline, if_pos rfl]
          refine ⟨⟨[LF], rfl, rep.read⟩, rfl, ?_, rfl, nofun⟩
          simp only [length_append, length_singleton]
          omega
        · rw [if_neg newline, turn_cons (decide_eq_true ⟨newline, eof⟩)]
          have longer : (dst ++ [c]).length + n = target := by
            simp only [length_append, length_singleton]
            omega
          have later := ih rep.read longer
          have started : (dst ++ [c]).isEmpty = false := by simp
          rw [started] at later
          obtain ⟨taken, split, after⟩ := later.input
          refine ⟨⟨c :: taken, congrArg (c :: ·) split, by simpa using after⟩, ?_, later.n, later.exit, later.waiting⟩
          simpa using later.dst

variable {ls : List (Label ι)}

section Steps
variable {s t : State ι} {a : Session ι}

omit [DecidableEq ι] in
theorem Agrees.consoleintr (agrees : Agrees s past a) (tidy : a.editor.Tidy) (chars : List UInt8) :
    Agrees (consoleintr s chars) past { a with editor := chars.foldl (Editor.typed [C 'P']) a.editor } ∧
      (chars.foldl (Editor.typed [C 'P']) a.editor).Tidy := by
  induction chars generalizing s a with
  | nil => exact ⟨agrees, tidy⟩
  | cons c chars ih => exact ih (agrees.intrChar tidy c) (tidy.typed [C 'P'] c)

variable {readers : ι → Option (Nat × List UInt8)}

theorem Pc.of_update {procs procs' : ι → Proc Chan Pc} {i : ι}
    (before : ∀ j, (procs j).pc = .of (readers j)) (reader : Option (Nat × List UInt8))
    (moved : (procs' i).pc = .of reader) (others : ∀ j, j ≠ i → procs' j = procs j) (j : ι) :
    (procs' j).pc = .of (update readers i reader j) := by
  rcases eq_or_ne j i with rfl | apart
  · rw [update_self]
    exact moved
  · rw [others j apart, update_of_ne apart]
    exact before j

theorem Short.update (short : Short readers) (i : ι)
    (reader : Option (Nat × List UInt8)) (here : ∀ target dst, reader = some (target, dst) → dst.length ≤ target) :
    Short (Function.update readers i reader) := by
  intro j target dst found
  rcases eq_or_ne j i with rfl | apart
  · rw [update_self] at found
    exact here target dst found
  · rw [update_of_ne apart] at found
    exact short j target dst found

theorem Agrees.consoleread (agrees : Agrees s past a) (i : ι) (n : Nat) :
    Agrees { s with procs := jump s.procs i (.reading n n []) } past
      { a with readers := update a.readers i (some (n, [])) } where
  input := agrees.input
  shown := agrees.shown
  pc := Pc.of_update agrees.pc (some (n, [])) (jump_self_pc _ _ _) fun j apart => jump_of_ne apart
  short := agrees.short.update i _ fun target dst same => by
    cases same
    exact Nat.zero_le _
  asleep := fun j asleep => agrees.asleep j ((jump_sleepsOn _ _ _ _ _).mp asleep)
  alive := fun j => by rw [jump_killed]; exact agrees.alive j
  returned := agrees.returned

theorem Agrees.readSection (agrees : Agrees s past a) (tidy : a.editor.Tidy) {i : ι}
    (reader : a.readers i = some (target, dst)) :
    ∃ past, Agrees (readSection s i target (target - dst.length) dst) past (a.serve i target dst) ∧
      (a.serve i target dst).editor.Tidy := by
  have total : dst.length + (target - dst.length) = target := by
    have := agrees.short i target dst reader
    omega
  have served := readLoop_served agrees.input total
  unfold Console.readSection Session.serve
  rw [agrees.alive i]
  generalize readLoop false target s.input (target - dst.length) dst = after at served ⊢
  generalize turn a.editor.queue (target - dst.length) dst.isEmpty = t at served ⊢
  obtain ⟨taken, split, rep⟩ := served.input
  have text : Console.shown s.echoed = past ++ taken ++ t.queue ++ a.editor.line := by
    rw [agrees.shown, ← split]
    simp only [append_assoc]
  have kept : Editor.Tidy ⟨t.queue, a.editor.line⟩ := by
    apply tidy.shrink
    rw [← split, length_append]
    exact Nat.le_add_left _ _
  dsimp only
  rw [served.exit, ← served.dst]
  refine ⟨past ++ taken, ?_, kept⟩
  cases done : t.done with
  | true =>
    simp only [if_true]
    refine ⟨rep, text, ?_, agrees.short.update i none nofun, ?_, ?_, ?_⟩
    · exact Pc.of_update agrees.pc none (jump_self_pc _ _ _) fun j apart => jump_of_ne apart
    · intro j asleep
      -- someone else asleep means that there was nothing to read
      have nothing := agrees.asleep j ((jump_sleepsOn _ _ _ _ _).mp asleep)
      rw [nothing] at split
      exact (append_eq_nil_iff.mp split).2
    · intro j
      rw [jump_killed]
      exact agrees.alive j
    · rw [agrees.returned]
      have count : (target : Int) - after.n = after.dst.length := by
        have := served.n
        omega
      rw [count]
  | false =>
    have left : after.n = target - after.dst.length := by
      have := served.n
      omega
    simp only [Bool.false_eq_true, if_false, append_nil]
    refine ⟨rep, text, ?_, ?_, fun _ _ => served.waiting done, ?_, agrees.returned⟩
    · apply Pc.of_update agrees.pc
      · rw [sleep_self_pc, left]
        rfl
      · exact fun j apart => sleep_of_ne apart
    · apply agrees.short.update
      intro target' dst' same
      cases same
      have := served.n
      omega
    · intro j
      rw [sleep_killed]
      exact agrees.alive j

def Related (s : State ι) (a : Session ι) : Prop := ∃ past, Agrees s past a ∧ a.editor.Tidy

omit [DecidableEq ι] in
theorem Agrees.still (agrees : Agrees s past a) {procs : ι → Proc Chan Pc}
    (pc : ∀ i, (procs i).pc = (s.procs i).pc) (killed : ∀ i, (procs i).killed = (s.procs i).killed)
    (asleep : ∀ i, (procs i).SleepsOn .r → (s.procs i).SleepsOn .r) :
    Agrees { s with procs := procs } past a where
  input := agrees.input
  shown := agrees.shown
  pc := fun i => (pc i).trans (agrees.pc i)
  short := agrees.short
  asleep := fun i here => agrees.asleep i (asleep i here)
  alive := fun i => (killed i).trans (agrees.alive i)
  returned := agrees.returned

theorem step_simulated {l : Label ι} (related : Related s a) (lives : ∀ i, l ≠ .kill i)
    (taken : step s l = some t) :
    ∃ b, run (Session.step [C 'P']) a l.view = some b ∧ Related t b := by
  obtain ⟨past, agrees, tidy⟩ := related
  cases l with
  | schedule i =>
    obtain ⟨-, ⟨⟩⟩ := Option.ite_none_right_eq_some.mp taken
    exact ⟨a, rfl, past, agrees.still (schedule_pc _ _) (schedule_killed _ _)
      (fun j => sleepsOn_of_schedule _ _ _ _), tidy⟩
  | yield i =>
    obtain ⟨-, ⟨⟩⟩ := Option.ite_none_right_eq_some.mp taken
    exact ⟨a, rfl, past, agrees.still (yield_pc _ _) (yield_killed _ _)
      (fun j => sleepsOn_of_yield _ _ _ _), tidy⟩
  | kill i => exact absurd rfl (lives i)
  | consoleintr chars =>
    cases taken
    obtain ⟨after, kept⟩ := agrees.consoleintr tidy chars
    exact ⟨_, rfl, past, after, kept⟩
  | consoleread i n =>
    obtain ⟨⟨-, user⟩, ⟨⟩⟩ := Option.ite_none_right_eq_some.mp taken
    have idle : a.readers i = none := by
      have here := agrees.pc i
      rw [user] at here
      cases reader : a.readers i with
      | none => rfl
      | some reader => simp [reader, Pc.of] at here
    refine ⟨_, ?_, past, agrees.consoleread i n, tidy⟩
    simp [Label.view, Session.step, idle]
  | go i =>
    cases reader : a.readers i with
    | none =>
      have here := agrees.pc i
      rw [reader] at here
      simp [step, here, Pc.of] at taken
    | some request =>
      obtain ⟨target, dst⟩ := request
      have here := agrees.pc i
      rw [reader] at here
      simp only [step, here, Pc.of] at taken
      obtain ⟨-, ⟨⟩⟩ := Option.ite_none_right_eq_some.mp taken
      obtain ⟨past, after, kept⟩ := agrees.readSection tidy reader
      refine ⟨_, ?_, past, after, kept⟩
      simp [Label.view, Session.step, reader]

omit [DecidableEq ι] in
theorem Initial.related (start : Initial s) : Related s (Session.start : Session ι) := by
  refine ⟨[], ⟨⟨?_, start.w⟩, ?_, start.user, nofun, ?_, start.alive, start.returned⟩, Editor.Tidy.of_empty (Nat.zero_le _)⟩
  · have ring : s.input.ring = ⟨s.input.buf, 0, 0⟩ := by rw [Input.ring, start.r, start.e]
    rw [ring]
    exact RingBuffer.Holds.start _
  · rw [start.echoed]
    rfl
  · exact fun i _ => rfl

theorem Initial.followed (start : Initial s) (lives : ∀ i, .kill i ∉ ls)
    (reached : run step s ls = some t) :
    ∃ a, run (Session.step [C 'P']) Session.start (ls.flatMap Label.view) = some a ∧ Related t a := by
  have avoids : ∀ l ∈ ls, ∀ i, l ≠ .kill i := fun l found i same => lives i (same ▸ found)
  have along := along_of_mem step avoids s
  exact run_simulation_along step (Session.step [C 'P']) Label.view Related
    (fun s a l t related good taken => step_simulated related good taken) start.related along reached

end Steps

/-- What `consoleintr` echoes, with its backspaces, ends with the characters that nobody has read. The listing of `^P`
and what `consolewrite` and `cprintf` print are not part of it. -/
theorem echo_ends_with_unread {s t : State ι} (start : Initial s)
    (lives : ∀ i, .kill i ∉ ls) (reached : run step s ls = some t) :
    t.input.ring.buffered <:+ shown t.echoed := by
  obtain ⟨a, -, past, agrees, -⟩ := start.followed lives reached
  rw [agrees.input.ring.buffered_eq divides small, agrees.shown]
  exact drop_suffix _ _

/-- The console against a line editor that ignores `^P` and nothing else. -/
theorem console_edits_lines {s t : State ι} (start : Initial s) {ls : List (Label ι)}
    (lives : ∀ i, .kill i ∉ ls) (reached : run step s ls = some t) :
    (t.input.w - t.input.r).toNat ≤ (t.input.e - t.input.r).toNat ∧
    (t.input.e - t.input.r).toNat ≤ INPUT_BUF ∧
    ((t.input.e - t.input.r).toNat = INPUT_BUF → t.input.w = t.input.e) ∧
    (∀ i, (t.procs i).SleepsOn .r → t.input.r = t.input.w) ∧
    ∃ a, run (Session.step [C 'P']) Session.start (ls.flatMap Label.view) = some a ∧
      t.input.ring.buffered = a.editor.queue ++ a.editor.line ∧
      (∀ i, (t.procs i).pc = .of (a.readers i)) ∧ t.returned = a.returned := by
  obtain ⟨a, followed, past, agrees, tidy⟩ := start.followed lives reached
  have rep := agrees.input
  refine ⟨?_, ?_, ?_, ?_, a, followed, ?_, agrees.pc, agrees.returned⟩
  · rw [rep.committed, rep.pending]
    exact Nat.le_add_right _ _
  · rw [rep.pending]
    exact tidy.bounded
  · rw [rep.pending]
    exact fun full => (rep.e_eq_w_iff.mpr (tidy.full full)).symm
  · exact fun i asleep => rep.r_eq_w_iff.mpr (agrees.asleep i asleep)
  · rw [rep.ring.buffered_eq divides small, append_assoc, drop_left]

def booted : State Unit :=
  ⟨⟨fun _ => 0, 0, 0, 0⟩, fun _ => ⟨.running, none, false, .user⟩, [], []⟩

theorem booted_initial : Initial booted :=
  ⟨rfl, rfl, rfl, fun _ => rfl, fun _ => by simp [booted, SleepsOn], fun _ => rfl, rfl, rfl⟩

-- a reader that has to wait, for a line that is corrected before it is sent
def correctedLine : List (Label Unit) :=
  [.consoleread () 8, .go (), .consoleintr [0x61, C 'H', 0x62, CR], .schedule (), .go ()]

theorem console_edits_correctedLine :
    ∃ t, run step booted correctedLine = some t ∧ t.returned = [⟨(), 8, [0x62, LF], 2⟩] ∧
      ∃ a, run (Session.step [C 'P']) Session.start (correctedLine.flatMap Label.view) = some a ∧
        t.returned = a.returned := by
  have lives : ∀ i : Unit, .kill i ∉ correctedLine := by decide
  have returned : (run step booted correctedLine).map (·.returned) = some [⟨(), 8, [0x62, LF], 2⟩] := by
    decide +kernel
  obtain ⟨t, reached, what⟩ := Option.map_eq_some_iff.mp returned
  obtain ⟨-, -, -, -, a, followed, -, -, same⟩ := console_edits_lines booted_initial lives reached
  exact ⟨t, reached, what, a, followed, same⟩

theorem echo_of_correctedLine : ∃ t, run step booted (correctedLine.take 3) = some t ∧
    t.input.ring.buffered = [0x62, LF] ∧ [0x62, LF] <:+ shown t.echoed := by
  have lives : ∀ i : Unit, .kill i ∉ correctedLine.take 3 := by decide
  have unread : (run step booted (correctedLine.take 3)).map (·.input.ring.buffered) = some [0x62, LF] := by decide +kernel
  obtain ⟨t, reached, what⟩ := Option.map_eq_some_iff.mp unread
  exact ⟨t, reached, what, what ▸ echo_ends_with_unread booted_initial lives reached⟩

/-- `^P` is a non-zero character like any other and is not put on the line. -/
theorem console_drops_dump_key :
    ∃ t, run step booted [.consoleintr [C 'P', LF], .consoleread () 8, .go ()] = some t ∧
      ∀ a, run (Session.step []) Session.start [.typed [C 'P', LF], .read () 8, .serve ()] = some a →
        t.returned ≠ a.returned := by
  have kernel : (run step booted [.consoleintr [C 'P', LF], .consoleread () 8, .go ()]).map (·.returned) =
      some [⟨(), 8, [LF], 1⟩] := by decide +kernel
  have editor : (run (Session.step []) Session.start
      [.typed [C 'P', LF], .read () 8, .serve ()]).map (·.returned) =
        some [⟨(), 8, [C 'P', LF], 2⟩] := by decide +kernel
  obtain ⟨t, reached, what⟩ := Option.map_eq_some_iff.mp kernel
  refine ⟨t, reached, fun a followed => ?_⟩
  rw [followed] at editor
  have other : a.returned = [⟨(), 8, [C 'P', LF], 2⟩] := Option.some.inj editor
  rw [what, other]
  decide

end Xv6.Console
