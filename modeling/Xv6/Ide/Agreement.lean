import Xv6.Ide.Model

/-! The queue of `ide.c` serves every request once and in order, and the caller finds what the
disk in memory would have given it. -/

namespace Xv6.Ide
open Lib Lib.Transition Proc LinkedQueue Function List Option

variable {ι β : Type}

theorem and_one_shift (dev : Nat) : ((0xe0 ||| ((dev &&& 1) <<< 4) ||| 0) >>> 4) &&& 1 = dev % 2 := by
  rw [Nat.and_one_is_mod dev]
  rcases Nat.mod_two_eq_zero_or_one dev with even | odd
  · rw [even]; rfl
  · rw [odd]; rfl

theorem and_one_head (dev : Nat) : (0xe0 ||| ((dev &&& 1) <<< 4) ||| 0) &&& 0x0f = 0 := by
  rw [Nat.and_one_is_mod dev]
  rcases Nat.mod_two_eq_zero_or_one dev with even | odd
  · rw [even]; rfl
  · rw [odd]; rfl

theorem command_addr (b : Buf ι β) (inside : b.addr.2 < FSSIZE) : (command b).addr = (b.addr.1 % 2, b.addr.2) := by
  have sector : b.addr.2 * sectorPerBlock = b.addr.2 := Nat.mul_one _
  have low : b.addr.2 &&& 0xff = b.addr.2 % 2 ^ 8 := Nat.and_two_pow_sub_one_eq_mod _ 8
  have middle : (b.addr.2 >>> 8) &&& 0xff = b.addr.2 / 2 ^ 8 % 2 ^ 8 := by
    rw [Nat.shiftRight_eq_div_pow]
    exact Nat.and_two_pow_sub_one_eq_mod _ 8
  have high : (b.addr.2 >>> 16) &&& 0xff = b.addr.2 / 2 ^ 16 % 2 ^ 8 := by
    rw [Nat.shiftRight_eq_div_pow]
    exact Nat.and_two_pow_sub_one_eq_mod _ 8
  have top : (b.addr.2 >>> 24) &&& 0x0f = 0 := by
    rw [Nat.shiftRight_eq_div_pow, Nat.div_eq_of_lt (Nat.lt_trans inside (by decide))]
    rfl
  simp only [command, Command.addr, sector, low, middle, high, top, and_one_shift, and_one_head]
  unfold FSSIZE at inside
  congr 1
  omega

def Completion.result (c : Completion ι β) : Buf ι β :=
  { c.request with
    valid := true, dirty := false
    data := if c.request.dirty then c.request.data else c.before (command c.request).addr }

def Outstanding (b : Buf ι β) : Prop := ¬ (b.valid = true ∧ ¬ b.dirty = true)

def Untouched (completions : List (Completion ι β)) (a : Addr) : Prop :=
  ∀ d ∈ completions, d.request.dirty = true → (command d.request).addr ≠ a

def Done (completions : List (Completion ι β)) (disk : Addr → β) (k : Fin NBUF) (r b : Buf ι β) : Prop :=
  ∃ earlier c since, completions = earlier ++ c :: since ∧ c.buffer = k ∧ c.request = r ∧ b = c.result ∧
    c.after = (command r).perform c.before ∧ r.addr.2 < FSSIZE ∧
    ∀ a, Untouched since a → disk a = c.after a

/-- The drive has finished the command for `k`, unknown to the kernel. -/
def Finished (s : State ι β) (k : Fin NBUF) : Prop :=
  s.device.busy = none ∧ s.device.interrupt = true ∧ s.device.error = false ∧
    ∃ earlier c, s.completions = earlier ++ [c] ∧ c.buffer = k ∧ c.request = s.buf k ∧
      c.after = (command c.request).perform c.before ∧ s.disk = c.after ∧
      (c.request.dirty = false → s.device.data = c.before (command c.request).addr)

/-- The drive works on the head of the queue and on nothing else. -/
def Serving (s : State ι β) : List (Fin NBUF) → Prop
  | [] => s.device.busy = none ∧ s.device.interrupt = false
  | k :: _ => (s.buf k).addr.2 < FSSIZE ∧
      ((s.device.busy = some (command (s.buf k)) ∧ s.device.interrupt = false) ∨ Finished s k)

/-- What a process inside `iderw` knows. -/
def InCall (s : State ι β) (q : List (Fin NBUF)) (i : ι) : Pc ι β → Prop
  | .user => True
  | .enter k r => (s.buf k).owner = some i ∧ k ∉ q ∧ s.buf k = r ∧ Outstanding r
  | .wait k r => (s.buf k).owner = some i ∧ r.owner = some i ∧ Outstanding r ∧
      ((k ∈ q ∧ s.buf k = r) ∨ (k ∉ q ∧ Done s.completions s.disk k r (s.buf k)))

structure Inv (s : State ι β) (q : List (Fin NBUF)) : Prop where
  queue : s.queue.Holds q
  nodup : q.Nodup
  requests : s.requests = s.completed ++ q
  started : s.started = s.completed ++ q.take 1
  completions : s.completions.map (·.buffer) = s.completed ++ if s.device.interrupt then q.take 1 else []
  serving : Serving s q
  waiter : ∀ k ∈ q, ∃ i r, (s.procs i).pc = .wait k r
  inCall : ∀ i, InCall s q i (s.procs i).pc
  asleep : ∀ i k, (s.procs i).SleepsOn k → k ∈ q
  returned : ∀ r ∈ s.returned, r.request.owner = some r.proc ∧ Outstanding r.request ∧
    Done r.completions r.disk r.buffer r.request r.result

theorem Initial.inv {s : State ι β} (start : Initial s) : Inv s [] where
  queue := start.head
  nodup := nodup_nil
  requests := by rw [start.requests, start.completed]; rfl
  started := by rw [start.started, start.completed]; rfl
  completions := by rw [start.completions, start.completed, start.interrupt]; rfl
  serving := ⟨start.busy, start.interrupt⟩
  waiter := fun k found => absurd found not_mem_nil
  inCall := fun i => by rw [start.user i]; trivial
  asleep := fun i k asleep => absurd asleep (start.awake i k)
  returned := fun r found => by rw [start.returned] at found; exact absurd found not_mem_nil

variable {completions : List (Completion ι β)}

section Steps
variable {s t : State ι β} {q : List (Fin NBUF)}

theorem Inv.length_lt (inv : Inv s q) : q.length < NBUF + 1 :=
  Nat.lt_succ_of_le (by simpa using inv.nodup.length_le_card)

theorem Inv.still (inv : Inv s q) {procs : ι → Proc (Fin NBUF) (Pc ι β)}
    (pc : ∀ i, (procs i).pc = (s.procs i).pc)
    (asleep : ∀ i k, (procs i).SleepsOn k → k ∈ q) : Inv { s with procs := procs } q where
  queue := inv.queue
  nodup := inv.nodup
  requests := inv.requests
  started := inv.started
  completions := inv.completions
  serving := by
    have serving := inv.serving
    cases q <;> exact serving
  waiter := fun k found => by
    obtain ⟨i, r, here⟩ := inv.waiter k found
    exact ⟨i, r, (pc i).trans here⟩
  inCall := fun i => by
    have here := inv.inCall i
    dsimp only
    rw [pc i]
    cases found : (s.procs i).pc <;> rw [found] at here <;> exact here
  asleep := asleep
  returned := inv.returned

variable {i : ι}

theorem InCall.frame {pc : Pc ι β} (here : InCall s q i pc)
    (buf : ∀ k r, pc = .enter k r ∨ pc = .wait k r → t.buf k = s.buf k)
    (completions : t.completions = s.completions) (disk : t.disk = s.disk) : InCall t q i pc := by
  cases pc with
  | user => trivial
  | enter k r =>
    simp only [InCall] at here ⊢
    rw [buf k r (.inl rfl)]
    exact here
  | wait k r =>
    simp only [InCall] at here ⊢
    rw [buf k r (.inr rfl), completions, disk]
    exact here

variable {k : Fin NBUF}

theorem Inv.unused (inv : Inv s q)
    (idle : ∀ i, (s.buf k).owner = some i → (s.procs i).pc = .user) :
    k ∉ q ∧ ∀ i r, ¬ ((s.procs i).pc = .enter k r ∨ (s.procs i).pc = .wait k r) := by
  have nobody : ∀ i r, ¬ ((s.procs i).pc = .enter k r ∨ (s.procs i).pc = .wait k r) := by
    intro i r inside
    have here := inv.inCall i
    have owner : (s.buf k).owner = some i := by
      rcases inside with found | found <;> rw [found] at here <;> exact here.1
    rw [idle i owner] at inside
    rcases inside with found | found <;> cases found
  refine ⟨fun queued => ?_, nobody⟩
  obtain ⟨i, r, found⟩ := inv.waiter k queued
  exact nobody i r (.inr found)

theorem Inv.change [DecidableEq ι] (inv : Inv s q) (b : Buf ι β)
    (idle : ∀ i, (s.buf k).owner = some i → (s.procs i).pc = .user) :
    Inv { s with buf := update s.buf k b } q := by
  obtain ⟨away, nobody⟩ := inv.unused idle
  refine ⟨inv.queue, inv.nodup, inv.requests, inv.started, inv.completions, ?_, inv.waiter, fun i => ?_,
    inv.asleep, inv.returned⟩
  · have serving := inv.serving
    cases q with
    | nil => exact serving
    | cons j rest =>
      have other : j ≠ k := fun same => away (same ▸ mem_cons_self)
      simp only [Serving, Finished, update_of_ne other] at serving ⊢
      exact serving
  · refine (inv.inCall i).frame (fun j r inside => ?_) rfl rfl
    rcases eq_or_ne j k with rfl | other
    · exact absurd inside (nobody i r)
    · exact update_of_ne other _ _

theorem idestart_ok (ok : idestart s (some k) = .ok t) :
    (s.buf k).addr.2 < FSSIZE ∧
      t = { s with device := { s.device with busy := some (command (s.buf k)) }, started := s.started ++ [k] } := by
  simp only [idestart] at ok
  split at ok
  next => cases ok
  next inside =>
    cases waited : idewait s.device false with
    | error e =>
      rw [waited] at ok
      cases ok
    | ok r =>
      rw [waited] at ok
      cases ok
      exact ⟨Nat.lt_of_not_le inside, rfl⟩

theorem enqueue_ok (inv : Inv s q) (fresh : k ∉ q) (ok : enqueue s k = .ok t) :
    ∃ queue : LinkedQueue (Fin NBUF), queue.Holds (q ++ [k]) ∧ (q = [] → (s.buf k).addr.2 < FSSIZE) ∧
      t = { s with
        queue := queue
        requests := s.requests ++ [k]
        device := if q = [] then { s.device with busy := some (command (s.buf k)) } else s.device
        started := if q = [] then s.started ++ [k] else s.started } := by
  obtain ⟨queue, appended, holds⟩ := inv.queue.append inv.nodup fresh inv.length_lt
  refine ⟨queue, holds, ?_⟩
  simp only [enqueue, appended] at ok
  cases q with
  | nil =>
    have head : queue.head = some k := holds.1
    rw [if_pos head] at ok
    obtain ⟨inside, rfl⟩ := idestart_ok ok
    exact ⟨fun _ => inside, rfl⟩
  | cons j rest =>
    have head : queue.head = some j := holds.1
    have other : some j ≠ some k := fun same => fresh (some.inj same ▸ mem_cons_self)
    rw [head, if_neg other] at ok
    cases ok
    exact ⟨nofun, rfl⟩

theorem finished_of_finished (ended : Finished s k) :
    ∃ earlier c, s.completions = earlier ++ [c] ∧ c.buffer = k ∧ c.request = s.buf k ∧
      c.after = (command c.request).perform c.before ∧ s.disk = c.after ∧
      finished (s.buf k) s.device = .ok c.result := by
  obtain ⟨busy, -, error, earlier, c, listed, buffer, request, after, disk, data⟩ := ended
  refine ⟨earlier, c, listed, buffer, request, after, disk, ?_⟩
  have waited : idewait s.device true = .ok 0 := by simp [idewait, busy, error]; rfl
  rw [finished, Completion.result, ← request]
  cases dirty : c.request.dirty with
  | true => rfl
  | false =>
    rw [waited, ← data dirty]
    rfl

variable {rest : List (Fin NBUF)}

theorem Inv.finished_of_due (inv : Inv s (k :: rest)) (due : s.device.interrupt = true) : Finished s k := by
  rcases inv.serving.2 with ⟨-, quiet⟩ | ended
  · rw [quiet] at due
    cases due
  · exact ended

theorem ideintr_ok (inv : Inv s (k :: rest)) (ended : Finished s k)
    (ok : ideintr s = .ok t) :
    ∃ earlier c, s.completions = earlier ++ [c] ∧ c.buffer = k ∧ c.request = s.buf k ∧
      c.after = (command c.request).perform c.before ∧ s.disk = c.after ∧
      (∀ j ∈ rest.head?, (update s.buf k c.result j).addr.2 < FSSIZE) ∧
      t = { s with
        queue := { s.queue with head := s.queue.next k }
        buf := update s.buf k c.result
        device := { s.device with
          interrupt := false, busy := rest.head?.map fun j => command (update s.buf k c.result j) }
        procs := wakeup s.procs k
        completed := s.completed ++ [k]
        started := s.started ++ rest.take 1 } := by
  obtain ⟨earlier, c, listed, buffer, request, after, disk, result⟩ := finished_of_finished ended
  refine ⟨earlier, c, listed, buffer, request, after, disk, ?_⟩
  have head : s.queue.head = some k := inv.queue.1
  simp only [ideintr, head, result] at ok
  change (if s.queue.next k = none then _ else _) = _ at ok
  cases rest with
  | nil =>
    have last : s.queue.next k = none := inv.queue.2
    rw [if_pos last] at ok
    cases ok
    have idle := ended.1
    refine ⟨nofun, ?_⟩
    simp only [take_nil, append_nil, List.head?_nil, map_none, ← idle]
  | cons j rest =>
    have next : s.queue.next k = some j := inv.queue.2.1
    rw [next, if_neg (some_ne_none j)] at ok
    obtain ⟨inside, rfl⟩ := idestart_ok ok
    refine ⟨fun i here => ?_, by rw [next]; rfl⟩
    cases here
    exact inside

variable {disk : Addr → β} {r b : Buf ι β}

theorem Done.extend
    (done : Done completions disk k r b) (d : Completion ι β) (before : d.before = disk)
    (after : d.after = (command d.request).perform d.before) : Done (completions ++ [d]) d.after k r b := by
  obtain ⟨earlier, c, since, listed, buffer, request, result, effect, inside, kept⟩ := done
  refine ⟨earlier, c, since ++ [d], by rw [listed]; simp, buffer, request, result, effect, inside, ?_⟩
  intro a untouched
  have earlierOnes : Untouched since a := fun e found => untouched e (mem_append_left _ found)
  have last := untouched d (mem_append_right _ (mem_singleton_self d))
  rw [← kept a earlierOnes, after, before]
  unfold Command.perform
  cases dirty : d.request.dirty with
  | true =>
    have write : (command d.request).write = some d.request.data := by simp [command, dirty]
    rw [write]
    exact update_of_ne (Ne.symm (last dirty)) _ _
  | false =>
    have read : (command d.request).write = none := by simp [command, dirty]
    rw [read]

theorem Inv.finish (inv : Inv s q) {c : Command β} (busy : s.device.busy = some c) :
    Inv (finish s c false) q := by
  cases q with
  | nil =>
    have idle := inv.serving.1
    rw [busy] at idle
    cases idle
  | cons k rest =>
    have head : s.queue.head = some k := inv.queue.1
    obtain ⟨inside, ⟨current, interrupt⟩ | ended⟩ := inv.serving
    · have same : c = command (s.buf k) := some.inj (busy.symm.trans current)
      let d : Completion ι β := ⟨k, s.buf k, s.disk, c.perform s.disk⟩
      have listed : (Ide.finish s c false).completions = s.completions ++ [d] := by
        simp [Ide.finish, head, d]
      have effect : d.after = (command d.request).perform d.before := by rw [← same]
      refine ⟨inv.queue, inv.nodup, inv.requests, inv.started, ?_, ⟨inside, .inr ?_⟩, inv.waiter, fun i => ?_,
        inv.asleep, inv.returned⟩
      · have old := inv.completions
        rw [interrupt] at old
        rw [listed, map_append, old]
        simp [d, Ide.finish]
      · refine ⟨rfl, rfl, rfl, s.completions, d, listed, rfl, rfl, effect, rfl, fun clean => ?_⟩
        have read : (command (s.buf k)).write = none := by
          simp [command, show (s.buf k).dirty = false from clean]
        simp [Ide.finish, read, d, same]
      · have here := inv.inCall i
        change InCall _ _ i (s.procs i).pc
        cases pc : (s.procs i).pc with
        | user => trivial
        | enter j r =>
          rw [pc] at here
          exact here
        | wait j r =>
          rw [pc] at here
          refine ⟨here.1, here.2.1, here.2.2.1, here.2.2.2.imp_right fun waited => ⟨waited.1, ?_⟩⟩
          rw [listed]
          exact waited.2.extend d rfl effect
    · rw [ended.1] at busy
      cases busy

theorem Inv.ideintr (inv : Inv s (k :: rest)) (ended : Finished s k)
    (ok : ideintr s = .ok t) : Inv t rest := by
  obtain ⟨earlier, c, listed, buffer, request, effect, disk, inside, rfl⟩ := ideintr_ok inv ended ok
  have once : k ∉ rest := (nodup_cons.mp inv.nodup).1
  refine ⟨inv.queue.2, (nodup_cons.mp inv.nodup).2, ?_, ?_, ?_, ?_, fun j queued => ?_, fun i => ?_,
    fun i j asleep => ?_, inv.returned⟩
  · rw [inv.requests]
    simp
  · rw [inv.started]
    simp
  · have old := inv.completions
    rw [ended.2.1] at old
    simpa using old
  · cases rest with
    | nil => exact ⟨rfl, rfl⟩
    | cons j rest => exact ⟨inside j rfl, .inl ⟨rfl, rfl⟩⟩
  · obtain ⟨i, r, here⟩ := inv.waiter j (mem_cons_of_mem _ queued)
    exact ⟨i, r, (wakeup_pc _ _ _).trans here⟩
  · have here := inv.inCall i
    rw [show ((wakeup s.procs k) i).pc = (s.procs i).pc from wakeup_pc _ _ _]
    cases pc : (s.procs i).pc with
    | user => trivial
    | enter j r =>
      rw [pc] at here
      obtain ⟨owner, away, same, needs⟩ := here
      simp only [mem_cons, not_or] at away
      have other : update s.buf k c.result j = s.buf j := update_of_ne away.1 _ _
      simp only [InCall, other]
      exact ⟨owner, away.2, same, needs⟩
    | wait j r =>
      rw [pc] at here
      obtain ⟨owner, asked, needs, waiting⟩ := here
      rcases eq_or_ne j k with rfl | apart
      · -- the request that has just been completed
        have same : s.buf j = r := by
          rcases waiting with ⟨-, same⟩ | ⟨away, -⟩
          · exact same
          · exact absurd mem_cons_self away
        rw [same] at request
        simp only [InCall, update_self]
        refine ⟨?_, asked, needs, .inr ⟨once, earlier, c, [], listed, buffer, request, rfl, ?_, ?_, ?_⟩⟩
        · rw [Completion.result, request]
          exact asked
        · rw [← request]
          exact effect
        · have first := inv.serving.1
          rw [same] at first
          exact first
        · intro a _
          exact congrFun disk a
      · have other : update s.buf k c.result j = s.buf j := update_of_ne apart _ _
        simp only [mem_cons, apart, false_or] at waiting
        simp only [InCall, other]
        exact ⟨owner, asked, needs, waiting⟩
  · rw [wakeup_sleepsOn] at asleep
    have queued := inv.asleep i j asleep.1
    simp only [mem_cons, asleep.2, false_or] at queued
    exact queued

theorem Inv.jump [DecidableEq ι] (inv : Inv s q) (i : ι) (pc : Pc ι β) (waits : ∀ j r, (s.procs i).pc = .wait j r → j ∉ q)
    (mine : InCall s q i pc) : Inv { s with procs := jump s.procs i pc } q := by
  refine ⟨inv.queue, inv.nodup, inv.requests, inv.started, inv.completions, ?_, fun j queued => ?_, fun j => ?_,
    fun j l asleep => inv.asleep j l ((jump_sleepsOn _ _ _ _ _).mp asleep), inv.returned⟩
  · have serving := inv.serving
    cases q <;> exact serving
  · obtain ⟨l, r, here⟩ := inv.waiter j queued
    have other : l ≠ i := fun same => waits j r (same ▸ here) queued
    refine ⟨l, r, ?_⟩
    dsimp only
    rw [jump_of_ne other]
    exact here
  · dsimp only
    rcases eq_or_ne j i with rfl | other
    · rw [jump_self_pc]
      exact mine.frame (fun _ _ _ => rfl) rfl rfl
    · rw [jump_of_ne other]
      exact (inv.inCall j).frame (fun _ _ _ => rfl) rfl rfl

theorem Inv.enter [DecidableEq ι] (inv : Inv s q) (user : (s.procs i).pc = .user)
    (owner : (s.buf k).owner = some i) (needs : Outstanding (s.buf k)) :
    Inv { s with procs := Proc.jump s.procs i (.enter k (s.buf k)) } q := by
  have idle : ∀ j, (s.buf k).owner = some j → (s.procs j).pc = .user := by
    intro j held
    rw [← some.inj (owner.symm.trans held)]
    exact user
  exact inv.jump i _ (fun _ _ waits => nomatch user.symm.trans waits) ⟨owner, (inv.unused idle).1, rfl, needs⟩

theorem Done.not_outstanding
    (done : Done completions disk k r b) : b.valid = true ∧ ¬ b.dirty = true := by
  obtain ⟨earlier, c, since, -, -, -, rfl, -⟩ := done
  exact ⟨rfl, Bool.false_ne_true⟩

variable [DecidableEq ι]

theorem Inv.enqueue (inv : Inv s q) (here : (s.procs i).pc = .enter k r)
    (ok : enqueue s k = .ok t) : Inv (iderwWait t i k r) (q ++ [k]) := by
  have call := inv.inCall i
  rw [here] at call
  obtain ⟨owner, away, rfl, needs⟩ := call
  obtain ⟨queue, holds, inside, rfl⟩ := enqueue_ok inv away ok
  rw [iderwWait, if_neg needs]
  have apart : ∀ j ∈ q, j ≠ k := fun j queued same => away (same ▸ queued)
  refine ⟨holds, ?_, ?_, ?_, ?_, ?_, fun j queued => ?_, fun j => ?_, fun j l asleep => ?_, inv.returned⟩
  · exact nodup_append.mpr ⟨inv.nodup, nodup_singleton k, fun j queued l single =>
      mem_singleton.mp single ▸ apart j queued⟩
  · rw [inv.requests, append_assoc]
  · dsimp only
    cases q with
    | nil => rw [if_pos rfl, inv.started]; simp
    | cons j rest => rw [if_neg nofun, inv.started]; simp
  · have old := inv.completions
    cases q with
    | nil =>
      rw [inv.serving.2] at old
      simpa [inv.serving.2] using old
    | cons j rest => simpa using old
  · cases q with
    | nil => exact ⟨inside rfl, .inl ⟨rfl, inv.serving.2⟩⟩
    | cons j rest => exact inv.serving
  · dsimp only
    simp only [mem_append, mem_singleton] at queued
    rcases queued with queued | rfl
    · obtain ⟨l, r, found⟩ := inv.waiter j queued
      have other : l ≠ i := fun same => by rw [same, here] at found; cases found
      exact ⟨l, r, by rw [sleep_of_ne other]; exact found⟩
    · exact ⟨i, s.buf j, sleep_self_pc _ _ _ _⟩
  · dsimp only
    rcases eq_or_ne j i with rfl | other
    · rw [sleep_self_pc]
      exact ⟨owner, owner, needs, .inl ⟨mem_append_right _ (mem_singleton_self k), rfl⟩⟩
    · rw [sleep_of_ne other]
      have old := inv.inCall j
      -- the others are in calls for other buffers
      cases pc : (s.procs j).pc with
      | user => trivial
      | enter l r =>
        rw [pc] at old
        have different : l ≠ k := by
          rintro rfl
          exact other (some.inj (old.1.symm.trans owner))
        refine ⟨old.1, fun queued => ?_, old.2.2⟩
        simp only [mem_append, mem_singleton, different, or_false] at queued
        exact old.2.1 queued
      | wait l r =>
        rw [pc] at old
        have different : l ≠ k := by
          rintro rfl
          exact other (some.inj (old.1.symm.trans owner))
        have members : l ∈ q ++ [k] ↔ l ∈ q := by
          simp only [mem_append, mem_singleton, different, or_false]
        simp only [InCall, members]
        exact old
  · dsimp only at asleep
    rcases eq_or_ne j i with rfl | other
    · rw [sleep_self_sleepsOn] at asleep
      rw [asleep]
      exact mem_append_right _ (mem_singleton_self _)
    · rw [sleep_of_ne other] at asleep
      exact mem_append_left _ (inv.asleep j l asleep)

theorem Inv.wait (inv : Inv s q) (here : (s.procs i).pc = .wait k r) :
    Inv (iderwWait s i k r) q := by
  have call := inv.inCall i
  rw [here] at call
  obtain ⟨owner, asked, needs, waiting⟩ := call
  unfold iderwWait
  split
  next ended =>
    obtain ⟨away, done⟩ : k ∉ q ∧ Done s.completions s.disk k r (s.buf k) := by
      rcases waiting with ⟨-, same⟩ | waited
      · rw [same] at ended
        exact absurd ended needs
      · exact waited
    have went := inv.jump i .user (fun j r' waits queued => ?_) trivial
    · refine { went with returned := fun ret found => ?_ }
      simp only [mem_append, mem_singleton] at found
      rcases found with found | rfl
      · exact inv.returned ret found
      · exact ⟨asked, needs, done⟩
    · cases here.symm.trans waits
      exact away queued
  next more =>
    have queued : k ∈ q := by
      rcases waiting with ⟨queued, -⟩ | ⟨-, done⟩
      · exact queued
      · exact absurd done.not_outstanding more
    have pcs : ∀ j, (sleep s.procs i k (.wait k r) j).pc = (s.procs j).pc := by
      intro j
      rcases eq_or_ne j i with rfl | other
      · rw [sleep_self_pc, here]
      · rw [sleep_of_ne other]
    refine inv.still pcs fun j l asleep => ?_
    rcases eq_or_ne j i with rfl | other
    · rw [sleep_self_sleepsOn] at asleep
      exact asleep ▸ queued
    · rw [sleep_of_ne other] at asleep
      exact inv.asleep j l asleep

theorem iderwCheck_ok (ok : iderwCheck s i k = .ok ()) :
    (s.buf k).owner = some i ∧ Outstanding (s.buf k) := by
  unfold iderwCheck at ok
  by_cases owner : (s.buf k).owner = some i
  · by_cases ended : (s.buf k).valid = true ∧ ¬ (s.buf k).dirty = true
    · rw [if_neg (not_not.mpr owner), if_pos ended] at ok
      cases ok
    · exact ⟨owner, ended⟩
  · rw [if_pos owner] at ok
    cases ok

theorem Inv.step (inv : Inv s q) {l : Label ι β} (sound : l ≠ .finish true) (taken : step s l = some t) :
    ∃ q', Inv t q' := by
  cases l with
  | schedule i =>
    obtain ⟨-, ⟨⟩⟩ := ite_none_right_eq_some.mp taken
    exact ⟨q, inv.still (schedule_pc _ _) fun j k asleep => inv.asleep j k (sleepsOn_of_schedule _ _ _ _ asleep)⟩
  | yield i =>
    obtain ⟨-, ⟨⟩⟩ := ite_none_right_eq_some.mp taken
    exact ⟨q, inv.still (yield_pc _ _) fun j k asleep => inv.asleep j k (sleepsOn_of_yield _ _ _ _ asleep)⟩
  | kill i =>
    cases taken
    exact ⟨q, inv.still (kill_pc _ _) fun j k asleep => inv.asleep j k (sleepsOn_of_kill _ _ _ _ asleep)⟩
  | acquiresleep i k =>
    simp only [Ide.step] at taken
    split at taken
    next free =>
      cases taken
      exact ⟨q, inv.change _ fun j owner => by rw [free] at owner; cases owner⟩
    · cases taken
  | releasesleep i k =>
    simp only [Ide.step] at taken
    split at taken
    next user _ =>
      obtain ⟨held, ⟨⟩⟩ := ite_none_right_eq_some.mp taken
      exact ⟨q, inv.change _ fun j owner => some.inj (held.symm.trans owner) ▸ user⟩
    · cases taken
  | change i k valid dirty addr data =>
    simp only [Ide.step] at taken
    split at taken
    next user _ =>
      obtain ⟨held, ⟨⟩⟩ := ite_none_right_eq_some.mp taken
      refine ⟨q, inv.change _ fun j owner => ?_⟩
      rcases held with free | held
      · rw [free] at owner
        cases owner
      · exact some.inj (held.symm.trans owner) ▸ user
    · cases taken
  | iderw i k =>
    simp only [Ide.step] at taken
    split at taken
    next user _ =>
      obtain ⟨⟨⟩, checked, ⟨⟩⟩ := map_eq_some_iff.mp taken
      obtain ⟨owner, needs⟩ := iderwCheck_ok (ok_of_toOption checked)
      exact ⟨q, inv.enter user owner needs⟩
    · cases taken
  | go i =>
    obtain ⟨-, went⟩ := ite_none_right_eq_some.mp taken
    unfold go at went
    split at went
    · cases went
    next k r here =>
      obtain ⟨u, queued, ⟨⟩⟩ := map_eq_some_iff.mp went
      exact ⟨q ++ [k], inv.enqueue here (ok_of_toOption queued)⟩
    next k r here =>
      cases went
      exact ⟨q, inv.wait here⟩
  | finish error =>
    obtain ⟨c, busy, ⟨⟩⟩ := map_eq_some_iff.mp taken
    cases error with
    | true => exact absurd rfl sound
    | false => exact ⟨q, inv.finish busy⟩
  | ideintr =>
    obtain ⟨due, served⟩ := ite_none_right_eq_some.mp taken
    have ok := ok_of_toOption served
    cases q with
    | nil =>
      have head : s.queue.head = none := inv.queue
      simp only [Ide.ideintr, head] at ok
      cases ok
      have interrupt := inv.serving.2
      refine ⟨[], ?_⟩
      rw [show { s.device with interrupt := false } = s.device by rw [← interrupt]]
      exact inv
    | cons k rest =>
      have head : s.queue.head = some k := inv.queue.1
      rw [head] at due
      exact ⟨rest, inv.ideintr (inv.finished_of_due (by simpa using due)) ok⟩

end Steps

variable [DecidableEq ι]

theorem Initial.reaches {s t : State ι β} (start : Initial s) {ls : List (Label ι β)}
    (sound : .finish true ∉ ls) (reached : run step s ls = some t) : ∃ q, Inv t q := by
  have avoids : ∀ l ∈ ls, l ≠ .finish true := fun l found same => sound (same ▸ found)
  have along := along_of_mem step avoids s
  exact run_invariant_along step (fun s => ∃ q, Inv s q)
    (fun s l t here good taken => here.elim fun _ inv => inv.step good taken) ⟨[], start.inv⟩ along reached

/-- The request `r` read its block and left `b` with what the disk held then. -/
def Read (completions : List (Completion ι β)) (disk : Addr → β) (k : Fin NBUF) (r b : Buf ι β) : Prop :=
  b.valid = true ∧ ∃ earlier c since, completions = earlier ++ c :: since ∧ c.buffer = k ∧ c.request = r ∧
    b.data = c.before (r.addr.1 % 2, r.addr.2) ∧
    (Untouched since (r.addr.1 % 2, r.addr.2) → b.data = disk (r.addr.1 % 2, r.addr.2))

omit [DecidableEq ι] in
theorem Done.read {disk : Addr → β} {k : Fin NBUF} {r b : Buf ι β}
    (done : Done completions disk k r b) (clean : r.dirty = false) : Read completions disk k r b := by
  obtain ⟨earlier, c, since, listed, buffer, request, result, effect, inside, kept⟩ := done
  have addr := command_addr r inside
  have data : b.data = c.before (r.addr.1 % 2, r.addr.2) := by
    rw [result, Completion.result, request, clean, addr]
    rfl
  refine ⟨by rw [result]; rfl, earlier, c, since, listed, buffer, request, data, fun untouched => ?_⟩
  have unwritten : (command r).perform c.before = c.before := by
    unfold Command.perform command
    rw [clean]
    rfl
  rw [kept _ untouched, effect, unwritten, data]

/-- As long as the drive reports no error, a buffer that was read and is valid holds its block,
when its request is completed and when `iderw` returns. A buffer whose write failed is valid too
and its block an older one. -/
theorem valid_buffers_read {s t : State ι β} (start : Initial s) {ls : List (Label ι β)}
    (sound : .finish true ∉ ls) (reached : run step s ls = some t) :
    (∀ i k r, (t.procs i).pc = .wait k r → r.dirty = false → (t.buf k).valid = true →
      Read t.completions t.disk k r (t.buf k)) ∧
    ∀ r ∈ t.returned, r.request.dirty = false → Read r.completions r.disk r.buffer r.request r.result := by
  obtain ⟨q, inv⟩ := start.reaches sound reached
  constructor
  · intro i k r here clean valid
    have call := inv.inCall i
    rw [here] at call
    obtain ⟨-, -, outstanding, ⟨-, same⟩ | ⟨-, done⟩⟩ := call
    · rw [same] at valid
      exact absurd ⟨valid, by rw [clean]; decide⟩ outstanding
    · exact done.read clean
  · intro r found clean
    exact (inv.returned r found).2.2.read clean

def idle : State Unit Nat where
  buf := fun _ => ⟨false, false, (0, 0), 0, none, 0, false⟩
  queue := ⟨none, fun _ => none⟩
  havedisk1 := true
  device := ⟨none, false, false, 0⟩
  disk := fun a => a.2
  procs := fun _ => ⟨.running, none, false, .user⟩
  requests := []
  started := []
  completed := []
  completions := []
  returned := []

theorem idle_initial : Initial idle where
  head := rfl
  busy := rfl
  interrupt := rfl
  user := fun _ => rfl
  awake := fun _ _ => by simp [idle, SleepsOn]
  requests := rfl
  started := rfl
  completed := rfl
  completions := rfl
  returned := rfl

def readBlock : List (Label Unit Nat) :=
  [.acquiresleep () 3, .change () 3 false false (1, 45) 0, .ideintr, .iderw () 3, .go (), .finish false, .ideintr,
    .schedule (), .go ()]

theorem valid_buffers_readBlock : ∃ t, run step idle readBlock = some t ∧ t.returned ≠ [] ∧
    ∀ r ∈ t.returned, r.request.dirty = false → Read r.completions r.disk r.buffer r.request r.result := by
  have sound : .finish true ∉ readBlock := by simp [readBlock]
  have returned : (run step idle readBlock).map (fun t => t.returned.length) = some 1 := by decide +kernel
  obtain ⟨t, reached, one⟩ := map_eq_some_iff.mp returned
  refine ⟨t, reached, fun none => ?_, (valid_buffers_read idle_initial sound reached).2⟩
  rw [none] at one
  cases one

/-- The drive fails to read block 45: `iderw` returns a valid buffer with what was in it before. -/
theorem failed_read_returned :
    (run step idle [.acquiresleep () 3, .change () 3 false false (1, 45) 0, .iderw () 3, .go (), .finish true, .ideintr,
      .schedule (), .go ()]).map (fun t => t.returned.map fun r => (r.result.valid, r.result.data, r.disk (1, 45))) =
        some [(true, 0, 45)] := by
  decide +kernel

end Xv6.Ide
